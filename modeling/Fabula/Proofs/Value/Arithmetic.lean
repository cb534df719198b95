import Fabula.Operator
import Fabula.Proofs.Number.Rounding

/-! The arithmetic of integers. Sums, differences and products wrap around at sixty-four bits.
Division is towards zero and the remainder makes up the rest, also where the quotient wraps around;
only division by zero leaves the integers. -/

namespace Fabula

namespace Value

open Number

variable {x y : Int64}

theorem bmod_modEq (k : ℤ) : k.bmod (2 ^ 64) ≡ k [ZMOD 2 ^ 64] := Int.bmod_emod

/-- The remainder makes up for what the quotient leaves, even where the quotient wraps around. -/
theorem div_mul_add_mod (x y : Int64) : x / y * y + x % y = x := by
  have hdiv : x / y = Int64.ofInt (x.toInt.tdiv y.toInt) := by
    rw [eq_comm, Int64.ofInt_eq_iff_bmod_eq_toInt, Int64.toInt_div]
  have hmod : x % y = Int64.ofInt (x.toInt.tmod y.toInt) := by
    rw [← Int64.toInt_mod, Int64.ofInt_toInt]
  calc x / y * y + x % y
      = Int64.ofInt (x.toInt.tdiv y.toInt) * Int64.ofInt y.toInt +
          Int64.ofInt (x.toInt.tmod y.toInt) := by rw [hdiv, hmod, Int64.ofInt_toInt]
    _ = Int64.ofInt (x.toInt.tdiv y.toInt * y.toInt + x.toInt.tmod y.toInt) := by
        rw [Int64.ofInt_add, Int64.ofInt_mul]
    _ = x := by rw [Int.tdiv_mul_add_tmod, Int64.ofInt_toInt]

theorem natAbs_mod_lt (hy : y ≠ 0) : (x % y).toInt.natAbs < y.toInt.natAbs := by
  rw [Int64.toInt_mod, Int.natAbs_tmod]
  refine Nat.mod_lt _ (Int.natAbs_pos.mpr fun h => hy ?_)
  exact Int64.toInt_inj.mp h

theorem sign_mod (x y : Int64) : x % y = 0 ∨ (x % y).toInt.sign = x.toInt.sign := by
  rcases eq_or_ne (x % y) 0 with hzero | hne
  · exact .inl hzero
  · have hr : (x % y).toInt ≠ 0 := fun h => hne (Int64.toInt_inj.mp h)
    rw [Int64.toInt_mod] at hr ⊢
    right
    rcases lt_trichotomy x.toInt 0 with hneg | hzero | hpos
    · have hle := Int.tmod_nonneg y.toInt (Int.neg_nonneg_of_nonpos hneg.le)
      rw [Int.neg_tmod] at hle
      rw [Int.sign_eq_neg_one_of_neg hneg, Int.sign_eq_neg_one_of_neg (by omega)]
    · rw [hzero, Int.zero_tmod] at hr
      exact absurd rfl hr
    · have hge := Int.tmod_nonneg y.toInt hpos.le
      rw [Int.sign_eq_one_of_pos hpos, Int.sign_eq_one_of_pos (by omega)]

theorem toInt_div_of_fits (h : ¬(x = Int64.minValue ∧ y = -1)) :
    (x / y).toInt = x.toInt.tdiv y.toInt := by
  rcases eq_or_ne x Int64.minValue with hx | hx
  · exact Int64.toInt_div_of_ne_right x y fun hy => h ⟨hx, hy⟩
  · exact Int64.toInt_div_of_ne_left x y hx

theorem ofInteger_beq_zero : (ofInteger x == 0.0) = true ↔ x = 0 := by
  rw [beq_iff_worth (isFinite_ofInteger x) (by decide), worth_zero, ← compare_eq_iff_eq,
    compare_worth_ofInteger_zero, compare_eq_iff_eq]
  exact Int64.toInt_inj (y := 0)

theorem zero_lt_ofInteger : 0.0 < ofInteger x ↔ 0 < x := by
  have hpos : 0 < worth (ofInteger x) ↔ 0 < x.toInt := by
    rw [← compare_gt_iff_gt (a := worth _), compare_worth_ofInteger_zero, compare_gt_iff_gt]
  rw [lt_iff_worth (by decide) (isFinite_ofInteger x), worth_zero]
  exact hpos.trans (Int64.lt_iff_toInt_lt : (0 : Int64) < x ↔ _).symm

theorem overZero_ofInteger (x : Int64) :
    overZero (ofInteger x) =
      if x = 0 then notANumber else float (if 0 < x then infinity else -infinity) := by
  simp only [overZero, isNaN_of_isFinite (isFinite_ofInteger x), Bool.or_false, ofInteger_beq_zero,
    zero_lt_ofInteger, apply_ite float]

end Value

namespace Operator

open Value Number

/-- Integers are added, subtracted and multiplied modulo `2 ^ 64`. Quotient and remainder belong
together for every divisor but zero. Zero over zero is NaN, and any other integer over zero the
infinity with its sign. -/
theorem integers_wrap_around (heap : Heap) (x y : Int64) :
    (∃ sum difference product : Int64,
      add.applyBinary heap (integer x) (integer y) = integer sum ∧
      sum.toInt ≡ x.toInt + y.toInt [ZMOD 2 ^ 64] ∧
      subtract.applyBinary heap (integer x) (integer y) = integer difference ∧
      difference.toInt ≡ x.toInt - y.toInt [ZMOD 2 ^ 64] ∧
      multiply.applyBinary heap (integer x) (integer y) = integer product ∧
      product.toInt ≡ x.toInt * y.toInt [ZMOD 2 ^ 64]) ∧
    (y ≠ 0 → ∃ q r : Int64,
      divide.applyBinary heap (integer x) (integer y) = integer q ∧
      modulo.applyBinary heap (integer x) (integer y) = integer r ∧
      add.applyBinary heap (multiply.applyBinary heap (integer q) (integer y)) (integer r) =
        integer x ∧
      r.toInt.natAbs < y.toInt.natAbs ∧ (r = 0 ∨ r.toInt.sign = x.toInt.sign) ∧
      (¬(x = Int64.minValue ∧ y = -1) → q.toInt = x.toInt.tdiv y.toInt) ∧
      (x = Int64.minValue ∧ y = -1 → q = x ∧ r = 0)) ∧
    (y = 0 → ∀ op ∈ [divide, modulo], op.applyBinary heap (integer x) (integer y) =
      if x = 0 then notANumber else float (if 0 < x then infinity else -infinity)) := by
  refine ⟨⟨x + y, x - y, x * y, rfl, ?_, rfl, ?_, rfl, ?_⟩, fun hy => ?_, ?_⟩
  · rw [Int64.toInt_add]
    exact bmod_modEq _
  · rw [Int64.toInt_sub]
    exact bmod_modEq _
  · rw [Int64.toInt_mul]
    exact bmod_modEq _
  · refine ⟨x / y, x % y, if_neg hy, if_neg hy, congrArg integer (div_mul_add_mod x y),
      natAbs_mod_lt hy, sign_mod x y, toInt_div_of_fits, ?_⟩
    rintro ⟨rfl, rfl⟩
    decide
  · intro hy op hop
    rw [← overZero_ofInteger x]
    simp only [List.mem_cons, List.not_mem_nil, or_false] at hop
    rcases hop with rfl | rfl <;> exact if_pos hy

end Operator

namespace Sample

open Operator
open Value (integer float)
open Number (infinity)

/-- The least integer is its own quotient by minus one, and a negative integer over zero the
infinity below. -/
theorem least_over_minus_one :
    (divide.applyBinary .empty (integer Int64.minValue) (integer (-1)) = integer Int64.minValue ∧
      modulo.applyBinary .empty (integer Int64.minValue) (integer (-1)) = integer 0) ∧
    divide.applyBinary .empty (integer (-7)) (integer 0) = float (-infinity) := by
  obtain ⟨-, hdivide, -⟩ := integers_wrap_around .empty Int64.minValue (-1)
  obtain ⟨-, -, hzero⟩ := integers_wrap_around .empty (-7) 0
  obtain ⟨q, r, hq, hr, -, -, -, -, hwrap⟩ := hdivide (by decide)
  obtain ⟨rfl, rfl⟩ := hwrap ⟨rfl, rfl⟩
  exact ⟨⟨hq, hr⟩, hzero rfl divide (by decide)⟩

end Sample

end Fabula
