import Fabula.Operator
import Fabula.Proofs.Number.Rounding
import Fabula.Proofs.Value.Bisimilarity

/-! The comparisons of expressions. Two literals other than NaN have a common form, text or floats,
and the order of that form is total: it decides all six comparisons at once. Any other two values
have no order, and only equality is left. Integers have floats as their common form, so they are
compared as integers unless they differ and are rounded to the same float. -/

namespace Fabula

namespace Value

theorem orderFloats_eq (x y : Float) :
    orderFloats x y = x.toModel.unpack.compare y.toModel.unpack := by
  have hback : y < x ↔ x.toModel.unpack.compare y.toModel.unpack = some .gt := by
    rw [Number.lt_iff_compare, Number.unpacked_compare_swap]
    cases x.toModel.unpack.compare y.toModel.unpack with
    | none => decide
    | some o => cases o <;> decide
  simp only [orderFloats, Number.lt_iff_compare, Number.beq_iff_compare, hback]
  cases x.toModel.unpack.compare y.toModel.unpack with
  | none => rfl
  | some o => cases o <;> rfl

variable {heap : Heap} {a b : Value} {o : Ordering}

theorem isNaN_toFloat (hliteral : a.isLiteral = true) (htext : a.isString = false)
    (hnan : a.isNaN = false) : a.toFloat.isNaN = false := by
  cases a with
  | boolean b => cases b <;> decide +kernel
  | integer i => exact Number.isNaN_of_isFinite (Number.isFinite_ofInteger i)
  | float x => exact hnan
  | string => cases htext
  | _ => cases hliteral

theorem comparable_iff :
    comparable a b = true ↔
      a.isLiteral = true ∧ b.isLiteral = true ∧ a.isNaN = false ∧ b.isNaN = false := by
  simp [comparable, and_assoc]

theorem comparable_comm (a b : Value) : comparable b a = comparable a b := by
  rw [Bool.eq_iff_iff, comparable_iff, comparable_iff]
  tauto

theorem order?_eq_none (h : comparable a b = false) : order? heap a b = none := by
  simp [order?, h]

theorem exists_order? (heap : Heap) (h : comparable a b = true) :
    ∃ o, order? heap a b = some o := by
  obtain ⟨ha, hb, hna, hnb⟩ := comparable_iff.mp h
  cases htext : a.isString || b.isString with
  | true => exact ⟨_, by simp only [order?, h, htext]; rfl⟩
  | false =>
    obtain ⟨hta, htb⟩ := Bool.or_eq_false_iff.mp htext
    obtain ⟨o, ho⟩ := Number.exists_compare (isNaN_toFloat ha hta hna) (isNaN_toFloat hb htb hnb)
    exact ⟨o, by simp only [order?, h, htext, orderFloats_eq]; exact ho⟩

theorem order?_swap (heap : Heap) (a b : Value) :
    order? heap b a = (order? heap a b).map Ordering.swap := by
  simp only [order?, comparable_comm a b, Bool.or_comm b.isString, orderFloats_eq]
  split
  · rfl
  · split
    · exact congrArg some Std.OrientedOrd.eq_swap
    · exact Number.unpacked_compare_swap _ _

/-- Loose equality and the order convert in the same way. -/
theorem looselyEquals_of_order? (h : order? heap a b = some o) : looselyEquals heap a b = o.isEq := by
  unfold order? at h
  unfold looselyEquals
  split at h
  · cases h
  · next hcomparable =>
    rw [if_neg hcomparable]
    split at h
    · next htext =>
      obtain rfl := Option.some.inj h
      rw [if_pos htext, Bool.eq_iff_iff, beq_iff_eq, Ordering.isEq_iff_eq_eq,
        Std.LawfulEqOrd.compare_eq_iff_eq]
    · next htext =>
      rw [orderFloats_eq] at h
      rw [if_neg htext, Bool.eq_iff_iff, Number.beq_iff_compare, h, Option.some_inj,
        Ordering.isEq_iff_eq_eq]

theorem looselyEquals_comm (heap : Heap) (a b : Value) :
    looselyEquals heap b a = looselyEquals heap a b := by
  cases hc : comparable a b with
  | true =>
    obtain ⟨o, ho⟩ := exists_order? heap hc
    rw [looselyEquals_of_order? ho, looselyEquals_of_order? (o := o.swap)]
    · cases o <;> rfl
    · rw [order?_swap, ho]
      rfl
  | false =>
    have hc' := (comparable_comm a b).trans hc
    simp only [looselyEquals, hc, hc', Bool.not_false, if_true]
    rw [Bool.eq_iff_iff, equals_iff_bisimilar, equals_iff_bisimilar]
    exact ⟨Bisimilar.symm, Bisimilar.symm⟩

end Value

namespace Operator

open Value

variable {heap : Heap} {a b : Value} {o : Ordering}

structure Finds (heap : Heap) (a b : Value) (o : Ordering) : Prop where
  equal : equal.applyBinary heap a b = boolean (o = .eq)
  notEqual : notEqual.applyBinary heap a b = boolean (o ≠ .eq)
  less : less.applyBinary heap a b = boolean (o = .lt)
  lessOrEqual : lessOrEqual.applyBinary heap a b = boolean (o ≠ .gt)
  greater : greater.applyBinary heap a b = boolean (o = .gt)
  greaterOrEqual : greaterOrEqual.applyBinary heap a b = boolean (o ≠ .lt)

theorem finds_of_order? (h : order? heap a b = some o) : Finds heap a b o := by
  have hequal := looselyEquals_of_order? h
  constructor <;> simp only [applyBinary, ordered, hequal, h] <;> cases o <;> rfl

theorem Finds.unique {o' : Ordering} (h : Finds heap a b o) (h' : Finds heap a b o') : o = o' := by
  have hless := h.less.symm.trans h'.less
  have hequal := h.equal.symm.trans h'.equal
  cases o <;> cases o' <;> simp at hless hequal ⊢

theorem ordered_eq_false (h : comparable a b = false) (test : Ordering → Bool) :
    ordered heap test a b = boolean false := by
  rw [ordered, order?_eq_none h]
  rfl

theorem ordered_swap {test opposite : Ordering → Bool} (h : ∀ o : Ordering, test o.swap = opposite o)
    (heap : Heap) (a b : Value) : ordered heap test b a = ordered heap opposite a b := by
  have htest : test ∘ Ordering.swap = opposite := funext h
  rw [ordered, ordered, order?_swap, Option.map_map, htest]

/-- The comparisons fit together. Of two literals other than NaN, the first is less than the second,
equal to it or greater, and only one of these; any other two values are in no order. -/
theorem comparisons_cohere (heap : Heap) (a b : Value) :
    ((a.isLiteral = true ∧ b.isLiteral = true) ∧ ¬(a.isNaN = true ∨ b.isNaN = true) →
      ∃ lt eq gt : Bool, [lt, eq, gt].count true = 1 ∧
        less.applyBinary heap a b = boolean lt ∧
        equal.applyBinary heap a b = boolean eq ∧
        greater.applyBinary heap a b = boolean gt ∧
        lessOrEqual.applyBinary heap a b = boolean (lt || eq) ∧
        greaterOrEqual.applyBinary heap a b = boolean (gt || eq)) ∧
    (¬((a.isLiteral = true ∧ b.isLiteral = true) ∧ ¬(a.isNaN = true ∨ b.isNaN = true)) →
      ∀ op ∈ [less, lessOrEqual, greater, greaterOrEqual],
        op.applyBinary heap a b = boolean false) ∧
    (less.applyBinary heap b a = greater.applyBinary heap a b ∧
      greater.applyBinary heap b a = less.applyBinary heap a b ∧
      lessOrEqual.applyBinary heap b a = greaterOrEqual.applyBinary heap a b ∧
      greaterOrEqual.applyBinary heap b a = lessOrEqual.applyBinary heap a b ∧
      equal.applyBinary heap b a = equal.applyBinary heap a b) ∧
    ∃ eq same : Bool,
      equal.applyBinary heap a b = boolean eq ∧ notEqual.applyBinary heap a b = boolean !eq ∧
      strictEqual.applyBinary heap a b = boolean same ∧
      strictNotEqual.applyBinary heap a b = boolean !same := by
  have hcomparable : comparable a b = true ↔
      (a.isLiteral = true ∧ b.isLiteral = true) ∧ ¬(a.isNaN = true ∨ b.isNaN = true) := by
    rw [comparable_iff, not_or, Bool.not_eq_true, Bool.not_eq_true, and_assoc]
  rw [← hcomparable, Bool.not_eq_true]
  refine ⟨fun h => ?_, fun h op hop => ?_, ⟨?_, ?_, ?_, ?_, ?_⟩, _, _, rfl, rfl, rfl, rfl⟩
  · obtain ⟨o, ho⟩ := exists_order? heap h
    have hfinds := finds_of_order? ho
    refine ⟨_, _, _, ?_, hfinds.less, hfinds.equal, hfinds.greater, ?_, ?_⟩
    · cases o <;> decide
    · rw [hfinds.lessOrEqual]
      cases o <;> rfl
    · rw [hfinds.greaterOrEqual]
      cases o <;> rfl
  · simp only [List.mem_cons, List.not_mem_nil, or_false] at hop
    rcases hop with rfl | rfl | rfl | rfl <;> exact ordered_eq_false h _
  · exact ordered_swap (fun _ => Ordering.isLT_swap) heap a b
  · exact ordered_swap (fun _ => Ordering.isGT_swap) heap a b
  · exact ordered_swap (fun _ => Ordering.isLE_swap) heap a b
  · exact ordered_swap (fun _ => Ordering.isGE_swap) heap a b
  · exact congrArg boolean (looselyEquals_comm heap a b)

section Integers

open Number

theorem finds_integers (heap : Heap) (x y : Int64) :
    Finds heap (integer x) (integer y) (compare (worth (ofInteger x)) (worth (ofInteger y))) := by
  have hfloats : order? heap (integer x) (integer y) = orderFloats (ofInteger x) (ofInteger y) := by
    simp [order?, comparable, isLiteral, Value.isNaN, isString, toFloat]
  apply finds_of_order?
  rw [hfloats, orderFloats_eq, compare_worth (isFinite_ofInteger x) (isFinite_ofInteger y)]

variable {x y : Int64}

theorem worth_ofInteger_mono (h : x < y) : worth (ofInteger x) ≤ worth (ofInteger y) :=
  (nearest_ofInteger x).mono (nearest_ofInteger y) (isFinite_ofInteger x) (isFinite_ofInteger y)
    (by exact_mod_cast Int64.lt_iff_toInt_lt.mp h)

/-- Rounding keeps the order of two integers unless it makes them one. -/
theorem compare_worth_ofInteger :
    compare (worth (ofInteger x)) (worth (ofInteger y)) = compare x.toInt y.toInt ↔
      (worth (ofInteger x) = worth (ofInteger y) → x = y) := by
  constructor
  · intro h heq
    rw [compare_eq_iff_eq.mpr heq] at h
    exact Int64.toInt_inj.mp (compare_eq_iff_eq.mp h.symm)
  · intro h
    rcases lt_trichotomy x.toInt y.toInt with hlt | heq | hgt
    · rw [compare_lt_iff_lt.mpr hlt, compare_lt_iff_lt]
      refine lt_of_le_of_ne (worth_ofInteger_mono (Int64.lt_iff_toInt_lt.mpr hlt)) fun he => ?_
      exact hlt.ne (congrArg Int64.toInt (h he))
    · obtain rfl := Int64.toInt_inj.mp heq
      rw [compare_eq_iff_eq.mpr rfl, compare_eq_iff_eq.mpr rfl]
    · rw [compare_gt_iff_gt.mpr hgt, compare_gt_iff_gt]
      refine lt_of_le_of_ne (worth_ofInteger_mono (Int64.lt_iff_toInt_lt.mpr hgt)) fun he => ?_
      exact hgt.ne' (congrArg Int64.toInt (h he.symm))

/-- Integers are compared as the floats nearest to them. They are found in their own order exactly if
they are not two integers with one float; up to `2 ^ 53` no two have. -/
theorem integers_compared_rounded (heap : Heap) (x y : Int64) :
    Nearest x.toInt (ofInteger x) ∧ Nearest y.toInt (ofInteger y) ∧
    (x < y → worth (ofInteger x) ≤ worth (ofInteger y)) ∧
    Finds heap (integer x) (integer y) (compare (worth (ofInteger x)) (worth (ofInteger y))) ∧
    (Finds heap (integer x) (integer y) (compare x.toInt y.toInt) ↔
      (worth (ofInteger x) = worth (ofInteger y) → x = y)) ∧
    (x.toInt.natAbs ≤ 2 ^ 53 → y.toInt.natAbs ≤ 2 ^ 53 →
      Finds heap (integer x) (integer y) (compare x.toInt y.toInt)) := by
  have hfinds := finds_integers heap x y
  have hiff : Finds heap (integer x) (integer y) (compare x.toInt y.toInt) ↔
      (worth (ofInteger x) = worth (ofInteger y) → x = y) := by
    rw [← compare_worth_ofInteger]
    exact ⟨hfinds.unique, fun h => h ▸ hfinds⟩
  refine ⟨nearest_ofInteger x, nearest_ofInteger y, worth_ofInteger_mono, hfinds, hiff,
    fun hx hy => hiff.mpr fun h => ?_⟩
  rw [worth_ofInteger hx, worth_ofInteger hy] at h
  exact Int64.toInt_inj.mp (by exact_mod_cast h)

end Integers

end Operator

namespace Sample

open Operator Value

/-- Text makes a comparison one of texts, where ten comes before nine; lists are in no order, even
with themselves, but equal. -/
theorem ten_before_nine :
    (less.applyBinary loops (string "10") (integer 9) = boolean true ∧
      greater.applyBinary loops (integer 9) (string "10") = boolean true ∧
      equal.applyBinary loops (string "10") (integer 9) = boolean false) ∧
    less.applyBinary loops (list 0) (list 0) = boolean false ∧
    notEqual.applyBinary loops (list 0) (list 0) = boolean false := by
  have htext := comparisons_cohere loops (string "10") (integer 9)
  have hlist := comparisons_cohere loops (list 0) (list 0)
  have hless : less.applyBinary loops (string "10") (integer 9) = boolean true := by decide +kernel
  obtain ⟨hliterals, -, ⟨-, hswap, -⟩, -⟩ := htext
  obtain ⟨-, hnone, -, eq, -, hequal, hnot, -⟩ := hlist
  obtain ⟨lt, eq', gt, hcount, hlt, heq, -⟩ := hliterals (by decide)
  refine ⟨⟨hless, hswap.trans hless, ?_⟩, hnone (by decide) less (by decide), ?_⟩
  · obtain rfl : lt = true := by rw [hlt] at hless; exact Value.boolean.inj hless
    rw [heq]
    cases eq' <;> cases gt <;> simp at hcount ⊢
  · rw [hnot]
    have hsame : equal.applyBinary loops (list 0) (list 0) = boolean true := by decide +kernel
    rw [hequal] at hsame
    rw [Value.boolean.inj hsame]
    rfl

/-- Past `2 ^ 53` two integers in a row can be found to be equal. -/
theorem neighbours_found_equal :
    Finds loops (integer 9007199254740992) (integer 9007199254740993) .eq ∧
    ¬Finds loops (integer 9007199254740992) (integer 9007199254740993) .lt ∧
    Finds loops (integer (-9007199254740992)) (integer 9007199254740992) .lt := by
  obtain ⟨-, -, -, hfinds, hown, -⟩ :=
    integers_compared_rounded loops 9007199254740992 9007199254740993
  have hworth : Number.worth (Number.ofInteger 9007199254740992) =
      Number.worth (Number.ofInteger 9007199254740993) :=
    congrArg Number.worth (by decide +kernel)
  refine ⟨?_, fun hlt => ?_, ?_⟩
  · rwa [compare_eq_iff_eq.mpr hworth] at hfinds
  · exact absurd (hown.mp hlt hworth) (by decide)
  · obtain ⟨-, -, -, -, -, hsmall⟩ :=
      integers_compared_rounded loops (-9007199254740992) 9007199254740992
    exact hsmall (by decide) (by decide)

end Sample

end Fabula
