import Fabula.Operator
import Fabula.Proofs.Number.Rounding

/-! The power of integers. It is computed exactly while it is in range. Past the range the power of
the floats nearest to base and exponent is taken instead and truncated, which gives the end of the
range on its side. That is the side of the exact power unless rounding the exponent changes its
parity: past `2 ^ 53` all floats are even, so there an odd exponent loses the sign of the base. -/

namespace Fabula

namespace Number

/-- Whole powers of whole numbers are correctly rounded. -/
def RoundsPowers (pow : Float → Float → Float) : Prop :=
  ∀ (a b : Float) (k : ℤ) (n : ℕ), a.isFinite = true → worth a = k → b.isFinite = true →
    worth b = n → Nearest ((k ^ n : ℤ) : ℚ) (pow a b)

/-- What is kept of an integer `i` that becomes the float `k`: everything up to `2 ^ 53`, and past
that the sign. -/
structure Rounded (i k : ℤ) : Prop where
  small : i.natAbs ≤ 2 ^ 53 → k = i
  large : 2 ^ 53 < i.natAbs → 2 ^ 53 ≤ k.natAbs ∧ Even k
  sign : k < 0 ↔ i < 0

theorem exists_rounded (i : Int64) : ∃ k : ℤ, worth (ofInteger i) = k ∧ Rounded i.toInt k := by
  have hsign : worth (ofInteger i) < 0 ↔ i.toInt < 0 := by
    rw [← compare_lt_iff_lt, compare_worth_ofInteger_zero, compare_lt_iff_lt]
  rcases Nat.lt_or_ge (2 ^ 53) i.toInt.natAbs with hlarge | hsmall
  · have hfar : 2 ^ (52 + 1) ≤ |worth (ofInteger i)| := by
      have hnear := nearest_ofInteger i
      rcases lt_or_ge i.toInt 0 with hneg | hpos
      · have hle := hnear.worth_le_neg_two_pow (k := 53) (isFinite_ofInteger i) (by omega)
          (by exact_mod_cast (show i.toInt ≤ -2 ^ 53 by omega))
        exact (le_neg_of_le_neg hle).trans (neg_le_abs _)
      · have hle := hnear.two_pow_le_worth (k := 53) (isFinite_ofInteger i) (by omega)
          (by exact_mod_cast (show 2 ^ 53 ≤ i.toInt by omega))
        exact hle.trans (le_abs_self _)
    obtain ⟨j, hj⟩ := exists_multiple hfar
    have hworth : worth (ofInteger i) = (j * 2 : ℤ) := by
      rw [hj, pow_one, Int.cast_mul, Int.cast_ofNat]
    rw [hworth] at hfar hsign
    refine ⟨j * 2, hworth, fun hle => by omega, fun _ => ⟨?_, even_two.mul_left j⟩, ?_⟩
    · rw [← Int.cast_abs, Int.abs_eq_natAbs] at hfar
      exact_mod_cast hfar
    · exact_mod_cast hsign
  · exact ⟨i.toInt, worth_ofInteger hsmall, fun _ => rfl, fun hlt => by omega, Iff.rfl⟩

end Number

namespace Value

open Number

variable {pow : Float → Float → Float} {x y : Int64} {k l : ℤ} {n m : ℕ}

/-- The base is negative, and the exponent an odd number that is no float. -/
def LosesSign (k : ℤ) (n : ℕ) : Prop := k < 0 ∧ Odd n ∧ 2 ^ 53 < n

instance (k : ℤ) (n : ℕ) : Decidable (LosesSign k n) := inferInstanceAs (Decidable (_ ∧ _ ∧ _))

def signedPower (k : ℤ) (n : ℕ) : ℤ := if LosesSign k n then -(k ^ n) else k ^ n

theorem natAbs_signedPower (k : ℤ) (n : ℕ) : (signedPower k n).natAbs = k.natAbs ^ n := by
  unfold signedPower
  split
  · rw [Int.natAbs_neg, Int.natAbs_pow]
  · exact Int.natAbs_pow k n

theorem pow_neg_iff_odd : k ^ n < 0 ↔ k < 0 ∧ Odd n := by
  rcases Nat.even_or_odd n with heven | hodd
  · have hnot := Nat.not_odd_iff_even.mpr heven
    simp [hnot, heven.pow_nonneg k]
  · simp [hodd, hodd.pow_neg_iff]

theorem odd_of_rounded (h : Rounded n m) : Odd m ↔ Odd n ∧ n ≤ 2 ^ 53 := by
  rcases Nat.lt_or_ge (2 ^ 53) n with hlt | hle
  · have heven : Even m := by exact_mod_cast (h.large hlt).2
    exact iff_of_false (Nat.not_odd_iff_even.mpr heven) fun h => hlt.not_ge h.2
  · obtain rfl : m = n := by exact_mod_cast h.small hle
    exact (and_iff_left hle).symm

theorem signedPower_neg_iff (hk : Rounded k l) (hn : Rounded n m) :
    signedPower k n < 0 ↔ l ^ m < 0 := by
  rw [pow_neg_iff_odd, hk.sign, odd_of_rounded hn]
  unfold signedPower
  split
  · next hlost =>
    have hneg := pow_neg_iff_odd.mpr ⟨hlost.1, hlost.2.1⟩
    have hlarge := hlost.2.2
    constructor
    · intro h
      omega
    · rintro ⟨-, -, hle⟩
      omega
  · next hkept =>
    rw [pow_neg_iff_odd]
    unfold LosesSign at hkept
    grind

theorem ofIntClamp_congr (hk : 2 ^ 63 ≤ k.natAbs) (hl : 2 ^ 63 ≤ l.natAbs) (h : k < 0 ↔ l < 0) :
    Int64.ofIntClamp k = Int64.ofIntClamp l := by
  rcases lt_or_ge k 0 with hneg | hpos
  · have hneg' := h.mp hneg
    rw [ofIntClamp_of_le (by omega), ofIntClamp_of_le (by omega)]
  · have hpos' : ¬l < 0 := fun hlt => hpos.not_gt (h.mpr hlt)
    rw [ofIntClamp_of_ge (by omega), ofIntClamp_of_ge (by omega)]

theorem two_pow_le_pow {b : ℕ} (hb : 2 ≤ b) (hn : 63 ≤ n) : 2 ^ 63 ≤ b ^ n :=
  (Nat.pow_le_pow_right two_pos hn).trans (Nat.pow_le_pow_left hb n)

/-- A power that is out of range stays so when base and exponent are rounded. -/
theorem two_pow_le_rounded (hk : Rounded k l) (hn : Rounded n m) (hbase : 2 ≤ k.natAbs)
    (hexponent : 2 ≤ n) (h : 2 ^ 63 ≤ k.natAbs ^ n) : 2 ^ 63 ≤ l.natAbs ^ m := by
  have hl : 2 ≤ l.natAbs := by
    rcases Nat.lt_or_ge (2 ^ 53) k.natAbs with hlarge | hsmall
    · have := (hk.large hlarge).1
      omega
    · rwa [hk.small hsmall]
  rcases Nat.lt_or_ge m 63 with hlt | hge
  · obtain rfl : m = n := by
      rcases Nat.lt_or_ge (2 ^ 53) n with hlarge | hsmall
      · have := (hn.large hlarge).1
        omega
      · exact_mod_cast hn.small hsmall
    rcases Nat.lt_or_ge (2 ^ 53) k.natAbs with hlarge | hsmall
    · calc 2 ^ 63 ≤ (2 ^ 53) ^ 2 := by norm_num
        _ ≤ l.natAbs ^ 2 := Nat.pow_le_pow_left (hk.large hlarge).1 2
        _ ≤ l.natAbs ^ m := Nat.pow_le_pow_right (by omega) hexponent
    · rwa [hk.small hsmall]
  · exact two_pow_le_pow hl hge

/-- Of the bases whose powers are all in range, only the sign can be lost. -/
theorem signedPower_of_small (hk : Rounded k l) (hn : Rounded n m) (hbase : k.natAbs ≤ 1)
    (hexponent : n ≠ 0) : signedPower k n = l ^ m := by
  obtain rfl := hk.small (by omega)
  have hm : m ≠ 0 := by
    rcases Nat.lt_or_ge (2 ^ 53) n with hlarge | hsmall
    · have := (hn.large hlarge).1
      omega
    · have hmn : m = n := by exact_mod_cast hn.small hsmall
      rwa [hmn]
  have hsign := signedPower_neg_iff hk hn
  have hsize := natAbs_signedPower l n
  have hsize' := Int.natAbs_pow l m
  obtain hzero | hone : l.natAbs = 0 ∨ l.natAbs = 1 := by omega
  · rw [hzero, zero_pow hexponent] at hsize
    rw [hzero, zero_pow hm] at hsize'
    omega
  · rw [hone, one_pow] at hsize hsize'
    omega

theorem ofInt_eq_ofIntClamp (h : -2 ^ 63 ≤ k) (h' : k < 2 ^ 63) :
    Int64.ofInt k = Int64.ofIntClamp k := by
  rw [Int64.ofInt_eq_iff_bmod_eq_toInt, toInt_ofIntClamp h h']
  exact Int.bmod_eq_of_le (by omega) (by omega)

theorem pow_period (hbase : k.natAbs ≤ 1) (n : ℕ) :
    (if n = 0 then 1 else k ^ (2 - n % 2)) = k ^ n := by
  rcases eq_or_ne n 0 with rfl | hn
  · rw [if_pos rfl, pow_zero]
  · rw [if_neg hn]
    obtain rfl | rfl | rfl : k = 0 ∨ k = 1 ∨ k = -1 := by omega
    · rw [zero_pow (by omega), zero_pow hn]
    · rw [one_pow, one_pow]
    · rcases Nat.even_or_odd n with heven | hodd
      · rw [Nat.even_iff.mp heven, heven.neg_one_pow]
        rfl
      · rw [Nat.odd_iff.mp hodd, hodd.neg_one_pow]
        rfl

/-- An exact power is the power. Where there is none, the power is out of range, or only the
exponent is. -/
theorem exactPower?_cases (x : Int64) (n : ℕ) :
    exactPower? x n = some (Int64.ofIntClamp (x.toInt ^ n)) ∧ n < 2 ^ 32 ∨
    exactPower? x n = none ∧ (x.toInt.natAbs ≤ 1 ∧ n ≠ 0 ∨
      2 ≤ x.toInt.natAbs ∧ 2 ≤ n ∧ 2 ^ 63 ≤ x.toInt.natAbs ^ n) := by
  have hmin := Int64.toInt_minValue
  have hmax := Int64.toInt_maxValue
  simp only [exactPower?]
  split
  · next hlong =>
    refine .inr ⟨rfl, ?_⟩
    rcases Nat.lt_or_ge 1 x.toInt.natAbs with hbase | hbase
    · exact .inr ⟨hbase, by omega, two_pow_le_pow hbase (by omega)⟩
    · exact .inl ⟨hbase, by omega⟩
  · next hshort =>
    split
    · next hbase =>
      refine .inl ⟨congrArg some ?_, by omega⟩
      have hsize : (x.toInt ^ n).natAbs ≤ 1 := by
        rw [Int.natAbs_pow]
        exact pow_le_one₀ (Nat.zero_le _) hbase
      rw [← ofInt_eq_ofIntClamp (by omega) (by omega)]
      exact congrArg Int64.ofInt (pow_period hbase n)
    · next hbase =>
      split
      · next hlong =>
        exact .inr ⟨rfl, .inr ⟨by omega, by omega, two_pow_le_pow (by omega) (by omega)⟩⟩
      · have hpow : Int.pow x.toInt n = x.toInt ^ n := rfl
        rw [hpow]
        split
        · next hin => exact .inl ⟨congrArg some (ofInt_eq_ofIntClamp (by omega) (by omega)), by omega⟩
        · next hout =>
          refine .inr ⟨rfl, .inr ⟨by omega, ?_, ?_⟩⟩
          · by_contra hfew
            obtain rfl | rfl : n = 0 ∨ n = 1 := by omega
            · rw [pow_zero] at hout
              omega
            · rw [pow_one] at hout
              have hlo := x.le_toInt
              have hhi := x.toInt_lt
              omega
          · rw [← Int.natAbs_pow]
            omega

/-- The power of floats comes in where the exact power does not, and gives the power with the sign
that is left to it. -/
theorem truncate_pow (hpow : RoundsPowers pow) (hy : 0 ≤ y)
    (h : x.toInt.natAbs ≤ 1 ∧ y.toInt.toNat ≠ 0 ∨ 2 ≤ x.toInt.natAbs ∧ 2 ≤ y.toInt.toNat ∧
      2 ^ 63 ≤ x.toInt.natAbs ^ y.toInt.toNat) :
    truncate (pow (ofInteger x) (ofInteger y)) =
      Int64.ofIntClamp (signedPower x.toInt y.toInt.toNat) := by
  obtain ⟨l, hl, hbase⟩ := exists_rounded x
  obtain ⟨e, he, hexponent⟩ := exists_rounded y
  have hnonneg : 0 ≤ y.toInt := Int64.le_iff_toInt_le.mp hy
  obtain ⟨m, rfl⟩ := Int.eq_ofNat_of_zero_le (not_lt.mp fun hneg => hnonneg.not_gt
    (hexponent.sign.mp hneg))
  have hn : Rounded y.toInt.toNat m := by rwa [Int.toNat_of_nonneg hnonneg]
  have hnear := hpow _ _ l m (isFinite_ofInteger x) hl (isFinite_ofInteger y) (by exact_mod_cast he)
  rcases h with ⟨hsmall, hne⟩ | ⟨hlarge, htwo, hout⟩
  · rw [signedPower_of_small hbase hn hsmall hne]
    refine hnear.truncate_eq (.inl ?_)
    rw [Int.natAbs_pow, hbase.small (by omega)]
    exact (pow_le_one₀ (Nat.zero_le _) hsmall).trans (by norm_num)
  · have hout' := two_pow_le_rounded hbase hn hlarge htwo hout
    rw [← Int.natAbs_pow] at hout'
    rw [hnear.truncate_eq (.inr hout')]
    refine ofIntClamp_congr hout' ?_ (signedPower_neg_iff hbase hn).symm
    rwa [natAbs_signedPower]

theorem powerWith_integers (hpow : RoundsPowers pow) (hy : 0 ≤ y) :
    powerWith pow (integer x) (integer y) =
      integer (Int64.ofIntClamp (signedPower x.toInt y.toInt.toNat)) := by
  have hnot : ¬y < 0 := Int64.not_lt.mpr hy
  simp only [powerWith, if_neg hnot, toFloat]
  rcases exactPower?_cases x y.toInt.toNat with ⟨hexact, hshort⟩ | ⟨hnone, hcases⟩
  · have hkept : ¬LosesSign x.toInt y.toInt.toNat := fun h => by
      have := h.2.2
      omega
    rw [hexact, signedPower, if_neg hkept]
    rfl
  · rw [hnone, Option.getD_none, truncate_pow hpow hy hcases]

theorem ofIntClamp_neg_ne (hk : k < 0) : Int64.ofIntClamp (-k) ≠ Int64.ofIntClamp k := by
  intro h
  rcases le_or_gt k (-2 ^ 63) with hle | hgt
  · rw [ofIntClamp_of_le hle, ofIntClamp_of_ge (by omega)] at h
    exact absurd h (by decide)
  · have htoInt := congrArg Int64.toInt h
    rw [toInt_ofIntClamp (by omega) (by omega), toInt_ofIntClamp (by omega) (by omega)] at htoInt
    omega

/-- The power of two integers, for no negative exponent, is the exact power or the end of the range
nearer to it, except that a negative base with an odd exponent past `2 ^ 53` has the wrong sign: the
floats there are even. The power of floats is taken to be correctly rounded. -/
theorem powerWith_eq_clamp_iff (pow : Float → Float → Float) (hpow : RoundsPowers pow)
    (heap : Heap) (x y : Int64) (hy : 0 ≤ y) :
    Operator.power.applyBinary heap (integer x) (integer y) =
      powerWith Float.pow (integer x) (integer y) ∧
    (powerWith pow (integer x) (integer y) =
        integer (Int64.ofIntClamp (x.toInt ^ y.toInt.toNat)) ↔
      ¬(x < 0 ∧ Odd y.toInt.toNat ∧ 2 ^ 53 < y.toInt.toNat)) ∧
    (x < 0 ∧ Odd y.toInt.toNat ∧ 2 ^ 53 < y.toInt.toNat →
      powerWith pow (integer x) (integer y) =
        integer (Int64.ofIntClamp (-(x.toInt ^ y.toInt.toNat)))) := by
  have hneg : x < 0 ↔ x.toInt < 0 := Int64.lt_iff_toInt_lt
  have hpower := powerWith_integers (x := x) hpow hy
  rw [hneg]
  generalize y.toInt.toNat = n at hpower ⊢
  show _ ∧ (_ ↔ ¬LosesSign x.toInt n) ∧ (LosesSign x.toInt n → _)
  refine ⟨rfl, ⟨fun h hlost => ?_, fun hkept => ?_⟩, fun hlost => ?_⟩
  · rw [hpower, signedPower, if_pos hlost] at h
    exact ofIntClamp_neg_ne (pow_neg_iff_odd.mpr ⟨hlost.1, hlost.2.1⟩) (integer.inj h)
  · rw [hpower, signedPower, if_neg hkept]
  · rw [hpower, signedPower, if_pos hlost]

end Value

namespace Sample

open Value Number

def wholePower (a b : Float) : Float := ofWhole (⌊worth a⌋ ^ ⌊worth b⌋.toNat)

theorem roundsPowers_wholePower : RoundsPowers wholePower := by
  intro a b k n _ ha _ hb
  rw [wholePower, ha, hb, Int.floor_intCast, Int.floor_natCast, Int.toNat_natCast]
  exact nearest_ofWhole (k ^ n)

/-- Powers of minus one alternate while the exponents are floats, and past them no more; other
powers stop at the end of the range. -/
theorem minus_one_stops_alternating :
    powerWith wholePower (integer (-1)) (integer 9007199254740991) = integer (-1) ∧
    powerWith wholePower (integer (-1)) (integer 9007199254740993) = integer 1 ∧
    powerWith wholePower (integer (-2)) (integer 101) = integer Int64.minValue := by
  have hpower := powerWith_eq_clamp_iff wholePower roundsPowers_wholePower .empty
  have hodd (n : ℕ) : Odd (2 * n + 1) := ⟨n, rfl⟩
  obtain ⟨-, hbefore, -⟩ := hpower (-1) 9007199254740991 (by decide)
  obtain ⟨-, -, hpast⟩ := hpower (-1) 9007199254740993 (by decide)
  obtain ⟨-, hend, -⟩ := hpower (-2) 101 (by decide)
  refine ⟨?_, ?_, ?_⟩
  · rw [hbefore.mpr fun h => absurd h.2.2 (by decide)]
    exact congrArg (fun i => integer (Int64.ofIntClamp i)) (hodd 4503599627370495).neg_one_pow
  · rw [hpast ⟨by decide, hodd 4503599627370496, by decide⟩]
    exact congrArg (fun i => integer (Int64.ofIntClamp (-i))) (hodd 4503599627370496).neg_one_pow
  · rw [hend.mpr fun h => absurd h.2.2 (by decide)]
    decide +kernel

end Sample

end Fabula
