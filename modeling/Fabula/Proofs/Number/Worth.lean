import Fabula.Proofs.Number.Order

/-! The numbers that floats stand for. A finite float is worth its sign times `significand · 2 ^
exponent`, floats are ordered as what they are worth, and a float that is worth a whole number is
truncated to it. -/

namespace Fabula.Number

open Float.Model Float.Model.UnpackedFloat

/-- The number that a finite float is. -/
def worth (x : Float) : ℚ :=
  (if isNegative x then -(significand x : ℚ) else significand x) * 2 ^ exponent x

theorem significand_lt (x : Float) : significand x < 2 ^ 53 := by
  have h : fraction x < 2 ^ 52 := by
    rw [fraction, UInt64.toNat_and]
    exact Nat.and_lt_two_pow _ (by decide)
  unfold significand
  split <;> omega

theorem abs_worth (x : Float) : |worth x| = significand x * 2 ^ exponent x := by
  have hpow : (0 : ℚ) < 2 ^ exponent x := zpow_pos two_pos _
  have hnat : (0 : ℚ) ≤ significand x := Nat.cast_nonneg _
  unfold worth
  rw [abs_mul, abs_of_pos hpow]
  split
  · rw [abs_neg, abs_of_nonneg hnat]
  · rw [abs_of_nonneg hnat]

/-- Floats grow coarse: one that has more than `52 + k` binary digits is a multiple of `2 ^ k`. -/
theorem exists_multiple {x : Float} {k : Nat} (h : 2 ^ (52 + k) ≤ |worth x|) :
    ∃ j : ℤ, worth x = j * 2 ^ k := by
  rw [abs_worth] at h
  have hsig : (significand x : ℚ) < 2 ^ 53 := by exact_mod_cast significand_lt x
  have hpow : (0 : ℚ) < 2 ^ exponent x := zpow_pos two_pos _
  have hlt : (2 : ℚ) ^ ((52 + k : Nat) : ℤ) < 2 ^ (53 + exponent x) := by
    rw [zpow_natCast, zpow_add₀ two_ne_zero]
    exact h.trans_lt (mul_lt_mul_of_pos_right hsig hpow)
  have hk : (k : ℤ) ≤ exponent x := by
    have := (zpow_lt_zpow_iff_right₀ one_lt_two).mp hlt
    omega
  obtain ⟨d, hd⟩ := Int.le.dest hk
  refine ⟨(if isNegative x then -(significand x : ℤ) else significand x) * 2 ^ d, ?_⟩
  rw [worth, ← hd, zpow_add₀ two_ne_zero, zpow_natCast, zpow_natCast]
  split <;> push_cast <;> ring

abbrev double : Format := Format.binary64

def signOf (x : Float) : Sign := if isNegative x then .negative else .positive

theorem unpackExponent_toNat (b : BitVec 64) :
    (@unpackExponent double b).toNat = b.toNat / 2 ^ 52 % 2 ^ 11 := by
  simp [unpackExponent, BitVec.extractLsb, BitVec.extractLsb'_toNat, Nat.shiftRight_eq_div_pow]

theorem unpackMantissa_toNat (b : BitVec 64) :
    (@unpackMantissa double b).toNat = b.toNat % 2 ^ 52 := by
  simp [unpackMantissa, BitVec.extractLsb, BitVec.extractLsb'_toNat]

theorem unpackSign_toNat (b : BitVec 64) :
    (@unpackSign double b).toNat = b.toNat / 2 ^ 63 % 2 := by
  simp [unpackSign, BitVec.extractLsb, BitVec.extractLsb'_toNat, Nat.shiftRight_eq_div_pow]

theorem biasedExponent_eq (x : Float) :
    biasedExponent x = (@unpackExponent double x.toBits.toBitVec).toNat := by
  rw [unpackExponent_toNat, biasedExponent, UInt64.toNat_and, UInt64.toNat_shiftRight,
    ← Nat.shiftRight_eq_div_pow]
  exact Nat.and_two_pow_sub_one_eq_mod _ 11

theorem fraction_eq (x : Float) :
    fraction x = (@unpackMantissa double x.toBits.toBitVec).toNat := by
  rw [unpackMantissa_toNat, fraction, UInt64.toNat_and]
  exact Nat.and_two_pow_sub_one_eq_mod _ 52

theorem signOf_eq (x : Float) :
    signOf x = Sign.ofBitVec (@unpackSign double x.toBits.toBitVec) := by
  have hlt := x.toBits.toNat_lt
  have h := unpackSign_toNat x.toBits.toBitVec
  have hiff : isNegative x = true ↔ @unpackSign double x.toBits.toBitVec ≠ 0#1 := by
    rw [isNegative, beq_iff_eq, ← UInt64.toNat_inj, UInt64.toNat_shiftRight, Ne,
      ← BitVec.toNat_inj, h, Nat.shiftRight_eq_div_pow]
    simp
    omega
  unfold signOf Sign.ofBitVec
  by_cases hneg : isNegative x = true
  · rw [if_pos hneg, if_neg (hiff.mp hneg)]
  · rw [if_neg hneg, if_pos (by_contra fun hb => hneg (hiff.mpr hb))]

/-- Finite numbers in the form in which floats are unpacked. -/
inductive Stored : UnpackedFloat → Prop
  | zero (s : Sign) : Stored (.zero s)
  | finite (s : Sign) {m : Nat} {e : Int} (positive : 0 < m) (least : -1074 ≤ e)
      (greatest : e ≤ 971) (short : m < 2 ^ 53) (full : 2 ^ 52 ≤ m ∨ e = -1074) :
      Stored (.finite s m e positive)

def unpackedWorth : UnpackedFloat → ℚ
  | .finite s m e _ => (s.apply m : ℤ) * 2 ^ e
  | _ => 0

theorem toNat_packComponents (s : Sign) (e : BitVec 11) (m : BitVec 52) :
    (packComponents double s e m).toNat =
      s.toBitVec.toNat * 2 ^ 63 + e.toNat * 2 ^ 52 + m.toNat := by
  rw [packComponents, BitVec.toNat_append, BitVec.toNat_append,
    ← Nat.shiftLeft_add_eq_or_of_lt e.isLt, ← Nat.shiftLeft_add_eq_or_of_lt m.isLt,
    Nat.shiftLeft_eq, Nat.shiftLeft_eq]
  omega

theorem toNat_leadingOne (m : BitVec 52) : (1#1 ++ m).toNat = 2 ^ 52 + m.toNat := by
  have h := Nat.two_pow_add_eq_or_of_lt m.isLt 1
  rw [Nat.mul_one] at h
  rw [BitVec.toNat_append, h]
  rfl

theorem unpack_subnormal (s : Sign) (m : BitVec 52) (hm : m ≠ 0#52) (hp : 0 < m.toNat) :
    UnpackedFloat.unpack double (packComponents double s 0 m) = .finite s m.toNat (-1074) hp := by
  unfold UnpackedFloat.unpack
  simp only [unpackExponent_packComponents, unpackMantissa_packComponents,
    unpackSign_packComponents, Sign.ofBitVec_toBitVec]
  rw [if_neg (by decide), if_pos (by rfl), dif_neg hm]
  rfl

theorem unpack_normal (s : Sign) (e : BitVec 11) (m : BitVec 52) (he : e ≠ -1#11) (hz : e ≠ 0#11)
    (hp : 0 < (1#1 ++ m).toNat) :
    UnpackedFloat.unpack double (packComponents double s e m) =
      .finite s (1#1 ++ m).toNat ((e.toNat : Int) - (1023 + 52)) hp := by
  unfold UnpackedFloat.unpack
  simp only [unpackExponent_packComponents, unpackMantissa_packComponents,
    unpackSign_packComponents, Sign.ofBitVec_toBitVec]
  rw [if_neg he, if_neg hz]
  rfl

theorem isNaNBits_packComponents (s : Sign) {e : BitVec 11} (he : e ≠ -1#11) (m : BitVec 52) :
    @isNaNBits double (packComponents double s e m) = false := by
  rw [isNaNBits, unpackExponent_packComponents]
  exact decide_eq_false fun h => he h.1

theorem Stored.exists_bits {u : UnpackedFloat} (h : Stored u) :
    ∃ b : BitVec 64, @isNaNBits double b = false ∧ UnpackedFloat.unpack double b = u := by
  cases h with
  | zero s => exact ⟨packedZero double s, isNaNBits_packComponents s (by decide) _, unpack_packedZero⟩
  | @finite s m e positive least greatest short full =>
    by_cases hfull : 2 ^ 52 ≤ m
    · obtain ⟨b, rfl⟩ : ∃ b : BitVec 52, m = (1#1 ++ b).toNat := by
        refine ⟨BitVec.ofNat 52 m, ?_⟩
        rw [toNat_leadingOne, BitVec.toNat_ofNat]
        omega
      obtain ⟨c, hc, rfl⟩ : ∃ c : BitVec 11, c.toNat = (e + 1075).toNat ∧
          e = (c.toNat : Int) - (1023 + 52) := by
        refine ⟨BitVec.ofNat 11 (e + 1075).toNat, ?_, ?_⟩ <;> rw [BitVec.toNat_ofNat] <;> omega
      have hlast : c ≠ -1#11 := fun hc => by subst hc; revert greatest; decide
      have hzero : c ≠ 0#11 := fun hc => by subst hc; revert least; decide
      exact ⟨_, isNaNBits_packComponents s hlast b, unpack_normal s c b hlast hzero positive⟩
    · obtain rfl := full.resolve_left hfull
      obtain ⟨b, rfl⟩ : ∃ b : BitVec 52, m = b.toNat := by
        refine ⟨BitVec.ofNat 52 m, ?_⟩
        rw [BitVec.toNat_ofNat]
        omega
      have hb : b ≠ 0#52 := fun hb => by subst hb; revert positive; decide
      exact ⟨_, isNaNBits_packComponents s (by decide) b, unpack_subnormal s b hb positive⟩

theorem unpack_pack {u : UnpackedFloat} (h : Stored u) : (Float.Model.pack u).unpack = u := by
  obtain ⟨b, hb, rfl⟩ := h.exists_bits
  show UnpackedFloat.unpack double (UnpackedFloat.pack double _) = _
  rw [pack_unpack, if_neg (by simp [hb])]

theorem biasedExponent_lt {x : Float} (h : x.isFinite = true) : biasedExponent x < 2047 := by
  have hlt : (@unpackExponent double x.toBits.toBitVec).toNat < 2 ^ 11 := BitVec.isLt _
  have hne : @unpackExponent double x.toBits.toBitVec ≠ -1#11 := by
    intro he
    have hfinite : (UnpackedFloat.unpack double x.toBits.toBitVec).isFinite = true := h
    unfold UnpackedFloat.unpack at hfinite
    dsimp only at hfinite
    rw [if_pos he] at hfinite
    split at hfinite <;> cases hfinite
  have hlast : (@unpackExponent double x.toBits.toBitVec).toNat ≠ 2047 := fun h0 =>
    hne (BitVec.eq_of_toNat_eq h0)
  rw [biasedExponent_eq]
  omega

theorem unpack_eq {x : Float} (h : x.isFinite = true) :
    x.toModel.unpack = if hs : 0 < significand x then
      .finite (signOf x) (significand x) (exponent x) hs else .zero (signOf x) := by
  have hlt := biasedExponent_lt h
  have hb := biasedExponent_eq x
  have hf := fraction_eq x
  have he : @unpackExponent double x.toBits.toBitVec ≠ -1#11 := fun h0 => by
    rw [hb, h0] at hlt
    revert hlt
    decide
  change UnpackedFloat.unpack double x.toBits.toBitVec = _
  rw [signOf_eq]
  unfold UnpackedFloat.unpack
  dsimp only
  rw [if_neg he]
  by_cases hz : @unpackExponent double x.toBits.toBitVec = 0#11
  · have hbiased : biasedExponent x = 0 := by rw [hb, hz]; rfl
    have hsig : significand x = fraction x := if_pos hbiased
    have hexp : exponent x = -1074 := if_pos hbiased
    rw [if_pos hz]
    by_cases hm : @unpackMantissa double x.toBits.toBitVec = 0#52
    · have hnone : ¬ 0 < significand x := by rw [hsig, hf, hm]; decide
      rw [dif_pos hm, dif_neg hnone]
    · have hpos : 0 < significand x := by
        rw [hsig, hf]
        exact Nat.pos_of_ne_zero fun h0 => hm (BitVec.eq_of_toNat_eq h0)
      rw [dif_neg hm, dif_pos hpos]
      simp only [hsig, hf, hexp, hz]
      rfl
  · have hbiased : biasedExponent x ≠ 0 := fun h0 => hz (BitVec.eq_of_toNat_eq (hb.symm.trans h0))
    have hsig : significand x = 2 ^ 52 + fraction x := if_neg hbiased
    have hexp : exponent x = (biasedExponent x : Int) - 1075 := if_neg hbiased
    rw [if_neg hz, dif_pos (by omega)]
    simp only [hsig, hexp, hb, hf, toNat_leadingOne]
    rfl

theorem stored_unpack {x : Float} (h : x.isFinite = true) : Stored x.toModel.unpack := by
  have hlt := biasedExponent_lt h
  rw [unpack_eq h]
  split
  · next hs =>
    by_cases hz : biasedExponent x = 0
    · have hexp : exponent x = -1074 := if_pos hz
      exact .finite _ hs (by omega) (by omega) (significand_lt x) (.inr hexp)
    · have hsig : significand x = 2 ^ 52 + fraction x := if_neg hz
      have hexp : exponent x = (biasedExponent x : Int) - 1075 := if_neg hz
      exact .finite _ hs (by omega) (by omega) (significand_lt x) (.inl (by omega))
  · exact .zero _

theorem worth_eq {x : Float} (h : x.isFinite = true) : worth x = unpackedWorth x.toModel.unpack := by
  rw [unpack_eq h]
  split
  · unfold worth signOf unpackedWorth
    split <;> simp [Sign.apply]
  · next hs =>
    have hzero : significand x = 0 := by omega
    simp [worth, unpackedWorth, hzero]

/-- With a greater exponent comes a leading one, which outweighs all digits of the other number. -/
theorem magnitude_lt {m m' : Nat} {e e' : Int} (h : e < e') (he : -1074 ≤ e) (hm : m < 2 ^ 53)
    (hfull' : 2 ^ 52 ≤ m' ∨ e' = -1074) : (m : ℚ) * 2 ^ e < m' * 2 ^ e' := by
  have hlead : (2 : ℚ) ^ 52 ≤ m' := by exact_mod_cast hfull'.resolve_right (by omega)
  have hshort : (m : ℚ) < 2 ^ 53 := by exact_mod_cast hm
  have hstep : (2 : ℚ) ^ (e + 1) ≤ 2 ^ e' := zpow_le_zpow_right₀ one_le_two (by omega)
  calc (m : ℚ) * 2 ^ e < 2 ^ 53 * 2 ^ e := mul_lt_mul_of_pos_right hshort (zpow_pos two_pos _)
    _ = 2 ^ 52 * 2 ^ (e + 1) := by rw [zpow_add_one₀ two_ne_zero]; ring
    _ ≤ m' * 2 ^ e' := mul_le_mul hlead hstep (zpow_nonneg zero_le_two _) (Nat.cast_nonneg _)

theorem compare_magnitudes {m m' : Nat} {e e' : Int} (he : -1074 ≤ e) (he' : -1074 ≤ e')
    (hm : m < 2 ^ 53) (hm' : m' < 2 ^ 53) (hfull : 2 ^ 52 ≤ m ∨ e = -1074)
    (hfull' : 2 ^ 52 ≤ m' ∨ e' = -1074) :
    (compare e e').then (compare m m') = compare ((m : ℚ) * 2 ^ e) (m' * 2 ^ e') := by
  rcases lt_trichotomy e e' with h | rfl | h
  · rw [compare_lt_iff_lt.mpr h, compare_lt_iff_lt.mpr (magnitude_lt h he hm hfull')]
    rfl
  · have hpow : (0 : ℚ) < 2 ^ e := zpow_pos two_pos _
    rw [compare_eq_iff_eq.mpr rfl, Ordering.eq_then]
    rcases lt_trichotomy m m' with h | rfl | h
    · rw [compare_lt_iff_lt.mpr h, eq_comm, compare_lt_iff_lt]
      exact mul_lt_mul_of_pos_right (by exact_mod_cast h) hpow
    · rw [compare_eq_iff_eq.mpr rfl, compare_eq_iff_eq.mpr rfl]
    · rw [compare_gt_iff_gt.mpr h, eq_comm, compare_gt_iff_gt]
      exact mul_lt_mul_of_pos_right (by exact_mod_cast h) hpow
  · rw [compare_gt_iff_gt.mpr h, compare_gt_iff_gt.mpr (magnitude_lt h he' hm' hfull)]
    rfl

theorem compare_neg_neg (a b : ℚ) : compare (-a) (-b) = (compare a b).swap := by
  rcases lt_trichotomy a b with h | rfl | h
  · rw [compare_lt_iff_lt.mpr h, compare_gt_iff_gt.mpr (neg_lt_neg h)]
    rfl
  · rw [compare_eq_iff_eq.mpr rfl, compare_eq_iff_eq.mpr rfl]
    rfl
  · rw [compare_gt_iff_gt.mpr h, compare_lt_iff_lt.mpr (neg_lt_neg h)]
    rfl

/-- Numbers in stored form compare as what they are worth. -/
theorem compare_unpacked {u v : UnpackedFloat} (hu : Stored u) (hv : Stored v) :
    u.compare v = some (compare (unpackedWorth u) (unpackedWorth v)) := by
  have hpos : ∀ {m : Nat} {e : Int}, 0 < m → (0 : ℚ) < m * 2 ^ e := fun h =>
    mul_pos (by exact_mod_cast h) (zpow_pos two_pos _)
  -- a number with a sign is on that side of zero
  have hlt : ∀ {a b : ℚ}, a < b → some Ordering.lt = some (compare a b) := fun h => by
    rw [compare_lt_iff_lt.mpr h]
  have hgt : ∀ {a b : ℚ}, b < a → some Ordering.gt = some (compare a b) := fun h => by
    rw [compare_gt_iff_gt.mpr h]
  cases hu with
  | zero s =>
    cases hv with
    | zero s' => exact congrArg some (compare_eq_iff_eq.mpr rfl).symm
    | @finite s' m' e' positive' =>
      cases s' with
      | negative => exact hgt (by simpa [unpackedWorth, Sign.apply] using hpos positive')
      | positive => exact hlt (by simpa [unpackedWorth, Sign.apply] using hpos positive')
  | @finite s m e positive least _ short full =>
    cases hv with
    | zero s' =>
      cases s with
      | negative => exact hlt (by simpa [unpackedWorth, Sign.apply] using hpos positive)
      | positive => exact hgt (by simpa [unpackedWorth, Sign.apply] using hpos positive)
    | @finite s' m' e' positive' least' _ short' full' =>
      have hu := hpos (e := e) positive
      have hv := hpos (e := e') positive'
      have hsame := compare_magnitudes least least' short short' full full'
      cases s with
      | negative =>
        cases s' with
        | negative =>
          refine congrArg some ((congrArg Ordering.swap hsame).trans ?_)
          simp [unpackedWorth, Sign.apply, compare_neg_neg]
        | positive =>
          refine hlt ?_
          simp only [unpackedWorth, Sign.apply, Int.cast_neg, Int.cast_natCast]
          linarith
      | positive =>
        cases s' with
        | negative =>
          refine hgt ?_
          simp only [unpackedWorth, Sign.apply, Int.cast_neg, Int.cast_natCast]
          linarith
        | positive =>
          refine congrArg some (hsame.trans ?_)
          simp [unpackedWorth, Sign.apply]

variable {x y : Float}

theorem compare_worth (hx : x.isFinite = true) (hy : y.isFinite = true) :
    x.toModel.unpack.compare y.toModel.unpack = some (compare (worth x) (worth y)) := by
  rw [worth_eq hx, worth_eq hy]
  exact compare_unpacked (stored_unpack hx) (stored_unpack hy)

theorem lt_iff_worth (hx : x.isFinite = true) (hy : y.isFinite = true) :
    x < y ↔ worth x < worth y := by
  rw [lt_iff_compare, compare_worth hx hy, Option.some_inj, compare_lt_iff_lt]

theorem beq_iff_worth (hx : x.isFinite = true) (hy : y.isFinite = true) :
    (x == y) = true ↔ worth x = worth y := by
  rw [beq_iff_compare, compare_worth hx hy, Option.some_inj, compare_eq_iff_eq]

theorem Stored.neg {u : UnpackedFloat} (h : Stored u) : Stored u.neg := by
  cases h with
  | zero s => exact .zero _
  | finite s positive least greatest short full =>
    exact .finite _ positive least greatest short full

theorem Stored.abs {u : UnpackedFloat} (h : Stored u) : Stored u.abs := by
  cases h with
  | zero s => exact .zero _
  | finite s positive least greatest short full =>
    exact .finite _ positive least greatest short full

theorem Stored.isFinite {u : UnpackedFloat} (h : Stored u) : u.isFinite = true := by
  cases h <;> rfl

theorem unpack_neg (h : x.isFinite = true) : (-x).toModel.unpack = x.toModel.unpack.neg :=
  unpack_pack (stored_unpack h).neg

theorem isFinite_neg (h : x.isFinite = true) : (-x).isFinite = true := by
  show (-x).toModel.unpack.isFinite = true
  rw [unpack_neg h]
  exact (stored_unpack h).neg.isFinite

theorem worth_neg (h : x.isFinite = true) : worth (-x) = -worth x := by
  rw [worth_eq h, worth_eq (isFinite_neg h), unpack_neg h]
  cases x.toModel.unpack with
  | finite s m e =>
    cases s with
    | negative =>
      show ((m : ℤ) : ℚ) * 2 ^ e = -(((-(m : ℤ) : ℤ) : ℚ) * 2 ^ e)
      push_cast
      ring
    | positive =>
      show ((-(m : ℤ) : ℤ) : ℚ) * 2 ^ e = -(((m : ℤ) : ℚ) * 2 ^ e)
      push_cast
      ring
  | _ => exact neg_zero.symm

theorem unpack_clearSign (b : BitVec 64) :
    UnpackedFloat.unpack double (b &&& 0x7fffffffffffffff#64) =
      (UnpackedFloat.unpack double b).abs := by
  have hb := @packComponents_unpackSign_unpackExponent_unpackMantissa double b
  generalize Sign.ofBitVec (@unpackSign double b) = s at hb
  generalize @unpackExponent double b = e at hb
  generalize @unpackMantissa double b = m at hb
  have hcleared : b &&& 0x7fffffffffffffff#64 = packComponents double .positive e m := by
    apply BitVec.eq_of_toNat_eq
    have he : e.toNat < 2 ^ 11 := e.isLt
    have hm : m.toNat < 2 ^ 52 := m.isLt
    have hpos : Sign.positive.toBitVec.toNat = 0 := rfl
    have hand : (b &&& 0x7fffffffffffffff#64).toNat = b.toNat % 2 ^ 63 :=
      Nat.and_two_pow_sub_one_eq_mod _ 63
    rw [hand, ← hb, toNat_packComponents, toNat_packComponents, hpos]
    omega
  rw [hcleared, ← hb]
  unfold UnpackedFloat.unpack
  simp only [unpackExponent_packComponents, unpackMantissa_packComponents,
    unpackSign_packComponents, Sign.ofBitVec_toBitVec]
  split_ifs <;> rfl

theorem unpack_magnitude (h : x.isFinite = true) :
    (magnitude x).toModel.unpack = x.toModel.unpack.abs := by
  have hbits : UnpackedFloat.unpack double (x.toBits &&& 0x7fffffffffffffff).toBitVec =
      x.toModel.unpack.abs := unpack_clearSign _
  show (Float.Model.pack (UnpackedFloat.unpack double _)).unpack = _
  rw [hbits]
  exact unpack_pack (stored_unpack h).abs

theorem shiftRight_mantissa (em : ExtendedMantissa) (k : Nat) :
    (em >>> k).mantissa = em.mantissa / 2 ^ k := by
  show (k.repeat ExtendedMantissa.shiftRightOne em).mantissa = _
  induction k with
  | zero => simp [Nat.repeat]
  | succ k ih =>
    rw [Nat.repeat, ExtendedMantissa.shiftRightOne, ih, Nat.div_div_eq_div_mul, Nat.pow_succ]

theorem roundToInt_of_whole {m n : Nat} {e : Int} (s : Sign) (h : (m : ℚ) * 2 ^ e = n) :
    roundToInt s m e = s.apply n := by
  have hsplit : e = (e.toNat : ℤ) - ((-e).toNat : ℤ) := by omega
  have hmul : m * 2 ^ e.toNat = n * 2 ^ (-e).toNat := by
    rw [hsplit, zpow_sub₀ two_ne_zero, zpow_natCast, zpow_natCast, mul_div_assoc', div_eq_iff
      (pow_ne_zero _ two_ne_zero)] at h
    exact_mod_cast h
  have hshift : (0 - (e - (e.toNat : ℤ))).toNat = (-e).toNat := by omega
  simp only [roundToInt, decreaseExponent, shiftToExponent, sub_zero, hshift, shiftRight_mantissa]
  rw [ExtendedMantissa.ofMantissaAndAccuracy, Nat.shiftLeft_eq, hmul,
    Nat.mul_div_cancel _ (Nat.two_pow_pos _)]

theorem toNat_magnitude (h : x.isFinite = true) {k : ℤ} (hk : worth x = k) :
    (magnitude x).toUInt64.toNat = min k.natAbs (2 ^ 64 - 1) := by
  have hint : (magnitude x).toModel.unpack.toInt 0 (UInt64.size - 1) = k.natAbs := by
    rw [unpack_magnitude h]
    rw [worth_eq h] at hk
    have hstored := stored_unpack h
    generalize x.toModel.unpack = u at hk hstored
    cases hstored with
    | zero s =>
      have hzero : (k : ℚ) = 0 := hk.symm
      obtain rfl : k = 0 := by exact_mod_cast hzero
      rfl
    | @finite s m e =>
      have hsize : (m : ℚ) * 2 ^ e = k.natAbs := by
        have habs := congrArg (fun q : ℚ => |q|) hk
        have hpow : (0 : ℚ) < 2 ^ e := zpow_pos two_pos _
        simp only [unpackedWorth, abs_mul, abs_of_pos hpow] at habs
        cases s <;> simpa [Sign.apply] using habs
      exact roundToInt_of_whole .positive hsize
  show (UInt64.ofNatClamp ((magnitude x).toModel.unpack.toInt 0 (UInt64.size - 1)).toNat).toNat = _
  rw [hint, Int.toNat_natCast]
  rcases Nat.lt_or_ge k.natAbs UInt64.size with hlt | hge
  · rw [UInt64.toNat_ofNatClamp_of_lt hlt]
    exact (Nat.min_eq_left (Nat.le_pred_of_lt hlt)).symm
  · rw [UInt64.toNat_ofNatClamp_of_le hge]
    exact (Nat.min_eq_right (by exact (Nat.pred_le _).trans hge)).symm

theorem ofIntClamp_of_le {k : ℤ} (h : k ≤ -2 ^ 63) : Int64.ofIntClamp k = Int64.minValue := by
  have hmin := Int64.toInt_minValue
  rcases h.eq_or_lt with rfl | hlt
  · rw [← hmin, Int64.ofIntClamp_toInt]
  · rw [Int64.ofIntClamp, dif_neg (by omega)]

theorem ofIntClamp_of_ge {k : ℤ} (h : 2 ^ 63 ≤ k) : Int64.ofIntClamp k = Int64.maxValue := by
  have hmin := Int64.toInt_minValue
  have hmax := Int64.toInt_maxValue
  rw [Int64.ofIntClamp, dif_pos (by omega), dif_neg (by omega)]

theorem toInt_ofIntClamp {k : ℤ} (h : -2 ^ 63 ≤ k) (h' : k < 2 ^ 63) :
    (Int64.ofIntClamp k).toInt = k :=
  Int64.toInt_ofIntClamp (by rw [Int64.toInt_minValue]; exact h)
    (by rw [Int64.toInt_maxValue]; omega)

theorem isNaN_of_isFinite (h : x.isFinite = true) : x.isNaN = false := by
  have hu : x.toModel.unpack.isFinite = true := h
  show x.toModel.unpack.isNaN = false
  cases hx : x.toModel.unpack with
  | notANumber =>
    rw [hx] at hu
    cases hu
  | _ => rfl

theorem worth_zero : worth 0.0 = 0 := (worth_eq (by decide)).trans rfl

theorem toInt_toInt64 {n : UInt64} (h : n.toNat < 2 ^ 63) : n.toInt64.toInt = n.toNat := by
  have hsmall : 2 * n.toBitVec.toNat < 2 ^ 64 := by
    rw [UInt64.toNat_toBitVec]
    omega
  exact BitVec.toInt_eq_toNat_of_lt hsmall

/-- A float that is worth a whole number becomes that number, or the end of the range nearer to
it. -/
theorem truncate_of_whole (h : x.isFinite = true) {k : ℤ} (hk : worth x = k) :
    truncate x = Int64.ofIntClamp k := by
  have hsize := toNat_magnitude h hk
  have hneg : x < 0.0 ↔ k < 0 := by
    rw [lt_iff_worth h (by decide), worth_zero, hk]
    exact_mod_cast Iff.rfl
  unfold truncate
  dsimp only
  rw [isNaN_of_isFinite h, if_neg Bool.false_ne_true]
  by_cases hk0 : k < 0
  · rw [if_pos (hneg.mpr hk0)]
    split
    · exact (ofIntClamp_of_le (by omega)).symm
    · have hval : -((magnitude x).toUInt64.toNat : ℤ) = k := by omega
      apply Int64.toInt_inj.mp
      rw [toInt_ofIntClamp (by omega) (by omega), Int64.toInt_neg, toInt_toInt64 (by omega), hval]
      exact Int.bmod_eq_of_le (by omega) (by omega)
  · rw [if_neg (mt hneg.mp hk0)]
    split
    · exact (ofIntClamp_of_ge (by omega)).symm
    · apply Int64.toInt_inj.mp
      rw [toInt_ofIntClamp (by omega) (by omega), toInt_toInt64 (by omega)]
      omega

theorem exists_whole (h : 2 ^ 63 ≤ |worth x|) : ∃ j : ℤ, worth x = j := by
  obtain ⟨j, hj⟩ := exists_multiple (k := 0) (le_trans (by norm_num) h)
  exact ⟨j, by rw [hj, pow_zero, mul_one]⟩

theorem truncate_of_ge (hx : x.isFinite = true) (h : 2 ^ 63 ≤ worth x) :
    truncate x = Int64.maxValue := by
  obtain ⟨j, hj⟩ := exists_whole (h.trans (le_abs_self _))
  rw [truncate_of_whole hx hj]
  exact ofIntClamp_of_ge (by rw [hj] at h; exact_mod_cast h)

theorem truncate_of_le (hx : x.isFinite = true) (h : worth x ≤ -2 ^ 63) :
    truncate x = Int64.minValue := by
  obtain ⟨j, hj⟩ := exists_whole ((le_neg_of_le_neg h).trans (neg_le_abs _))
  rw [truncate_of_whole hx hj]
  exact ofIntClamp_of_le (by rw [hj] at h; exact_mod_cast h)

end Fabula.Number
