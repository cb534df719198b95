import Fabula.Proofs.Number.Worth

/-! Correct rounding. A float is a number correctly rounded if no float is nearer to the number; far
out, the infinities take over. An integer is converted to such a float: its leading fifty-three
binary digits are kept, and what is cut off decides whether they go up by one. -/

namespace Fabula.Number

open Float.Model Float.Model.UnpackedFloat

/-- Halfway from the greatest float, `(2 ^ 53 - 1) · 2 ^ 971`, to `2 ^ 1024`. -/
def outermost : ℚ := (2 ^ 54 - 1) * 2 ^ 970

theorem two_pow_lt_outermost {k : Nat} (h : k ≤ 970) : (2 : ℚ) ^ k < outermost := by
  have hpow : (2 : ℚ) ^ k ≤ 2 ^ 970 := pow_le_pow_right₀ one_le_two h
  have hpos : (0 : ℚ) < 2 ^ 970 := pow_pos two_pos _
  unfold outermost
  generalize (2 : ℚ) ^ 970 = p at hpow hpos
  linarith

/-- The float is the number, correctly rounded: no float is nearer, or the number is far out and the
float is the infinity on its side. Where two floats are equally near, it may be either. -/
inductive Nearest (v : ℚ) : Float → Prop
  | finite {x : Float} (finite : x.isFinite = true)
      (nearest : ∀ z : Float, z.isFinite = true → |worth x - v| ≤ |worth z - v|) : Nearest v x
  | above (far : outermost ≤ v) : Nearest v infinity
  | below (far : v ≤ -outermost) : Nearest v (-infinity)

namespace Nearest

variable {u v : ℚ} {x y z : Float}

theorem isFinite (h : Nearest v x) (hv : |v| < outermost) : x.isFinite = true := by
  rw [abs_lt] at hv
  cases h with
  | finite finite => exact finite
  | above far => linarith
  | below far => linarith

theorem neg (h : Nearest v x) : Nearest (-v) (-x) := by
  cases h with
  | finite finite nearest =>
    refine .finite (isFinite_neg finite) fun z hz => ?_
    have hle := nearest (-z) (isFinite_neg hz)
    rw [worth_neg hz] at hle
    rw [worth_neg finite]
    calc |-worth x - -v| = |worth x - v| := by rw [← abs_neg]; congr 1; ring
      _ ≤ |-worth z - v| := hle
      _ = |worth z - -v| := by rw [← abs_neg]; congr 1; ring
  | above far => exact .below (neg_le_neg far)
  | below far =>
    have hback : -(-infinity) = infinity := by decide +kernel
    rw [hback]
    exact .above (by linarith)

/-- Rounding does not go past a float. -/
theorem le_worth (h : Nearest v x) (hx : x.isFinite = true) (hz : z.isFinite = true)
    (hle : worth z ≤ v) : worth z ≤ worth x := by
  cases h with
  | finite _ nearest =>
    by_contra hlt
    rw [not_le] at hlt
    have hnear := nearest z hz
    rw [abs_of_nonpos (by linarith), abs_of_nonpos (by linarith)] at hnear
    linarith
  | above | below => exact absurd hx (by decide +kernel)

theorem worth_le (h : Nearest v x) (hx : x.isFinite = true) (hz : z.isFinite = true)
    (hle : v ≤ worth z) : worth x ≤ worth z := by
  have hneg := h.neg.le_worth (isFinite_neg hx) (isFinite_neg hz)
    (by rw [worth_neg hz]; exact neg_le_neg hle)
  rw [worth_neg hx, worth_neg hz] at hneg
  exact neg_le_neg_iff.mp hneg

/-- A number that is worth some float is rounded to itself. -/
theorem worth_eq (h : Nearest v x) (hx : x.isFinite = true) (hz : z.isFinite = true)
    (hv : worth z = v) : worth x = v :=
  le_antisymm (hv ▸ h.worth_le hx hz hv.ge) (hv ▸ h.le_worth hx hz hv.le)

theorem mono (hx : Nearest u x) (hy : Nearest v y) (hfx : x.isFinite = true)
    (hfy : y.isFinite = true) (h : u < v) : worth x ≤ worth y := by
  cases hx with
  | above | below => exact absurd hfx (by decide +kernel)
  | finite _ nearestX =>
    cases hy with
    | above | below => exact absurd hfy (by decide +kernel)
    | finite _ nearestY =>
      -- otherwise each number were on the far side of the middle between the floats
      by_contra hlt
      rw [not_le] at hlt
      have hX := sq_le_sq.mpr (nearestX y hfy)
      have hY := sq_le_sq.mpr (nearestY x hfx)
      nlinarith

end Nearest

/-- A mantissa with its two extra digits tells the quotient of `n` by `p` and where the remainder
lies: at zero, below the middle, in the middle or above it. -/
structure Describes (em : ExtendedMantissa) (n p : Nat) : Prop where
  mantissa : em.mantissa = n / p
  round : em.roundBit = decide (p ≤ 2 * (n % p))
  sticky : em.stickyBit = decide (n % p ≠ 0 ∧ 2 * (n % p) ≠ p)

theorem describes_exact (n : Nat) :
    Describes (ExtendedMantissa.ofMantissaAndAccuracy n .exact) n 1 where
  mantissa := (Nat.div_one n).symm
  round := by rw [Nat.mod_one]; rfl
  sticky := by rw [Nat.mod_one]; rfl

variable {em : ExtendedMantissa} {n p k : Nat}

theorem Describes.shiftRightOne (h : Describes em n p) (hp : 0 < p) :
    Describes em.shiftRightOne n (p * 2) := by
  have hmod := Nat.mod_mul (x := n) (a := p) (b := 2)
  have hlt := Nat.mod_lt n hp
  refine ⟨?_, ?_, ?_⟩
  · rw [ExtendedMantissa.shiftRightOne, h.mantissa, Nat.div_div_eq_div_mul]
  · simp only [ExtendedMantissa.shiftRightOne, h.mantissa, hmod]
    rcases Nat.mod_two_eq_zero_or_one (n / p) with hb | hb <;> rw [hb]
    · exact (decide_eq_false (by omega)).symm
    · exact (decide_eq_true (by omega)).symm
  · simp only [ExtendedMantissa.shiftRightOne, h.round, h.sticky, hmod, ← Bool.decide_or]
    refine decide_eq_decide.mpr ?_
    rcases Nat.mod_two_eq_zero_or_one (n / p) with hb | hb <;> rw [hb] <;> omega

theorem describes_shiftRight (n k : Nat) :
    Describes (ExtendedMantissa.ofMantissaAndAccuracy n .exact >>> k) n (2 ^ k) := by
  show Describes (k.repeat ExtendedMantissa.shiftRightOne _) n (2 ^ k)
  induction k with
  | zero => exact describes_exact n
  | succ k ih =>
    rw [Nat.repeat, Nat.pow_succ]
    exact ih.shiftRightOne (Nat.two_pow_pos k)

theorem Describes.roundedMantissa_cases (h : Describes em n p) :
    em.roundedMantissa = n / p ∧ 2 * (n % p) ≤ p ∨
      em.roundedMantissa = n / p + 1 ∧ p ≤ 2 * (n % p) := by
  obtain ⟨m, round, sticky⟩ := em
  obtain ⟨rfl, hround, hsticky⟩ := h
  cases round with
  | false =>
    have hbelow := of_decide_eq_false hround.symm
    cases sticky <;> exact .inl ⟨rfl, by omega⟩
  | true =>
    have habove := of_decide_eq_true hround.symm
    cases sticky with
    | true => exact .inr ⟨rfl, habove⟩
    | false =>
      have hmiddle := of_decide_eq_false hsticky.symm
      have heven : ExtendedMantissa.roundedMantissa ⟨n / p, true, false⟩ = n / p + n / p % 2 := rfl
      rw [heven]
      omega

theorem Describes.roundedMantissa_near (h : Describes em n p) (hp : 0 < p) :
    2 * |(em.roundedMantissa : ℤ) * p - n| ≤ p := by
  have hdiv : (p : ℤ) * (n / p : ℕ) + (n % p : ℕ) = n := by exact_mod_cast Nat.div_add_mod n p
  have hcases := h.roundedMantissa_cases
  have hlt := Nat.mod_lt n hp
  have hdouble : ∀ a : ℤ, 2 * |a| = |2 * a| := fun a => by rw [abs_mul, abs_two]
  rw [hdouble, abs_le, ← hdiv]
  generalize n % p = rest at hcases hlt ⊢
  rcases hcases with ⟨hr, hle⟩ | ⟨hr, hle⟩
  · have hoff : (em.roundedMantissa : ℤ) * p - (p * (n / p : ℕ) + rest) = -rest := by
      rw [hr]
      ring
    omega
  · have hoff : (em.roundedMantissa : ℤ) * p - (p * (n / p : ℕ) + rest) = p - rest := by
      rw [hr]
      push_cast
      ring
    omega

theorem targetExponent_eq (m : Nat) (e : Int) :
    double.targetExponent (totalExponent m e) = max (m.log2 + e - 52) (-1074) := by
  show max ((m.log2 : Int) + 1 + e - (53 : Nat)) (3 - 2 ^ 10 - (53 : Nat)) = _
  omega

theorem shiftToTargetExponent_eq {e : Int} (hlog : n.log2 = 52 + k) (he : -1074 ≤ e) :
    shiftToTargetExponent double n e .exact =
      (ExtendedMantissa.ofMantissaAndAccuracy n .exact >>> k, e + k) := by
  have hk : (max ((n.log2 : Int) + e - 52) (-1074) - e).toNat = k := by omega
  rw [shiftToTargetExponent, targetExponent_eq, shiftToExponent, hk]

theorem log2_mul_two_pow (hn : n ≠ 0) (d : Nat) : (n * 2 ^ d).log2 = n.log2 + d := by
  rw [Nat.log2_eq_iff (by positivity), Nat.pow_add, Nat.add_right_comm, Nat.pow_add]
  exact ⟨Nat.mul_le_mul_right _ (Nat.log2_self_le hn),
    Nat.mul_lt_mul_of_pos_right Nat.lt_log2_self (Nat.two_pow_pos d)⟩

/-- A number of `53 + k` binary digits is rounded to a multiple of `2 ^ k` nearest to it. -/
theorem roundWithAccuracy_near {e : Int} (s : Sign) (hlog : n.log2 = 52 + k) (he : -1074 ≤ e) :
    ∃ (r m : Nat) (e' : Int) (h : 0 < m),
      roundWithAccuracy double s n e .exact = .finite s m e' h ∧ 2 ^ 52 ≤ m ∧ m < 2 ^ 53 ∧
      e ≤ e' ∧ (m : ℚ) * 2 ^ e' = r * 2 ^ (e + k) ∧ 2 * |(r : ℤ) * 2 ^ k - n| ≤ 2 ^ k := by
  have hn : n ≠ 0 := by
    rintro rfl
    rw [Nat.log2_zero] at hlog
    omega
  have hd := describes_shiftRight n k
  have hnear := hd.roundedMantissa_near (Nat.two_pow_pos k)
  have hcases := hd.roundedMantissa_cases
  have hfirst := shiftToTargetExponent_eq hlog he
  generalize (ExtendedMantissa.ofMantissaAndAccuracy n .exact >>> k) = em at hnear hcases hfirst
  generalize hr : em.roundedMantissa = r at hnear hcases
  have hq : 2 ^ 52 ≤ n / 2 ^ k ∧ n / 2 ^ k < 2 ^ 53 := by
    obtain ⟨hlo, hhi⟩ := (Nat.log2_eq_iff hn).mp hlog
    rw [Nat.le_div_iff_mul_le (Nat.two_pow_pos k), Nat.div_lt_iff_lt_mul (Nat.two_pow_pos k),
      ← Nat.pow_add, ← Nat.pow_add]
    exact ⟨hlo, hhi.trans_eq (by congr 1; omega)⟩
  -- rounding up may bring one digit more, and then the number is a power of two
  obtain ⟨j, m, rfl, hlo, hhi⟩ : ∃ j m : Nat, r = m * 2 ^ j ∧ 2 ^ 52 ≤ m ∧ m < 2 ^ 53 := by
    rcases Nat.lt_or_ge r (2 ^ 53) with hlt | hge
    · exact ⟨0, r, by omega, by omega, hlt⟩
    · exact ⟨1, 2 ^ 52, by omega, by omega, by omega⟩
  have hlog' : (m * 2 ^ j).log2 = 52 + j := by
    rw [log2_mul_two_pow (by omega), (Nat.log2_eq_iff (by omega)).mpr ⟨hlo, hhi⟩]
  have hsecond := shiftToTargetExponent_eq hlog' (e := e + k) (by omega)
  have hm : ((ExtendedMantissa.ofMantissaAndAccuracy (m * 2 ^ j) .exact) >>> j).mantissa = m := by
    rw [shiftRight_mantissa]
    exact Nat.mul_div_cancel m (Nat.two_pow_pos j)
  refine ⟨m * 2 ^ j, m, e + k + j, by omega, ?_, hlo, hhi, by omega, ?_, by exact_mod_cast hnear⟩
  · simp only [roundWithAccuracy, hfirst, hr, hsecond, hm]
    rw [dif_neg (by omega)]
  · rw [zpow_add₀ two_ne_zero, zpow_natCast]
    push_cast
    ring

/-- A whole number is rounded to a multiple of a power of two nearest to it, the power being one
while the number has no more than fifty-three binary digits. -/
theorem round_near (s : Sign) (hn : n ≠ 0) :
    ∃ (r m : Nat) (e : Int) (h : 0 < m),
      UnpackedFloat.round double s n 0 = .finite s m e h ∧ 2 ^ 52 ≤ m ∧ m < 2 ^ 53 ∧ -52 ≤ e ∧
      (m : ℚ) * 2 ^ e = r * 2 ^ (n.log2 - 52) ∧
      2 * |(r : ℤ) * 2 ^ (n.log2 - 52) - n| ≤ 2 ^ (n.log2 - 52) := by
  have hdecrease : decreaseExponent n 0 (double.targetExponent (totalExponent n 0)) =
      (n * 2 ^ (52 - n.log2), -((52 - n.log2 : Nat) : Int)) := by
    have hd : (0 - max ((n.log2 : Int) + 0 - 52) (-1074)).toNat = 52 - n.log2 := by omega
    rw [targetExponent_eq, decreaseExponent, hd, Nat.shiftLeft_eq, zero_sub]
  have hlog : (n * 2 ^ (52 - n.log2)).log2 = 52 + (n.log2 - 52) := by
    rw [log2_mul_two_pow hn]
    omega
  obtain ⟨r, m, e, h, hround, hlo, hhi, he, hworth, hnear⟩ :=
    roundWithAccuracy_near s hlog (e := -((52 - n.log2 : Nat) : Int)) (by omega)
  have hunfold : UnpackedFloat.round double s n 0 = .finite s m e h := by
    rw [← hround, UnpackedFloat.round]
    simp only [hdecrease]
  rcases Nat.le_total n.log2 52 with hle | hge
  · -- no digit is cut off
    have hk : n.log2 - 52 = 0 := by omega
    rw [hk] at hworth hnear ⊢
    obtain rfl : r = n * 2 ^ (52 - n.log2) := by
      have hone : 2 * |(r : ℤ) * 2 ^ 0 - (n * 2 ^ (52 - n.log2) : ℕ)| ≤ 1 := hnear
      have hzero : (r : ℤ) * 2 ^ 0 - (n * 2 ^ (52 - n.log2) : ℕ) = 0 :=
        abs_nonpos_iff.mp (by omega)
      omega
    refine ⟨n, m, e, h, hunfold, hlo, hhi, by omega, hworth.trans ?_, by simp⟩
    push_cast
    rw [add_zero, zpow_neg, zpow_natCast, pow_zero, mul_one,
      mul_inv_cancel_right₀ (pow_ne_zero _ two_ne_zero)]
  · have hd : 52 - n.log2 = 0 := by omega
    rw [hd] at hworth hnear
    refine ⟨r, m, e, h, hunfold, hlo, hhi, by omega, ?_, ?_⟩
    · simpa using hworth
    · simpa using hnear

def ofNatural (n : Nat) : Float := ⟨Float.Model.ofNat n⟩

theorem nearest_multiple {p : ℚ} {r : ℤ} {v : ℚ} (hp : 0 < p) (h : 2 * |r * p - v| ≤ p) (j : ℤ) :
    |r * p - v| ≤ |j * p - v| := by
  rcases eq_or_ne j r with rfl | hne
  · exact le_rfl
  · have hone : (1 : ℚ) ≤ |(j - r : ℚ)| := by
      exact_mod_cast Int.one_le_abs (sub_ne_zero.mpr hne)
    have hapart : p ≤ |j * p - v| + |r * p - v| :=
      calc p ≤ |(j - r : ℚ)| * p := le_mul_of_one_le_left hp.le hone
        _ = |(j * p - v) - (r * p - v)| := by rw [← abs_of_pos hp, ← abs_mul, abs_of_pos hp]; ring_nf
        _ ≤ |j * p - v| + |r * p - v| := abs_sub _ _
    linarith

/-- No float is nearer to a number than the multiples of the power of two that belongs to its
size. -/
theorem near_of_multiple {r : Nat} (hn : n ≠ 0) (z : Float)
    (hnear : 2 * |(r : ℤ) * 2 ^ (n.log2 - 52) - n| ≤ 2 ^ (n.log2 - 52)) :
    |(r * 2 ^ (n.log2 - 52) : ℚ) - n| ≤ |worth z - n| := by
  have hnear' : 2 * |((r : ℤ) * 2 ^ (n.log2 - 52) : ℚ) - n| ≤ 2 ^ (n.log2 - 52) := by
    exact_mod_cast hnear
  have hmultiple := nearest_multiple (pow_pos two_pos _) hnear'
  rw [Int.cast_natCast] at hmultiple
  rcases Nat.lt_or_ge n.log2 53 with hlt | hge
  · -- the number itself is a multiple
    have hone := hmultiple n
    have hk : n.log2 - 52 = 0 := by omega
    rw [hk] at hone ⊢
    simp only [pow_zero, mul_one, Int.cast_natCast, sub_self, abs_zero] at hone ⊢
    exact hone.trans (abs_nonneg _)
  · have hpow : (2 : ℚ) ^ (52 + (n.log2 - 52)) ≤ n := by
      have hlog := Nat.log2_self_le hn
      rw [show 52 + (n.log2 - 52) = n.log2 by omega]
      exact_mod_cast hlog
    rcases le_or_gt (2 ^ (52 + (n.log2 - 52))) |worth z| with hle | hgt
    · obtain ⟨j, hj⟩ := exists_multiple hle
      rw [hj]
      exact hmultiple j
    · -- the power of two between is at least as near as `z`
      have hpower := hmultiple (2 ^ 52)
      rw [Int.cast_pow, Int.cast_ofNat, ← pow_add] at hpower
      have hz := le_abs_self (worth z)
      refine hpower.trans ?_
      rw [abs_of_nonpos (by linarith), abs_of_nonpos (by linarith)]
      linarith

theorem ofNatural_eq {m : Nat} {e : Int} {h : 0 < m} (hn : n ≠ 0)
    (hround : UnpackedFloat.round double .positive n 0 = .finite .positive m e h) :
    ofNatural n = ⟨Float.Model.pack (.finite .positive m e h)⟩ := by
  have hcompare : compare (n : ℤ) 0 = .gt := compare_gt_iff_gt.mpr (by omega)
  have hnormalize : UnpackedFloat.normalize double n 0 .positive = .finite .positive m e h := by
    unfold UnpackedFloat.normalize
    rw [hcompare]
    exact hround
  exact congrArg (fun u => Float.ofModel (Float.Model.pack u)) hnormalize

theorem pack_of_large {m : Nat} {e : Int} (h : 0 < m) (he : 972 ≤ e) :
    (⟨Float.Model.pack (.finite .positive m e h)⟩ : Float) = infinity := by
  have hpack : UnpackedFloat.pack double (.finite .positive m e h) =
      UnpackedFloat.pack double (.infinity .positive) := by
    have hbias : double.exponentBias = 1023 := rfl
    simp only [UnpackedFloat.pack, hbias]
    rw [if_pos (by omega)]
  show _ = Float.ofModel (Float.Model.pack (.infinity .positive))
  simp only [Float.Model.pack, hpack]

theorem outermost_le {r m : Nat} {e : Int} (hn : n ≠ 0) (hm : 2 ^ 52 ≤ m) (he : 972 ≤ e)
    (hworth : (m : ℚ) * 2 ^ e = r * 2 ^ (n.log2 - 52))
    (hnear : 2 * |(r : ℤ) * 2 ^ (n.log2 - 52) - n| ≤ 2 ^ (n.log2 - 52)) : outermost ≤ n := by
  have hpos : (0 : ℚ) < 2 ^ 970 := pow_pos two_pos _
  unfold outermost
  rcases Nat.lt_or_ge n.log2 1024 with hlt | hge
  · have hpow : (2 : ℚ) ^ 970 * 4 ≤ 2 ^ e :=
      calc (2 : ℚ) ^ 970 * 4 = 2 ^ (((970 : ℕ) : ℤ) + 2) := by
            rw [zpow_add₀ two_ne_zero, zpow_natCast]
            norm_num
        _ ≤ 2 ^ e := zpow_le_zpow_right₀ one_le_two (by omega)
    have hlarge : (2 : ℚ) ^ 52 * (2 ^ 970 * 4) ≤ r * 2 ^ (n.log2 - 52) := by
      rw [← hworth]
      exact mul_le_mul (by exact_mod_cast hm) hpow (by positivity) (Nat.cast_nonneg _)
    have hstep : (2 : ℚ) ^ (n.log2 - 52) ≤ 2 ^ 970 * 2 := by
      rw [← pow_succ]
      exact pow_le_pow_right₀ one_le_two (by omega)
    have hoff : 2 * |(r * 2 ^ (n.log2 - 52) : ℚ) - n| ≤ 2 ^ (n.log2 - 52) := by
      exact_mod_cast hnear
    have habs := le_abs_self ((r * 2 ^ (n.log2 - 52) : ℚ) - n)
    generalize (2 : ℚ) ^ 970 = p at hlarge hstep hpos ⊢
    linarith
  · have hpow : (2 : ℚ) ^ 54 * 2 ^ 970 ≤ n := by
      rw [← pow_add]
      exact (pow_le_pow_right₀ one_le_two hge).trans (by exact_mod_cast Nat.log2_self_le hn)
    generalize (2 : ℚ) ^ 970 = p at hpow hpos ⊢
    linarith

/-- A natural number becomes an infinity far out, and elsewhere a multiple of a power of two
nearest to it. -/
theorem ofNatural_cases (hn : n ≠ 0) :
    (ofNatural n = infinity ∧ outermost ≤ n) ∨ (ofNatural n).isFinite = true ∧
      ∃ r : Nat, worth (ofNatural n) = r * 2 ^ (n.log2 - 52) ∧
        2 * |(r : ℤ) * 2 ^ (n.log2 - 52) - n| ≤ 2 ^ (n.log2 - 52) := by
  obtain ⟨r, m, e, h, hround, hlo, hhi, he, hworth, hnear⟩ := round_near .positive hn
  rcases lt_or_ge e 972 with hlt | hge
  · have hstored : Stored (.finite .positive m e h) :=
      .finite _ h (by omega) (by omega) hhi (.inl hlo)
    have hunpack : (ofNatural n).toModel.unpack = .finite .positive m e h := by
      rw [ofNatural_eq hn hround]
      exact unpack_pack hstored
    have hfinite : (ofNatural n).isFinite = true := by
      show (ofNatural n).toModel.unpack.isFinite = true
      rw [hunpack]
      exact hstored.isFinite
    refine .inr ⟨hfinite, r, ?_, hnear⟩
    rw [worth_eq hfinite, hunpack, ← hworth]
    simp [unpackedWorth, Sign.apply]
  · rw [ofNatural_eq hn hround, pack_of_large h hge]
    exact .inl ⟨rfl, outermost_le hn hlo hge hworth hnear⟩

theorem isFinite_ofNatural_zero : (ofNatural 0).isFinite = true := by decide +kernel

theorem worth_ofNatural_zero : worth (ofNatural 0) = 0 :=
  (worth_eq isFinite_ofNatural_zero).trans rfl

theorem nearest_ofNatural (n : Nat) : Nearest n (ofNatural n) := by
  rcases eq_or_ne n 0 with rfl | hn
  · refine .finite isFinite_ofNatural_zero fun z _ => ?_
    rw [worth_ofNatural_zero, Nat.cast_zero, sub_zero, abs_zero]
    exact abs_nonneg _
  · rcases ofNatural_cases hn with ⟨hx, hfar⟩ | ⟨hfinite, r, hworth, hnear⟩
    · rw [hx]
      exact .above hfar
    · refine .finite hfinite fun z _ => ?_
      rw [hworth]
      exact near_of_multiple hn z hnear

theorem isFinite_ofNatural (h : n ≤ 2 ^ k) (hk : k ≤ 970) : (ofNatural n).isFinite = true := by
  refine (nearest_ofNatural n).isFinite (lt_of_le_of_lt ?_ (two_pow_lt_outermost hk))
  rw [Nat.abs_cast]
  exact_mod_cast h

/-- Nothing is lost of a number that ends in as many zeros as there are digits to be cut off. -/
theorem worth_ofNatural (hdvd : 2 ^ (n.log2 - 52) ∣ n) (h : (n : ℚ) < outermost) :
    worth (ofNatural n) = n := by
  rcases eq_or_ne n 0 with rfl | hn
  · rw [worth_ofNatural_zero, Nat.cast_zero]
  · rcases ofNatural_cases hn with ⟨-, hfar⟩ | ⟨-, r, hworth, hnear⟩
    · exact absurd h hfar.not_gt
    · have hnear' : 2 * |((r : ℤ) * 2 ^ (n.log2 - 52) : ℚ) - n| ≤ 2 ^ (n.log2 - 52) := by
        exact_mod_cast hnear
      obtain ⟨j, hj⟩ := hdvd
      have hj' : (n : ℚ) = (j : ℤ) * 2 ^ (n.log2 - 52) := by
        rw [mul_comm]
        exact_mod_cast hj
      have hzero := nearest_multiple (pow_pos two_pos _) hnear' j
      rw [← hj', sub_self, abs_zero, abs_nonpos_iff, sub_eq_zero] at hzero
      rw [hworth, ← hzero, Int.cast_natCast]

theorem worth_ofNatural_of_le (h : n ≤ 2 ^ 53) : worth (ofNatural n) = n := by
  refine worth_ofNatural ?_ ?_
  · rcases h.eq_or_lt with rfl | hlt
    · decide
    · have hlog : n.log2 - 52 = 0 := by
        rcases eq_or_ne n 0 with rfl | hn
        · rfl
        · have := (Nat.log2_lt hn).mpr hlt
          omega
      rw [hlog, pow_zero]
      exact one_dvd n
  · exact lt_of_le_of_lt (by exact_mod_cast h) (two_pow_lt_outermost (k := 53) (by omega))

def ofWhole (i : ℤ) : Float := if i < 0 then -ofNatural i.natAbs else ofNatural i.natAbs

theorem nearest_ofWhole (i : ℤ) : Nearest i (ofWhole i) := by
  have h := nearest_ofNatural i.natAbs
  unfold ofWhole
  split
  · next hneg =>
    have habs : (i : ℚ) = -(i.natAbs : ℚ) := by
      rw [← Int.cast_natCast, ← Int.cast_neg]
      congr 1
      omega
    rw [habs]
    exact h.neg
  · next hpos =>
    have habs : (i : ℚ) = (i.natAbs : ℚ) := by
      rw [← Int.cast_natCast]
      congr 1
      omega
    rw [habs]
    exact h

theorem ofInteger_eq (i : Int64) : ofInteger i = ofWhole i.toInt := by
  have hsize : i.toInt.natAbs.toUInt64.toFloat = ofNatural i.toInt.natAbs := by
    have hlt : i.toInt.natAbs < 2 ^ 64 := by
      have hlo := i.le_toInt
      have hhi := i.toInt_lt
      omega
    show ofNatural i.toInt.natAbs.toUInt64.toNat = _
    rw [Nat.toUInt64, UInt64.toNat_ofNat_of_lt' hlt]
  have hneg : i < 0 ↔ i.toInt < 0 := Int64.lt_iff_toInt_lt
  unfold ofInteger ofWhole
  simp only [hsize, hneg]

theorem isFinite_ofWhole {i : ℤ} {k : Nat} (h : i.natAbs ≤ 2 ^ k) (hk : k ≤ 970) :
    (ofWhole i).isFinite = true := by
  have hfinite := isFinite_ofNatural h hk
  unfold ofWhole
  split
  · exact isFinite_neg hfinite
  · exact hfinite

/-- Integers of no more than fifty-three binary digits are floats. -/
theorem worth_ofWhole {i : ℤ} (h : i.natAbs ≤ 2 ^ 53) : worth (ofWhole i) = i := by
  have hworth := worth_ofNatural_of_le h
  unfold ofWhole
  split
  · next hneg =>
    rw [worth_neg (isFinite_ofNatural h (by omega)), hworth, ← Int.cast_natCast, ← Int.cast_neg]
    congr 1
    omega
  · next hpos =>
    rw [hworth, ← Int.cast_natCast]
    congr 1
    omega

theorem worth_ofNatural_two_pow (hk : k ≤ 970) : worth (ofNatural (2 ^ k)) = 2 ^ k := by
  have hworth := worth_ofNatural (n := 2 ^ k)
  rw [Nat.log2_two_pow, Nat.cast_pow, Nat.cast_ofNat] at hworth
  exact hworth (pow_dvd_pow 2 (Nat.sub_le k 52)) (two_pow_lt_outermost hk)

namespace Nearest

variable {v : ℚ} {x : Float}

/-- Rounding does not go past a power of two. -/
theorem two_pow_le_worth (h : Nearest v x) (hx : x.isFinite = true) (hk : k ≤ 970)
    (hle : 2 ^ k ≤ v) : 2 ^ k ≤ worth x := by
  rw [← worth_ofNatural_two_pow hk] at hle ⊢
  exact h.le_worth hx (isFinite_ofNatural le_rfl hk) hle

theorem worth_le_neg_two_pow (h : Nearest v x) (hx : x.isFinite = true) (hk : k ≤ 970)
    (hle : v ≤ -2 ^ k) : worth x ≤ -2 ^ k := by
  have hneg := h.neg.two_pow_le_worth (isFinite_neg hx) hk (le_neg_of_le_neg hle)
  rw [worth_neg hx] at hneg
  exact le_neg_of_le_neg hneg

/-- A rounded integer is truncated to the integer if that is a float, and to the end of the range if
it is out of range. -/
theorem truncate_eq {i : ℤ} (h : Nearest i x) (hi : i.natAbs ≤ 2 ^ 53 ∨ 2 ^ 63 ≤ i.natAbs) :
    truncate x = Int64.ofIntClamp i := by
  cases h with
  | finite hx nearest =>
    have h : Nearest i x := .finite hx nearest
    rcases hi with hsmall | hlarge
    · exact truncate_of_whole hx (h.worth_eq hx (isFinite_ofWhole hsmall (by omega))
        (worth_ofWhole hsmall))
    · rcases lt_or_ge i 0 with hneg | hpos
      · have hle : i ≤ -2 ^ 63 := by omega
        rw [ofIntClamp_of_le hle]
        exact truncate_of_le hx (h.worth_le_neg_two_pow hx (by omega) (by exact_mod_cast hle))
      · have hge : 2 ^ 63 ≤ i := by omega
        rw [ofIntClamp_of_ge hge]
        exact truncate_of_ge hx (h.two_pow_le_worth hx (by omega) (by exact_mod_cast hge))
  | above far =>
    have hle := (two_pow_lt_outermost (k := 63) (by omega)).le.trans far
    rw [ofIntClamp_of_ge (by exact_mod_cast hle)]
    decide +kernel
  | below far =>
    have hle := far.trans (neg_le_neg (two_pow_lt_outermost (k := 63) (by omega)).le)
    rw [ofIntClamp_of_le (by exact_mod_cast hle)]
    decide +kernel

end Nearest

section Integers

variable (i : Int64)

theorem natAbs_toInt_le : i.toInt.natAbs ≤ 2 ^ 63 := by
  have hlo := i.le_toInt
  have hhi := i.toInt_lt
  omega

theorem nearest_ofInteger : Nearest i.toInt (ofInteger i) := by
  rw [ofInteger_eq]
  exact nearest_ofWhole _

theorem isFinite_ofInteger : (ofInteger i).isFinite = true := by
  rw [ofInteger_eq]
  exact isFinite_ofWhole (natAbs_toInt_le i) (by omega)

variable {i}

theorem worth_ofInteger (h : i.toInt.natAbs ≤ 2 ^ 53) : worth (ofInteger i) = i.toInt := by
  rw [ofInteger_eq]
  exact worth_ofWhole h

theorem compare_worth_ofInteger_zero : compare (worth (ofInteger i)) 0 = compare i.toInt 0 := by
  have hnear := nearest_ofInteger i
  have hfinite := isFinite_ofInteger i
  rcases lt_trichotomy i.toInt 0 with hneg | hzero | hpos
  · have hle := hnear.worth_le_neg_two_pow (k := 0) hfinite (by omega)
      (by exact_mod_cast (show i.toInt ≤ -2 ^ 0 by omega))
    rw [compare_lt_iff_lt.mpr hneg, compare_lt_iff_lt]
    linarith
  · rw [compare_eq_iff_eq.mpr hzero, compare_eq_iff_eq, worth_ofInteger (by omega), hzero]
    rfl
  · have hle := hnear.two_pow_le_worth (k := 0) hfinite (by omega)
      (by exact_mod_cast (show 2 ^ 0 ≤ i.toInt by omega))
    rw [compare_gt_iff_gt.mpr hpos, compare_gt_iff_gt]
    linarith

end Integers

end Fabula.Number
