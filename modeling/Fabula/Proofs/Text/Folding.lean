import Mathlib.Tactic.Linarith
import Fabula.Text.Case

/-! Folding is done once: the lower case of a text is its own lower case. Whatever a character maps
to is a character that no mapping changes, which is a property of the table of runs. -/

namespace Fabula.Text

def CaseRun.span (r : CaseRun) : Nat := (r.count - 1) * r.step

def CaseRun.ofOneParity (r : CaseRun) : Bool := Nat.ble r.count 1 || Nat.beq r.step 2

/-- The targets of one run are no sources of the other: they are all below or all above them, or of
the other parity. -/
def CaseRun.apart (r q : CaseRun) : Bool :=
  Nat.blt (r.target + r.span) q.source || (Nat.blt (q.source + q.span) r.target ||
    (Nat.beq ((r.target + q.source) % 2) 1 && r.ofOneParity && q.ofOneParity))

/-- The targets of a run are code points of characters, and no ASCII capitals. -/
def CaseRun.inRange (r : CaseRun) : Bool :=
  Nat.blt 0x5a r.target && (Nat.blt (r.target + r.span) 0xd800 ||
    (Nat.blt 0xdfff r.target && Nat.blt (r.target + r.span) 0x110000))

theorem mul_step_le_span {r : CaseRun} {k : Nat} (h : k < r.count) : k * r.step ≤ r.span :=
  Nat.mul_le_mul_right r.step (by omega)

theorem mod_two_of_ofOneParity {r : CaseRun} (h : r.ofOneParity = true) {k : Nat}
    (hk : k < r.count) : k * r.step % 2 = 0 := by
  simp only [CaseRun.ofOneParity, Bool.or_eq_true, Nat.ble_eq, Nat.beq_eq] at h
  rcases h with h | h
  · obtain rfl : k = 0 := by omega
    simp
  · rw [h]
    omega

theorem map?_eq_some {r : CaseRun} {n m : Nat} (h : r.map? n = some m) :
    ∃ k < r.count, n = r.source + k * r.step ∧ m = r.target + k * r.step := by
  unfold CaseRun.map? at h
  split at h
  · rename_i hr
    obtain ⟨hl, hu, hm⟩ := hr
    have hd := Nat.div_add_mod' (n - r.source) r.step
    rw [hm, Nat.add_zero] at hd
    refine ⟨(n - r.source) / r.step, ?_, by omega, ?_⟩
    · by_contra hc
      have hle := Nat.mul_le_mul_right r.step (Nat.le_of_not_lt hc)
      omega
    · rw [hd]
      exact (Option.some.inj h).symm
  · cases h

theorem map?_target_of_apart {r q : CaseRun} (h : r.apart q = true) {k : Nat} (hk : k < r.count) :
    q.map? (r.target + k * r.step) = none := by
  cases hm : q.map? (r.target + k * r.step) with
  | none => rfl
  | some m =>
    obtain ⟨j, hj, he, -⟩ := map?_eq_some hm
    have h₁ := mul_step_le_span hk
    have h₂ := mul_step_le_span hj
    simp only [CaseRun.apart, Bool.or_eq_true, Bool.and_eq_true, Nat.blt_eq, Nat.beq_eq] at h
    rcases h with h | h | ⟨⟨h, hr⟩, hq⟩
    · omega
    · omega
    · have h₃ := mod_two_of_ofOneParity hr hk
      have h₄ := mod_two_of_ofOneParity hq hj
      omega

theorem toNat_ofNat_of_inRange {r : CaseRun} (h : r.inRange = true) {k : Nat} (hk : k < r.count) :
    (Char.ofNat (r.target + k * r.step)).toNat = r.target + k * r.step := by
  have h₁ := mul_step_le_span hk
  simp only [CaseRun.inRange, Bool.or_eq_true, Bool.and_eq_true, Nat.blt_eq] at h
  have hv : (r.target + k * r.step).isValidChar := by
    unfold Nat.isValidChar
    omega
  rw [Char.ofNat, dif_pos hv]
  rfl

theorem numbersOfLines_cons (line : List Char) (lines : List String) :
    numbersOfLines (String.ofList line :: lines) = numbersFrom 0 line ++ numbersOfLines lines := by
  simp [numbersOfLines, numbersOfLine]

theorem CodeSet.mem_ofLines (lines : List String) (c : Char) :
    (ofLines lines).mem c = (rangesFrom 0 (numbersOfLines lines)).any fun range =>
      range.1 ≤ c.toNat && c.toNat ≤ range.2 := by
  simp [ofLines, mem]

def CaseRun.single (n : Nat) : CaseRun := ⟨n, 1, 1, n⟩

/-- No target of the run is mapped by the runs, nor is it the dotted capital I. -/
def CaseRun.settles (r : CaseRun) (runs : List CaseRun) : Bool :=
  r.inRange && r.apart (.single 0x130) && runs.all fun q => r.apart q

/-- The targets of all mappings: those of the dotted capital I, of the capital sigma, and of the
runs. -/
def lowerTargets : List CaseRun :=
  [.single 0x69, .single 0x307, .single 0x3c2, .single 0x3c3] ++ lowerRuns

/-- What the table maps to is never mapped further. -/
theorem lowerTargets_settle : (lowerTargets.all fun r => r.settles lowerRuns) = true := by
  unfold lowerTargets
  unfold lowerRuns CaseRun.ofLines
  repeat rw [numbersOfLines_cons]
  decide +kernel

theorem lowerExpansions_eq : lowerExpansions = [(0x130, [0x69, 0x307])] := by
  unfold lowerExpansions expansionsOfLines
  rw [numbersOfLines_cons]
  decide +kernel

theorem sigma_mem_lowerRuns : (lowerRuns.any fun q => (q.map? 0x3a3).isSome) = true := by
  unfold lowerRuns CaseRun.ofLines
  repeat rw [numbersOfLines_cons]
  decide +kernel

/-- The character is its own lower case wherever it stands. -/
def Settled (c : Char) : Prop := lowerChar c = [c] ∧ c ≠ 'Σ'

theorem settled_ascii {c : Char} (h : c.toNat < 128) : Settled c.toLower := by
  have ha : ∀ n < 128, lowerChar (Char.ofNat n).toLower = [(Char.ofNat n).toLower] ∧
      (Char.ofNat n).toLower ≠ 'Σ' := by decide
  have hc := ha c.toNat h
  rwa [Char.ofNat_toNat] at hc

theorem settled_small {c : Char} (hl : 0x5a < c.toNat) (h : c.toNat < 128) : Settled c := by
  have ha : ∀ n < 128, 0x5a < n → lowerChar (Char.ofNat n) = [Char.ofNat n] ∧
      Char.ofNat n ≠ 'Σ' := by decide
  have hc := ha c.toNat h hl
  rwa [Char.ofNat_toNat] at hc

theorem settled_of_unmapped {c : Char} (h : 128 ≤ c.toNat) (he : c.toNat ≠ 0x130)
    (hr : ∀ q ∈ lowerRuns, q.map? c.toNat = none) : Settled c := by
  constructor
  · have hf : (lowerRuns.findSome? fun q => q.map? c.toNat) = none :=
      List.findSome?_eq_none_iff.mpr hr
    have hx : (lowerExpansions.find? fun entry => entry.1 == c.toNat) = none := by
      simp [lowerExpansions_eq, Ne.symm he]
    rw [lowerChar, if_neg (by omega), mapBeyondAscii, hx]
    simp only [hf]
  · rintro rfl
    obtain ⟨q, hq, hs⟩ := List.any_eq_true.mp sigma_mem_lowerRuns
    have hn : q.map? 0x3a3 = none := hr q hq
    rw [hn] at hs
    cases hs

theorem settled_target {r : CaseRun} (hr : r.settles lowerRuns = true) {k : Nat}
    (hk : k < r.count) : Settled (Char.ofNat (r.target + k * r.step)) := by
  simp only [CaseRun.settles, Bool.and_eq_true, List.all_eq_true] at hr
  obtain ⟨⟨hi, hd⟩, ha⟩ := hr
  have hn := toNat_ofNat_of_inRange hi hk
  by_cases hs : r.target + k * r.step < 128
  · refine settled_small ?_ (by omega)
    simp only [CaseRun.inRange, Bool.and_eq_true, Nat.blt_eq] at hi
    omega
  · refine settled_of_unmapped (by omega) ?_ fun q hq => ?_
    · intro he
      have hm := map?_target_of_apart hd hk
      rw [hn] at he
      simp [he, CaseRun.map?, CaseRun.single] at hm
    · rw [hn]
      exact map?_target_of_apart (ha q hq) hk

theorem settled_of_mem_lowerChar {c d : Char} (h : d ∈ lowerChar c) : Settled d := by
  have ht := List.all_eq_true.mp lowerTargets_settle
  unfold lowerChar at h
  split at h
  · rename_i hc
    rw [List.mem_singleton] at h
    exact h ▸ settled_ascii hc
  · rename_i hc
    unfold mapBeyondAscii at h
    split at h
    · rename_i entry he
      have hm := List.mem_of_find?_eq_some he
      rw [lowerExpansions_eq, List.mem_singleton] at hm
      subst hm
      simp only [List.map_cons, List.map_nil, List.mem_cons, List.not_mem_nil, or_false] at h
      rcases h with rfl | rfl
      · exact settled_target (k := 0) (ht (.single 0x69) (by simp [lowerTargets])) (by decide)
      · exact settled_target (k := 0) (ht (.single 0x307) (by simp [lowerTargets])) (by decide)
    · rename_i he
      have hx : c.toNat ≠ 0x130 := by
        intro hx
        simp [lowerExpansions_eq, hx] at he
      split at h
      · rename_i n hf
        obtain ⟨r, hr, hm⟩ := List.exists_of_findSome?_eq_some hf
        obtain ⟨k, hk, -, rfl⟩ := map?_eq_some hm
        rw [List.mem_singleton] at h
        exact h ▸ settled_target (ht r (by simp [lowerTargets, hr])) hk
      · rename_i hf
        rw [List.mem_singleton] at h
        exact h ▸ settled_of_unmapped (by omega) hx (List.findSome?_eq_none_iff.mp hf)

theorem settled_lowerSigma (before after : List Char) : Settled (lowerSigma before after) := by
  have ht := List.all_eq_true.mp lowerTargets_settle
  unfold lowerSigma
  split
  · exact settled_target (k := 0) (ht (.single 0x3c2) (by simp [lowerTargets])) (by decide)
  · exact settled_target (k := 0) (ht (.single 0x3c3) (by simp [lowerTargets])) (by decide)

theorem settled_of_mem_lowerFrom (before cs : List Char) :
    ∀ d ∈ lowerFrom before cs, Settled d := by
  induction cs generalizing before with
  | nil => simp [lowerFrom]
  | cons c cs ih =>
    intro d hd
    rw [lowerFrom, List.mem_append] at hd
    rcases hd with hd | hd
    · split at hd
      · rw [List.mem_singleton] at hd
        exact hd ▸ settled_lowerSigma before cs
      · exact settled_of_mem_lowerChar hd
    · exact ih (c :: before) d hd

theorem lowerFrom_of_settled (before cs : List Char) (h : ∀ c ∈ cs, Settled c) :
    lowerFrom before cs = cs := by
  induction cs generalizing before with
  | nil => rfl
  | cons c cs ih =>
    have hc := h c (by simp)
    have ht := ih (c :: before) fun d hd => h d (by simp [hd])
    rw [lowerFrom, if_neg hc.2, hc.1, ht]
    rfl

@[simp] theorem fold_fold (s : String) : fold (fold s) = fold s := by
  unfold fold lowercase
  rw [String.toList_ofList, lowerFrom_of_settled _ _ (settled_of_mem_lowerFrom [] s.toList)]

end Fabula.Text
