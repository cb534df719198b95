import Fabula.Bytes.Reader

/-! What is known of a result for the reason alone that a reader gave it, whatever the bytes were.
The property goes through readers part by part; of what is read on the way nothing need be known. -/

namespace Fabula.Reader

variable {α β σ ι : Type} {P : α → Prop} {Q : β → Prop}

def Yields (read : Reader α) (P : α → Prop) : Prop :=
  ∀ (c c' : Cursor) (a : α), read c = (.ok a, c') → P a

theorem yields_pure {a : α} (h : P a) : Yields (pure a) P := by
  intro c c' b hb
  cases hb
  exact h

theorem yields_fail (e : DecodeError) : Yields (fail e) P := by
  intro c c' a ha
  cases ha

theorem Yields.mono {P' : α → Prop} {read : Reader α} (h : Yields read P) (hP : ∀ a, P a → P' a) :
    Yields read P' := fun c c' a ha => hP a (h c c' a ha)

theorem Yields.bind {x : Reader α} {f : α → Reader β} (hx : Yields x P)
    (hf : ∀ a, P a → Yields (f a) Q) : Yields (x >>= f) Q := by
  intro c c' b hb
  rw [bind_apply] at hb
  split at hb
  · rename_i a c₁ ha
    exact hf a (hx c c₁ a ha) c₁ c' b hb
  · cases hb

theorem yields_after {x : Reader α} {f : α → Reader β} (hf : ∀ a, Yields (f a) Q) :
    Yields (x >>= f) Q := by
  have hx : Yields x fun _ => True := fun _ _ _ _ => trivial
  exact hx.bind fun a _ => hf a

theorem yields_ofStory {x : Except StoryError α} (h : ∀ a, x = .ok a → P a) :
    Yields (ofStory x) P := by
  cases x with
  | ok a => exact yields_pure (h a rfl)
  | error e => exact yields_fail _

theorem yields_tagged {what : String} {tag? : UInt8 → Option α}
    (h : ∀ b a, tag? b = some a → P a) : Yields (tagged what tag?) P := by
  refine yields_after fun b => ?_
  split
  · rename_i a ha
    exact yields_pure (h b a ha)
  · exact yields_fail _

theorem Yields.counted {P : σ → Prop} {step : σ → Reader σ} {s : σ} (hs : P s)
    (hstep : ∀ s, P s → Yields (step s) P) : Yields (counted step s) P := by
  refine yields_after fun n => ?_
  induction n generalizing s with
  | zero => exact yields_pure hs
  | succ n ih =>
    have hsucc : iterate step (n + 1) s = step s >>= iterate step n := rfl
    rw [hsucc]
    exact (hstep s hs).bind fun s' hs' => ih hs'

theorem Yields.items {read : Reader α} (h : Yields read P) :
    Yields (items read) fun found => ∀ a ∈ found, P a := by
  have hstep : ∀ found : List α, (∀ a ∈ found, P a) →
      Yields (do return (← read) :: found) fun found => ∀ a ∈ found, P a := fun found hfound =>
    h.bind fun a ha => yields_pure (List.forall_mem_cons.mpr ⟨ha, hfound⟩)
  refine (Yields.counted (List.forall_mem_nil P) hstep).bind fun found hfound => ?_
  exact yields_pure fun a ha => hfound a (List.mem_reverse.mp ha)

theorem Yields.foldlM {P : σ → Prop} {step : σ → ι → Reader σ} {items : List ι} {s : σ} (hs : P s)
    (hstep : ∀ s i, P s → Yields (step s i) P) : Yields (items.foldlM step s) P := by
  induction items generalizing s with
  | nil => exact yields_pure hs
  | cons i items ih => exact (hstep s i hs).bind fun s' hs' => ih hs'

theorem Yields.complete {read : Reader α} (h : Yields read P) {bytes : Bytes} {a : α}
    (ha : read.complete bytes = .ok a) : P a := by
  unfold Reader.complete at ha
  split at ha
  · rename_i b c hb
    split at ha
    · rw [← Except.ok.inj ha]
      exact h _ c b hb
    · cases ha
  · cases ha

end Fabula.Reader
