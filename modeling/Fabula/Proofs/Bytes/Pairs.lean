import Fabula.Proofs.Bytes.Yields

/-! Two readers side by side. They are paired if from every place they take the same bytes, and fail
with the same error or come to results that belong together. -/

namespace Fabula.Reader

variable {α β γ δ σ τ ι : Type} {P : α → β → Prop} {Q : γ → δ → Prop}

/-- Both readers ended at the same place, with the same error or with related results. -/
inductive Paired (P : α → β → Prop) :
    Except DecodeError α × Cursor → Except DecodeError β × Cursor → Prop
  | ok {a : α} {b : β} {c : Cursor} (results : P a b) : Paired P (.ok a, c) (.ok b, c)
  | error {e : DecodeError} {c : Cursor} : Paired P (.error e, c) (.error e, c)

def Pairs (P : α → β → Prop) (x : Reader α) (y : Reader β) : Prop := ∀ c, Paired P (x c) (y c)

theorem pairs_pure {a : α} {b : β} (h : P a b) : Pairs P (pure a) (pure b) := fun _ => .ok h

theorem pairs_fail (e : DecodeError) : Pairs P (fail e) (fail e) := fun _ => .error

theorem Pairs.bind {x : Reader α} {y : Reader β} {f : α → Reader γ} {g : β → Reader δ}
    (h : Pairs P x y) (hf : ∀ a b, P a b → Pairs Q (f a) (g b)) :
    Pairs Q (x >>= f) (y >>= g) := by
  intro c
  have hc := h c
  rw [bind_apply, bind_apply]
  generalize x c = p at hc ⊢
  generalize y c = q at hc ⊢
  cases hc with
  | ok results => exact hf _ _ results _
  | error => exact .error

theorem Yields.pairs {x : Reader α} {P : α → Prop} (h : Yields x P) :
    Pairs (fun a b => a = b ∧ P a) x x := by
  intro c
  cases hx : x c with
  | mk r c' =>
    cases r with
    | error e => exact .error
    | ok a => exact .ok ⟨rfl, h c c' a hx⟩

theorem pairs_after {x : Reader α} {f : α → Reader γ} {g : α → Reader δ}
    (hf : ∀ a, Pairs Q (f a) (g a)) : Pairs Q (x >>= f) (x >>= g) := by
  have hx : Yields x fun _ => True := fun _ _ _ _ => trivial
  refine hx.pairs.bind ?_
  rintro a b ⟨rfl, -⟩
  exact hf a

theorem Pairs.foldlM {P : σ → τ → Prop} {step : σ → ι → Reader σ} {step' : τ → ι → Reader τ}
    (h : ∀ s t i, P s t → Pairs P (step s i) (step' t i)) (items : List ι) {s : σ} {t : τ}
    (hst : P s t) : Pairs P (items.foldlM step s) (items.foldlM step' t) := by
  induction items generalizing s t with
  | nil => exact pairs_pure hst
  | cons i items ih => exact (h s t i hst).bind fun _ _ => ih

theorem Pairs.counted {P : σ → τ → Prop} {step : σ → Reader σ} {step' : τ → Reader τ}
    (h : ∀ s t, P s t → Pairs P (step s) (step' t)) {s : σ} {t : τ} (hst : P s t) :
    Pairs P (counted step s) (counted step' t) := by
  refine pairs_after fun n => ?_
  induction n generalizing s t with
  | zero => exact pairs_pure hst
  | succ n ih => exact (h s t hst).bind fun _ _ hst' => ih hst'

/-- Both readers refuse the bytes with the same error, or both take them all. -/
theorem Pairs.complete {x : Reader α} {y : Reader β} (h : Pairs P x y) (bytes : Bytes) :
    (∃ e, x.complete bytes = .error e ∧ y.complete bytes = .error e) ∨
      ∃ a b, x.complete bytes = .ok a ∧ y.complete bytes = .ok b ∧ P a b := by
  have hc := h ⟨bytes, 0⟩
  unfold Reader.complete
  generalize x ⟨bytes, 0⟩ = p at hc ⊢
  generalize y ⟨bytes, 0⟩ = q at hc ⊢
  cases hc with
  | error => exact .inl ⟨_, rfl, rfl⟩
  | @ok a b c results =>
    simp only
    split
    · exact .inr ⟨a, b, rfl, rfl, results⟩
    · exact .inl ⟨_, rfl, rfl⟩

end Fabula.Reader
