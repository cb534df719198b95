import Mathlib.Order.Basic
import Fabula.Machine.Basic

/-! Two computations run side by side. They agree if from machines that correspond they come to
outcomes that correspond. What corresponds may depend on a world that only grows while the
computations run, such as a pairing of lists that gets longer whenever both sides make a new one. -/

namespace Fabula

variable {W α β γ δ : Type} [Preorder W]

/-- Outcomes that correspond in a world that is the given one or a later one. -/
inductive Outcome.Agree (M : W → Machine → Machine → Prop) (A : W → α → β → Prop) (w : W) :
    Outcome α → Outcome β → Prop
  | done {w' : W} {a : α} {b : β} {m n : Machine} (later : w ≤ w') (results : A w' a b)
      (machines : M w' m n) : Agree M A w (.done a m) (.done b n)
  | stopped {w' : W} {s : Signal} {m n : Machine} (later : w ≤ w') (machines : M w' m n) :
      Agree M A w (.stopped s m) (.stopped s n)
  | exhausted : Agree M A w .exhausted .exhausted

theorem Outcome.Agree.earlier {M : W → Machine → Machine → Prop} {A : W → α → β → Prop} {w w' : W}
    (h : w ≤ w') {x : Outcome α} {y : Outcome β} (hxy : Agree M A w' x y) : Agree M A w x y := by
  cases hxy with
  | done later results machines => exact .done (h.trans later) results machines
  | stopped later machines => exact .stopped (h.trans later) machines
  | exhausted => exact .exhausted

namespace Exec

def Same : W → α → α → Prop := fun _ a b => a = b

def Agree (M : W → Machine → Machine → Prop) (A : W → α → β → Prop) (w : W) (x : Exec α)
    (y : Exec β) : Prop :=
  ∀ (w' : W) (m n : Machine), w ≤ w' → M w' m n → Outcome.Agree M A w' (x m) (y n)

variable {M : W → Machine → Machine → Prop} {A : W → α → β → Prop} {B : W → γ → δ → Prop} {w : W}

theorem Agree.later {w' : W} (hw : w ≤ w') {x : Exec α} {y : Exec β} (h : Agree M A w x y) :
    Agree M A w' x y :=
  fun _ _ _ hw' hm => h _ _ _ (hw.trans hw') hm

theorem agree_pure {a : α} {b : β} (h : ∀ w', w ≤ w' → A w' a b) :
    Agree M A w (pure a : Exec α) (pure b : Exec β) :=
  fun w' _ _ hw hm => .done le_rfl (h w' hw) hm

theorem agree_pure_same (a : α) : Agree M Same w (pure a : Exec α) (pure a) :=
  agree_pure fun _ _ => rfl

theorem agree_stop (s : Signal) : Agree M A w (stop s : Exec α) (stop s : Exec β) :=
  fun _ _ _ _ hm => .stopped le_rfl hm

theorem agree_see {f : Machine → α} {g : Machine → β}
    (h : ∀ w' m n, w ≤ w' → M w' m n → A w' (f m) (g n)) : Agree M A w (see f) (see g) :=
  fun w' m n hw hm => .done le_rfl (h w' m n hw hm) hm

theorem agree_change {f g : Machine → Machine}
    (h : ∀ w' m n, w ≤ w' → M w' m n → M w' (f m) (g n)) :
    Agree M Same w (change f) (change g) :=
  fun w' m n hw hm => .done le_rfl rfl (h w' m n hw hm)

theorem Agree.bind {x : Exec α} {y : Exec β} {f : α → Exec γ} {g : β → Exec δ}
    (hx : Agree M A w x y)
    (hf : ∀ w', w ≤ w' → ∀ a b, A w' a b → Agree M B w' (f a) (g b)) :
    Agree M B w (x >>= f) (y >>= g) := by
  intro w₁ m n hw hm
  have h := hx w₁ m n hw hm
  rw [bind_apply, bind_apply]
  generalize x m = p at h ⊢
  generalize y n = q at h ⊢
  cases h with
  | done later results machines =>
    exact (hf _ (hw.trans later) _ _ results _ _ _ le_rfl machines).earlier later
  | stopped later machines => exact .stopped later machines
  | exhausted => exact .exhausted

theorem Agree.bind_same {x y : Exec α} {f : α → Exec γ} {g : α → Exec δ}
    (hx : Agree M Same w x y) (hf : ∀ w', w ≤ w' → ∀ a, Agree M B w' (f a) (g a)) :
    Agree M B w (x >>= f) (y >>= g) := by
  refine hx.bind fun w' hw a b hab => ?_
  obtain rfl : a = b := hab
  exact hf w' hw a

theorem Agree.discarded {x : Exec α} {y : Exec β} (h : Agree M A w x y) :
    Agree M Same w (discard x) (discard y) :=
  h.bind fun _ _ _ _ _ => agree_pure_same _

theorem agree_forEach {f g : α → Exec Unit} (items : List α)
    (h : ∀ a ∈ items, Agree M Same w (f a) (g a)) :
    Agree M Same w (forEach f items) (forEach g items) := by
  induction items with
  | nil => exact fun _ _ _ _ hm => .done le_rfl rfl hm
  | cons a items ih =>
    intro w₁ m n hw hm
    rw [forEach_cons, forEach_cons]
    have hrest := ih fun b hb => h b (List.mem_cons_of_mem _ hb)
    have hb : Agree M Same w (f a >>= fun _ => forEach f items)
        (g a >>= fun _ => forEach g items) :=
      (h a List.mem_cons_self).bind_same fun _ hw' _ => hrest.later hw'
    exact hb _ _ _ hw hm

theorem agree_rounds {x y : Exec Bool} (k : Nat) (h : Agree M Same w x y) :
    Agree M Same w (rounds x k) (rounds y k) := by
  induction k with
  | zero => exact fun _ _ _ _ _ => .exhausted
  | succ k ih =>
    intro w₁ m n hw hm
    have hr := h _ _ _ hw hm
    simp only [rounds]
    generalize x m = p at hr ⊢
    generalize y n = q at hr ⊢
    cases hr with
    | @done _ goesOn goesOn' _ _ later results machines =>
      obtain rfl : goesOn = goesOn' := results
      cases goesOn with
      | true => exact (ih _ _ _ (hw.trans later) machines).earlier later
      | false => exact .done later rfl machines
    | stopped later machines => exact .stopped later machines
    | exhausted => exact .exhausted

end Exec

end Fabula
