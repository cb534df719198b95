import Fabula.Proofs.Machine.Keeping
import Fabula.Proofs.Story.Operands

/-! Values stay canonical while a machine runs. Lists are kept apart by when they were made. Those
made since the session started are reached from the stack and the variables, hold canonical values
and reach only one another, while older ones may hold anything and are never reached. -/

namespace Fabula

structure Value.Regular (v : Value) : Prop where
  canonical : v.Canonical
  bound : v.kind ≠ .varName

/-- The value is regular, and if it is a list then one of those from `base` on. -/
structure Value.Since (base : Nat) (v : Value) : Prop extends Regular v where
  since : ∀ a, v = .list a → base ≤ a

namespace Value

variable {base : Nat} {v : Value}

theorem since_list {a : Handle} (h : base ≤ a) : (list a).Since base :=
  ⟨⟨trivial, by simp [kind]⟩, fun b hb => by cases hb; exact h⟩

theorem since_of_single (hc : v.Canonical) (hs : v.isShared = false) (hk : v.kind ≠ .varName) :
    v.Since base :=
  ⟨⟨hc, hk⟩, fun a ha => by cases ha ▸ hs⟩

theorem Simple.since (h : v.Simple) : v.Since base := since_of_single h.canonical h.single h.bound

end Value

structure State.Since (base : Nat) (st : State) : Prop where
  grown : base ≤ st.heap.size
  bindings : ∀ {identity : String} {c : Context}, st.contexts[identity]? = some c →
    Holds (Value.Since base) c.bindings
  items : ∀ {a : Handle}, base ≤ a → ∀ v ∈ st.heap.items a, v.Since base

namespace State.Since

variable {base : Nat} {st : State}

theorem alloc (h : st.Since base) {items : List Value} (hitems : ∀ v ∈ items, v.Since base) :
    State.Since base { st with heap := (st.heap.alloc items).2 } where
  grown := by
    rw [Heap.size_alloc]
    exact Nat.le_succ_of_le h.grown
  bindings := h.bindings
  items := by
    intro a ha
    rw [Heap.items_alloc]
    split
    · exact hitems
    · exact h.items ha

theorem modify (h : st.Since base) {a : Handle} (ha : base ≤ a) {f : Array Value → Array Value}
    (hf : ∀ cell : Array Value, (∀ v ∈ cell, v.Since base) → ∀ v ∈ f cell, v.Since base) :
    State.Since base { st with heap := st.heap.modify a f } where
  grown := by
    rw [Heap.size_modify]
    exact h.grown
  bindings := h.bindings
  items := by
    intro b hb v hv
    have hcell : ∀ v ∈ st.heap.cell a, v.Since base := fun v hv =>
      h.items ha v (Array.mem_toList_iff.mpr hv)
    rw [Heap.items, Heap.cell_modify] at hv
    split at hv
    · exact hf _ hcell v (Array.mem_toList_iff.mp hv)
    · exact h.items hb v hv

theorem putContext (h : st.Since base) (identity : String) {c : Context}
    (hc : Holds (Value.Since base) c.bindings) : (st.putContext identity c).Since base where
  grown := h.grown
  bindings := by
    have hcontexts : Holds (fun c => Holds (Value.Since base) c.bindings) st.contexts :=
      fun _ _ hc => h.bindings hc
    exact fun {_ _} hi => hcontexts.insert (Text.fold identity) hc _ _ hi
  items := h.items

end State.Since

structure Machine.Since (base : Nat) (m : Machine) : Prop where
  state : m.state.Since base
  stack : ∀ v ∈ m.stack.values, v.Since base
  locals : ∀ f ∈ m.frames, Holds (Value.Since base) f.locals
  pending : ∀ v, m.pendingReturn = some v → v.Since base

namespace Machine

variable {base : Nat} {m : Machine}

theorem since_of_state {st : State} (h : st.Since base) : Machine.Since base { state := st } :=
  ⟨h, fun _ hv => absurd hv List.not_mem_nil, fun _ hf => absurd hf List.not_mem_nil,
    fun _ hp => by cases hp⟩

/-- Whatever operations do with a story whose operands are canonical and no lists, all that the
machine holds stays regular. -/
theorem Since.invariant {story : Story} (hlists : story.listFree = true)
    (hconstants : story.Constants Value.Canonical) :
    Invariant story (State.Since base) Anything (Value.Since base) (Machine.Since base) where
  grounds :=
    { world := .intro
      resolve := fun _ _ => .intro
      live := fun _ _ => .intro
      held := fun _ _ => .intro
      simple := Value.Simple.since
      items := fun hst ha hv => hst.items (ha.since _ rfl) _ hv
      bindings := fun hst hc => hst.bindings hc
      block := fun hb v hv hk => Value.since_of_single (hconstants.resolveBlock? hb v hv)
        ((Story.listFree_iff.mp hlists).resolveBlock? hb v hv) hk
      function := fun hf v hv hk => Value.since_of_single (hconstants.resolveFunction? hf v hv)
        ((Story.listFree_iff.mp hlists).resolveFunction? hf v hv) hk }
  state _ h := h.state
  unseen h hstate hstack hframes hpending :=
    ⟨hstate ▸ h.state, hstack ▸ h.stack, hframes ▸ h.locals, hpending ▸ h.pending⟩
  values h := h.stack
  push h hv := { h with stack := List.forall_mem_cons.mpr ⟨hv, h.stack⟩ }
  drop _ h := { h with stack := fun v hv => h.stack v (List.mem_of_mem_drop hv) }
  running h f hf := ⟨.intro, h.locals f hf⟩
  enter h _ hf := { h with locals := List.forall_mem_cons.mpr ⟨hf, h.locals⟩ }
  leave h := { h with locals := fun f hf => h.locals f (List.mem_of_mem_tail hf) }
  pending h hp := h.pending _ hp
  giveBack h hv := { h with pending := hv }
  putContext h _ _ hc := { h with state := h.state.putContext _ hc }
  alloc h hitems := ⟨{ h with state := h.state.alloc hitems }, Value.since_list h.state.grown⟩
  modify h ha hf := { h with state := h.state.modify (ha.since _ rfl) hf }
  draw _ h := { h with state := ⟨h.state.grown, h.state.bindings, h.state.items⟩ }
  change h _ := { h with state := ⟨h.state.grown, h.state.bindings, h.state.items⟩ }

/-- A value that the machine holds: on the stack, in a local variable, in a variable of an element,
as the value that a function is about to give back, or inside a list among these. -/
inductive Reaches (m : Machine) : Value → Prop
  | stack {v : Value} (there : v ∈ m.stack.values) : Reaches m v
  | frame {f : Frame} {name : String} {v : Value} (running : f ∈ m.frames)
      (there : f.locals[name]? = some v) : Reaches m v
  | held {identity name : String} {c : Context} {v : Value}
      (live : m.state.contexts[identity]? = some c) (there : c.bindings[name]? = some v) :
      Reaches m v
  | pending {v : Value} (there : m.pendingReturn = some v) : Reaches m v
  | item {a : Handle} {v : Value} (reached : Reaches m (.list a))
      (there : v ∈ m.state.heap.items a) : Reaches m v

def Canonical (m : Machine) : Prop := ∀ v, m.Reaches v → v.Regular

theorem Since.reaches (h : m.Since base) {v : Value} (hv : m.Reaches v) : v.Since base := by
  induction hv with
  | stack there => exact h.stack _ there
  | frame running there => exact h.locals _ running _ _ there
  | held live there => exact h.state.bindings live _ _ there
  | pending there => exact h.pending _ there
  | item _ there ih => exact h.state.items (ih.since _ rfl) _ there

theorem Since.canonical (h : m.Since base) : m.Canonical := fun _ hv => (h.reaches hv).toRegular

end Machine

namespace Guard

/-- The guard lets an operation pass where all values are canonical before it and wherever it
ends. -/
def SparesCanonical (guard : Guard) : Prop :=
  ∀ op x m, m.Canonical → (x m).Keeps Machine.Canonical Anything → guard op x m = x m

open Classical in
noncomputable def canonicalOnly : Guard := fun _ x m =>
  if m.Canonical ∧ (x m).Keeps Machine.Canonical Anything then x m else .exhausted

theorem canonicalOnly_spares : canonicalOnly.SparesCanonical := fun _ _ _ hm hx => if_pos ⟨hm, hx⟩

end Guard

end Fabula
