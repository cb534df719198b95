import Fabula.Proofs.Machine.Keeping
import Fabula.Proofs.Session.WellKept

/-! The machine is kept well through every operation: the state stays well kept, and only blocks of
live elements run. A guard that lets pass what is in order around an operation never does anything
else in its place. -/

namespace Fabula

/-- The state is well kept, and every running block is that of a live element. -/
structure Machine.WellKept (story : Story) (m : Machine) : Prop where
  state : m.state.WellKept story
  frames : ∀ f ∈ m.frames, story.Casts f.element

namespace Machine.WellKept

variable {story : Story} {m n : Machine}

theorem of_same (h : m.WellKept story) (hs : n.state = m.state) (hf : n.frames = m.frames) :
    n.WellKept story :=
  ⟨hs ▸ h.state, hf ▸ h.frames⟩

theorem invariant (ho : Story.Orderly { story with knownDigest := none }) :
    Invariant story (State.WellKept story) story.Casts Anything (Machine.WellKept story) where
  grounds := State.WellKept.grounds ho
  state _ h := h.state
  unseen h hs _ hf _ := h.of_same hs hf
  values _ _ _ := .intro
  push h _ := h.of_same rfl rfl
  drop _ h := h.of_same rfl rfl
  running h f hf := ⟨h.frames f hf, fun _ _ _ => .intro⟩
  enter h hf _ := ⟨h.state, List.forall_mem_cons.mpr ⟨hf, h.frames⟩⟩
  leave h := ⟨h.state, fun f hf => h.frames f (List.mem_of_mem_tail hf)⟩
  pending _ _ := .intro
  giveBack h _ := h.of_same rfl rfl
  putContext h hc he _ := ⟨h.state.putContext hc he, h.frames⟩
  alloc h _ := ⟨⟨.of_cast h.state.cast h.state.coherent h.state.amongCast, h.frames⟩, .intro⟩
  modify h _ _ := ⟨.of_cast h.state.cast h.state.coherent h.state.amongCast, h.frames⟩
  draw _ h := ⟨.of_cast h.state.cast h.state.coherent h.state.amongCast, h.frames⟩
  change h hfits := ⟨h.state.change hfits, h.frames⟩

end Machine.WellKept

namespace Outcome

variable {α β : Type} {story : Story}

def Kept (story : Story) (P : α → Prop) : Outcome α → Prop
  | .done a m => m.WellKept story ∧ P a
  | .stopped _ m => m.WellKept story
  | .exhausted => True

theorem kept_iff {P : α → Prop} {o : Outcome α} :
    o.Kept story P ↔ o.Keeps (Machine.WellKept story) P := by
  cases o <;> rfl

end Outcome

namespace Exec

variable {α β : Type} {story : Story} {env : Env}

abbrev Upkeeps (story : Story) {α : Type} (P : α → Prop) (x y : Exec α) : Prop :=
  Keeps (Machine.WellKept story) P x y

theorem rules_upkeeps (ho : Story.Orderly { env.story with knownDigest := none }) :
    Rules env env (State.WellKept env.story) env.story.Casts Anything (Upkeeps env.story) :=
  (Machine.WellKept.invariant ho).rules rfl

end Exec

def Fault.missesElement : Fault → Bool
  | unknownElement _ | archetypeReference _ => true
  | _ => false

def Opcode.usesOwnVariable : Opcode → Bool
  | stack .pushValue | stack .popValue | stack .popLocalValue | stack .clearValue => true
  | _ => false

def Outcome.Finds {α : Type} (o : Outcome α) : Prop :=
  ∀ f n, o = .stopped (.fatal f) n → f.missesElement = false

namespace Exec

variable {α β : Type} {story : Story} {env : Env} {P : α → Prop} {Q : β → Prop}

/-- From a well-kept machine the computation misses no element and leaves it well kept. -/
def Finds (story : Story) {α : Type} (P : α → Prop) (x : Exec α) : Prop :=
  ∀ m, m.WellKept story → (x m).Kept story P ∧ (x m).Finds

theorem finds_of {x : Exec α} (hx : Upkeeps story P x x)
    (hf : ∀ m, m.WellKept story → (x m).Finds) : Finds story P x :=
  fun m hm => ⟨Outcome.kept_iff.mpr (hx m hm).2, hf m hm⟩

theorem finds_done {x : Exec α} (hx : Upkeeps story P x x)
    (hf : ∀ m, m.WellKept story → ∃ a n, x m = .done a n) : Finds story P x := by
  refine finds_of hx fun m hm f n hstop => ?_
  obtain ⟨a, n', hdone⟩ := hf m hm
  rw [hdone] at hstop
  cases hstop

theorem finds_pure {a : α} (h : P a) : Finds story P (pure a) :=
  finds_done (keeps_of fun _ hm => ⟨hm, h⟩) fun _ _ => ⟨_, _, rfl⟩

theorem Finds.bind {x : Exec α} {f : α → Exec β} (hx : Finds story P x)
    (hf : ∀ a, P a → Finds story Q (f a)) : Finds story Q (x >>= f) := by
  intro m hm
  obtain ⟨hkept, hfinds⟩ := hx m hm
  rw [bind_apply]
  cases hxm : x m with
  | exhausted => exact ⟨trivial, fun f n h => by cases h⟩
  | stopped s n =>
    rw [hxm] at hkept hfinds
    refine ⟨hkept, fun f n' h => hfinds f n' ?_⟩
    cases h
    rfl
  | done a n =>
    rw [hxm] at hkept
    exact hf a hkept.2 n hkept.1

variable (ho : Story.Orderly { env.story with knownDigest := none })

include ho

theorem finds_trace (topic : Topic) (message : Machine → String) :
    Finds env.story Anything (trace env topic message) :=
  finds_done ((Machine.WellKept.invariant ho).keeps_trace topic message) fun _ _ => ⟨_, _, rfl⟩

theorem finds_required (op : Opcode) (part : Option α) :
    Finds env.story Anything (required op part) := by
  refine finds_of ((rules_upkeeps ho).forget ((rules_upkeeps ho).required op part)) ?_
  intro m _ f n h
  cases part with
  | none =>
    cases h
    rfl
  | some a => cases h

theorem finds_firstName (op : Operation) : Finds env.story Anything (firstName op) :=
  (finds_required ho _ _).bind fun _ _ => finds_required ho _ _

theorem finds_pop (op : Opcode) : Finds env.story Anything (pop op) := by
  refine finds_of ((rules_upkeeps ho).pop op) fun m _ f n h => ?_
  unfold pop at h
  split at h
  · cases h
    rfl
  · cases h

theorem finds_frame (op : Opcode) :
    Finds env.story (fun f => env.story.Casts f.element) (frame op) := by
  refine finds_of (((rules_upkeeps ho).frame op).mono fun _ hf => hf.1) fun m _ f n h => ?_
  unfold frame at h
  split at h
  · cases h
    rfl
  · cases h

theorem finds_push (v : Value) : Finds env.story Anything (push v) :=
  finds_done ((rules_upkeeps ho).push .intro) fun _ _ => ⟨_, _, rfl⟩

theorem finds_setLocals (locals : Table Value) : Finds env.story Anything (setLocals locals) :=
  finds_done ((rules_upkeeps ho).setLocals fun _ _ _ => .intro) fun _ _ => ⟨_, _, rfl⟩

theorem finds_changeContext {e : ElementRef} (he : env.story.Casts e) {f : Context → Context}
    (hf : ∀ c, (f c).element = c.element) :
    Finds env.story Anything (changeContext env e.identity f) := by
  have hkeeps := (rules_upkeeps ho).changeContext e.identity fun c => ⟨hf c, fun _ _ _ _ => .intro⟩
  refine finds_done hkeeps fun m hm => ?_
  obtain ⟨c, hc⟩ := hm.state.context_of_casts ho he
  exact ⟨_, _, by rw [changeContext, hc]⟩

theorem finds_variableOf {e : ElementRef} (he : env.story.Casts e) (name : String) :
    Finds env.story Anything (variableOf env e.identity name) := by
  refine finds_done ((rules_upkeeps ho).variableOf e.identity name) fun m hm => ?_
  obtain ⟨c, hc⟩ := hm.state.context_of_casts ho he
  simp [variableOf, bind_apply, ask, hc]

theorem finds_readVariable (op : Opcode) (name : String) :
    Finds env.story Anything (readVariable env op name) := by
  have hlookUp : ∀ f : Frame, env.story.Casts f.element →
      Finds env.story Anything (lookUp env f name) := by
    intro f hf
    unfold lookUp
    cases f.locals[name]? with
    | none => exact finds_variableOf ho hf name
    | some v => exact finds_pure .intro
  refine (finds_frame ho op).bind fun f hf => (hlookUp f hf).bind fun v _ => ?_
  refine (finds_trace ho _ _).bind fun _ _ => ?_
  exact finds_pure .intro

theorem finds_pushValue (op : Operation) : Finds env.story Anything (pushValue env op) := by
  refine (finds_required ho _ _).bind fun v _ => ?_
  cases v with
  | varName name => exact (finds_readVariable ho _ _).bind fun v _ => finds_push ho v
  | list a =>
    have hitems := (rules_upkeeps ho).withHeap fun heap => heap.items a
    refine (finds_done hitems fun _ _ => ⟨_, _, rfl⟩).bind fun items _ => ?_
    have hnew : Upkeeps env.story Anything (newList items) (newList items) :=
      (rules_upkeeps ho).newList fun _ _ => .intro
    refine (finds_done hnew fun _ _ => ⟨_, _, rfl⟩).bind fun v _ => ?_
    exact finds_push ho v
  | _ => exact finds_push ho _

theorem finds_popValue (op : Operation) (onlyLocal : Bool) :
    Finds env.story Anything (popValue env op onlyLocal) := by
  refine (finds_firstName ho op).bind fun name _ => (finds_pop ho _).bind fun v _ => ?_
  refine (finds_trace ho _ _).bind fun _ _ => (finds_frame ho _).bind fun f hf => ?_
  split
  · exact finds_setLocals ho _
  · exact finds_changeContext ho hf fun _ => rfl

theorem finds_clearValue (op : Operation) : Finds env.story Anything (clearValue env op) := by
  refine (finds_firstName ho op).bind fun name _ => (finds_trace ho _ _).bind fun _ _ => ?_
  refine (finds_frame ho _).bind fun f hf => ?_
  split
  · exact finds_setLocals ho _
  · exact finds_changeContext ho hf fun _ => rfl

/-- An operation on a variable of its own finds the running element. -/
theorem finds_execute {op : Operation} (hop : op.opcode.usesOwnVariable = true)
    (run : Block → Exec Unit) (limit : Nat) :
    Finds env.story Anything (execute env run limit op) := by
  have hcount : Finds env.story Anything (count env) := by
    refine finds_of (Machine.WellKept.invariant ho).keeps_count fun m _ f n h => ?_
    simp only [count] at h
    split at h <;> cases h
  let event (m : Machine) : Event := .operation op.opcode m.operations
  have hrecord : Finds env.story Anything (record env .operations event) :=
    finds_done ((Machine.WellKept.invariant ho).keeps_record _ _) fun _ _ => ⟨_, _, rfl⟩
  refine hcount.bind fun _ _ => hrecord.bind fun _ _ => (finds_trace ho _ _).bind fun _ _ => ?_
  unfold perform
  unfold Opcode.usesOwnVariable at hop
  split at hop
  · rename_i h
    rw [h]
    exact finds_pushValue ho op
  · rename_i h
    rw [h]
    exact finds_popValue ho op false
  · rename_i h
    rw [h]
    exact finds_popValue ho op true
  · rename_i h
    rw [h]
    exact finds_clearValue ho op
  · cases hop

end Exec

/-- Things are in order around an operation: the machine is well kept before it and wherever it ends,
and an operation on a variable of its own misses no element. -/
structure Operation.InOrder (story : Story) (op : Operation) (m : Machine) (o : Outcome Unit) :
    Prop where
  before : m.WellKept story
  after : o.Kept story Anything
  finds : op.opcode.usesOwnVariable = true → o.Finds

namespace Guard

def Spares (guard : Guard) (story : Story) : Prop :=
  ∀ op x m, op.InOrder story m (x m) → guard op x m = x m

open Classical in
noncomputable def alarm (story : Story) : Guard := fun op x m =>
  if op.InOrder story m (x m) then x m else .exhausted

theorem alarm_spares (story : Story) : (alarm story).Spares story := fun _ _ _ h => if_pos h

end Guard

end Fabula
