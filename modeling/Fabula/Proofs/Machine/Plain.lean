import Fabula.Machine.Scene
import Fabula.Machine.Values
import Fabula.Machine.Variables

/-! Computations that run no block are plain: they count no operation, queue and serve nothing, tell
of no failure, and always come to an end. Whether a computation is plain can be read off its parts,
so the parts that operations are made of are given as instances. -/

namespace Fabula

variable {α β : Type}

/-- Between the machines no operation was counted, nothing was queued or served, and no fatal cue
was given. -/
structure Machine.Keeps (m n : Machine) : Prop where
  operations : n.operations = m.operations
  queued : n.queued = m.queued
  served : n.served = m.served
  cues : ∀ c ∈ n.cues, c ∈ m.cues ∨ c.kind ≠ .fatal

namespace Machine.Keeps

variable {m n k : Machine}

theorem of_eq (ho : n.operations = m.operations) (hq : n.queued = m.queued)
    (hs : n.served = m.served) (hc : n.cues = m.cues) : m.Keeps n :=
  ⟨ho, hq, hs, fun _ h => .inl (hc ▸ h)⟩

theorem rfl : m.Keeps m := of_eq (Eq.refl _) (Eq.refl _) (Eq.refl _) (Eq.refl _)

theorem trans (h : m.Keeps n) (h' : n.Keeps k) : m.Keeps k where
  operations := h'.operations.trans h.operations
  queued := h'.queued.trans h.queued
  served := h'.served.trans h.served
  cues c hc := by
    rcases h'.cues c hc with hc | hc
    · exact h.cues c hc
    · exact .inr hc

theorem of_push {c : Cue} (hc : c.kind ≠ .fatal) : m.Keeps { m with cues := m.cues.push c } where
  operations := Eq.refl _
  queued := Eq.refl _
  served := Eq.refl _
  cues c' h := by
    rcases Array.mem_push.mp h with h | rfl
    · exact .inl h
    · exact .inr hc

theorem traced (env : Env) (topic : Topic) (message : Machine → String) :
    m.Keeps (m.traced env topic message) := by
  unfold Machine.traced
  split
  · exact of_push (by simp [Cue.saying])
  · exact rfl

theorem watched (env : Env) (wanted : TraceMask) (event : Machine → Event) :
    m.Keeps (m.watched env wanted event) := by
  unfold Machine.watched
  split
  · exact of_eq (Eq.refl _) (Eq.refl _) (Eq.refl _) (Eq.refl _)
  · exact rfl

end Machine.Keeps

inductive Outcome.Plain (m : Machine) : Outcome α → Prop
  | done {a : α} {n : Machine} (kept : m.Keeps n) : Plain m (.done a n)
  | stopped {s : Signal} {n : Machine} (kept : m.Keeps n)
      (signal : ∀ limit, s ≠ .runaway (.operations limit)) : Plain m (.stopped s n)

theorem Outcome.Plain.earlier {m n : Machine} {o : Outcome α} (h : m.Keeps n) (ho : o.Plain n) :
    o.Plain m := by
  cases ho with
  | done kept => exact .done (h.trans kept)
  | stopped kept signal => exact .stopped (h.trans kept) signal

namespace Exec

class Plain (x : Exec α) : Prop where
  outcome : ∀ m, (x m).Plain m

instance Plain.bind {x : Exec α} {f : α → Exec β} [hx : Plain x] [hf : ∀ a, Plain (f a)] :
    Plain (x >>= f) where
  outcome m := by
    have h := hx.outcome m
    rw [bind_apply]
    generalize x m = o at h ⊢
    cases h with
    | @done a n kept => exact ((hf a).outcome n).earlier kept
    | stopped kept signal => exact .stopped kept signal

theorem Plain.andThen {x : Exec α} {f : α → Exec β} [Plain x] (h : ∀ a, Plain (f a)) :
    Plain (x >>= f) := inferInstance

instance (a : α) : Plain (pure a : Exec α) := ⟨fun _ => .done .rfl⟩

instance {x : Exec α} [hx : Plain x] : Plain (discard x) :=
  inferInstanceAs (Plain (x >>= fun _ => pure PUnit.unit))

instance {p : Prop} [Decidable p] {x y : Exec α} [hx : Plain x] [hy : Plain y] :
    Plain (if p then x else y) := by
  split <;> assumption

theorem plain_stop {s : Signal} (h : ∀ limit, s ≠ .runaway (.operations limit)) :
    Plain (stop s : Exec α) := ⟨fun _ => .stopped .rfl h⟩

instance (f : Fault) : Plain (fault f : Exec α) := plain_stop (by simp)

instance (message : String) : Plain (misuse message : Exec α) := plain_stop (by simp)

instance (f : Machine → α) : Plain (see f) := ⟨fun _ => .done .rfl⟩

instance (f : State → Except Fault α) : Plain (ask f) where
  outcome m := by
    unfold ask
    split
    · exact .done .rfl
    · exact .stopped .rfl (by simp)

instance (f : Heap → α) : Plain (withHeap f) := inferInstanceAs (Plain (see _))

theorem plain_change {f : Machine → Machine} (h : ∀ m : Machine, m.Keeps (f m)) :
    Plain (change f) :=
  ⟨fun m => .done (h m)⟩

theorem plain_emit {c : Cue} (h : c.kind ≠ .fatal) : Plain (emit c) :=
  plain_change fun _ => .of_push h

instance (env : Env) (topic : Topic) (message : Machine → String) :
    Plain (trace env topic message) :=
  plain_change fun _ => .traced env topic message

instance (env : Env) (wanted : TraceMask) (event : Machine → Event) :
    Plain (record env wanted event) :=
  plain_change fun _ => .watched env wanted event

instance (v : Value) : Plain (push v) := plain_change fun _ => .of_eq rfl rfl rfl rfl

instance : Plain ownership := inferInstanceAs (Plain (see _))

instance (f : Ownership → Ownership) : Plain (changeOwnership f) :=
  plain_change fun _ => .of_eq rfl rfl rfl rfl

instance (h : Handle) (f : Array Value → Array Value) : Plain (changeList h f) :=
  plain_change fun _ => .of_eq rfl rfl rfl rfl

instance (locals : Table Value) : Plain (setLocals locals) := by
  refine plain_change fun m => ?_
  split
  · exact .rfl
  · exact .of_eq rfl rfl rfl rfl

instance (items : List Value) : Plain (newList items) :=
  ⟨fun _ => .done (.of_eq rfl rfl rfl rfl)⟩

instance (f : RandomSource → α × RandomSource) : Plain (draw f) :=
  ⟨fun _ => .done (.of_eq rfl rfl rfl rfl)⟩

instance (op : Opcode) : Plain (pop op) where
  outcome m := by
    unfold pop
    split
    · exact .stopped .rfl (by simp)
    · exact .done (.of_eq rfl rfl rfl rfl)

instance (op : Opcode) (n : Nat) : Plain (popMany op n) where
  outcome m := by
    unfold popMany
    split
    · exact .stopped .rfl (by simp)
    · exact .done (.of_eq rfl rfl rfl rfl)

instance (op : Opcode) : Plain (frame op) where
  outcome m := by
    unfold frame
    split
    · exact .stopped .rfl (by simp)
    · exact .done .rfl

instance (env : Env) (identity : String) (f : Context → Context) :
    Plain (changeContext env identity f) where
  outcome m := by
    unfold changeContext
    split
    · exact .stopped .rfl (by simp)
    · exact .done (.of_eq rfl rfl rfl rfl)

instance (op : Opcode) (part : Option α) : Plain (required op part) := by
  unfold required
  cases part <;> infer_instance

instance (op : Operation) : Plain (firstOperand op) := inferInstanceAs (Plain (required _ _))

instance (op : Operation) : Plain (secondOperand op) := inferInstanceAs (Plain (required _ _))

instance (op : Operation) : Plain (firstName op) := inferInstanceAs (Plain (_ >>= _))

instance (op : Operation) : Plain (secondName op) := inferInstanceAs (Plain (_ >>= _))

instance (env : Env) (op : Operation) : Plain (firstElement env op) :=
  inferInstanceAs (Plain (_ >>= _))

instance (op : Opcode) (expected found : String) : Plain (wrongKind op expected found : Exec α) :=
  inferInstanceAs (Plain (misuse _))

instance (env : Env) (op : Opcode) : Plain (popElement env op) := by
  refine Plain.andThen fun v => Plain.andThen fun e => ?_
  cases e <;> infer_instance

instance (env : Env) (op : Opcode) (expected : String) (accepts : ElementKind → Bool) :
    Plain (popElementOf env op expected accepts) := inferInstanceAs (Plain (_ >>= _))

instance (env : Env) (op : Opcode) : Plain (popObject env op) :=
  inferInstanceAs (Plain (popElementOf _ _ _ _))

instance (env : Env) (op : Opcode) : Plain (popPlayer env op) :=
  inferInstanceAs (Plain (popElementOf _ _ _ _))

instance (env : Env) (op : Opcode) : Plain (popRoom env op) :=
  inferInstanceAs (Plain (popElementOf _ _ _ _))

instance (env : Env) (op : Opcode) : Plain (popHolder env op) :=
  inferInstanceAs (Plain (popElementOf _ _ _ _))

instance (op : Opcode) : Plain (popList op) := by
  refine Plain.andThen fun v => ?_
  cases v <;> infer_instance

instance (env : Env) (op : Opcode) : Plain (popAction env op) := by
  refine Plain.andThen fun v => ?_
  cases v with
  | action identity =>
    dsimp only
    cases env.story.action? identity <;> infer_instance
  | _ => infer_instance

instance (op : Opcode) : Plain (popText op) := inferInstanceAs (Plain (_ >>= _))

instance (env : Env) (identity name : String) : Plain (variableOf env identity name) :=
  inferInstanceAs (Plain (_ >>= _))

instance (env : Env) (f : Frame) (name : String) : Plain (lookUp env f name) := by
  unfold lookUp
  cases f.locals[name]? <;> infer_instance

instance (env : Env) (op : Opcode) (name : String) : Plain (readVariable env op name) :=
  inferInstanceAs (Plain (_ >>= _))

instance (env : Env) (op : Operation) : Plain (pushValue env op) := by
  refine Plain.andThen fun v => ?_
  cases v <;> infer_instance

instance (op : Opcode) : Plain (pushInitList op) := by
  refine Plain.andThen fun count => ?_
  cases count.index? <;> infer_instance

instance (env : Env) (op : Operation) (o : StackOp) : Plain (stackOp env op o) := by
  cases o <;> simp only [stackOp, popValue, clearValue, pushElementValue, popElementValue,
    clearElementValue] <;> infer_instance

instance (op : Operation) : Plain (operator op) := by
  refine Plain.andThen fun v => ?_
  cases v <;> infer_instance

instance (op : Operation) : Plain (arithmetic op) := inferInstanceAs (Plain (_ >>= _))

theorem plain_say (op : Opcode) {kind : CueKind} (lineEnd : String) (h : kind ≠ .fatal) :
    Plain (say op kind lineEnd) :=
  Plain.andThen fun _ => plain_emit h

instance (op : Opcode) (o : CueOp) : Plain (cueOp op o) := by
  cases o with
  | pause => exact plain_emit (by simp)
  | wait => exact Plain.andThen fun _ => plain_emit (by simp)
  | _ => exact plain_say op _ (by simp)

instance (env : Env) (op : Opcode) : Plain (popWord env op) := inferInstanceAs (Plain (_ >>= _))

/-- Of the operations on who holds what, only browsing runs blocks. -/
theorem plain_holdingOp (env : Env) (op : Opcode) (browse : Exec Unit) {o : HoldingOp}
    (h : o ≠ .browse) : Plain (holdingOp env op browse o) := by
  cases o <;> simp only [holdingOp, changeWord, askWord] <;> first
    | infer_instance
    | exact absurd rfl h

instance (op : Opcode) : Plain (popPlace op) := inferInstanceAs (Plain (_ >>= _))

instance (op : Opcode) : Plain (popSought op) := inferInstanceAs (Plain (_ >>= _))

instance (op : Opcode) (o : ListOp) : Plain (listOp op o) := by
  cases o with
  | add => exact inferInstanceAs (Plain (_ >>= _))
  | addAt =>
    refine Plain.andThen fun place => Plain.andThen fun v =>
      Plain.andThen fun h => ?_
    cases place.index? <;> infer_instance
  | get | removeAt =>
    refine Plain.andThen fun p => Plain.andThen fun item => ?_
    cases item <;> infer_instance
  | set =>
    refine Plain.andThen fun v => Plain.andThen fun p =>
      Plain.andThen fun item => ?_
    cases item <;> infer_instance
  | remove | indexOf =>
    refine Plain.andThen fun p => ?_
    obtain ⟨found, h⟩ := p
    cases found <;> infer_instance
  | contains => exact inferInstanceAs (Plain (_ >>= _))

instance (env : Env) (op : Opcode) (v : Value) : Plain (identityOf env op v) := by
  unfold identityOf
  split
  · infer_instance
  · refine Plain.andThen fun e => ?_
    cases e <;> infer_instance

instance (env : Env) (op : Opcode) (o : ConvertOp) : Plain (convertOp env op o) := by
  cases o <;> simp only [convertOp] <;> infer_instance

instance (op : Opcode) (o : RandomOp) : Plain (randomOp op o) := by
  cases o <;> simp only [randomOp] <;> infer_instance

end Exec

end Fabula
