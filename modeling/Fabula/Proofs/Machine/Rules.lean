import Fabula.Machine.Execute
import Fabula.Proofs.Ownership
import Fabula.Proofs.Story.Blocks

/-! Reasoning about operations by their parts. Two computations run side by side, usually one
operation in two settings. A relation between computations that the parts of operations keep is kept
by every operation, and by every block as soon as it is kept by the blocks inside. What is asked of
the parts is listed here once, and the way through all operations is gone once. On the way some
elements and some values can be known to be good: those that are found in the state, on the stack or
in the story. -/

namespace Fabula

/-- A relation between computations, with something known of their common result. -/
abbrev ExecRelation := ∀ {α : Type}, (α → Prop) → Exec α → Exec α → Prop

section Arrays

variable {α : Type} {P : α → Prop} {xs : Array α} (h : ∀ a ∈ xs, P a)

include h

theorem forall_mem_push {a : α} (ha : P a) : ∀ b ∈ xs.push a, P b := by
  intro b hb
  rcases Array.mem_push.mp hb with hb | rfl
  · exact h b hb
  · exact ha

theorem forall_mem_insertIdx (i : Nat) {a : α} (ha : P a) :
    ∀ b ∈ xs.insertIdxIfInBounds i a, P b := by
  intro b hb
  unfold Array.insertIdxIfInBounds at hb
  split at hb
  · rcases Array.mem_insertIdx.mp hb with rfl | hb
    · exact ha
    · exact h b hb
  · exact h b hb

theorem forall_mem_eraseIdx (i : Nat) : ∀ b ∈ xs.eraseIdxIfInBounds i, P b := by
  intro b hb
  unfold Array.eraseIdxIfInBounds at hb
  split at hb
  · exact h b (Array.mem_of_mem_eraseIdx hb)
  · exact h b hb

theorem forall_mem_set (i : Nat) {a : α} (ha : P a) : ∀ b ∈ xs.setIfInBounds i a, P b := by
  intro b hb
  rcases Array.mem_or_eq_of_mem_setIfInBounds hb with hb | rfl
  · exact h b hb
  · exact ha

end Arrays

theorem eq_ok_of_toOption {α : Type} {x : Except Fault α} {a : α} (h : x.toOption = some a) :
    x = .ok a := by
  cases x with
  | error => cases h
  | ok b => rw [Option.some.inj h]

theorem State.of_context {st : State} {story : Story} {identity : String} {c : Context}
    (h : st.context story identity = .ok c) : st.contexts[Text.fold identity]? = some c := by
  unfold State.context at h
  split at h
  · rename_i found
    rw [found, Except.ok.inj h]
  · split at h <;> cases h

namespace Machine

theorem traced_eq (m : Machine) (env : Env) (topic : Topic) (message : Machine → String) :
    ∃ cues, m.traced env topic message = { m with cues := cues } := by
  unfold traced
  split
  · exact ⟨_, rfl⟩
  · exact ⟨m.cues, rfl⟩

theorem watched_eq (m : Machine) (env : Env) (wanted : TraceMask) (event : Machine → Event) :
    ∃ events, m.watched env wanted event = { m with events := events } := by
  unfold watched
  split
  · exact ⟨_, rfl⟩
  · exact ⟨m.events, rfl⟩

theorem openFrame_eq (m : Machine) (env : Env) (f : Frame) (name : String) :
    ∃ cues events, Exec.openFrame env f name m =
      { m with frames := f :: m.frames, cues := cues, events := events } := by
  obtain ⟨cues, hcues⟩ := m.traced_eq env .context fun _ => "push frame " ++ f.element.text
  obtain ⟨events, hevents⟩ := watched_eq { m with cues := cues } env .scopes
    fun m => .enter f.scope (m.frames.length + 1) f.element.identity name
  exact ⟨cues, events, by simp only [Exec.openFrame, hcues, hevents]⟩

theorem closeFrame_eq (m : Machine) (env : Env) (scope : Scope) (name : String) :
    ∃ cues events, Exec.closeFrame env scope name m =
      { m with frames := m.frames.tail, cues := cues, events := events } := by
  unfold Exec.closeFrame
  split
  · rename_i hframes
    exact ⟨m.cues, m.events, by rw [hframes, List.tail_nil, ← hframes]⟩
  · rename_i f rest hframes
    obtain ⟨events, hevents⟩ := m.watched_eq env .scopes
      fun m => .leave scope m.frames.length f.element.identity name
    obtain ⟨cues, hcues⟩ := traced_eq { m with events := events, frames := rest } env .context
      fun _ => "pop frame " ++ f.element.text
    exact ⟨cues, events, by simp only [hframes, hevents, hcues, List.tail_cons]⟩

end Machine

/-- All operands are good, except that a name stands for what it names. -/
def Operation.Fits (V : Value → Prop) (op : Operation) : Prop :=
  ∀ v ∈ op.constants, v.kind ≠ .varName → V v

def Block.Fits (V : Value → Prop) (block : Block) : Prop :=
  ∀ v ∈ operationsConstants block, v.kind ≠ .varName → V v

namespace Operation.Fits

variable {V : Value → Prop} {op : Operation}

theorem of_mem {block : Block} (h : block.Fits V) (hop : op ∈ block) : op.Fits V :=
  fun v hv => h v (constants_of_mem hop hv)

theorem block (h : op.Fits V) (slot : Slot) {inner : Block} (hb : op.block? slot = some inner) :
    inner.Fits V :=
  fun v hv => h v (constants_of_block? hb hv)

theorem first (h : op.Fits V) {v : Value} (hv : op.first = some v) (hk : v.kind ≠ .varName) :
    V v :=
  h v (first_mem_constants hv) hk

end Operation.Fits

/-- In every state that is sound the elements found are good, and good values are found in
variables and in lists that are good. The operands of a story are good. -/
structure Grounds (story : Story) (S : State → Prop) (G : ElementRef → Prop)
    (V : Value → Prop) : Prop where
  world : G .world
  resolve : ∀ {st : State} {kind : ElementKind} {identity : String} {e : ElementRef}, S st →
    st.resolve story kind identity = .ok e → G e
  live : ∀ {st : State} {kind : ElementKind} {e : ElementRef}, S st → e ∈ st.live kind → G e
  held : ∀ {st : State} {holder : ElementRef} {object : String}, S st →
    object ∈ st.ownership.objectsHeld holder → G (.of .object object)
  simple : ∀ {v : Value}, v.Simple → V v
  items : ∀ {st : State} {a : Handle} {v : Value}, S st → V (.list a) → v ∈ st.heap.items a → V v
  bindings : ∀ {st : State} {identity : String} {c : Context}, S st →
    st.contexts[identity]? = some c → Holds V c.bindings
  block : ∀ {heap : Heap} {identity : String} {entry : Entry} {block : Block},
    story.resolveBlock? heap identity entry = some block → block.Fits V
  function : ∀ {identity name : String} {f : Function},
    story.resolveFunction? identity name = some f → f.block.Fits V

namespace Grounds

variable {story : Story} {S : State → Prop} {G : ElementRef → Prop} {V : Value → Prop} {st : State}
  {e : ElementRef}

theorem trivial (story : Story) : Grounds story S Anything Anything :=
  ⟨.intro, fun _ _ => .intro, fun _ _ => .intro, fun _ _ => .intro, fun _ => .intro,
    fun _ _ _ => .intro, fun _ _ _ _ _ => .intro, fun _ _ _ _ => .intro, fun _ _ _ _ => .intro⟩

theorem context (h : Grounds story S G V) (hst : S st) {identity : String} {c : Context}
    (hc : st.context story identity = .ok c) : Holds V c.bindings :=
  h.bindings hst (State.of_context hc)

theorem currentPlayer (h : Grounds story S G V) (hst : S st) (he : st.currentPlayer = .ok e) :
    G e ∧ e.kind = .player := by
  have hkind : e.kind = .player := by
    unfold State.currentPlayer at he
    split at he
    · rw [← Except.ok.inj he]
      rfl
    · cases he
  have hresolve : st.resolve story .player "player" = .ok e := by simpa [State.resolve]
  exact ⟨h.resolve hst hresolve, hkind⟩

theorem currentRoom (h : Grounds story S G V) (hst : S st) (he : st.currentRoom = .ok e) : G e := by
  have hresolve : st.resolve story .room "room" = .ok e := by simpa [State.resolve]
  exact h.resolve hst hresolve

theorem resolveValue (h : Grounds story S G V) (hst : S st) {v : Value}
    (he : st.resolveValue story v = .ok (some e)) : G e := by
  unfold State.resolveValue at he
  split at he
  · split at he
    · rename_i hr
      cases he
      exact h.resolve hst hr
    · cases he
  · cases he

end Grounds

def Ownership.Change.Fits (G : ElementRef → Prop) : Ownership.Change → Prop
  | addObject holder object => G holder ∧ holder.kind.holdsObjects = true ∧ G ⟨.object, object⟩
  | moveObjects _ target => G target ∧ target.kind.holdsObjects = true
  | addName object _ | addTag object _ => G ⟨.object, object⟩
  | pushRoom player room | swapRoom player room => G ⟨.player, player⟩ ∧ G ⟨.room, room⟩
  | setPlayer player => ∀ p, player = some p → G ⟨.player, p⟩
  | removeObject _ | removeName _ _ | removeTag _ _ | popRoom _ => True

namespace Exec

variable {env env' : Env} {S : State → Prop} {G : ElementRef → Prop} {V : Value → Prop}
  {R : ExecRelation}

structure Basics (env env' : Env) (S : State → Prop) (R : ExecRelation) : Prop where
  story : env'.story = env.story
  mono {α : Type} {P Q : α → Prop} {x y : Exec α} : (∀ a, P a → Q a) → R P x y → R Q x y
  pure {α : Type} {P : α → Prop} {a : α} : P a → R P (Pure.pure a) (Pure.pure a)
  bind {α β : Type} {P : α → Prop} {Q : β → Prop} {x y : Exec α} {f g : α → Exec β} :
    R P x y → (∀ a, P a → R Q (f a) (g a)) → R Q (x >>= f) (y >>= g)
  fault {α : Type} {P : α → Prop} (f : Fault) : R P (Exec.fault f) (Exec.fault f)
  see {α : Type} {P : α → Prop} (f : State → α) : (∀ st, S st → P (f st)) →
    R P (Exec.see fun m => f m.state) (Exec.see fun m => f m.state)
  ask {α : Type} {P : α → Prop} {f : State → Except Fault α} :
    (∀ st a, S st → f st = .ok a → P a) → R P (Exec.ask f) (Exec.ask f)
  trace {topic : Topic} {message : Machine → String} :
    (∀ m n : Machine, m.state = n.state → message m = message n) →
    R Anything (Exec.trace env topic message) (Exec.trace env' topic message)

namespace Basics

variable {α β : Type} (h : Basics env env' S R)

include h

theorem forget {P : α → Prop} {x y : Exec α} (hx : R P x y) : R Anything x y :=
  h.mono (fun _ _ => .intro) hx

theorem tell (topic : Topic) (text : String) :
    R Anything (Exec.trace env topic fun _ => text) (Exec.trace env' topic fun _ => text) :=
  h.trace fun _ _ _ => rfl

theorem discard {P : α → Prop} {x y : Exec α} (hx : R P x y) :
    R Anything (Functor.discard x) (Functor.discard y) :=
  h.bind hx fun _ _ => h.pure .intro

theorem withHeap (f : Heap → α) : R Anything (Exec.withHeap f) (Exec.withHeap f) :=
  h.see (fun st => f st.heap) fun _ _ => .intro

theorem ownership : R (fun m => ∃ st, S st ∧ st.ownership = m) Exec.ownership Exec.ownership :=
  h.see (fun st => st.ownership) fun st hst => ⟨st, hst, rfl⟩

theorem required (op : Opcode) (part : Option α) :
    R (fun a => part = some a) (Exec.required op part) (Exec.required op part) := by
  cases part with
  | none => exact h.fault _
  | some a => exact h.pure rfl

theorem forEach {f g : α → Exec Unit} {items : List α}
    (hitem : ∀ a ∈ items, R Anything (f a) (g a)) :
    R Anything (Exec.forEach f items) (Exec.forEach g items) := by
  induction items with
  | nil => exact h.pure .intro
  | cons a items ih =>
    have hcons : ∀ f : α → Exec Unit,
        Exec.forEach f (a :: items) = f a >>= fun _ => Exec.forEach f items :=
      fun f => funext fun m => forEach_cons f a items m
    rw [hcons, hcons]
    refine h.bind (hitem a List.mem_cons_self) fun _ _ => ih fun b hb => ?_
    exact hitem b (List.mem_cons_of_mem a hb)

theorem rounds {x y : Exec Bool} (hx : R Anything x y)
    (hend : R (Anything : Unit → Prop) (fun _ => .exhausted) fun _ => .exhausted) (limit : Nat) :
    R Anything (Exec.rounds x limit) (Exec.rounds y limit) := by
  induction limit with
  | zero => exact hend
  | succ limit ih =>
    have hsucc : ∀ x : Exec Bool, Exec.rounds x (limit + 1) =
        x >>= fun goesOn => if goesOn then Exec.rounds x limit else Pure.pure () := by
      intro x
      funext m
      rw [bind_apply, Exec.rounds]
      cases x m with
      | done goesOn n => cases goesOn <;> rfl
      | stopped s n => rfl
      | exhausted => rfl
    rw [hsucc, hsucc]
    refine h.bind hx fun goesOn _ => ?_
    cases goesOn with
    | false => exact h.pure .intro
    | true => exact ih

end Basics

/-- What operations are made of that run no block. -/
structure Steps (env env' : Env) (S : State → Prop) (G : ElementRef → Prop) (V : Value → Prop)
    (R : ExecRelation) : Prop extends Basics env env' S R where
  grounds : Grounds env.story S G V
  misuse {α : Type} {P : α → Prop} (message : String) :
    R P (Exec.misuse message) (Exec.misuse message)
  push {v : Value} : V v → R Anything (Exec.push v) (Exec.push v)
  pop (op : Opcode) : R V (Exec.pop op) (Exec.pop op)
  popMany (op : Opcode) (n : Nat) :
    R (fun values => ∀ v ∈ values, V v) (Exec.popMany op n) (Exec.popMany op n)
  emit {c : Cue} : c.kind.isFailure = false → c.kind ≠ .quit →
    R Anything (Exec.emit c) (Exec.emit c)
  frame (op : Opcode) :
    R (fun f => G f.element ∧ Holds V f.locals) (Exec.frame op) (Exec.frame op)
  setLocals {locals : Table Value} : Holds V locals →
    R Anything (Exec.setLocals locals) (Exec.setLocals locals)
  changeContext (identity : String) {f : Context → Context} :
    (∀ c, (f c).element = c.element ∧ (Holds V c.bindings → Holds V (f c).bindings)) →
    R Anything (Exec.changeContext env identity f) (Exec.changeContext env' identity f)
  newList {items : List Value} : (∀ v ∈ items, V v) →
    R V (Exec.newList items) (Exec.newList items)
  changeList {a : Handle} {f : Array Value → Array Value} : V (.list a) →
    (∀ cell : Array Value, (∀ v ∈ cell, V v) → ∀ v ∈ f cell, V v) →
    R Anything (Exec.changeList a f) (Exec.changeList a f)
  draw {α : Type} (f : RandomSource → α × RandomSource) :
    R Anything (Exec.draw f) (Exec.draw f)
  change (c : Ownership.Change) : c.Fits G →
    R Anything (Exec.changeOwnership c.apply) (Exec.changeOwnership c.apply)

namespace Steps

variable {α : Type} (h : Steps env env' S G V R)

include h

theorem pushSimple {v : Value} (hv : v.Simple) : R Anything (Exec.push v) (Exec.push v) :=
  h.push (h.grounds.simple hv)

theorem pushBoolean (b : Bool) :
    R Anything (Exec.push (.boolean b)) (Exec.push (.boolean b)) :=
  h.pushSimple (Value.simple_boolean b)

theorem pushString (s : String) : R Anything (Exec.push (.string s)) (Exec.push (.string s)) :=
  h.pushSimple (Value.simple_string s)

theorem firstName (op : Operation) : R Anything (Exec.firstName op) (Exec.firstName op) :=
  h.bind (h.required _ _) fun _ _ => h.forget (h.required _ _)

theorem secondName (op : Operation) : R Anything (Exec.secondName op) (Exec.secondName op) :=
  h.bind (h.required _ _) fun _ _ => h.forget (h.required _ _)

theorem resolveValue (v : Value) : R (fun found => ∀ e, found = some e → G e)
    (Exec.ask fun st => st.resolveValue env.story v)
    (Exec.ask fun st => st.resolveValue env'.story v) := by
  rw [h.story]
  refine h.ask fun st found hst hfound e he => ?_
  subst he
  exact h.grounds.resolveValue hst hfound

theorem firstElement (op : Operation) :
    R Anything (Exec.firstElement env op) (Exec.firstElement env' op) :=
  h.bind (h.required _ _) fun v _ => h.bind (h.resolveValue v) fun _ _ =>
    h.forget (h.required _ _)

theorem wrongKind {P : α → Prop} (op : Opcode) (expected found : String) :
    R P (Exec.wrongKind op expected found) (Exec.wrongKind op expected found) :=
  h.misuse _

theorem popElement (op : Opcode) : R G (Exec.popElement env op) (Exec.popElement env' op) := by
  refine h.bind (h.pop op) fun v _ => h.bind (h.resolveValue v) fun found hfound => ?_
  cases found with
  | none => exact h.wrongKind _ _ _
  | some e => exact h.pure (hfound e rfl)

theorem popElementOf (op : Opcode) (expected : String) (accepts : ElementKind → Bool) :
    R (fun e => G e ∧ accepts e.kind = true) (Exec.popElementOf env op expected accepts)
      (Exec.popElementOf env' op expected accepts) := by
  refine h.bind (h.popElement op) fun e he => ?_
  split
  · rename_i haccepts
    exact h.pure ⟨he, haccepts⟩
  · exact h.wrongKind _ _ _

theorem popElementOfKind (op : Opcode) (expected : String) (kind : ElementKind) :
    R (fun e => G e ∧ e.kind = kind) (Exec.popElementOf env op expected (· == kind))
      (Exec.popElementOf env' op expected (· == kind)) :=
  h.mono (fun _ he => ⟨he.1, eq_of_beq he.2⟩) (h.popElementOf op expected _)

theorem popObject (op : Opcode) : R (fun e => G e ∧ e.kind = .object) (Exec.popObject env op)
    (Exec.popObject env' op) := h.popElementOfKind op _ _

theorem popPlayer (op : Opcode) : R (fun e => G e ∧ e.kind = .player) (Exec.popPlayer env op)
    (Exec.popPlayer env' op) := h.popElementOfKind op _ _

theorem popRoom (op : Opcode) : R (fun e => G e ∧ e.kind = .room) (Exec.popRoom env op)
    (Exec.popRoom env' op) := h.popElementOfKind op _ _

theorem popHolder (op : Opcode) :
    R (fun e => G e ∧ e.kind.holdsObjects = true) (Exec.popHolder env op)
      (Exec.popHolder env' op) := h.popElementOf op _ _

theorem popList (op : Opcode) :
    R (fun a => V (.list a)) (Exec.popList op) (Exec.popList op) := by
  refine h.bind (h.pop op) fun v hv => ?_
  cases v with
  | list a => exact h.pure hv
  | _ => exact h.wrongKind _ _ _

theorem popAction (op : Opcode) : R Anything (Exec.popAction env op) (Exec.popAction env' op) := by
  refine h.bind (h.pop op) fun v _ => ?_
  cases v with
  | action identity =>
    dsimp only
    rw [h.story]
    cases env.story.action? identity with
    | none => exact h.fault _
    | some a => exact h.pure .intro
  | _ => exact h.wrongKind _ _ _

theorem popText (op : Opcode) : R Anything (Exec.popText op) (Exec.popText op) :=
  h.bind (h.pop op) fun v _ => h.withHeap fun heap => v.text heap

theorem variableOf (identity name : String) :
    R V (Exec.variableOf env identity name) (Exec.variableOf env' identity name) := by
  unfold Exec.variableOf
  rw [h.story]
  refine h.bind (h.ask fun _ _ hst hc => h.grounds.context hst hc) fun c hc => h.pure ?_
  cases hv : c.get? name with
  | none => exact h.grounds.simple (Value.simple_boolean false)
  | some v => exact hc _ v hv

theorem readVariable (op : Opcode) (name : String) :
    R V (Exec.readVariable env op name) (Exec.readVariable env' op name) := by
  have hlookUp : ∀ f : Frame, Holds V f.locals →
      R V (lookUp env f name) (lookUp env' f name) := by
    intro f hf
    unfold lookUp
    cases hv : f.locals[name]? with
    | none => exact h.variableOf _ name
    | some v => exact h.pure (hf name v hv)
  refine h.bind (h.frame op) fun f hf => h.bind (hlookUp f hf.2) fun v hv => ?_
  exact h.bind (h.trace fun _ _ he => by simp only [he]) fun _ _ => h.pure hv

theorem pushValue {op : Operation} (hop : op.Fits V) :
    R Anything (Exec.pushValue env op) (Exec.pushValue env' op) := by
  refine h.bind (h.required _ _) fun v hv => ?_
  cases v with
  | varName name => exact h.bind (h.readVariable _ _) fun v hv => h.push hv
  | list a =>
    have ha := hop.first hv (by simp [Value.kind])
    refine h.bind (h.see (fun st => st.heap.items a) (P := fun items => ∀ v ∈ items, V v)
      fun st hst v hv => h.grounds.items hst ha hv) fun items hitems => ?_
    exact h.bind (h.newList hitems) fun v hv => h.push hv
  | element kind identity => exact h.push (hop.first hv (Value.kind_element_ne kind identity))
  | _ => exact h.push (hop.first hv (by simp [Value.kind]))

theorem setVariable (identity name : String) {v : Value} (hv : V v) :
    R Anything (Exec.changeContext env identity fun c => c.set name v)
      (Exec.changeContext env' identity fun c => c.set name v) :=
  h.changeContext identity fun _ => ⟨rfl, fun hc => hc.insert _ hv⟩

theorem clearVariable (identity name : String) :
    R Anything (Exec.changeContext env identity fun c => c.clear name)
      (Exec.changeContext env' identity fun c => c.clear name) :=
  h.changeContext identity fun _ => ⟨rfl, fun hc => hc.erase _⟩

theorem popValue (op : Operation) (onlyLocal : Bool) :
    R Anything (Exec.popValue env op onlyLocal) (Exec.popValue env' op onlyLocal) := by
  refine h.bind (h.firstName op) fun name _ => h.bind (h.pop _) fun v hv => ?_
  refine h.bind (h.trace fun _ _ he => by simp only [he]) fun _ _ => ?_
  refine h.bind (h.frame _) fun f hf => ?_
  split
  · exact h.setLocals (hf.2.insert name hv)
  · exact h.setVariable _ name hv

theorem clearValue (op : Operation) :
    R Anything (Exec.clearValue env op) (Exec.clearValue env' op) := by
  refine h.bind (h.firstName op) fun name _ => h.bind (h.tell _ _) fun _ _ => ?_
  refine h.bind (h.frame _) fun f hf => ?_
  split
  · exact h.setLocals (hf.2.erase name)
  · exact h.clearVariable _ name

theorem pushInitList (op : Opcode) : R Anything (Exec.pushInitList op) (Exec.pushInitList op) := by
  refine h.bind (h.pop op) fun count _ => ?_
  cases count.index? with
  | none => exact h.bind (h.withHeap fun heap => count.text heap) fun _ _ => h.misuse _
  | some n =>
    exact h.bind (h.popMany op n) fun items hitems => h.bind (h.newList hitems) fun v hv =>
      h.push hv

theorem stackOp {op : Operation} (hop : op.Fits V) (o : StackOp) :
    R Anything (Exec.stackOp env op o) (Exec.stackOp env' op o) := by
  cases o with
  | noop => exact h.pure .intro
  | pop => exact h.discard (h.pop _)
  | pushValue => exact h.pushValue hop
  | popValue => exact h.popValue op false
  | popLocalValue => exact h.popValue op true
  | clearValue => exact h.clearValue op
  | pushElementValue =>
    refine h.bind (h.firstElement op) fun e _ => h.bind (h.secondName op) fun name _ => ?_
    refine h.bind (h.variableOf _ _) fun v hv => ?_
    exact h.bind (h.trace fun _ _ he => by simp only [he]) fun _ _ => h.push hv
  | popElementValue =>
    refine h.bind (h.firstElement op) fun e _ => h.bind (h.secondName op) fun name _ => ?_
    refine h.bind (h.pop _) fun v hv => ?_
    exact h.bind (h.trace fun _ _ he => by simp only [he]) fun _ _ => h.setVariable _ name hv
  | clearElementValue =>
    refine h.bind (h.firstElement op) fun e _ => h.bind (h.secondName op) fun name _ => ?_
    exact h.bind (h.tell _ _) fun _ _ => h.clearVariable _ name
  | pushThis =>
    exact h.bind (h.frame _) fun f _ => h.pushSimple (Value.simple_element f.element)
  | pushNewList => exact h.bind (h.newList (by simp)) fun v hv => h.push hv
  | pushInitList => exact h.pushInitList _

theorem arithmetic (op : Operation) : R Anything (Exec.arithmetic op) (Exec.arithmetic op) := by
  have hoperator : R Anything (operator op) (operator op) := by
    refine h.bind (h.required _ _) fun v _ => ?_
    cases v with
    | integer i => exact h.forget (h.required _ _)
    | _ => exact h.fault _
  refine h.bind hoperator fun operator _ => ?_
  split
  · refine h.bind (h.pop _) fun b _ => h.bind (h.pop _) fun a _ => ?_
    exact h.bind (h.see (fun st => operator.applyBinary st.heap a b) fun st _ =>
      operator.simple_applyBinary st.heap a b) fun v hv => h.pushSimple hv
  · refine h.bind (h.pop _) fun a _ => ?_
    exact h.bind (h.see (fun st => operator.applyUnary st.heap a) fun st _ =>
      operator.simple_applyUnary st.heap a) fun v hv => h.pushSimple hv

theorem popPlace (op : Opcode) :
    R (fun p => V (.list p.2)) (Exec.popPlace op) (Exec.popPlace op) :=
  h.bind (h.pop op) fun _ _ => h.bind (h.popList op) fun _ ha => h.pure ha

theorem popSought (op : Opcode) :
    R (fun p => V (.list p.2)) (Exec.popSought op) (Exec.popSought op) := by
  refine h.bind (h.pop op) fun v _ => h.bind (h.popList op) fun a ha => ?_
  exact h.bind (h.withHeap fun heap => (heap.cell a).findIdx? fun item => item.equals heap v)
    fun _ _ => h.pure ha

theorem itemAt {a : Handle} (ha : V (.list a)) (place : Option Nat) :
    R (fun found => ∀ item, found = some item → V item.2)
      (Exec.withHeap fun heap => itemAt? heap a place)
      (Exec.withHeap fun heap => itemAt? heap a place) := by
  refine h.see (fun st => itemAt? st.heap a place) fun st hst item hitem => ?_
  cases place with
  | none => cases hitem
  | some i =>
    obtain ⟨v, hv, rfl⟩ := Option.map_eq_some_iff.mp hitem
    have hmem : v ∈ st.heap.items a := Array.mem_toList_iff.mpr (Array.mem_of_getElem? hv)
    exact h.grounds.items hst ha hmem

theorem changeListPush {a : Handle} (ha : V (.list a)) {f : Array Value → Array Value}
    (hf : ∀ cell : Array Value, (∀ v ∈ cell, V v) → ∀ v ∈ f cell, V v) {v : Value} (hv : V v) :
    R Anything (do Exec.changeList a f; Exec.push v) (do Exec.changeList a f; Exec.push v) :=
  h.bind (h.changeList ha hf) fun _ _ => h.push hv

theorem listOp (op : Opcode) (o : ListOp) : R Anything (Exec.listOp op o) (Exec.listOp op o) := by
  have hboolean : ∀ b : Bool, V (.boolean b) := fun b => h.grounds.simple (Value.simple_boolean b)
  cases o with
  | add =>
    refine h.bind (h.pop op) fun v hv => h.bind (h.popList op) fun a ha => ?_
    exact h.changeListPush ha (fun cell hc => forall_mem_push hc hv) (hboolean true)
  | addAt =>
    refine h.bind (h.pop op) fun place _ => h.bind (h.pop op) fun v hv => ?_
    refine h.bind (h.popList op) fun a ha => ?_
    cases place.index? with
    | none => exact h.pushBoolean false
    | some i =>
      refine h.bind (h.withHeap fun heap => (heap.cell a).size) fun size _ => ?_
      split
      · exact h.changeListPush ha (fun cell hc => forall_mem_insertIdx hc i hv) (hboolean true)
      · exact h.pushBoolean false
  | get =>
    refine h.bind (h.popPlace op) fun p hp => h.bind (h.itemAt hp p.1) fun item hitem => ?_
    cases item with
    | none => exact h.pushBoolean false
    | some item => exact h.push (hitem item rfl)
  | removeAt =>
    refine h.bind (h.popPlace op) fun p hp => h.bind (h.itemAt hp p.1) fun item hitem => ?_
    cases item with
    | none => exact h.pushBoolean false
    | some item =>
      exact h.changeListPush hp (fun cell hc => forall_mem_eraseIdx hc item.1) (hitem item rfl)
  | set =>
    refine h.bind (h.pop op) fun v hv => h.bind (h.popPlace op) fun p hp => ?_
    refine h.bind (h.itemAt hp p.1) fun item _ => ?_
    cases item with
    | none => exact h.pushBoolean false
    | some item =>
      exact h.changeListPush hp (fun cell hc => forall_mem_set hc item.1 hv) (hboolean true)
  | remove =>
    refine h.bind (h.popSought op) fun p hp => ?_
    obtain ⟨found, a⟩ := p
    cases found with
    | none => exact h.pushBoolean false
    | some i => exact h.changeListPush hp (fun cell hc => forall_mem_eraseIdx hc i) (hboolean true)
  | indexOf =>
    refine h.bind (h.popSought op) fun p _ => ?_
    obtain ⟨found, a⟩ := p
    cases found with
    | none => exact h.pushSimple (Value.simple_integer _)
    | some i => exact h.pushSimple (Value.simple_count i)
  | contains => exact h.bind (h.popSought op) fun p _ => h.pushBoolean _

theorem identityOf (op : Opcode) (v : Value) :
    R Anything (Exec.identityOf env op v) (Exec.identityOf env' op v) := by
  unfold Exec.identityOf
  split
  · exact h.pure .intro
  · refine h.bind (h.resolveValue _) fun found _ => ?_
    cases found with
    | none => exact h.wrongKind _ _ _
    | some e => exact h.pure .intro

theorem convertOp (op : Opcode) (o : ConvertOp) :
    R Anything (Exec.convertOp env op o) (Exec.convertOp env' op o) := by
  cases o with
  | length =>
    exact h.bind (h.pop op) fun v _ => h.bind (h.withHeap fun heap => v.length heap) fun n _ =>
      h.pushSimple (Value.simple_count n)
  | asBoolean =>
    exact h.bind (h.pop op) fun v _ => h.bind (h.withHeap fun heap => v.truth heap) fun _ _ =>
      h.pushBoolean _
  | substring =>
    exact h.bind (h.pop op) fun _ _ => h.bind (h.pop op) fun _ _ =>
      h.bind (h.popText op) fun _ _ => h.pushString _
  | identity =>
    exact h.bind (h.pop op) fun v _ => h.bind (h.identityOf op v) fun _ _ => h.pushString _
  | upper | lower | trim | asString => exact h.bind (h.popText op) fun _ _ => h.pushString _
  | asInteger => exact h.bind (h.pop op) fun _ _ => h.pushSimple (Value.simple_integer _)
  | asFloat => exact h.bind (h.pop op) fun _ _ => h.pushSimple (Value.simple_real _)

theorem randomOp (op : Opcode) (o : RandomOp) :
    R Anything (Exec.randomOp op o) (Exec.randomOp op o) := by
  cases o with
  | integer =>
    exact h.bind (h.pop op) fun _ _ => h.bind (h.draw _) fun _ _ =>
      h.pushSimple (Value.simple_integer _)
  | float =>
    exact h.bind (h.pop op) fun _ _ => h.bind (h.draw _) fun _ _ =>
      h.pushSimple (Value.simple_real _)
  | normal =>
    exact h.bind (h.pop op) fun _ _ => h.bind (h.pop op) fun _ _ => h.bind (h.draw _) fun _ _ =>
      h.bind (h.draw _) fun _ _ => h.pushSimple (Value.simple_real _)

theorem say (op : Opcode) {kind : CueKind} (lineEnd : String) (hkind : kind.isFailure = false)
    (hquit : kind ≠ .quit) : R Anything (Exec.say op kind lineEnd) (Exec.say op kind lineEnd) :=
  h.bind (h.popText op) fun _ _ => h.emit hkind hquit

theorem cueOp (op : Opcode) (o : CueOp) : R Anything (Exec.cueOp op o) (Exec.cueOp op o) := by
  cases o with
  | pause => exact h.emit rfl (by simp)
  | wait => exact h.bind (h.pop op) fun _ _ => h.emit rfl (by simp)
  | _ => exact h.say op _ rfl (by simp)

theorem popWord (op : Opcode) : R (fun p => G ⟨.object, p.1⟩) (Exec.popWord env op)
    (Exec.popWord env' op) := by
  refine h.bind (h.popText op) fun word _ => h.bind (h.popObject op) fun e he => h.pure ?_
  exact he.2 ▸ he.1

theorem holdingOp (op : Opcode) {browse browse' : Exec Unit} (hbrowse : R Anything browse browse')
    (o : HoldingOp) :
    R Anything (Exec.holdingOp env op browse o) (Exec.holdingOp env' op browse' o) := by
  cases o with
  | give =>
    refine h.bind (h.popObject op) fun object hobject => h.bind (h.popHolder op) fun holder hh => ?_
    exact h.change (.addObject holder object.identity) ⟨hh.1, hh.2, hobject.2 ▸ hobject.1⟩
  | remove =>
    exact h.bind (h.popObject op) fun object _ => h.change (.removeObject object.identity) .intro
  | moveAll =>
    refine h.bind (h.popHolder op) fun target htarget => h.bind (h.popHolder op) fun source _ => ?_
    exact h.change (.moveObjects source target) htarget
  | has =>
    exact h.bind (h.popObject op) fun _ _ => h.bind (h.popHolder op) fun _ _ =>
      h.bind h.ownership fun _ _ => h.pushBoolean _
  | hasNoOwner =>
    exact h.bind (h.popObject op) fun _ _ => h.bind h.ownership fun _ _ => h.pushBoolean _
  | count =>
    exact h.bind (h.popHolder op) fun _ _ => h.bind h.ownership fun _ _ =>
      h.pushSimple (Value.simple_count _)
  | addName => exact h.bind (h.popWord op) fun p hp => h.change (.addName p.1 p.2) hp
  | removeName => exact h.bind (h.popWord op) fun p _ => h.change (.removeName p.1 p.2) .intro
  | addTag => exact h.bind (h.popWord op) fun p hp => h.change (.addTag p.1 p.2) hp
  | removeTag => exact h.bind (h.popWord op) fun p _ => h.change (.removeTag p.1 p.2) .intro
  | hasName | hasTag =>
    exact h.bind (h.popWord op) fun _ _ => h.bind h.ownership fun _ _ => h.pushBoolean _
  | browse => exact hbrowse

end Steps

section Discreet

variable {α : Type} {P : α → Prop}

/-- The computation changes nothing but the state and the stack, or is stopped at once. -/
def Discreet (P : α → Prop) (x : Exec α) : Prop :=
  ∀ m, (∃ a state stack, x m = .done a { m with state := state, stack := stack } ∧ P a) ∨
    ∃ s, x m = .stopped s m

theorem discreet_pure {a : α} (h : P a) : Discreet P (pure a : Exec α) :=
  fun m => .inl ⟨a, m.state, m.stack, rfl, h⟩

theorem discreet_stop (s : Signal) : Discreet P (stop s) := fun _ => .inr ⟨s, rfl⟩

theorem discreet_see {f : Machine → α} (h : ∀ m, P (f m)) : Discreet P (see f) :=
  fun m => .inl ⟨f m, m.state, m.stack, rfl, h m⟩

theorem discreet_ask {f : State → Except Fault α} (h : ∀ st a, f st = .ok a → P a) :
    Discreet P (ask f) := by
  intro m
  cases hm : f m.state with
  | error e => exact .inr ⟨.fatal e, by simp only [ask, hm]⟩
  | ok a => exact .inl ⟨a, m.state, m.stack, by simp only [ask, hm], h m.state a hm⟩

theorem discreet_change {state : Machine → State} {stack : Machine → Stack} :
    Discreet Anything (change fun m => { m with state := state m, stack := stack m }) :=
  fun m => .inl ⟨(), state m, stack m, rfl, .intro⟩

theorem discreet_pop (op : Opcode) : Discreet Anything (pop op) := by
  intro m
  unfold pop
  cases m.stack.pop? with
  | none => exact .inr ⟨_, rfl⟩
  | some found => exact .inl ⟨found.1, m.state, found.2, rfl, .intro⟩

theorem discreet_popMany (op : Opcode) (n : Nat) :
    Discreet (fun values => ∀ v ∈ values, Anything v) (popMany op n) := by
  intro m
  unfold popMany
  split
  · exact .inr ⟨_, rfl⟩
  · exact .inl ⟨_, m.state, _, rfl, fun _ _ => .intro⟩

theorem discreet_frame (op : Opcode) :
    Discreet (fun f => True ∧ Holds Anything f.locals) (frame op) := by
  intro m
  unfold frame
  split
  · exact .inr ⟨_, rfl⟩
  · exact .inl ⟨_, m.state, m.stack, rfl, .intro, fun _ _ _ => .intro⟩

theorem discreet_changeContext (env : Env) (identity : String) (f : Context → Context) :
    Discreet Anything (changeContext env identity f) := by
  intro m
  unfold changeContext
  cases m.state.context env.story identity with
  | error e => exact .inr ⟨_, rfl⟩
  | ok c => exact .inl ⟨(), _, m.stack, rfl, .intro⟩

/-- A relation has all steps if it relates discreet computations to themselves and has the three
steps that are not discreet. -/
theorem Steps.of_discreet {env : Env} {R : ExecRelation}
    (mono : ∀ {α : Type} {P Q : α → Prop} {x y : Exec α}, (∀ a, P a → Q a) → R P x y → R Q x y)
    (bind : ∀ {α β : Type} {P : α → Prop} {Q : β → Prop} {x y : Exec α} {f g : α → Exec β},
      R P x y → (∀ a, P a → R Q (f a) (g a)) → R Q (x >>= f) (y >>= g))
    (discreet : ∀ {α : Type} {P : α → Prop} {x : Exec α}, Discreet P x → R P x x)
    (trace : ∀ (topic : Topic) (message : Machine → String),
      R Anything (Exec.trace env topic message) (Exec.trace env topic message))
    (emit : ∀ {c : Cue}, c.kind.isFailure = false → c.kind ≠ .quit →
      R Anything (Exec.emit c) (Exec.emit c))
    (setLocals : ∀ locals : Table Value,
      R Anything (Exec.setLocals locals) (Exec.setLocals locals)) :
    Steps env env Anything Anything Anything R where
  story := rfl
  grounds := .trivial env.story
  mono := mono
  bind := bind
  pure known := discreet (discreet_pure known)
  fault _ := discreet (discreet_stop _)
  see _ h := discreet (discreet_see fun m => h m.state .intro)
  ask h := discreet (discreet_ask fun st a => h st a .intro)
  trace _ := trace _ _
  misuse _ := discreet (discreet_stop _)
  push _ := discreet discreet_change
  pop op := discreet (discreet_pop op)
  popMany op n := discreet (discreet_popMany op n)
  emit := emit
  frame op := discreet (discreet_frame op)
  setLocals _ := setLocals _
  changeContext identity f _ := discreet (discreet_changeContext env identity f)
  newList _ := discreet fun m => .inl ⟨_, _, m.stack, rfl, .intro⟩
  changeList _ _ := discreet discreet_change
  draw _ := discreet fun m => .inl ⟨_, _, m.stack, rfl, .intro⟩
  change _ _ := discreet discreet_change

end Discreet

/-- Holds a block to leaving one value more on a stack of the given height. -/
def weighed (height : Nat) : Outcome Unit → Outcome Unit
  | .exhausted => .exhausted
  | .stopped s m => .stopped s m
  | .done _ m =>
    if m.stack.height = height + 1 then .done () m
    else .stopped (.fatal (.stackImbalance (height + 1) m.stack.height))
      { m with stack := m.stack.bottom height }

def weigh (x : Exec Unit) : Exec Unit := fun m => weighed m.stack.height (x m)

theorem condition_eq (run : Block → Exec Unit) (op : Operation) :
    condition run op = (do
      let block ← required op.opcode op.condition
      weigh (run block)
      let v ← pop op.opcode
      withHeap fun heap => v.truth heap) := by
  unfold condition
  congr 1
  funext block m
  simp only [bind_apply, see_apply, weigh]
  cases run block m with
  | done _ n =>
    simp only [weighed]
    split <;> rfl
  | stopped s n => rfl
  | exhausted => rfl

def deeper (env : Env) (body : Exec Unit) : Exec Value := do
  descend env
  fun m => returned (afterwards (fun m => { m with depth := m.depth - 1 }) (body m))

theorem runFunction_eq (env : Env) (run : Block → Exec Unit) (e : ElementRef) (f : Function)
    (locals : Table Value) :
    runFunction env run e f locals = deeper env (do
      trace env .function fun _ => "call " ++ e.text ++ "." ++ f.name ++ "()"
      callBlock env run ⟨e, .function, locals⟩ f.name f.block) := rfl

theorem deeper_apply (env : Env) (body : Exec Unit) (m : Machine) :
    deeper env body m =
      if 0 < env.limits.depth ∧ env.limits.depth.toNat ≤ m.depth then
        .stopped (.runaway (.depth env.limits.depth.toNat)) m
      else returned (afterwards (fun m => { m with depth := m.depth - 1 }) (body
        { m with depth := m.depth + 1, depthPeak := max m.depthPeak (m.depth + 1) })) := by
  show (descend env).bind _ m = _
  simp only [Exec.bind, descend]
  by_cases hdeep : 0 < env.limits.depth ∧ env.limits.depth.toNat ≤ m.depth
  · simp only [if_pos hdeep]
  · simp only [if_neg hdeep]

def giveBack (v : Value) : Exec Unit := do
  change fun m => { m with pendingReturn := some v }
  stop .giveBack

def quit : Exec Unit := do
  emit { kind := .quit }
  stop .quit

/-- What operations are made of that end or run blocks, frames apart. -/
structure FlowRules (env env' : Env) (S : State → Prop) (G : ElementRef → Prop) (V : Value → Prop)
    (R : ExecRelation) : Prop extends Steps env env' S G V R where
  exhausted : R (Anything : Unit → Prop) (fun _ => .exhausted) fun _ => .exhausted
  stop {s : Signal} : (∀ kind, s ≠ .runaway kind) → s ≠ .giveBack →
    R (Anything : Unit → Prop) (Exec.stop s) (Exec.stop s)
  quit : R Anything Exec.quit Exec.quit
  queue (i : Invocation) : R Anything (Exec.queue env i) (Exec.queue env' i)
  giveBack {v : Value} : V v → R Anything (Exec.giveBack v) (Exec.giveBack v)
  weigh {x y : Exec Unit} : R Anything x y → R Anything (weigh x) (weigh y)
  goesOn {x y : Exec Unit} : R Anything x y →
    R Anything (fun m => goesOn env (x m)) fun m => goesOn env' (y m)

/-- What operations are made of, with the call of a function as one part. -/
structure CallRules (env env' : Env) (S : State → Prop) (G : ElementRef → Prop) (V : Value → Prop)
    (R : ExecRelation) : Prop extends FlowRules env env' S G V R where
  callEntry {run run' : Block → Exec Unit} {e : ElementRef} {locals : Table Value}
    (trigger : Trigger) (name : String) (block : Block) : G e → Holds V locals →
    R Anything (run block) (run' block) →
    R Anything (Exec.callBlock env run ⟨e, .entry trigger, locals⟩ name block)
      (Exec.callBlock env' run' ⟨e, .entry trigger, locals⟩ name block)
  callFunction {run run' : Block → Exec Unit} {e : ElementRef} (op : Opcode) (name : String) :
    (∀ {block : Block}, block.Fits V → R Anything (run block) (run' block)) → G e →
    R Anything (Exec.callFunction env run op e name) (Exec.callFunction env' run' op e name)

/-- What operations are made of. A frame is opened the same way for whatever runs in it, and a
function goes deeper before its frame is opened. -/
structure Rules (env env' : Env) (S : State → Prop) (G : ElementRef → Prop) (V : Value → Prop)
    (R : ExecRelation) : Prop extends FlowRules env env' S G V R where
  callBlock {run run' : Block → Exec Unit} {f : Frame} (name : String) (block : Block) :
    G f.element → Holds V f.locals → R Anything (run block) (run' block) →
    R Anything (Exec.callBlock env run f name block) (Exec.callBlock env' run' f name block)
  deeper {x y : Exec Unit} : R Anything x y → R V (Exec.deeper env x) (Exec.deeper env' y)

theorem holds_bindArguments (arguments : List String) {values : List Value}
    (h : ∀ v ∈ values, V v) : Holds V (bindArguments arguments values) := by
  intro name v hv
  rcases getElem?_foldl_insert Prod.fst Prod.snd (arguments.zip values) ∅ name with
    ⟨item, hitem, -, he⟩ | ⟨-, he⟩
  · have hsome : some item.2 = some v := he.symm.trans hv
    cases hsome
    exact h _ (List.of_mem_zip hitem).2
  · have hnone := he.symm.trans hv
    simp at hnone

namespace FlowRules

variable (h : FlowRules env env' S G V R)

include h

theorem queueOp (op : Opcode) (o : QueueOp) :
    R Anything (Exec.queueOp env op o) (Exec.queueOp env' op o) := by
  cases o with
  | action => exact h.bind (h.popAction op) fun _ _ => h.queue _
  | withText =>
    exact h.bind (h.popText op) fun _ _ => h.bind (h.popAction op) fun _ _ => h.queue _
  | withObject =>
    exact h.bind (h.popObject op) fun _ _ => h.bind (h.popAction op) fun _ _ => h.queue _
  | withObjects =>
    exact h.bind (h.popObject op) fun _ _ => h.bind (h.popObject op) fun _ _ =>
      h.bind (h.popAction op) fun _ _ => h.queue _

theorem currentPlayer : R (fun e => G e ∧ e.kind = .player) (ask State.currentPlayer)
    (ask State.currentPlayer) :=
  h.ask fun _ _ hst he => h.grounds.currentPlayer hst he

theorem currentPlayer? : R (fun previous => ∀ e, previous = some e → G e)
    (see fun m => m.state.currentPlayer.toOption) (see fun m => m.state.currentPlayer.toOption) :=
  h.see (fun st => st.currentPlayer.toOption) fun _ hst _ he =>
    (h.grounds.currentPlayer hst (eq_ok_of_toOption he)).1

theorem currentRoom? : R (fun previous => ∀ e, previous = some e → G e)
    (see fun m => m.state.currentRoom.toOption) (see fun m => m.state.currentRoom.toOption) :=
  h.see (fun st => st.currentRoom.toOption) fun _ hst _ he =>
    h.grounds.currentRoom hst (eq_ok_of_toOption he)

/-- Blocks keep what operations keep, however deep they run inside one another. -/
theorem runBlock (hstep : ∀ {run run' : Block → Exec Unit} (limit : Nat) {op : Operation},
      op.Fits V → (∀ {block : Block}, block.Fits V → R Anything (run block) (run' block)) →
      R Anything (Exec.execute env run limit op) (Exec.execute env' run' limit op))
    (fuel : Nat) {block : Block} (hblock : block.Fits V) :
    R Anything (Exec.runBlock env fuel block) (Exec.runBlock env' fuel block) := by
  induction fuel generalizing block with
  | zero => exact h.exhausted
  | succ fuel ih => exact h.forEach fun op hop => hstep fuel (.of_mem hblock hop) ih

end FlowRules

namespace CallRules

variable {run run' : Block → Exec Unit} (h : CallRules env env' S G V R)
  (hrun : ∀ {block : Block}, block.Fits V → R Anything (run block) (run' block))

include h hrun

theorem runEntry {e : ElementRef} (he : G e) (entry : Entry) {locals : Table Value}
    (hlocals : Holds V locals) :
    R Anything (Exec.runEntry env run e entry locals) (Exec.runEntry env' run' e entry locals) := by
  unfold Exec.runEntry
  rw [h.story]
  refine h.bind (h.see (fun st => env.story.resolveBlock? st.heap e.identity entry)
    (P := fun found => ∀ block, found = some block → block.Fits V)
    fun _ _ _ hfound => h.grounds.block hfound) fun block hblock => ?_
  cases block with
  | none => exact h.pure .intro
  | some block =>
    refine h.bind (h.withHeap fun heap => entry.text heap) fun name _ => ?_
    refine h.bind (h.tell _ _) fun _ _ => ?_
    exact h.bind (h.callEntry _ name block he hlocals (hrun (hblock block rfl))) fun _ _ =>
      h.pure .intro

theorem callOp (op : Operation) (o : CallOp) :
    R Anything (Exec.callOp env run op o) (Exec.callOp env' run' op o) := by
  cases o with
  | function =>
    exact h.bind (h.firstName op) fun name _ => h.bind (h.frame _) fun f hf =>
      h.callFunction _ name hrun hf.1
  | elementFunction =>
    exact h.bind (h.firstName op) fun name _ => h.bind (h.popElement _) fun e he =>
      h.callFunction _ name hrun he
  | giveBack =>
    refine h.bind (h.pop _) fun v hv => ?_
    exact h.bind (h.trace fun _ _ he => by simp only [he]) fun _ _ => h.giveBack hv

theorem runFocus {e : ElementRef} (he : G e) (trigger : Trigger) :
    R Anything (Exec.runFocus env run e trigger) (Exec.runFocus env' run' e trigger) :=
  h.discard (h.runEntry hrun he _ (holds_empty V))

theorem unfocus {previous : Option ElementRef} (hprevious : ∀ e, previous = some e → G e) :
    R Anything (Exec.unfocus env run previous) (Exec.unfocus env' run' previous) := by
  cases previous with
  | none => exact h.pure .intro
  | some e => exact h.runFocus hrun (hprevious e rfl) .onUnfocus

theorem setPlayer {player : ElementRef} (hplayer : G player ∧ player.kind = .player) :
    R Anything (Exec.setPlayer env run player) (Exec.setPlayer env' run' player) := by
  refine h.bind h.currentPlayer? fun previous hprevious => ?_
  split
  · exact h.pure .intro
  · refine h.bind (h.unfocus hrun hprevious) fun _ _ => ?_
    have hfits : (Ownership.Change.setPlayer (some player.identity)).Fits G := by
      rintro p ⟨rfl⟩
      exact hplayer.2 ▸ hplayer.1
    exact h.bind (h.change _ hfits) fun _ _ => h.runFocus hrun hplayer.1 .onFocus

theorem focusOp (op : Opcode) (o : FocusOp) :
    R Anything (Exec.focusOp env run op o) (Exec.focusOp env' run' op o) := by
  cases o with
  | setPlayer => exact h.bind (h.popPlayer op) fun player hplayer => h.setPlayer hrun hplayer
  | pushRoom =>
    refine h.bind (h.popRoom op) fun room hroom => h.bind h.currentPlayer fun player hplayer => ?_
    have hfits : (Ownership.Change.pushRoom player.identity room.identity).Fits G :=
      ⟨hplayer.2 ▸ hplayer.1, hroom.2 ▸ hroom.1⟩
    exact h.bind (h.change _ hfits) fun _ _ => h.runFocus hrun hroom.1 .onFocus
  | popRoom =>
    refine h.bind h.currentPlayer fun player _ => ?_
    refine h.bind (h.ask fun st e hst he => h.grounds.currentRoom hst he) fun room hroom => ?_
    refine h.bind (h.runFocus hrun hroom .onUnfocus) fun _ _ => ?_
    exact h.change (.popRoom player.identity) .intro
  | swapRoom =>
    refine h.bind (h.popRoom op) fun room hroom => h.bind h.currentPlayer fun player hplayer => ?_
    refine h.bind h.currentRoom? fun previous hprevious => ?_
    refine h.bind (h.unfocus hrun hprevious) fun _ _ => ?_
    have hfits : (Ownership.Change.swapRoom player.identity room.identity).Fits G :=
      ⟨hplayer.2 ▸ hplayer.1, hroom.2 ▸ hroom.1⟩
    exact h.bind (h.change _ hfits) fun _ _ => h.runFocus hrun hroom.1 .onFocus
  | playerIs =>
    exact h.bind (h.popPlayer op) fun _ _ => h.bind h.ownership fun _ _ => h.pushBoolean _
  | roomIs => exact h.bind (h.popRoom op) fun _ _ => h.bind h.ownership fun _ _ => h.pushBoolean _
  | noPlayer | noRoom => exact h.bind h.ownership fun _ _ => h.pushBoolean _

theorem browse (op : Opcode) : R Anything (Exec.browse env run op) (Exec.browse env' run' op) := by
  refine h.bind (h.popHolder op) fun holder _ => h.bind h.ownership fun m hm => ?_
  obtain ⟨st, hst, rfl⟩ := hm
  refine h.forEach fun object hobject => ?_
  have he := h.grounds.held hst hobject
  refine h.bind (h.runEntry hrun he _ (holds_empty V)) fun ran _ => ?_
  cases ran with
  | false => exact h.discard (h.runEntry hrun he _ (holds_empty V))
  | true => exact h.pure .intro

theorem decideCondition {op : Operation} (hop : op.Fits V) :
    R Anything (Exec.decideCondition env run op) (Exec.decideCondition env' run' op) := by
  have hcondition : R Anything (condition run op) (condition run' op) := by
    rw [condition_eq, condition_eq]
    refine h.bind (h.required _ _) fun block hblock => ?_
    refine h.bind (h.weigh (hrun (hop.block .condition hblock))) fun _ _ => ?_
    exact h.bind (h.pop _) fun v _ => h.withHeap fun heap => v.truth heap
  exact h.bind hcondition fun _ _ => h.bind (h.tell _ _) fun _ _ => h.pure .intro

theorem runIfAny {op : Operation} (hop : op.Fits V) (slot : Slot) :
    R Anything (Exec.runIfAny run (op.block? slot)) (Exec.runIfAny run' (op.block? slot)) := by
  cases hblock : op.block? slot with
  | none => exact h.pure .intro
  | some block => exact hrun (hop.block slot hblock)

theorem loopRound {op : Operation} (hop : op.Fits V) {step : Option Block}
    (hstep : R Anything (Exec.runIfAny run step) (Exec.runIfAny run' step)) :
    R Anything (Exec.loopRound env run op step) (Exec.loopRound env' run' op step) := by
  refine h.bind (h.decideCondition hrun hop) fun holds _ => ?_
  cases holds with
  | false => exact h.pure .intro
  | true =>
    refine h.bind (h.goesOn (h.runIfAny hrun hop .success)) fun goesOn _ => ?_
    cases goesOn with
    | false => exact h.pure .intro
    | true => exact h.bind hstep fun _ _ => h.pure .intro

theorem controlOp (limit : Nat) {op : Operation} (hop : op.Fits V) (o : ControlOp) :
    R Anything (Exec.controlOp env run limit op o) (Exec.controlOp env' run' limit op o) := by
  cases o with
  | branch =>
    refine h.bind (h.decideCondition hrun hop) fun holds _ => ?_
    cases holds with
    | false => exact h.runIfAny hrun hop .failure
    | true => exact h.runIfAny hrun hop .success
  | whileLoop => exact h.rounds (h.loopRound hrun hop (h.pure .intro)) h.exhausted limit
  | forLoop =>
    refine h.bind (h.required _ _) fun init hinit => ?_
    refine h.bind (hrun (hop.block .init hinit)) fun _ _ => ?_
    exact h.rounds (h.loopRound hrun hop (h.runIfAny hrun hop .step)) h.exhausted limit
  | leaveLoop | nextRound | endHandler | finish => exact h.stop (by simp) (by simp)
  | quit => exact h.quit
  | error => exact h.bind (h.popText _) fun _ _ => h.stop (by simp) (by simp)

theorem perform (limit : Nat) {op : Operation} (hop : op.Fits V) :
    R Anything (Exec.perform env run limit op) (Exec.perform env' run' limit op) := by
  unfold Exec.perform
  split
  · exact h.stackOp hop _
  · exact h.arithmetic op
  · exact h.controlOp hrun limit hop _
  · exact h.callOp hrun op _
  · exact h.cueOp _ _
  · exact h.queueOp _ _
  · exact h.holdingOp _ (h.browse hrun _) _
  · exact h.focusOp hrun _ _
  · exact h.listOp _ _
  · exact h.convertOp _ _
  · exact h.randomOp _ _

theorem execute (hcount : R Anything (count env) (count env')) (limit : Nat) {op : Operation}
    (hop : op.Fits V)
    (hrecord : R Anything (record env .operations fun m => .operation op.opcode m.operations)
      (record env' .operations fun m => .operation op.opcode m.operations)) :
    R Anything (Exec.execute env run limit op) (Exec.execute env' run' limit op) :=
  h.bind hcount fun _ _ => h.bind hrecord fun _ _ =>
    h.bind (h.trace fun _ _ he => by simp only [he]) fun _ _ => h.perform hrun limit hop

end CallRules

namespace Rules

variable {run run' : Block → Exec Unit} (h : Rules env env' S G V R)
  (hrun : ∀ {block : Block}, block.Fits V → R Anything (run block) (run' block))

include h hrun

theorem callFunction (op : Opcode) {e : ElementRef} (name : String) (he : G e) :
    R Anything (Exec.callFunction env run op e name) (Exec.callFunction env' run' op e name) := by
  unfold Exec.callFunction
  rw [h.story]
  cases hf : env.story.resolveFunction? e.identity name with
  | none => exact h.fault _
  | some f =>
    refine h.bind (h.popMany op _) fun values hvalues => ?_
    have hlocals := holds_bindArguments f.arguments hvalues
    rw [runFunction_eq, runFunction_eq]
    refine h.bind (h.deeper ?_) fun v hv => h.push hv
    refine h.bind (h.tell _ _) fun _ _ => ?_
    exact h.callBlock f.name f.block he hlocals (hrun (h.grounds.function hf))

omit hrun in
theorem callRules : CallRules env env' S G V R where
  toFlowRules := h.toFlowRules
  callEntry _ name block he hlocals hrun := h.callBlock name block he hlocals hrun
  callFunction op name hrun he := h.callFunction hrun op name he

theorem runEntry {e : ElementRef} (he : G e) (entry : Entry) {locals : Table Value}
    (hlocals : Holds V locals) :
    R Anything (Exec.runEntry env run e entry locals) (Exec.runEntry env' run' e entry locals) :=
  h.callRules.runEntry hrun he entry hlocals

theorem execute (hcount : R Anything (count env) (count env')) (limit : Nat) {op : Operation}
    (hop : op.Fits V)
    (hrecord : R Anything (record env .operations fun m => .operation op.opcode m.operations)
      (record env' .operations fun m => .operation op.opcode m.operations)) :
    R Anything (Exec.execute env run limit op) (Exec.execute env' run' limit op) :=
  h.callRules.execute hrun hcount limit hop hrecord

end Rules

end Exec

end Fabula
