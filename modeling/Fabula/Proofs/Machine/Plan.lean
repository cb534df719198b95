import Fabula.Proofs.Machine.Rules

/-! What an operation does as a plan: steps that run no block, and the blocks it has run, each of
them linked to the operation in one of a few ways. Carrying out the plan of an operation is the same
as performing it, so what can be said of every plan can be said of every operation. A block is
started by a plan at a machine that the steps and blocks before it lead to. A signal that comes out
of such a block comes out of the plan, if the link lets it pass, and a signal that comes out of the
plan was raised by one of its steps or has come out of one of its blocks. -/

namespace Fabula

/-- How a block is run: as a part of a branch or a loop, which stays in the frame of the operation,
or in a frame of its own, for an entry or as the body of a function. -/
inductive Link where
  | part
  | condition
  | body
  | entry (frame : Frame) (name : String)
  | function (frame : Frame) (name : String)

namespace Link

/-- What the operation learns from the block: whether a loop goes on, or the value of a function. -/
@[reducible] def Result : Link → Type
  | .part | .condition | .entry _ _ => Unit
  | .body => Bool
  | .function _ _ => Value

def frame? : Link → Option Frame
  | .part | .condition | .body => none
  | .entry f _ | .function f _ => some f

def enter (env : Env) : Link → Machine → Machine
  | .part, m | .condition, m | .body, m => m
  | .entry f name, m | .function f name, m => Exec.openFrame env f name m

/-- What becomes of the outcome of the block, which started with a stack of the given height. -/
def out (env : Env) (height : Nat) : (link : Link) → Outcome Unit → Outcome link.Result
  | .part, o => o
  | .condition, o => Exec.weighed height o
  | .body, o => Exec.goesOn env o
  | .entry f name, o => Exec.settle height (Exec.afterwards (Exec.closeFrame env f.scope name) o)
  | .function f name, o =>
    Exec.returned (Exec.afterwards (fun m => { m with depth := m.depth - 1 })
      (Exec.settle height (Exec.afterwards (Exec.closeFrame env f.scope name) o)))

def around (env : Env) (run : Block → Exec Unit) (link : Link) (block : Block) :
    Exec link.Result := fun m =>
  link.out env m.stack.height (run block (link.enter env m))

end Link

/-- A computation in steps that run no block, and blocks. -/
inductive Plan (α : Type) : Type 1 where
  | done (a : α)
  | step {β : Type} (x : Exec β) (next : β → Plan α)
  | run (link : Link) (block : Block) (next : link.Result → Plan α)

namespace Plan

variable {α β : Type} {env : Env} {run : Block → Exec Unit}

protected def bind : Plan α → (α → Plan β) → Plan β
  | .done a, f => f a
  | .step x next, f => .step x fun b => (next b).bind f
  | .run link block next, f => .run link block fun r => (next r).bind f

instance : Monad Plan where
  pure := .done
  bind := Plan.bind

def own (x : Exec α) : Plan α := .step x .done

def part (block : Block) : Plan Unit := .run .part block .done

def condition (block : Block) : Plan Unit := .run .condition block .done

def body (block : Block) : Plan Bool := .run .body block .done

def entry (f : Frame) (name : String) (block : Block) : Plan Unit :=
  .run (.entry f name) block .done

def function (f : Frame) (name : String) (block : Block) : Plan Value :=
  .run (.function f name) block .done

def exec (env : Env) (run : Block → Exec Unit) : Plan α → Exec α
  | .done a => pure a
  | .step x next => x >>= fun b => (next b).exec env run
  | .run link block next => link.around env run block >>= fun r => (next r).exec env run

@[simp] theorem exec_pure (a : α) : (pure a : Plan α).exec env run = pure a := rfl

@[simp] theorem exec_own (x : Exec α) : (own x).exec env run = x := bind_pure x

theorem exec_part (block : Block) : (part block).exec env run = run block :=
  bind_pure _

theorem exec_condition (block : Block) :
    (condition block).exec env run = Exec.weigh (run block) := bind_pure _

theorem exec_body (block : Block) :
    (body block).exec env run = fun m => Exec.goesOn env (run block m) :=
  bind_pure _

theorem exec_entry (f : Frame) (name : String) (block : Block) :
    (entry f name block).exec env run =
      Exec.callBlock env run f name block := bind_pure _

theorem exec_function (f : Frame) (name : String) (block : Block) :
    (function f name block).exec env run = fun m =>
      Exec.returned (Exec.afterwards (fun m => { m with depth := m.depth - 1 })
        (Exec.callBlock env run f name block m)) := bind_pure _

@[simp] theorem exec_bind (p : Plan α) (f : α → Plan β) :
    (p >>= f).exec env run = p.exec env run >>= fun a => (f a).exec env run := by
  induction p with
  | done a => rfl
  | step x next ih =>
    show (x >>= fun b => (next b >>= f).exec env run) = _
    simp only [ih, exec, bind_assoc]
  | run link block next ih =>
    show (link.around env run block >>= fun r => (next r >>= f).exec env run) = _
    simp only [ih, exec, bind_assoc]

theorem exec_ite {p : Prop} [Decidable p] (x y : Plan α) :
    (if p then x else y).exec env run = if p then x.exec env run else y.exec env run := by
  split <;> rfl

def noBlock : Block → Exec Unit := fun _ _ => .exhausted

def ifAny : Option Block → Plan Unit
  | none => pure ()
  | some block => part block

def decideCondition (env : Env) (op : Operation) : Plan Bool := do
  let block ← own (Exec.required op.opcode op.condition)
  condition block
  let v ← own (Exec.pop op.opcode)
  let holds ← own (Exec.withHeap fun heap => v.truth heap)
  own (Exec.trace env .control fun _ =>
    op.opcode.mnemonic ++ " condition is " ++ toString holds)
  return holds

def loopBody : Option Block → Plan Bool
  | none => pure true
  | some block => body block

def loopRound (env : Env) (op : Operation) (step : Option Block) : Plan Bool := do
  if ← decideCondition env op then
    if ← loopBody op.success then
      ifAny step
      return true
    else return false
  else return false

def rounds (round : Plan Bool) : Nat → Plan Unit
  | 0 => own fun _ => .exhausted
  | n + 1 => do if ← round then rounds round n else return ()

def forEach (f : α → Plan Unit) : List α → Plan Unit
  | [] => pure ()
  | a :: rest => do
    f a
    forEach f rest

def callFunction (env : Env) (op : Opcode) (e : ElementRef) (name : String) : Plan Unit :=
  match env.story.resolveFunction? e.identity name with
  | none => own (Exec.fault (.unknownFunction e.identity name))
  | some f => do
    let values ← own (Exec.popMany op f.arguments.length)
    own (Exec.descend env)
    own (Exec.trace env .function fun _ => "call " ++ e.text ++ "." ++ f.name ++ "()")
    let v ← function ⟨e, .function, Exec.bindArguments f.arguments values⟩ f.name f.block
    own (Exec.push v)

def runEntry (env : Env) (e : ElementRef) (entry : Entry) : Plan Bool := do
  match ← own (Exec.withHeap fun heap => env.story.resolveBlock? heap e.identity entry) with
  | none => return false
  | some block =>
    let name ← own (Exec.withHeap fun heap => entry.text heap)
    own (Exec.trace env .entry fun _ => e.text ++ " runs " ++ name)
    Plan.entry ⟨e, .entry entry.trigger, ∅⟩ name block
    return true

def runFocus (env : Env) (e : ElementRef) (trigger : Trigger) : Plan Unit := do
  let _ ← runEntry env e ⟨trigger, []⟩

def unfocus (env : Env) : Option ElementRef → Plan Unit
  | none => pure ()
  | some previous => runFocus env previous .onUnfocus

def setPlayer (env : Env) (player : ElementRef) : Plan Unit := do
  let previous ← own (Exec.see fun m => m.state.currentPlayer.toOption)
  if previous = some player then pure ()
  else
    unfocus env previous
    own (Exec.changeOwnership fun m => m.setPlayer (some player.identity))
    runFocus env player .onFocus

def focusOp (env : Env) (op : Opcode) : FocusOp → Plan Unit
  | .setPlayer => do setPlayer env (← own (Exec.popPlayer env op))
  | .pushRoom => do
    let room ← own (Exec.popRoom env op)
    let player ← own (Exec.ask State.currentPlayer)
    own (Exec.changeOwnership fun m => m.pushRoom player.identity room.identity)
    runFocus env room .onFocus
  | .popRoom => do
    let player ← own (Exec.ask State.currentPlayer)
    let room ← own (Exec.ask State.currentRoom)
    runFocus env room .onUnfocus
    own (Exec.changeOwnership fun m => (m.popRoom player.identity).2)
  | .swapRoom => do
    let room ← own (Exec.popRoom env op)
    let player ← own (Exec.ask State.currentPlayer)
    unfocus env (← own (Exec.see fun m => m.state.currentRoom.toOption))
    own (Exec.changeOwnership fun m => (m.swapRoom player.identity room.identity).2)
    runFocus env room .onFocus
  | o => own (Exec.focusOp env noBlock op o)

def browse (env : Env) (op : Opcode) : Plan Unit := do
  let holder ← own (Exec.popHolder env op)
  let objects := (← own Exec.ownership).objectsHeld holder
  forEach (fun object => do
    let e := ElementRef.of .object object
    if !(← runEntry env e ⟨Exec.browseTrigger holder.kind, []⟩) then
      runFocus env e .onElementBrowse) objects

def controlOp (env : Env) (limit : Nat) (op : Operation) : ControlOp → Plan Unit
  | .branch => do
    if ← decideCondition env op then ifAny op.success else ifAny op.failure
  | .whileLoop => rounds (loopRound env op none) limit
  | .forLoop => do
    part (← own (Exec.required op.opcode op.init))
    rounds (loopRound env op op.step) limit
  | o => own (Exec.controlOp env noBlock limit op o)

def callOp (env : Env) (op : Operation) : CallOp → Plan Unit
  | .function => do
    let name ← own (Exec.firstName op)
    let f ← own (Exec.frame op.opcode)
    callFunction env op.opcode f.element name
  | .elementFunction => do
    let name ← own (Exec.firstName op)
    let e ← own (Exec.popElement env op.opcode)
    callFunction env op.opcode e name
  | .giveBack => own (Exec.callOp env noBlock op .giveBack)

def holdingOp (env : Env) (op : Opcode) : HoldingOp → Plan Unit
  | .browse => browse env op
  | o => own (Exec.holdingOp env op (pure ()) o)

/-- The plan of an operation. What runs no block is one step. -/
def operation (env : Env) (limit : Nat) (op : Operation) : Plan Unit :=
  match op.opcode with
  | .stack o => own (Exec.stackOp env op o)
  | .arithmetic => own (Exec.arithmetic op)
  | .control o => controlOp env limit op o
  | .call o => callOp env op o
  | .cue o => own (Exec.cueOp op.opcode o)
  | .queue o => own (Exec.queueOp env op.opcode o)
  | .holding o => holdingOp env op.opcode o
  | .focus o => focusOp env op.opcode o
  | .list o => own (Exec.listOp op.opcode o)
  | .convert o => own (Exec.convertOp env op.opcode o)
  | .random o => own (Exec.randomOp op.opcode o)

section Exec

theorem exec_ifAny (part : Option Block) :
    (ifAny part).exec env run = Exec.runIfAny run part := by
  cases part with
  | none => rfl
  | some block => exact exec_part block

theorem exec_decideCondition (op : Operation) :
    (decideCondition env op).exec env run = Exec.decideCondition env run op := by
  unfold decideCondition Exec.decideCondition
  rw [Exec.condition_eq]
  simp only [exec_bind, exec_own, exec_condition, exec_pure, bind_assoc]

theorem exec_loopBody (op : Operation) :
    (loopBody op.success).exec env run = Exec.loopBody env run op := by
  unfold Exec.loopBody
  cases op.success with
  | none => rfl
  | some block => exact exec_body block

theorem exec_loopRound (op : Operation) (step : Option Block) :
    (loopRound env op step).exec env run = Exec.loopRound env run op step := by
  simp only [loopRound, exec_bind, exec_decideCondition, exec_ite, exec_loopBody, exec_ifAny,
    exec_pure]
  rfl

theorem exec_rounds (round : Plan Bool) (limit : Nat) :
    (rounds round limit).exec env run = Exec.rounds (round.exec env run) limit := by
  induction limit with
  | zero => exact exec_own _
  | succ limit ih =>
    simp only [rounds, exec_bind, exec_ite, ih, exec_pure]
    funext m
    rw [Exec.bind_apply, Exec.rounds]
    cases round.exec env run m with
    | done goesOn n => cases goesOn <;> rfl
    | stopped s n => rfl
    | exhausted => rfl

theorem exec_forEach (f : α → Plan Unit) (items : List α) :
    (forEach f items).exec env run = Exec.forEach (fun a => (f a).exec env run) items := by
  induction items with
  | nil => rfl
  | cons a rest ih =>
    simp only [forEach, exec_bind, ih]
    exact (funext fun m => Exec.forEach_cons (fun a => (f a).exec env run) a rest m).symm

theorem exec_callFunction (op : Opcode) (e : ElementRef) (name : String) :
    (callFunction env op e name).exec env run = Exec.callFunction env run op e name := by
  unfold callFunction Exec.callFunction
  cases env.story.resolveFunction? e.identity name with
  | none => exact exec_own _
  | some f =>
    simp only [exec_bind, exec_own, exec_function, Exec.runFunction, bind_assoc]
    rfl

theorem exec_runEntry (e : ElementRef) (entry : Entry) :
    (runEntry env e entry).exec env run = Exec.runEntry env run e entry ∅ := by
  unfold runEntry Exec.runEntry
  rw [exec_bind, exec_own]
  congr 1
  funext found
  cases found with
  | none => rfl
  | some block =>
    simp only [exec_bind, exec_own, exec_entry, exec_pure]

theorem exec_runFocus (e : ElementRef) (trigger : Trigger) :
    (runFocus env e trigger).exec env run = Exec.runFocus env run e trigger := by
  simp only [runFocus, exec_bind, exec_runEntry, exec_pure]
  rfl

theorem exec_unfocus (previous : Option ElementRef) :
    (unfocus env previous).exec env run = Exec.unfocus env run previous := by
  cases previous with
  | none => rfl
  | some e => exact exec_runFocus e _

theorem exec_setPlayer (player : ElementRef) :
    (setPlayer env player).exec env run = Exec.setPlayer env run player := by
  simp only [setPlayer, exec_bind, exec_own, exec_ite, exec_unfocus, exec_runFocus, exec_pure]
  rfl

theorem exec_focusOp (op : Opcode) (o : FocusOp) :
    (focusOp env op o).exec env run = Exec.focusOp env run op o := by
  cases o with
  | setPlayer | pushRoom | popRoom | swapRoom =>
    simp only [focusOp, exec_bind, exec_own, exec_setPlayer, exec_unfocus, exec_runFocus]
    rfl
  | _ => exact exec_own _

theorem exec_browse (op : Opcode) : (browse env op).exec env run = Exec.browse env run op := by
  simp only [browse, Exec.browse, exec_bind, exec_own, exec_forEach, exec_ite, exec_runEntry,
    exec_runFocus, exec_pure, Exec.runFocus]

theorem exec_controlOp (limit : Nat) (op : Operation) (o : ControlOp) :
    (controlOp env limit op o).exec env run = Exec.controlOp env run limit op o := by
  cases o with
  | branch =>
    simp only [controlOp, exec_bind, exec_ite, exec_decideCondition, exec_ifAny]
    rfl
  | whileLoop =>
    simp only [controlOp, exec_rounds, exec_loopRound]
    rfl
  | forLoop =>
    simp only [controlOp, exec_bind, exec_own, exec_part, exec_rounds, exec_loopRound]
    rfl
  | _ => exact exec_own _

theorem exec_callOp (op : Operation) (o : CallOp) :
    (callOp env op o).exec env run = Exec.callOp env run op o := by
  cases o with
  | function | elementFunction =>
    simp only [callOp, exec_bind, exec_own, exec_callFunction]
    rfl
  | giveBack => exact exec_own _

theorem exec_holdingOp (op : Opcode) (o : HoldingOp) :
    (holdingOp env op o).exec env run = Exec.holdingOp env op (Exec.browse env run op) o := by
  cases o with
  | browse => exact exec_browse op
  | _ => exact exec_own _

theorem exec_operation (limit : Nat) (op : Operation) :
    (operation env limit op).exec env run = Exec.perform env run limit op := by
  unfold operation Exec.perform
  cases op.opcode with
  | control o => exact exec_controlOp limit op o
  | call o => exact exec_callOp op o
  | holding o => exact exec_holdingOp _ o
  | focus o => exact exec_focusOp _ o
  | _ => exact exec_own _

end Exec

variable {p : Plan α} {m n k : Machine} {link : Link} {block : Block} {s : Signal}

/-- The plan, carried out on the machine `m`, comes to a block that it runs by a link on the machine
`k`. Then it goes on with what is left of it. -/
inductive Starts (env : Env) (run : Block → Exec Unit) :
    Plan α → Machine → (link : Link) → Block → Machine → (link.Result → Plan α) → Prop
  | here {link : Link} {block : Block} {next : link.Result → Plan α} {m : Machine} :
      Starts env run (.run link block next) m link block m next
  | step {β : Type} {x : Exec β} {next : β → Plan α} {m n k : Machine} {b : β} {link : Link}
      {block : Block} {rest : link.Result → Plan α} (hx : x m = .done b n)
      (h : Starts env run (next b) n link block k rest) :
      Starts env run (.step x next) m link block k rest
  | later {first link : Link} {earlier block : Block} {next : first.Result → Plan α}
      {m n k : Machine} {r : first.Result} {rest : link.Result → Plan α}
      (hr : first.around env run earlier m = .done r n)
      (h : Starts env run (next r) n link block k rest) :
      Starts env run (.run first earlier next) m link block k rest

theorem Starts.exec_eq {rest : link.Result → Plan α} (h : Starts env run p m link block k rest) :
    p.exec env run m =
      (link.around env run block >>= fun r => (rest r).exec env run) k := by
  induction h with
  | here => rfl
  | step hx h ih => rw [Plan.exec, Exec.bind_apply, hx, ← ih]
  | later hr h ih => rw [Plan.exec, Exec.bind_apply, hr, ← ih]

/-- A signal that comes out of a block comes out of the plan. -/
theorem Starts.stopped {rest : link.Result → Plan α} (h : Starts env run p m link block k rest)
    (hs : link.around env run block k = .stopped s n) : p.exec env run m = .stopped s n := by
  rw [h.exec_eq, Exec.bind_apply, hs]

def Uses (Q : ∀ {β : Type}, Exec β → Prop) (L : Link → Prop) : Plan α → Prop
  | .done _ => True
  | .step x next => Q x ∧ ∀ b, (next b).Uses Q L
  | .run link _ next => L link ∧ ∀ r, (next r).Uses Q L

theorem uses_own {Q : ∀ {β : Type}, Exec β → Prop} {L : Link → Prop} {x : Exec α} (h : Q x) :
    (own x).Uses Q L := ⟨h, fun _ => .intro⟩

theorem Uses.bind {Q : ∀ {β : Type}, Exec β → Prop} {L : Link → Prop} {f : α → Plan β}
    (hp : p.Uses Q L) (hf : ∀ a, (f a).Uses Q L) : (p >>= f).Uses Q L := by
  induction p with
  | done a => exact hf a
  | step x next ih => exact ⟨hp.1, fun b => ih b (hp.2 b)⟩
  | run link block next ih => exact ⟨hp.1, fun r => ih r (hp.2 r)⟩

theorem Starts.of_uses {Q : ∀ {β : Type}, Exec β → Prop} {L : Link → Prop}
    {rest : link.Result → Plan α} (h : Starts env run p m link block k rest) (hp : p.Uses Q L) :
    L link := by
  induction h with
  | here => exact hp.1
  | step _ _ ih => exact ih (hp.2 _)
  | later _ _ ih => exact ih (hp.2 _)

/-- A signal that no step raises has come out of a block. -/
theorem exists_starts {Q : ∀ {β : Type}, Exec β → Prop} {L : Link → Prop}
    (hQ : ∀ {β : Type} {x : Exec β} (m n : Machine), Q x → x m ≠ .stopped s n) (hp : p.Uses Q L)
    (h : p.exec env run m = .stopped s n) :
    ∃ (link : Link) (block : Block) (k : Machine) (rest : link.Result → Plan α),
      Starts env run p m link block k rest ∧ link.around env run block k = .stopped s n := by
  induction p generalizing m with
  | done a => cases h
  | step x next ih =>
    rw [exec, Exec.bind_apply] at h
    cases hx : x m with
    | done b l =>
      rw [hx] at h
      obtain ⟨link, block, k, rest, hstarts, hout⟩ := ih b (hp.2 b) h
      exact ⟨link, block, k, rest, .step hx hstarts, hout⟩
    | stopped s' l =>
      rw [hx] at h
      cases h
      exact absurd hx (hQ m n hp.1)
    | exhausted =>
      rw [hx] at h
      cases h
  | run first earlier next ih =>
    rw [exec, Exec.bind_apply] at h
    cases hr : first.around env run earlier m with
    | done r l =>
      rw [hr] at h
      obtain ⟨link, block, k, rest, hstarts, hout⟩ := ih r (hp.2 r) h
      exact ⟨link, block, k, rest, .later hr hstarts, hout⟩
    | stopped s' l =>
      rw [hr] at h
      cases h
      exact ⟨first, earlier, m, next, .here, hr⟩
    | exhausted =>
      rw [hr] at h
      cases h

theorem Starts.own_bind {x : Exec α} {a : α} {f : α → Plan β} {rest : link.Result → Plan β}
    (hx : x m = .done a n) (h : Starts env run (f a) n link block k rest) :
    Starts env run (own x >>= f) m link block k rest := .step hx h

theorem Starts.of_bind {f : α → Plan β} {rest : link.Result → Plan β}
    (h : Starts env run (p >>= f) m link block k rest) :
    (∃ rest', Starts env run p m link block k rest' ∧ rest = fun r => rest' r >>= f) ∨
      ∃ a n, p.exec env run m = .done a n ∧ Starts env run (f a) n link block k rest := by
  induction p generalizing m with
  | done a => exact .inr ⟨a, m, rfl, h⟩
  | step x next ih =>
    cases h with
    | @step _ _ _ _ n _ b _ _ _ hx h =>
      rcases ih b h with ⟨rest', hstarts, hrest⟩ | ⟨a, l, hdone, hstarts⟩
      · exact .inl ⟨rest', .step hx hstarts, hrest⟩
      · refine .inr ⟨a, l, ?_, hstarts⟩
        rw [exec, Exec.bind_apply, hx]
        exact hdone
  | run first earlier next ih =>
    cases h with
    | here => exact .inl ⟨next, .here, rfl⟩
    | @later _ _ _ _ _ _ n _ r _ hr h =>
      rcases ih r h with ⟨rest', hstarts, hrest⟩ | ⟨a, l, hdone, hstarts⟩
      · exact .inl ⟨rest', .later hr hstarts, hrest⟩
      · refine .inr ⟨a, l, ?_, hstarts⟩
        rw [exec, Exec.bind_apply, hr]
        exact hdone

end Plan

end Fabula
