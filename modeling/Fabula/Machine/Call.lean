import Fabula.Machine.Operand
import Fabula.Machine.Variables

/-! Running blocks in frames of their own: entries, functions, and the entries that a change of
focus or browsing runs. What runs the operations of a block is given by `run`. -/

namespace Fabula.Exec

/-- Leaves the stack of a block as high as it was. A block that did not fail must have done so by
itself. -/
def settle {α : Type} (height : Nat) : Outcome α → Outcome α
  | .exhausted => .exhausted
  | .stopped s m =>
    if s.isFailure then .stopped s { m with stack := m.stack.bottom height }
    else if m.stack.height = height then .stopped s m
    else .stopped (.fatal (.stackImbalance height m.stack.height))
      { m with stack := m.stack.bottom height }
  | .done a m =>
    if m.stack.height = height then .done a m
    else .stopped (.fatal (.stackImbalance height m.stack.height))
      { m with stack := m.stack.bottom height }

/-- A step taken whether or not a computation was stopped. -/
def afterwards {α : Type} (after : Machine → Machine) : Outcome α → Outcome α
  | .exhausted => .exhausted
  | .stopped s m => .stopped s (after m)
  | .done a m => .done a (after m)

/-- Opens the frame of a block. -/
def openFrame (env : Env) (f : Frame) (name : String) (m : Machine) : Machine :=
  let m := m.traced env .context fun _ => "push frame " ++ f.element.text
  let m := m.watched env .scopes fun m =>
    .enter f.scope (m.frames.length + 1) f.element.identity name
  { m with frames := f :: m.frames }

/-- Closes the innermost frame, which was opened for the given scope and name. -/
def closeFrame (env : Env) (scope : Scope) (name : String) (m : Machine) : Machine :=
  match m.frames with
  | [] => m
  | f :: rest =>
    let m := m.watched env .scopes fun m => .leave scope m.frames.length f.element.identity name
    let m := { m with frames := rest }
    m.traced env .context fun _ => "pop frame " ++ f.element.text

/-- Runs a block in a frame of its own. -/
def callBlock (env : Env) (run : Block → Exec Unit) (f : Frame) (name : String) (block : Block) :
    Exec Unit := fun m =>
  settle m.stack.height
    (afterwards (closeFrame env f.scope name) (run block (openFrame env f name m)))

/-- Runs the block an element has for an entry, if there is one. -/
def runEntry (env : Env) (run : Block → Exec Unit) (e : ElementRef) (entry : Entry)
    (locals : Table Value) : Exec Bool := do
  match ← withHeap fun heap => env.story.resolveBlock? heap e.identity entry with
  | none => return false
  | some block =>
    let name ← withHeap fun heap => entry.text heap
    trace env .entry fun _ => e.text ++ " runs " ++ name
    callBlock env run ⟨e, .entry entry.trigger, locals⟩ name block
    return true

/-- The local variables of a function: its arguments. -/
def bindArguments (arguments : List String) (values : List Value) : Table Value :=
  (arguments.zip values).foldl (fun t item => t.insert item.1 item.2) ∅

/-- Goes one function deeper, unless the limit forbids it. -/
def descend (env : Env) : Exec Unit := fun m =>
  if 0 < env.limits.depth ∧ env.limits.depth.toNat ≤ m.depth then
    .stopped (.runaway (.depth env.limits.depth.toNat)) m
  else .done () { m with depth := m.depth + 1, depthPeak := max m.depthPeak (m.depth + 1) }

/-- The value a function gives back: false if its block came to its end. -/
def returned : Outcome Unit → Outcome Value
  | .exhausted => .exhausted
  | .done _ m => .done (.boolean false) m
  | .stopped .giveBack m =>
    .done (m.pendingReturn.getD (.boolean false)) { m with pendingReturn := none }
  | .stopped s m => .stopped s m

/-- Runs the body of a function one level deeper. -/
def runFunction (env : Env) (run : Block → Exec Unit) (e : ElementRef) (f : Function)
    (locals : Table Value) : Exec Value := do
  descend env
  trace env .function fun _ => "call " ++ e.text ++ "." ++ f.name ++ "()"
  fun m => returned (afterwards (fun m => { m with depth := m.depth - 1 })
    (callBlock env run ⟨e, .function, locals⟩ f.name f.block m))

/-- Calls a function on an element with arguments from the stack. -/
def callFunction (env : Env) (run : Block → Exec Unit) (op : Opcode) (e : ElementRef)
    (name : String) : Exec Unit := do
  match env.story.resolveFunction? e.identity name with
  | none => fault (.unknownFunction e.identity name)
  | some f =>
    let values ← popMany op f.arguments.length
    push (← runFunction env run e f (bindArguments f.arguments values))

def callOp (env : Env) (run : Block → Exec Unit) (op : Operation) : CallOp → Exec Unit
  | .function => do
    let name ← firstName op
    callFunction env run op.opcode (← frame op.opcode).element name
  | .elementFunction => do
    let name ← firstName op
    callFunction env run op.opcode (← popElement env op.opcode) name
  | .giveBack => do
    let v ← pop op.opcode
    trace env .function fun m => "return " ++ v.text m.state.heap
    change fun m => { m with pendingReturn := some v }
    stop .giveBack

/-- Runs the block of an element that gains or loses focus. -/
def runFocus (env : Env) (run : Block → Exec Unit) (e : ElementRef) (trigger : Trigger) :
    Exec Unit := do
  discard (runEntry env run e ⟨trigger, []⟩ ∅)

/-- Tells the element that had the focus, if there was one. -/
def unfocus (env : Env) (run : Block → Exec Unit) : Option ElementRef → Exec Unit
  | none => pure ()
  | some previous => runFocus env run previous .onUnfocus

/-- Makes a player the current one, who is told so after the one before. -/
def setPlayer (env : Env) (run : Block → Exec Unit) (player : ElementRef) : Exec Unit := do
  let previous ← see fun m => m.state.currentPlayer.toOption
  if previous = some player then pure ()
  else
    unfocus env run previous
    changeOwnership fun m => m.setPlayer (some player.identity)
    runFocus env run player .onFocus

def focusOp (env : Env) (run : Block → Exec Unit) (op : Opcode) : FocusOp → Exec Unit
  | .setPlayer => do setPlayer env run (← popPlayer env op)
  | .pushRoom => do
    let room ← popRoom env op
    let player ← ask State.currentPlayer
    changeOwnership fun m => m.pushRoom player.identity room.identity
    runFocus env run room .onFocus
  | .popRoom => do
    let player ← ask State.currentPlayer
    let room ← ask State.currentRoom
    runFocus env run room .onUnfocus
    changeOwnership fun m => (m.popRoom player.identity).2
  | .swapRoom => do
    let room ← popRoom env op
    let player ← ask State.currentPlayer
    unfocus env run (← see fun m => m.state.currentRoom.toOption)
    changeOwnership fun m => (m.swapRoom player.identity room.identity).2
    runFocus env run room .onFocus
  | .playerIs => do
    let player ← popPlayer env op
    push (.boolean ((← ownership).player == some player.identity))
  | .roomIs => do
    let room ← popRoom env op
    push (.boolean ((← ownership).room? == some room.identity))
  | .noPlayer => do push (.boolean (← ownership).player.isNone)
  | .noRoom => do push (.boolean (← ownership).room?.isNone)

/-- What runs on the objects of a holder of the kind when it is browsed. -/
def browseTrigger : ElementKind → Trigger
  | .world => .onWorldBrowse
  | .player => .onPlayerBrowse
  | .room => .onRoomBrowse
  | .container => .onContainerBrowse
  | .object => .onContainerBrowse

/-- Runs the browsing block of every object a holder has. -/
def browse (env : Env) (run : Block → Exec Unit) (op : Opcode) : Exec Unit := do
  let holder ← popHolder env op
  let objects := (← ownership).objectsHeld holder
  forEach (fun object => do
    let e := ElementRef.of .object object
    if !(← runEntry env run e ⟨browseTrigger holder.kind, []⟩ ∅) then
      discard (runEntry env run e ⟨.onElementBrowse, []⟩ ∅)) objects

end Fabula.Exec
