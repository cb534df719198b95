import Fabula.Machine.Execute

/-! Dispatching an invocation. The current player and the current room may forbid the action;
otherwise the first element that has a block for it handles it. What runs the operations of a block
is given by `run`. -/

namespace Fabula.Exec

/-- Signals that only end a handler. -/
def handled : Outcome Bool → Outcome Bool
  | .stopped .endHandler m => .done true m
  | .stopped .leaveLoop m => .done true m
  | .stopped .nextRound m => .done true m
  | .stopped .giveBack m => .done true { m with pendingReturn := none }
  | outcome => outcome

/-- Runs the block an element has for an entry, if there is one, to the end of the handler. -/
def runHandler (env : Env) (run : Block → Exec Unit) (e : ElementRef) (entry : Entry)
    (locals : Table Value) : Exec Bool := fun m => handled (runEntry env run e entry locals m)

/-- Where a handler is looked for: in the current room, the current player and the world. -/
def focusChain (st : State) : List ElementRef :=
  st.currentRoom.toOption.toList ++ st.currentPlayer.toOption.toList ++ [ElementRef.world]

/-- Tries attempts until one succeeds. -/
def firstOf : List (Exec Bool) → Exec Bool
  | [] => pure false
  | attempt :: rest => do if ← attempt then return true else firstOf rest

def runOnChain (env : Env) (run : Block → Exec Unit) (entry : Entry) (locals : Table Value) :
    Exec Bool := do
  let chain ← see fun m => focusChain m.state
  firstOf (chain.map fun e => runHandler env run e entry locals)

/-- The handler an element has for the action, or else the one it has for any action. -/
def runSpecificOrAny (env : Env) (run : Block → Exec Unit) (e : ElementRef) (trigger : Trigger)
    (action : String) : Exec Bool :=
  firstOf
    [runHandler env run e ⟨trigger, [.actionNamed action]⟩ ∅, runHandler env run e ⟨trigger, []⟩ ∅]

/-- The live object of an identity. -/
def liveObject (env : Env) (identity : String) : Exec ElementRef :=
  ask fun st => st.resolve env.story .object (Text.fold identity)

/-- Whether the nearest permission table in the lineage of an element forbids the action. -/
def forbids (story : Story) (action : String) (e : ElementRef) : Bool :=
  match (story.lineage e.identity).findSome? fun e => e.permissions with
  | none => false
  | some table => !table.permits action

/-- The current player or else the current room, if it forbids the action. -/
def forbidder? (story : Story) (action : String) (st : State) : Option ElementRef :=
  (st.currentPlayer.toOption.toList ++ st.currentRoom.toOption.toList).find? (forbids story action)

/-- Whether the action is permitted. If not, the one who forbids it or else the world is told. -/
def permitted (env : Env) (run : Block → Exec Unit) (action : Action) : Exec Bool := do
  match ← see fun m => forbidder? env.story action.identity m.state with
  | none => return true
  | some e =>
    trace env .interpreter fun _ => e.text ++ " forbids " ++ action.identity
    discard (firstOf
      [runSpecificOrAny env run e .onForbiddenAction action.identity,
       runSpecificOrAny env run .world .onForbiddenAction action.identity])
    return false

/-- The variable that free text is given in. -/
def textLocals (action : Action) (words : String) : Table Value :=
  match action.extra with
  | [] => ∅
  | name :: _ => (∅ : Table Value).insert name (.string words)

/-- Runs the handler for a permitted action, if there is one. -/
def handleTarget (env : Env) (run : Block → Exec Unit) (action : Action) : Target → Exec Bool
  | .none => runOnChain env run (.onAction action.identity) ∅
  | .text words => runOnChain env run (.onAction action.identity) (textLocals action words)
  | .mode name => runOnChain env run (.onModalAction action.identity name) ∅
  | .object identity => do
    let object ← liveObject env identity
    if action.kind = .ditransitive ∧ action.strict then return false
    else runHandler env run object (.onAction action.identity) ∅
  | .objects first second => do
    let (first, second) := if action.reversed then (second, first) else (first, second)
    let first ← liveObject env first
    let second ← liveObject env second
    firstOf
      [runHandler env run first (.onActionWith action.identity second.identity) ∅,
       runHandler env run first (.onActionWithOther action.identity) ∅]

/-- Runs what the focus chain has for actions that nothing handles. -/
def runUnhandled (env : Env) (run : Block → Exec Unit) (action : Action) : Exec Unit := do
  trace env .interpreter fun _ => action.identity ++ " was not handled"
  let chain ← see fun m => focusChain m.state
  discard (firstOf
    (chain.map fun e => runSpecificOrAny env run e .onUnhandledAction action.identity))

/-- Dispatches an invocation and says whether a handler ran for it. -/
def dispatch (env : Env) (run : Block → Exec Unit) (i : Invocation) : Exec Bool := do
  match env.story.action? i.action with
  | none => fault (.unknownAction i.action)
  | some action =>
    if i.target.fits action.kind then
      trace env .interpreter fun _ => "processing " ++ i.inspect
      if ← permitted env run action then
        let handled ← handleTarget env run action i.target
        if handled then return true
        else
          runUnhandled env run action
          return false
      else return false
    else fault (.badInvocation i.action)

end Fabula.Exec
