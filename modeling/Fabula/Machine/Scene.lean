import Fabula.Machine.Operand

/-! Operations that show something, queue an action, or change and ask who holds what. None of them
runs a block. -/

namespace Fabula.Exec

def say (op : Opcode) (kind : CueKind) (lineEnd : String) : Exec Unit := do
  emit (.saying kind ((← popText op) ++ lineEnd))

def cueOp (op : Opcode) : CueOp → Exec Unit
  | .text => say op .text ""
  | .textLine => say op .text "\n"
  | .formatted => say op .formatted ""
  | .formattedLine => say op .formatted "\n"
  | .pause => emit { kind := .pause }
  | .wait => do emit ⟨.wait, .integer (← pop op).toInteger⟩
  | .tip => say op .tip ""
  | .info => say op .info ""
  | .save => say op .save ""
  | .load => say op .load ""

def queueOp (env : Env) (op : Opcode) : QueueOp → Exec Unit
  | .action => do
    let (action, _) ← popAction env op
    queue env (.general action)
  | .withText => do
    let text ← popText op
    let (action, kind) ← popAction env op
    queue env (if kind = .modal then .modal action text else .free action text)
  | .withObject => do
    let object ← popObject env op
    let (action, _) ← popAction env op
    queue env (.transitive action object.identity)
  | .withObjects => do
    let second ← popObject env op
    let first ← popObject env op
    let (action, _) ← popAction env op
    queue env (.ditransitive action first.identity second.identity)

/-- Takes a word and the object it is about. -/
def popWord (env : Env) (op : Opcode) : Exec (String × String) := do
  let word ← popText op
  return ((← popObject env op).identity, word)

/-- Changes a word of an object. -/
def changeWord (env : Env) (op : Opcode) (f : Ownership → String → String → Ownership) :
    Exec Unit := do
  let (object, word) ← popWord env op
  changeOwnership fun m => f m object word

def askWord (env : Env) (op : Opcode) (f : Ownership → String → String → Bool) : Exec Unit := do
  let (object, word) ← popWord env op
  push (.boolean (f (← ownership) object word))

/-- Browsing runs blocks of the objects a holder has; it is given by `browse`. -/
def holdingOp (env : Env) (op : Opcode) (browse : Exec Unit) : HoldingOp → Exec Unit
  | .give => do
    let object ← popObject env op
    let holder ← popHolder env op
    changeOwnership fun m => m.addObject holder object.identity
  | .remove => do
    let object ← popObject env op
    changeOwnership fun m => m.removeObject object.identity
  | .moveAll => do
    let target ← popHolder env op
    let source ← popHolder env op
    changeOwnership fun m => m.moveObjects source target
  | .has => do
    let object ← popObject env op
    let holder ← popHolder env op
    push (.boolean ((← ownership).hasObject holder object.identity))
  | .hasNoOwner => do
    let object ← popObject env op
    push (.boolean ((← ownership).owner? object.identity).isNone)
  | .count => do
    let holder ← popHolder env op
    push (.count ((← ownership).objectCount holder))
  | .addName => changeWord env op Ownership.addName
  | .removeName => changeWord env op Ownership.removeName
  | .hasName => askWord env op Ownership.hasName
  | .addTag => changeWord env op Ownership.addTag
  | .removeTag => changeWord env op Ownership.removeTag
  | .hasTag => askWord env op Ownership.hasTag
  | .browse => browse

end Fabula.Exec
