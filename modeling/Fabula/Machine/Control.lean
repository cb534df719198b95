import Fabula.Machine.Call

/-! Branches and loops. Their blocks run in the frame of the block they stand in. -/

namespace Fabula.Exec

/-- Runs the condition of an operation, which has to leave one value more on the stack. -/
def condition (run : Block → Exec Unit) (op : Operation) : Exec Bool := do
  let block ← required op.opcode op.condition
  let height ← see fun m => m.stack.height
  run block
  let actual ← see fun m => m.stack.height
  if actual = height + 1 then
    let v ← pop op.opcode
    withHeap fun heap => v.truth heap
  else
    change fun m => { m with stack := m.stack.bottom height }
    fault (.stackImbalance (height + 1) actual)

/-- Runs the condition and tells of it. -/
def decideCondition (env : Env) (run : Block → Exec Unit) (op : Operation) : Exec Bool := do
  let holds ← condition run op
  trace env .control fun _ => op.opcode.mnemonic ++ " condition is " ++ toString holds
  return holds

def runIfAny (run : Block → Exec Unit) : Option Block → Exec Unit
  | none => pure ()
  | some block => run block

/-- Whether a loop goes on after its body has run. -/
def goesOn (env : Env) : Outcome Unit → Outcome Bool
  | .exhausted => .exhausted
  | .done _ m => .done true m
  | .stopped .nextRound m => .done true m
  | .stopped .leaveLoop m => .done false (m.traced env .control fun _ => "BREAK")
  | .stopped s m => .stopped s m

def loopBody (env : Env) (run : Block → Exec Unit) (op : Operation) : Exec Bool := fun m =>
  goesOn env (runIfAny run op.success m)

/-- One round of a loop: condition, body and step. -/
def loopRound (env : Env) (run : Block → Exec Unit) (op : Operation) (step : Option Block) :
    Exec Bool := do
  if ← decideCondition env run op then
    if ← loopBody env run op then
      runIfAny run step
      return true
    else return false
  else return false

/-- Control operations; a loop makes at most `limit` rounds. -/
def controlOp (env : Env) (run : Block → Exec Unit) (limit : Nat) (op : Operation) :
    ControlOp → Exec Unit
  | .branch => do
    if ← decideCondition env run op then runIfAny run op.success else runIfAny run op.failure
  | .whileLoop => rounds (loopRound env run op none) limit
  | .forLoop => do
    run (← required op.opcode op.init)
    rounds (loopRound env run op op.step) limit
  | .leaveLoop => stop .leaveLoop
  | .nextRound => stop .nextRound
  | .endHandler => stop .endHandler
  | .finish => stop .finish
  | .quit => do
    emit { kind := .quit }
    stop .quit
  | .error => do stop (.scriptError (← popText op.opcode))

end Fabula.Exec
