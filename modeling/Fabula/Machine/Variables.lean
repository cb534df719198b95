import Fabula.Machine.Operand
import Fabula.Operator

/-! Operations on the stack and on variables. A name without an element is that of a local variable
of the frame, or else of a variable of the frame's element. -/

namespace Fabula.Exec

/-- The value of a variable of an element; one never set is false. -/
def variableOf (env : Env) (identity name : String) : Exec Value := do
  let c ← ask fun st => st.context env.story identity
  return (c.get? name).getD (.boolean false)

/-- The value of a variable as seen from a frame. -/
def lookUp (env : Env) (f : Frame) (name : String) : Exec Value :=
  match f.locals[name]? with
  | some v => pure v
  | none => variableOf env f.element.identity name

def readVariable (env : Env) (op : Opcode) (name : String) : Exec Value := do
  let v ← lookUp env (← frame op) name
  trace env .value fun m => "read " ++ name ++ " = " ++ v.text m.state.heap
  return v

/-- Pushes a constant, a new list with the items of a list constant, or the value of a variable. -/
def pushValue (env : Env) (op : Operation) : Exec Unit := do
  match ← firstOperand op with
  | .varName name => push (← readVariable env op.opcode (Text.fold name))
  | .list h =>
    let items ← withHeap fun heap => heap.items h
    push (← newList items)
  | v => push v

/-- Stores the top of the stack in a variable, a local one if it has to be or there is one. -/
def popValue (env : Env) (op : Operation) (onlyLocal : Bool) : Exec Unit := do
  let name ← firstName op
  let v ← pop op.opcode
  trace env .value fun m => "set " ++ name ++ " = " ++ v.text m.state.heap
  let f ← frame op.opcode
  if onlyLocal || f.locals.contains name then setLocals (f.locals.insert name v)
  else changeContext env f.element.identity fun c => c.set name v

def clearValue (env : Env) (op : Operation) : Exec Unit := do
  let name ← firstName op
  trace env .value fun _ => "clear " ++ name
  let f ← frame op.opcode
  if f.locals.contains name then setLocals (f.locals.erase name)
  else changeContext env f.element.identity fun c => c.clear name

def pushElementValue (env : Env) (op : Operation) : Exec Unit := do
  let e ← firstElement env op
  let name ← secondName op
  let v ← variableOf env e.identity name
  trace env .value fun m => "read " ++ e.text ++ "." ++ name ++ " = " ++ v.text m.state.heap
  push v

def popElementValue (env : Env) (op : Operation) : Exec Unit := do
  let e ← firstElement env op
  let name ← secondName op
  let v ← pop op.opcode
  trace env .value fun m => "set " ++ e.text ++ "." ++ name ++ " = " ++ v.text m.state.heap
  changeContext env e.identity fun c => c.set name v

def clearElementValue (env : Env) (op : Operation) : Exec Unit := do
  let e ← firstElement env op
  let name ← secondName op
  trace env .value fun _ => "clear " ++ e.text ++ "." ++ name
  changeContext env e.identity fun c => c.clear name

/-- Takes the top `n` values off the stack, the lowest one first. -/
def popMany (op : Opcode) (n : Nat) : Exec (List Value) := fun m =>
  if m.stack.height < n then .stopped (.fatal (.stackUnderflow op)) m
  else .done (m.stack.top n).reverse { m with stack := m.stack.drop n }

def pushInitList (op : Opcode) : Exec Unit := do
  let count ← pop op
  match count.index? with
  | none =>
    let text ← withHeap fun heap => count.text heap
    misuse ("PUSHINITLIST count " ++ text ++ " is negative")
  | some n => push (← newList (← popMany op n))

def stackOp (env : Env) (op : Operation) : StackOp → Exec Unit
  | .noop => pure ()
  | .pop => do discard (pop op.opcode)
  | .pushValue => pushValue env op
  | .popValue => popValue env op false
  | .popLocalValue => popValue env op true
  | .clearValue => clearValue env op
  | .pushElementValue => pushElementValue env op
  | .popElementValue => popElementValue env op
  | .clearElementValue => clearElementValue env op
  | .pushThis => do push (← frame op.opcode).element.value
  | .pushNewList => do push (← newList [])
  | .pushInitList => pushInitList op.opcode

/-- The operator that the first operand numbers. -/
def operator (op : Operation) : Exec Operator := do
  match ← firstOperand op with
  | .integer i => required op.opcode (Operator.ofOrdinal? i.toInt)
  | _ => fault (.badOperand op.opcode)

def arithmetic (op : Operation) : Exec Unit := do
  let operator ← operator op
  if operator.isBinary then
    let b ← pop op.opcode
    let a ← pop op.opcode
    push (← withHeap fun heap => operator.applyBinary heap a b)
  else
    let a ← pop op.opcode
    push (← withHeap fun heap => operator.applyUnary heap a)

end Fabula.Exec
