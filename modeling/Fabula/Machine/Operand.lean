import Fabula.Machine.Basic
import Fabula.Value.Conversion

/-! What operations take: operands of their own, and values of a certain kind from the stack. -/

namespace Fabula

namespace Value

/-- The variable that a name or a text denotes. -/
def variableName? : Value → Option String
  | varName name => some (Text.fold name)
  | string name => some (Text.fold name)
  | _ => none

/-- A place in a list or a count. -/
def index? (v : Value) : Option Nat :=
  let i := v.toInteger.toInt
  if i < 0 then none else some i.toNat

end Value

namespace Exec

def required {α : Type} (op : Opcode) (part : Option α) : Exec α :=
  match part with
  | some a => pure a
  | none => fault (.badOperand op)

def firstOperand (op : Operation) : Exec Value := required op.opcode op.first

def secondOperand (op : Operation) : Exec Value := required op.opcode op.second

/-- The variable that the first operand names. -/
def firstName (op : Operation) : Exec String := do
  required op.opcode (← firstOperand op).variableName?

def secondName (op : Operation) : Exec String := do
  required op.opcode (← secondOperand op).variableName?

/-- The live element that the first operand refers to. -/
def firstElement (env : Env) (op : Operation) : Exec ElementRef := do
  let v ← firstOperand op
  required op.opcode (← ask fun st => st.resolveValue env.story v)

def wrongKind {α : Type} (op : Opcode) (expected found : String) : Exec α :=
  misuse (op.mnemonic ++ " expected " ++ expected ++ ", got " ++ found)

/-- The live element on top of the stack. -/
def popElement (env : Env) (op : Opcode) : Exec ElementRef := do
  let v ← pop op
  match ← ask fun st => st.resolveValue env.story v with
  | some e => pure e
  | none => wrongKind op "an element" v.kind.name

def popElementOf (env : Env) (op : Opcode) (expected : String) (accepts : ElementKind → Bool) :
    Exec ElementRef := do
  let e ← popElement env op
  if accepts e.kind then pure e else wrongKind op expected e.text

def popObject (env : Env) (op : Opcode) : Exec ElementRef :=
  popElementOf env op "an object" (· == .object)

def popPlayer (env : Env) (op : Opcode) : Exec ElementRef :=
  popElementOf env op "a player" (· == .player)

def popRoom (env : Env) (op : Opcode) : Exec ElementRef :=
  popElementOf env op "a room" (· == .room)

def popHolder (env : Env) (op : Opcode) : Exec ElementRef :=
  popElementOf env op "an object holder" ElementKind.holdsObjects

def popList (op : Opcode) : Exec Handle := do
  match ← pop op with
  | .list h => pure h
  | v => wrongKind op "a list" v.kind.name

/-- The identity of an action of the story, with its kind. -/
def popAction (env : Env) (op : Opcode) : Exec (String × ActionKind) := do
  match ← pop op with
  | .action identity =>
    match env.story.action? identity with
    | some a => pure (identity, a.kind)
    | none => fault (.unknownAction identity)
  | v => wrongKind op "an action" v.kind.name

/-- The text of the value on top of the stack. -/
def popText (op : Opcode) : Exec String := do
  let v ← pop op
  withHeap fun heap => v.text heap

end Exec

end Fabula
