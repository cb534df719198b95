import Fabula.Block.Basic
import Fabula.Operator

/-! Short ways to write blocks. Every function gives the block of one step; blocks are joined by
appending them, inputs first and then the operation that takes them. -/

namespace Fabula.Build

def plain (op : Opcode) : Block := [{ opcode := op }]

def push (v : Value) : Block := [{ opcode := .stack .pushValue, first := v }]

/-- Reads a variable when the operation runs. -/
def pushVariable (name : String) : Block := push (.variableNamed name)

def onVariable (op : StackOp) (name : String) : Block :=
  [{ opcode := .stack op, first := Value.variableNamed name }]

def popValue (name : String) : Block := onVariable .popValue name

def popLocal (name : String) : Block := onVariable .popLocalValue name

def clearValue (name : String) : Block := onVariable .clearValue name

def onElementVariable (op : StackOp) (element : Value) (name : String) : Block :=
  [{ opcode := .stack op, first := element, second := Value.variableNamed name }]

def pushElementValue (element : Value) (name : String) : Block :=
  onElementVariable .pushElementValue element name

def popElementValue (element : Value) (name : String) : Block :=
  onElementVariable .popElementValue element name

def clearElementValue (element : Value) (name : String) : Block :=
  onElementVariable .clearElementValue element name

def apply (op : Operator) : Block :=
  [{ opcode := .arithmetic, first := Value.integer (Int64.ofNat op.ordinal) }]

def call (name : String) : Block :=
  [{ opcode := .call .function, first := Value.string (Text.fold name) }]

/-- Calls a function of the element on top of the stack. -/
def callElement (name : String) : Block :=
  [{ opcode := .call .elementFunction, first := Value.string (Text.fold name) }]

def ifThen (condition success : Block) : Block :=
  [{ opcode := .control .branch, condition := condition, success := success }]

def ifElse (condition success failure : Block) : Block :=
  [{ opcode := .control .branch, condition := condition, success := success,
     failure := failure }]

def whileLoop (condition body : Block) : Block :=
  [{ opcode := .control .whileLoop, condition := condition, success := body }]

def forLoop (init condition step body : Block) : Block :=
  [{ opcode := .control .forLoop, init := init, condition := condition, step := step,
     success := body }]

def say (s : String) : Block := push (.string s) ++ plain (.cue .text)

def sayLine (s : String) : Block := push (.string s) ++ plain (.cue .textLine)

end Fabula.Build
