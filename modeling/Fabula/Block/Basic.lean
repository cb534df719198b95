import Fabula.Opcode
import Fabula.Value.Basic

/-! Blocks of operations. An operation has up to two operands and up to five blocks of its own, so
that a block is a tree: branches and loops carry their bodies, and there are no jumps. -/

namespace Fabula

/-- The places for the blocks of an operation, in the order in which they are stored. -/
inductive Slot where
  | init | condition | step | success | failure
deriving DecidableEq

namespace Slot

def all : List Slot := [.init, .condition, .step, .success, .failure]

def bit : Slot → UInt8
  | init => 1 | condition => 2 | step => 4 | success => 8 | failure => 16

def inMask (slot : Slot) (mask : UInt8) : Bool := mask &&& slot.bit != 0

end Slot

structure Operation where
  opcode : Opcode
  first : Option Value := none
  second : Option Value := none
  init : Option (List Operation) := none
  condition : Option (List Operation) := none
  step : Option (List Operation) := none
  success : Option (List Operation) := none
  failure : Option (List Operation) := none

abbrev Block := List Operation

namespace Operation

instance : Inhabited Operation := ⟨{ opcode := default }⟩

def block? (op : Operation) : Slot → Option Block
  | .init => op.init | .condition => op.condition | .step => op.step | .success => op.success
  | .failure => op.failure

def withBlock (op : Operation) (slot : Slot) (block : Block) : Operation :=
  match slot with
  | .init => { op with init := some block }
  | .condition => { op with condition := some block }
  | .step => { op with step := some block }
  | .success => { op with success := some block }
  | .failure => { op with failure := some block }

/-- One bit for every slot that holds a block. -/
def mask (op : Operation) : UInt8 :=
  Slot.all.foldl (fun mask slot => if (op.block? slot).isSome then mask ||| slot.bit else mask) 0

/-- One bit for each operand that is there. -/
def operandFlags (op : Operation) : UInt8 :=
  (if op.first.isSome then 1 else 0) ||| (if op.second.isSome then 2 else 0)

end Operation

end Fabula
