import Fabula.Machine.Control
import Fabula.Machine.Scene
import Fabula.Machine.Values

/-! Executing operations and blocks. An operation is counted before anything else, and the one that
reaches the limit is refused. -/

namespace Fabula.Exec

/-- Counts an operation. -/
def count (env : Env) : Exec Unit := fun m =>
  let m := { m with operations := m.operations + 1 }
  if 0 < env.limits.operations ∧ env.limits.operations.toNat ≤ m.operations then
    .stopped (.runaway (.operations env.limits.operations.toNat)) m
  else .done () m

/-- The mnemonic of an operation and its first operand. -/
def operationText (heap : Heap) (op : Operation) : String :=
  match op.first with
  | none => op.opcode.mnemonic
  | some v => op.opcode.mnemonic ++ " " ++ v.text heap

/-- What an operation does, once it is counted. -/
def perform (env : Env) (run : Block → Exec Unit) (limit : Nat) (op : Operation) : Exec Unit :=
  match op.opcode with
  | .stack o => stackOp env op o
  | .arithmetic => arithmetic op
  | .control o => controlOp env run limit op o
  | .call o => callOp env run op o
  | .cue o => cueOp op.opcode o
  | .queue o => queueOp env op.opcode o
  | .holding o => holdingOp env op.opcode (browse env run op.opcode) o
  | .focus o => focusOp env run op.opcode o
  | .list o => listOp op.opcode o
  | .convert o => convertOp env op.opcode o
  | .random o => randomOp op.opcode o

def execute (env : Env) (run : Block → Exec Unit) (limit : Nat) (op : Operation) : Exec Unit := do
  count env
  record env .operations fun m => .operation op.opcode m.operations
  trace env .internal fun m => operationText m.state.heap op
  perform env run limit op

/-- Runs a block. Blocks run inside one another at most `fuel` deep, and their loops make fewer
rounds than that. -/
def runBlock (env : Env) : Nat → Block → Exec Unit
  | 0, _ => fun _ => .exhausted
  | fuel + 1, block => fun m => forEach (execute env (runBlock env fuel) fuel) block m

end Fabula.Exec
