import Fabula.Machine.Operand
import Fabula.Text.Blank

/-! Operations on values: lists, texts and conversions, and random numbers. -/

namespace Fabula.Exec

/-- Takes a place and the list under it. -/
def popPlace (op : Opcode) : Exec (Option Nat × Handle) := do
  let place ← pop op
  let h ← popList op
  return (place.index?, h)

/-- Takes a value and the list under it, and finds the first place of an equal item. -/
def popSought (op : Opcode) : Exec (Option Nat × Handle) := do
  let v ← pop op
  let h ← popList op
  return (← withHeap fun heap => (heap.cell h).findIdx? fun item => item.equals heap v, h)

/-- The item at a place that is in the list. -/
def itemAt? (heap : Heap) (h : Handle) (place : Option Nat) : Option (Nat × Value) :=
  match place with
  | none => none
  | some i => (heap.cell h)[i]?.map fun v => (i, v)

def listOp (op : Opcode) : ListOp → Exec Unit
  | .add => do
    let v ← pop op
    let h ← popList op
    changeList h fun cell => cell.push v
    push (.boolean true)
  | .addAt => do
    let place ← pop op
    let v ← pop op
    let h ← popList op
    match place.index? with
    | some i =>
      if i ≤ (← withHeap fun heap => (heap.cell h).size) then
        changeList h fun cell => cell.insertIdxIfInBounds i v
        push (.boolean true)
      else push (.boolean false)
    | none => push (.boolean false)
  | .get => do
    let (place, h) ← popPlace op
    match ← withHeap fun heap => itemAt? heap h place with
    | some (_, v) => push v
    | none => push (.boolean false)
  | .removeAt => do
    let (place, h) ← popPlace op
    match ← withHeap fun heap => itemAt? heap h place with
    | some (i, v) =>
      changeList h fun cell => cell.eraseIdxIfInBounds i
      push v
    | none => push (.boolean false)
  | .set => do
    let v ← pop op
    let (place, h) ← popPlace op
    match ← withHeap fun heap => itemAt? heap h place with
    | some (i, _) =>
      changeList h fun cell => cell.setIfInBounds i v
      push (.boolean true)
    | none => push (.boolean false)
  | .remove => do
    let (found, h) ← popSought op
    match found with
    | some i =>
      changeList h fun cell => cell.eraseIdxIfInBounds i
      push (.boolean true)
    | none => push (.boolean false)
  | .indexOf => do
    let (found, _) ← popSought op
    match found with
    | some i => push (.count i)
    | none => push (.integer (-1))
  | .contains => do
    let (found, _) ← popSought op
    push (.boolean found.isSome)

/-- The characters from a start to before an end, both brought into the text. -/
def substring (s : String) (start finish : Int) : String :=
  let length : Int := s.length
  let start := max 0 (min start length)
  let finish := max start (min finish length)
  String.ofList ((s.toList.drop start.toNat).take (finish - start).toNat)

/-- The identity of the action or element a value refers to. -/
def identityOf (env : Env) (op : Opcode) (v : Value) : Exec String :=
  match v with
  | .action identity => pure identity
  | v => do
    match ← ask fun st => st.resolveValue env.story v with
    | some e => pure e.identity
    | none => wrongKind op "an element or action" v.kind.name

def convertOp (env : Env) (op : Opcode) : ConvertOp → Exec Unit
  | .length => do
    let v ← pop op
    push (.count (← withHeap fun heap => v.length heap))
  | .upper => do push (.string (Text.uppercase (← popText op)))
  | .lower => do push (.string (Text.lowercase (← popText op)))
  | .trim => do push (.string (Text.trim (← popText op)))
  | .substring => do
    let finish ← pop op
    let start ← pop op
    let s ← popText op
    push (.string (substring s start.toInteger.toInt finish.toInteger.toInt))
  | .asBoolean => do
    let v ← pop op
    push (.boolean (← withHeap fun heap => v.truth heap))
  | .asInteger => do push (.integer (← pop op).toInteger)
  | .asFloat => do push (.real (← pop op).toFloat)
  | .asString => do push (.string (← popText op))
  | .identity => do push (.string (← identityOf env op (← pop op)))

/-- The ratio of a circle's circumference to its radius. -/
def tau : Float := Float.ofBits 0x401921fb54442d18

/-- The smallest positive number of full precision. -/
def leastNormal : Float := Float.ofBits 0x0010000000000000

/-- A normally distributed number from two evenly distributed ones. -/
def bell (u v : Float) : Float := (-2.0 * u.log).sqrt * (tau * v).cos

def randomOp (op : Opcode) : RandomOp → Exec Unit
  | .integer => do
    let bound := (← pop op).toInteger
    push (.integer (← draw (RandomSource.integer bound)))
  | .float => do
    let scale := (← pop op).toFloat
    push (.real ((← draw (RandomSource.float 0.0 1.0)) * scale))
  | .normal => do
    let deviation := (← pop op).toFloat
    let mean := (← pop op).toFloat
    let u ← draw (RandomSource.float leastNormal 1.0)
    let v ← draw (RandomSource.float 0.0 1.0)
    push (.real (mean + bell u v * deviation))

end Fabula.Exec
