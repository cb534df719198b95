import Fabula.Value.Conversion

/-! The operators of expressions. Two booleans combine logically, text makes a sum a concatenation,
two integers stay integers and wrap around, every other pair of literals is taken as floats, and an
operand that is no literal gives NaN. -/

namespace Fabula

inductive Operator where
  | absolute | negate | logicalNot | complement
  | add | subtract | multiply | divide | modulo | power
  | bitAnd | bitOr | bitXor | shiftLeft | shiftRight | shiftRightPadded
  | logicalAnd | logicalOr | logicalXor
  | equal | notEqual | strictEqual | strictNotEqual
  | less | lessOrEqual | greater | greaterOrEqual
deriving DecidableEq, Inhabited

namespace Operator

/-- All operators; the place of an operator is its ordinal. -/
def all : List Operator :=
  [.absolute, .negate, .logicalNot, .complement, .add, .subtract, .multiply, .divide, .modulo,
   .power, .bitAnd, .bitOr, .bitXor, .shiftLeft, .shiftRight, .shiftRightPadded, .logicalAnd,
   .logicalOr, .logicalXor, .equal, .notEqual, .strictEqual, .strictNotEqual, .less, .lessOrEqual,
   .greater, .greaterOrEqual]

def ordinal (op : Operator) : Nat := all.idxOf op

def ofOrdinal? (n : Int) : Option Operator := if n < 0 then none else all[n.toNat]?

/-- What an expression reader needs to know of an operator. -/
structure Description where
  symbol : String
  name : String
  binary : Bool
  precedence : Nat
  rightAssociative : Bool

def description : Operator → Description
  | absolute => ⟨"+", "ABSOLUTE", false, 20, true⟩
  | negate => ⟨"-", "NEGATE", false, 20, true⟩
  | logicalNot => ⟨"!", "LOGICAL_NOT", false, 20, true⟩
  | complement => ⟨"~", "NOT", false, 20, true⟩
  | add => ⟨"+", "ADD", true, 15, false⟩
  | subtract => ⟨"-", "SUBTRACT", true, 15, false⟩
  | multiply => ⟨"*", "MULTIPLY", true, 16, false⟩
  | divide => ⟨"/", "DIVIDE", true, 16, false⟩
  | modulo => ⟨"%", "MODULO", true, 16, false⟩
  | power => ⟨"**", "POWER", true, 17, true⟩
  | bitAnd => ⟨"&", "AND", true, 9, false⟩
  | bitOr => ⟨"|", "OR", true, 7, false⟩
  | bitXor => ⟨"^", "XOR", true, 8, false⟩
  | shiftLeft => ⟨"<<", "LSHIFT", true, 14, false⟩
  | shiftRight => ⟨">>", "RSHIFT", true, 14, false⟩
  | shiftRightPadded => ⟨">>>", "RSHIFTPAD", true, 14, false⟩
  | logicalAnd => ⟨"&&", "LOGICAL_AND", true, 6, false⟩
  | logicalOr => ⟨"||", "LOGICAL_OR", true, 4, false⟩
  | logicalXor => ⟨"^^", "LOGICAL_XOR", true, 5, false⟩
  | equal => ⟨"==", "EQUALS", true, 10, false⟩
  | notEqual => ⟨"!=", "NOT_EQUALS", true, 10, false⟩
  | strictEqual => ⟨"===", "STRICT_EQUALS", true, 10, false⟩
  | strictNotEqual => ⟨"!==", "STRICT_NOT_EQUALS", true, 10, false⟩
  | less => ⟨"<", "LESS", true, 12, false⟩
  | lessOrEqual => ⟨"<=", "LESS_OR_EQUAL", true, 12, false⟩
  | greater => ⟨">", "GREATER", true, 12, false⟩
  | greaterOrEqual => ⟨">=", "GREATER_OR_EQUAL", true, 12, false⟩

def isBinary (op : Operator) : Bool := op.description.binary

end Operator

namespace Value

/-- Integers keep their absolute value modulo `2 ^ 64`: the least one is its own. -/
def absolute (v : Value) : Value :=
  match v with
  | integer i => integer (if i < 0 then -i else i)
  | v => if v.isLiteral then real (Number.magnitude v.toFloat) else notANumber

def negate (v : Value) : Value :=
  match v with
  | boolean b => boolean !b
  | integer i => integer (-i)
  | v => if v.isLiteral then real (-v.toFloat) else notANumber

def logicalNot (heap : Heap) (v : Value) : Value :=
  if v.isLiteral then boolean !(v.truth heap) else notANumber

def complement (v : Value) : Value :=
  match v with
  | boolean b => boolean !b
  | v => if v.isLiteral then integer (~~~v.toInteger) else notANumber

/-- The common shape of sum, difference and product: one rule for two booleans, one for two
integers, one for any other two literals. -/
def arithmetic (onBooleans : Bool → Bool → Bool) (onIntegers : Int64 → Int64 → Int64)
    (onFloats : Float → Float → Float) : Value → Value → Value
  | boolean x, boolean y => boolean (onBooleans x y)
  | integer x, integer y => integer (onIntegers x y)
  | a, b => if a.isLiteral && b.isLiteral then real (onFloats a.toFloat b.toFloat) else notANumber

def add (heap : Heap) (a b : Value) : Value :=
  if a.isString || b.isString then string (a.text heap ++ b.text heap)
  else arithmetic (· || ·) (· + ·) (· + ·) a b

def subtract (a b : Value) : Value := arithmetic (fun x y => x && !y) (· - ·) (· - ·) a b

def multiply (a b : Value) : Value := arithmetic (· && ·) (· * ·) (· * ·) a b

/-- Nothing over zero is NaN, everything else over zero the infinity with its sign. -/
def overZero (x : Float) : Value :=
  if x == 0.0 || x.isNaN then notANumber
  else if 0.0 < x then float Number.infinity
  else float (-Number.infinity)

/-- The common shape of quotient and remainder. -/
def division (onIntegers : Int64 → Int64 → Int64) (onFloats : Float → Float → Float) :
    Value → Value → Value
  | integer x, integer y =>
    if y = 0 then overZero (Number.ofInteger x) else integer (onIntegers x y)
  | a, b =>
    if !(a.isLiteral && b.isLiteral) then notANumber
    else if b.toFloat == 0.0 then overZero a.toFloat
    else real (onFloats a.toFloat b.toFloat)

def divide (a b : Value) : Value := division (· / ·) (· / ·) a b

/-- The remainder has the sign of the dividend. -/
def modulo (a b : Value) : Value := division (· % ·) Number.remainder a b

/-- The power of an integer, if exponent and result are in range. Powers of -1, 0 and 1 repeat with
period two from the first on, and sixty-four doublings leave the range. -/
def exactPower? (x : Int64) (exponent : Nat) : Option Int64 :=
  let base := x.toInt
  if 0x100000000 ≤ exponent then none
  else if base.natAbs ≤ 1 then
    some (Int64.ofInt (if exponent = 0 then 1 else Int.pow base (2 - exponent % 2)))
  else if 64 ≤ exponent then none
  else
    let result := Int.pow base exponent
    if Int64.minValue.toInt ≤ result ∧ result ≤ Int64.maxValue.toInt then
      some (Int64.ofInt result)
    else none

/-- Two integers with no negative exponent give an integer, exact while it is in range and the
truncated float power past that; `pow` is the power of floats. -/
def powerWith (pow : Float → Float → Float) (a b : Value) : Value :=
  let approximate := pow a.toFloat b.toFloat
  match a, b with
  | integer x, integer y =>
    if y < 0 then real approximate
    else integer ((exactPower? x y.toInt.toNat).getD (Number.truncate approximate))
  | a, b => if a.isLiteral && b.isLiteral then real approximate else notANumber

def power (a b : Value) : Value := powerWith Float.pow a b

def bitwise (onBooleans : Bool → Bool → Bool) (onIntegers : Int64 → Int64 → Int64) :
    Value → Value → Value
  | boolean x, boolean y => boolean (onBooleans x y)
  | a, b =>
    if a.isLiteral && b.isLiteral then integer (onIntegers a.toInteger b.toInteger)
    else notANumber

/-- Shift distances are taken modulo sixty-four. -/
def shift (onInteger : Int64 → Int64 → Int64) (a b : Value) : Value :=
  if a.isLiteral && b.isLiteral then integer (onInteger a.toInteger (b.toInteger &&& 63))
  else notANumber

def logical (heap : Heap) (onBooleans : Bool → Bool → Bool) (a b : Value) : Value :=
  if a.isLiteral && b.isLiteral then boolean (onBooleans (a.truth heap) (b.truth heap))
  else notANumber

def ordered (heap : Heap) (test : Ordering → Bool) (a b : Value) : Value :=
  boolean (((order? heap a b).map test).getD false)

end Value

namespace Operator

open Value

/-- A binary operator applied to one operand is NaN. -/
def applyUnary (heap : Heap) (op : Operator) (v : Value) : Value :=
  match op with
  | absolute => Value.absolute v
  | negate => Value.negate v
  | logicalNot => Value.logicalNot heap v
  | complement => Value.complement v
  | _ => notANumber

/-- A unary operator applied to two operands is NaN. -/
def applyBinary (heap : Heap) (op : Operator) (a b : Value) : Value :=
  match op with
  | absolute | negate | logicalNot | complement => notANumber
  | add => Value.add heap a b
  | subtract => Value.subtract a b
  | multiply => Value.multiply a b
  | divide => Value.divide a b
  | modulo => Value.modulo a b
  | power => Value.power a b
  | bitAnd => bitwise (· && ·) (· &&& ·) a b
  | bitOr => bitwise (· || ·) (· ||| ·) a b
  | bitXor => bitwise xor (· ^^^ ·) a b
  | shiftLeft => shift (· <<< ·) a b
  | shiftRight => shift (· >>> ·) a b
  | shiftRightPadded => shift (fun x n => (x.toUInt64 >>> n.toUInt64).toInt64) a b
  | logicalAnd => logical heap (· && ·) a b
  | logicalOr => logical heap (· || ·) a b
  | logicalXor => logical heap xor a b
  | equal => boolean (looselyEquals heap a b)
  | notEqual => boolean !(looselyEquals heap a b)
  | strictEqual => boolean (equals heap a b)
  | strictNotEqual => boolean !(equals heap a b)
  | less => ordered heap Ordering.isLT a b
  | lessOrEqual => ordered heap Ordering.isLE a b
  | greater => ordered heap Ordering.isGT a b
  | greaterOrEqual => ordered heap Ordering.isGE a b

end Operator

end Fabula
