import Fabula.Value.Equality
import Fabula.Value.Printing
import Fabula.Number.Reading
import Fabula.Text.Blank

/-! Conversions to truth values, integers, floats and lengths, and the two comparisons that convert:
loose equality and order. -/

namespace Fabula.Value

def truth (heap : Heap) : Value → Bool
  | boolean b => b
  | integer i => i != 0
  | float x => x != 0.0 && !x.isNaN
  | string s => !s.isEmpty
  | list h => !(heap.cell h).isEmpty
  | _ => true

/-- Text is read as an integer, else as a float that is then truncated. -/
def toInteger : Value → Int64
  | boolean b => if b then 1 else 0
  | integer i => i
  | float x => Number.truncate x
  | string s =>
    let word := Text.trim s
    match Number.integer? word with
    | some i => i
    | none => ((Number.float? word).map Number.truncate).getD 0
  | _ => 0

def toFloat : Value → Float
  | boolean b => if b then 1.0 else 0.0
  | integer i => Number.ofInteger i
  | float x => x
  | string s => (Number.float? (Text.trim s)).getD Number.nan
  | _ => Number.nan

def length (heap : Heap) : Value → Nat
  | list h => (heap.cell h).size
  | string s => s.length
  | _ => 1

/-- Whether both sides are literals other than NaN, so that they convert to a common form. -/
def comparable (a b : Value) : Bool := a.isLiteral && b.isLiteral && !a.isNaN && !b.isNaN

/-- Literals are equal when their common form is: text if either is text, else floats. -/
def looselyEquals (heap : Heap) (a b : Value) : Bool :=
  if !comparable a b then equals heap a b
  else if a.isString || b.isString then text heap a == text heap b
  else a.toFloat == b.toFloat

def orderFloats (x y : Float) : Option Ordering :=
  if x < y then some .lt else if x == y then some .eq else if y < x then some .gt else none

/-- The order of two literals in their common form. -/
def order? (heap : Heap) (a b : Value) : Option Ordering :=
  if !comparable a b then none
  else if a.isString || b.isString then some (compare (text heap a) (text heap b))
  else orderFloats a.toFloat b.toFloat

end Fabula.Value
