import Fabula.Number.Binary

/-! Numbers read from text. An integer is an optional sign and digits; a float is an optional sign
and either a name of infinity or NaN or digits with at most one point, at least one digit, and an
optional exponent. Nothing else may stand in the text. -/

namespace Fabula.Number

def digit? (c : Char) : Option Nat := if c.isDigit then some (c.toNat - 48) else none

/-- A number of at least one digit. Once it has reached `bound`, further digits no longer change
it. -/
def natural? (bound : Nat) : List Char → Option Nat
  | [] => none
  | cs => cs.foldlM (fun n c => (digit? c).map fun d => if n < bound then 10 * n + d else n) 0

/-- A sign and what follows it; no sign counts as plus. -/
def splitSign : List Char → Bool × List Char
  | '-' :: rest => (true, rest)
  | '+' :: rest => (false, rest)
  | cs => (false, cs)

/-- A 64-bit integer. -/
def integer? (s : String) : Option Int64 :=
  let (negative, digits) := splitSign s.toList
  match natural? 0x10000000000000000 digits with
  | none => none
  | some n =>
    let value : Int := if negative then -(n : Int) else n
    if Int64.minValue.toInt ≤ value ∧ value ≤ Int64.maxValue.toInt then some (Int64.ofInt value)
    else none

/-- A limit: an optional plus and digits, below `2 ^ 64`. -/
def limit? (s : String) : Option Nat :=
  let digits := match s.toList with
    | '+' :: rest => rest
    | cs => cs
  match natural? 0x10000000000000000 digits with
  | none => none
  | some n => if n < 0x10000000000000000 then some n else none

/-- An exponent after its mark: absent, or a mark with at least one digit. It grows no further once
it has reached `2 ^ 16`. -/
def exponent? : List Char → Option Int
  | [] => some 0
  | c :: rest =>
    if c = 'e' ∨ c = 'E' then
      let (negative, digits) := splitSign rest
      (natural? 0x10000 digits).map fun n => if negative then -(n : Int) else n
    else none

/-- The nearest float to `value · 10 ^ power`. Powers that no float reaches are cut off first. -/
def nearest (value : Nat) (power : Int) : Float :=
  if value = 0 then 0.0
  else
    let size : Int := (Nat.toDigits 10 value).length + power
    if 400 < size then infinity
    else if size < -400 then 0.0
    else Float.ofScientific value (power < 0) power.natAbs

/-- `count` digits of a float, which are `value` and then `dropped` more. Of the latter it is only
kept whether one is not zero: a number halfway between two floats has fewer than 800 digits, so no
more is needed to tell on which side of it the digits lie. -/
structure Digits where
  value : Nat
  dropped : Nat
  beyond : Bool
  count : Nat

namespace Digits

def empty : Digits := ⟨0, 0, false, 0⟩

/-- What a value has to reach before digits are dropped. -/
def enough : Nat := Nat.pow 10 800

def add (digits : Digits) (d : Nat) : Digits :=
  if digits.value < enough then
    { digits with value := 10 * digits.value + d, count := digits.count + 1 }
  else
    { digits with
      dropped := digits.dropped + 1
      beyond := digits.beyond || d != 0
      count := digits.count + 1 }

/-- Adds the digits at the start of the text, and gives back the rest. -/
def read (digits : Digits) : List Char → Digits × List Char
  | [] => (digits, [])
  | c :: rest =>
    match digit? c with
    | some d => (digits.add d).read rest
    | none => (digits, c :: rest)

/-- The nearest float to the digits times `10 ^ power`. -/
def toFloat (digits : Digits) (power : Int) : Float :=
  let power := power + digits.dropped
  if digits.beyond then nearest (10 * digits.value + 1) (power - 1)
  else nearest digits.value power

end Digits

/-- Whether the text is the name, in capital or small letters. -/
def spells : (name : List Char) → List Char → Bool
  | [], [] => true
  | n :: name, c :: rest => c.toLower == n && spells name rest
  | _, _ => false

def named? (cs : List Char) : Option Float :=
  if spells "inf".toList cs || spells "infinity".toList cs then some infinity
  else if spells "nan".toList cs then some nan
  else none

def unsignedFloat? (cs : List Char) : Option Float :=
  let (whole, rest) := Digits.empty.read cs
  let (all, rest) := match rest with
    | '.' :: rest => whole.read rest
    | rest => (whole, rest)
  if all.count = 0 then named? cs
  else (exponent? rest).map fun e => all.toFloat (e - ((all.count : Int) - whole.count))

def float? (s : String) : Option Float :=
  let (negative, rest) := splitSign s.toList
  (unsignedFloat? rest).map fun x => if negative then -x else x

end Fabula.Number
