/-! Floating-point numbers as significand and exponent: a finite number is its sign times
`significand · 2 ^ exponent`. On this view stand truncation to a 64-bit integer and the exact
remainder of a division. -/

namespace Fabula.Number

def nan : Float := Float.ofBits 0x7ff8000000000000

def infinity : Float := Float.ofBits 0x7ff0000000000000

def isNegative (x : Float) : Bool := x.toBits >>> 63 == 1

def magnitude (x : Float) : Float := Float.ofBits (x.toBits &&& 0x7fffffffffffffff)

def biasedExponent (x : Float) : Nat := ((x.toBits >>> 52) &&& 0x7ff).toNat

def fraction (x : Float) : Nat := (x.toBits &&& 0xfffffffffffff).toNat

def significand (x : Float) : Nat :=
  if biasedExponent x = 0 then fraction x else 0x10000000000000 + fraction x

def exponent (x : Float) : Int :=
  if biasedExponent x = 0 then -1074 else (biasedExponent x : Int) - 1075

/-- Both zeros become the positive one. -/
def unsignZero (x : Float) : Float := if x == 0.0 then 0.0 else x

/-- The nearest number to an integer, a tie going to the even significand. -/
def ofInteger (i : Int64) : Float :=
  let size := i.toInt.natAbs.toUInt64.toFloat
  if i < 0 then -size else size

/-- Drops the fraction; what lies outside the 64-bit range goes to its nearer end, NaN to zero. -/
def truncate (x : Float) : Int64 :=
  let size := (magnitude x).toUInt64
  if x.isNaN then 0
  else if x < 0.0 then
    if 0x8000000000000000 ≤ size.toNat then Int64.minValue else -size.toInt64
  else if 0x8000000000000000 ≤ size.toNat then Int64.maxValue
  else size.toInt64

/-- The number `m · 2 ^ e`, for `m` and `e` that one float holds exactly. -/
def ofExact (negative : Bool) (m : Nat) (e : Int) : Float :=
  let top : Int := m.log2 + e
  let bits : Nat :=
    if m = 0 then 0
    else if top < -1022 then m <<< (e + 1074).toNat
    else
      let aligned := if m.log2 ≤ 52 then m <<< (52 - m.log2) else m >>> (m.log2 - 52)
      ((top + 1023).toNat <<< 52) + (aligned - 0x10000000000000)
  let x := Float.ofBits bits.toUInt64
  if negative then -x else x

/-- What is left of `x` after taking away the truncated quotient's multiple of `y`; it has the sign
of `x` and is exact. -/
def remainder (x y : Float) : Float :=
  if x.isNaN || y.isNaN || x.isInf || y == 0.0 then nan
  else if y.isInf then x
  else
    let e := min (exponent x) (exponent y)
    let dividend := significand x <<< (exponent x - e).toNat
    let divisor := significand y <<< (exponent y - e).toNat
    ofExact (isNegative x) (dividend % divisor) e

end Fabula.Number
