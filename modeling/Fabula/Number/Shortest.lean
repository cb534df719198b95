import Fabula.Number.Binary

/-! The fewest decimal digits that read back as a given float. The reals that round to a float form
an interval, whose ends belong to it when the significand is even. For one digit, two digits and so
on, the two neighbours of the float on the grid of decimals with that many digits are tried; the
first grid with a neighbour inside the interval gives the digits, and of two neighbours inside the
nearer wins, the upper one on a tie. -/

namespace Fabula.Number

/-- Decimal digits `d₁ d₂ … dₙ`, read as the number `0.d₁d₂…dₙ · 10 ^ point`. -/
structure Decimal where
  digits : List Nat
  point : Int

/-- A positive float and the ends of its rounding interval over one denominator. -/
structure Interval where
  low : Nat
  value : Nat
  high : Nat
  denominator : Nat
  closed : Bool

def interval (x : Float) : Interval :=
  let m := significand x
  let e := exponent x - 2
  let scale := Nat.pow 2 e.toNat
  let below := if fraction x = 0 ∧ 1 < biasedExponent x then 4 * m - 1 else 4 * m - 2
  { low := below * scale, value := 4 * m * scale, high := (4 * m + 2) * scale,
    denominator := Nat.pow 2 (-e).toNat, closed := m % 2 == 0 }

/-- Scales by a power of ten, so that grid points become integers. -/
def Interval.scaled (i : Interval) (power : Int) : Interval :=
  let up := Nat.pow 10 power.toNat
  { i with low := i.low * up, value := i.value * up, high := i.high * up,
           denominator := i.denominator * Nat.pow 10 (-power).toNat }

def Interval.holds (i : Interval) (n : Nat) : Bool :=
  let point := n * i.denominator
  if i.closed then i.low ≤ point && point ≤ i.high else i.low < point && point < i.high

/-- The neighbour of the value on the integer grid to write, if one lies in the interval. -/
def Interval.pick (i : Interval) : Option Nat :=
  let floor := i.value / i.denominator
  let rest := i.value % i.denominator
  match i.holds floor, i.holds (floor + 1) with
  | true, true => some (if 2 * rest < i.denominator then floor else floor + 1)
  | true, false => some floor
  | false, true => some (floor + 1)
  | false, false => none

/-- The least `k` with value below `10 ^ k`. -/
def Interval.decimalPoint (i : Interval) : Int :=
  let guess := (((i.value.log2 : Int) - i.denominator.log2 - 1) * 30103) / 100000
  let below (k : Int) : Bool := i.value * Nat.pow 10 (-k).toNat < i.denominator * Nat.pow 10 k.toNat
  ([0, 1, 2, 3].map fun (d : Int) => guess + d).find? below |>.getD (guess + 4)

def dropTrailingZeros (digits : List Nat) : List Nat := (digits.reverse.dropWhile (· == 0)).reverse

def digitsOf (n : Nat) : List Nat := (Nat.toDigits 10 n).map fun c => c.toNat - 48

/-- The shortest decimal of a positive finite float. -/
def shortest (x : Float) : Decimal :=
  let i := interval x
  let point := i.decimalPoint
  let hit := (List.range 17).findSome? fun n =>
    ((i.scaled ((n + 1 : Nat) - point)).pick).map fun m => (n + 1, m)
  match hit with
  | none => ⟨[], 0⟩
  | some (n, m) =>
    let digits := digitsOf m
    ⟨dropTrailingZeros digits, point + ((digits.length : Int) - n)⟩

end Fabula.Number
