import Fabula.Number.Shortest

/-! How numbers are written. Scripts see positional notation always; the notation for inspection
turns to an exponent for very small and very large numbers. -/

namespace Fabula.Number

def digitText (digits : List Nat) : String :=
  String.ofList (digits.map fun d => Char.ofNat (48 + d))

def zeros (n : Nat) : String := String.ofList (List.replicate n '0')

/-- Positional notation with at least `places` digits after the point; no point without digits. -/
def positional (d : Decimal) (places : Nat) : String :=
  let n := d.digits.length
  if d.digits.isEmpty then
    if places = 0 then "0" else "0." ++ zeros places
  else if d.point ≤ 0 then
    let lead := (-d.point).toNat
    "0." ++ zeros lead ++ digitText d.digits ++ zeros (places - (lead + n))
  else
    let k := d.point.toNat
    if n ≤ k then
      digitText d.digits ++ zeros (k - n) ++ (if places = 0 then "" else "." ++ zeros places)
    else
      digitText (d.digits.take k) ++ "." ++ digitText (d.digits.drop k) ++
        zeros (places - (n - k))

/-- One digit before the point, then the exponent. -/
def scientific (d : Decimal) : String :=
  let tail := d.digits.drop 1
  digitText (d.digits.take 1) ++ (if tail.isEmpty then "" else "." ++ digitText tail) ++ "e" ++
    toString (d.point - 1)

def decimal (x : Float) : Decimal := if x == 0.0 then ⟨[], 0⟩ else shortest (magnitude x)

def sign (x : Float) : String := if isNegative x then "-" else ""

/-- The text scripts see: a point and a digit after it below ten to the sixteenth, none above. -/
def floatText (x : Float) : String :=
  if x.isNaN then "NaN"
  else if x.isInf then if x < 0.0 then "-Infinity" else "Infinity"
  else sign x ++ positional (decimal x) (if magnitude x < 1e16 then 1 else 0)

/-- The text for inspection. -/
def floatInspect (x : Float) : String :=
  if x.isNaN then "NaN"
  else if x.isInf then if x < 0.0 then "-inf" else "inf"
  else
    let size := magnitude x
    if !(x == 0.0) && (size < 1e-4 || 1e16 ≤ size) then sign x ++ scientific (decimal x)
    else sign x ++ positional (decimal x) 1

end Fabula.Number
