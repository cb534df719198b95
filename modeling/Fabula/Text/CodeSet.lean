/-! Sets of characters as ranges of code points, and case mappings as runs of code points. Both are
written compactly, as lines of hexadecimal numbers divided by single blanks. -/

namespace Fabula.Text

def hexDigit (c : Char) : Nat := if c.isDigit then c.toNat - 48 else c.toNat - 87

/-- The numbers of a line from the middle of a number on, of which `n` has been read. -/
def numbersFrom : Nat → List Char → List Nat
  | n, [] => [n]
  | n, c :: rest =>
    if c = ' ' then n :: numbersFrom 0 rest else numbersFrom (16 * n + hexDigit c) rest

def numbersOfLine (line : String) : List Nat := numbersFrom 0 line.toList

def numbersOfLines (lines : List String) : List Nat := lines.flatMap numbersOfLine

structure CodeSet where
  ranges : Array (Nat × Nat)

namespace CodeSet

/-- Each range is written as its distance from the end of the one before and its length less one. -/
def rangesFrom : Nat → List Nat → List (Nat × Nat)
  | last, gap :: more :: rest =>
    (last + gap, last + gap + more) :: rangesFrom (last + gap + more) rest
  | _, _ => []

def ofLines (lines : List String) : CodeSet := ⟨(rangesFrom 0 (numbersOfLines lines)).toArray⟩

def mem (s : CodeSet) (c : Char) : Bool :=
  s.ranges.any fun range => range.1 ≤ c.toNat && c.toNat ≤ range.2

end CodeSet

/-- The code points `source`, `source + step`, … (`count` of them) map to `target`,
`target + step`, … -/
structure CaseRun where
  source : Nat
  count : Nat
  step : Nat
  target : Nat

namespace CaseRun

def ofNumbers : List Nat → List CaseRun
  | source :: count :: step :: target :: rest => ⟨source, count, step, target⟩ :: ofNumbers rest
  | _ => []

def ofLines (lines : List String) : List CaseRun := ofNumbers (numbersOfLines lines)

def map? (r : CaseRun) (n : Nat) : Option Nat :=
  if r.source ≤ n ∧ n - r.source < r.count * r.step ∧ (n - r.source) % r.step = 0 then
    some (r.target + (n - r.source))
  else none

end CaseRun

/-- Mappings to several code points, each written as source, count and targets. -/
def expansionsOfNumbers : Nat → List Nat → List (Nat × List Nat)
  | k + 1, source :: count :: rest =>
    (source, rest.take count) :: expansionsOfNumbers k (rest.drop count)
  | _, _ => []

def expansionsOfLines (lines : List String) : List (Nat × List Nat) :=
  let numbers := numbersOfLines lines
  expansionsOfNumbers numbers.length numbers

end Fabula.Text
