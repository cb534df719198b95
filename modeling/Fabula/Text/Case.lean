import Fabula.Text.CaseData

/-! Full case mapping. Every character maps on its own to one or more characters, except that a
capital sigma at the end of a word becomes the final form. Identities are compared folded, that is,
in lower case. -/

namespace Fabula.Text

def mapBeyondAscii (expansions : List (Nat × List Nat)) (runs : List CaseRun) (c : Char) :
    List Char :=
  match expansions.find? fun entry => entry.1 == c.toNat with
  | some entry => entry.2.map Char.ofNat
  | none =>
    match runs.findSome? fun run => run.map? c.toNat with
    | some n => [Char.ofNat n]
    | none => [c]

def lowerChar (c : Char) : List Char :=
  if c.toNat < 128 then [c.toLower] else mapBeyondAscii lowerExpansions lowerRuns c

def upperChar (c : Char) : List Char :=
  if c.toNat < 128 then [c.toUpper] else mapBeyondAscii upperExpansions upperRuns c

/-- The first character that a scan for case does not pass over has case. -/
def startsCased (cs : List Char) : Bool :=
  match cs.dropWhile caseIgnorable.mem with
  | c :: _ => cased.mem c
  | [] => false

/-- A sigma is final when a cased character stands before it and none after it. -/
def lowerSigma (before after : List Char) : Char :=
  if startsCased before && !startsCased after then 'ς' else 'σ'

/-- Lower case of the characters after `before`, which is held last first. -/
def lowerFrom : List Char → List Char → List Char
  | _, [] => []
  | before, c :: rest =>
    (if c = 'Σ' then [lowerSigma before rest] else lowerChar c) ++ lowerFrom (c :: before) rest

def lowercase (s : String) : String := String.ofList (lowerFrom [] s.toList)

def uppercase (s : String) : String := String.ofList (s.toList.flatMap upperChar)

/-- The form in which identities, names and tags are stored and compared. -/
def fold (s : String) : String := lowercase s

end Fabula.Text
