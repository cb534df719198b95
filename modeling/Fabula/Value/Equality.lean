import Fabula.Value.Basic

/-! Strict equality: the same kind and the same payload, lists item by item. Two lists that are
already being compared further out count as equal where they meet again, so that comparing lists
that contain themselves ends. -/

namespace Fabula.Value

/-- Item by item, on lists of one length. -/
def allPairs (eq : Value → Value → Bool) : List Value → List Value → Bool
  | a :: as, b :: bs => eq a b && allPairs eq as bs
  | [], [] => true
  | _, _ => false

def sameScalar : Value → Value → Bool
  | boolean a, boolean b => a == b
  | integer a, integer b => a == b
  | float a, float b => a == b
  | string a, string b => a == b
  | element k a, element l b => k == l && a == b
  | action a, action b => a == b
  | varName a, varName b => a == b
  | _, _ => false

/-- Equality inside the pairs of lists `openPairs`; `depth` bounds how many more pairs may open. -/
def equalInside (heap : Heap) : Nat → List (Handle × Handle) → Value → Value → Bool
  | 0, _, _, _ => false
  | depth + 1, openPairs, list a, list b =>
    if openPairs.contains (a, b) then true
    else if (heap.cell a).size ≠ (heap.cell b).size then false
    else allPairs (equalInside heap depth ((a, b) :: openPairs)) (heap.items a) (heap.items b)
  | _ + 1, _, a, b => sameScalar a b

/-- A path of open pairs without repetition is no longer than the number of pairs of lists. -/
def equals (heap : Heap) (a b : Value) : Bool :=
  equalInside heap (heap.size * heap.size + 2) [] a b

end Fabula.Value
