import Fabula.Value.Basic

/-! Stacks of values. Conditions and calls look at the height of the stack all the time, so a stack
knows it. -/

namespace Fabula

/-- A stack, its top first. -/
structure Stack where
  values : List Value
  height : Nat
  height_eq : height = values.length

namespace Stack

theorem eq_of_values {s t : Stack} (h : s.values = t.values) : s = t := by
  cases s
  cases t
  simp_all

def empty : Stack := ⟨[], 0, rfl⟩

def push (s : Stack) (v : Value) : Stack :=
  ⟨v :: s.values, s.height + 1, by simp [s.height_eq]⟩

/-- The top and the stack below it. -/
@[inline] def pop? : Stack → Option (Value × Stack)
  | ⟨[], _, _⟩ => none
  | ⟨v :: rest, n, h⟩ => some (v, ⟨rest, n - 1, by simp [h]⟩)

/-- The top `n` values, the topmost first. -/
def top (s : Stack) (n : Nat) : List Value := s.values.take n

/-- The stack without its top `n` values. -/
def drop (s : Stack) (n : Nat) : Stack :=
  ⟨s.values.drop n, s.height - n, by simp [s.height_eq]⟩

/-- The bottom of the stack, cut at a height. -/
def bottom (s : Stack) (height : Nat) : Stack := s.drop (s.height - height)

@[simp] theorem values_empty : empty.values = [] := rfl

@[simp] theorem values_push (s : Stack) (v : Value) : (s.push v).values = v :: s.values := rfl

@[simp] theorem height_push (s : Stack) (v : Value) : (s.push v).height = s.height + 1 := rfl

@[simp] theorem pop?_empty : empty.pop? = none := rfl

@[simp] theorem pop?_push (s : Stack) (v : Value) : (s.push v).pop? = some (v, s) := rfl

@[simp] theorem values_drop (s : Stack) (n : Nat) : (s.drop n).values = s.values.drop n := rfl

@[simp] theorem height_drop (s : Stack) (n : Nat) : (s.drop n).height = s.height - n := rfl

@[simp] theorem bottom_height (s : Stack) : s.bottom s.height = s :=
  eq_of_values (by simp [bottom])

theorem height_bottom (s : Stack) (height : Nat) :
    (s.bottom height).height = min height s.height := by
  simp only [bottom, height_drop]
  omega

end Stack

end Fabula
