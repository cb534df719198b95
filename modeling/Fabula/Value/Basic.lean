import Fabula.Element.Kind
import Fabula.Number.Binary

/-! The values scripts compute with. Every value is copied when it is passed on, except that a list
is a handle to a cell of the heap, so that all copies of the handle see one list. -/

namespace Fabula

/-- The place of a list in the heap. -/
abbrev Handle := Nat

inductive ValueKind where
  | boolean | integer | float | string | list | object | player | room | container | world
  | action | varName
deriving DecidableEq, Inhabited

namespace ValueKind

def all : List ValueKind :=
  [.boolean, .integer, .float, .string, .list, .object, .player, .room, .container, .world,
   .action, .varName]

def tag : ValueKind → UInt8
  | boolean => 0 | integer => 1 | float => 2 | string => 3 | list => 4 | object => 5
  | player => 6 | room => 7 | container => 8 | world => 9 | action => 10 | varName => 11

def ofTag? (tag : UInt8) : Option ValueKind := all.find? fun kind => kind.tag == tag

@[simp] theorem ofTag?_tag (kind : ValueKind) : ofTag? kind.tag = some kind := by
  cases kind <;> rfl

def name : ValueKind → String
  | boolean => "BOOLEAN" | integer => "INTEGER" | float => "FLOAT" | string => "STRING"
  | list => "LIST" | object => "OBJECT" | player => "PLAYER" | room => "ROOM"
  | container => "CONTAINER" | world => "WORLD" | action => "ACTION" | varName => "VARIABLE"

def ofElement : ElementKind → ValueKind
  | .world => world | .player => player | .room => room | .object => object
  | .container => container

end ValueKind

inductive Value where
  | boolean (b : Bool)
  | integer (i : Int64)
  | float (x : Float)
  | string (s : String)
  | list (handle : Handle)
  | element (kind : ElementKind) (identity : String)
  | action (identity : String)
  | varName (name : String)
deriving DecidableEq

namespace Value

instance : Inhabited Value := ⟨boolean false⟩

/-- A float with both zeros made one. -/
def real (x : Float) : Value := float (Number.unsignZero x)

def notANumber : Value := float Number.nan

/-- A count as an integer value. -/
def count (n : Nat) : Value := integer (Int64.ofInt (min n Int64.maxValue.toInt))

def world : Value := element .world worldIdentity

/-- The value that refers to the element; identities are folded, and there is one world. -/
def reference : ElementKind → String → Value
  | .world, _ => world
  | kind, identity => element kind (Text.fold identity)

def player (identity : String) : Value := reference .player identity

def room (identity : String) : Value := reference .room identity

def object (identity : String) : Value := reference .object identity

def actionNamed (identity : String) : Value := action (Text.fold identity)

def variableNamed (name : String) : Value := varName (Text.fold name)

def kind : Value → ValueKind
  | boolean _ => .boolean | integer _ => .integer | float _ => .float | string _ => .string
  | list _ => .list | element kind _ => .ofElement kind | action _ => .action
  | varName _ => .varName

def isLiteral : Value → Bool
  | boolean _ | integer _ | float _ | string _ => true
  | _ => false

def isNumeric : Value → Bool
  | integer _ | float _ => true
  | _ => false

def isNaN : Value → Bool
  | float x => x.isNaN
  | _ => false

def isString : Value → Bool
  | string _ => true
  | _ => false

/-- Whether copies of the value share state. -/
def isShared : Value → Bool
  | list _ => true
  | _ => false

def elementKind? : Value → Option ElementKind
  | element kind _ => some kind
  | _ => none

def identity? : Value → Option String
  | element _ identity | action identity | varName identity => some identity
  | _ => none

end Value

def ElementRef.value (e : ElementRef) : Value := Value.reference e.kind e.identity

/-- The lists of a session, by handle. -/
structure Heap where
  cells : Array (Array Value)
deriving DecidableEq

namespace Heap

def empty : Heap := ⟨#[]⟩

instance : Inhabited Heap := ⟨empty⟩

def size (heap : Heap) : Nat := heap.cells.size

/-- What a list holds; a handle outside the heap stands for an empty list. -/
def cell (heap : Heap) (h : Handle) : Array Value := heap.cells[h]?.getD #[]

/-- The items of a list. -/
def items (heap : Heap) (h : Handle) : List Value := (heap.cell h).toList

/-- A new list with its handle. -/
def alloc (heap : Heap) (items : List Value) : Handle × Heap :=
  (heap.cells.size, ⟨heap.cells.push items.toArray⟩)

/-- Changes what a list holds. -/
def modify (heap : Heap) (h : Handle) (f : Array Value → Array Value) : Heap :=
  ⟨heap.cells.modify h f⟩

def put (heap : Heap) (h : Handle) (items : List Value) : Heap :=
  heap.modify h fun _ => items.toArray

@[simp] theorem toList_cell (heap : Heap) (h : Handle) :
    (heap.cell h).toList = heap.items h := rfl

@[simp] theorem size_cell (heap : Heap) (h : Handle) :
    (heap.cell h).size = (heap.items h).length := rfl

@[simp] theorem alloc_fst (heap : Heap) (items : List Value) :
    (heap.alloc items).1 = heap.size := rfl

@[simp] theorem size_alloc (heap : Heap) (items : List Value) :
    (heap.alloc items).2.size = heap.size + 1 := by simp [alloc, size]

@[simp] theorem size_modify (heap : Heap) (h : Handle) (f : Array Value → Array Value) :
    (heap.modify h f).size = heap.size := by simp [modify, size]

@[simp] theorem size_put (heap : Heap) (h : Handle) (items : List Value) :
    (heap.put h items).size = heap.size := size_modify ..

theorem items_alloc (heap : Heap) (new : List Value) (h : Handle) :
    (heap.alloc new).2.items h = if h = heap.size then new else heap.items h := by
  by_cases e : h = heap.size
  · simp [alloc, items, cell, size, e]
  · simp [alloc, items, cell, size, Array.getElem?_push] at e ⊢; simp [e]

theorem cell_modify (heap : Heap) (h k : Handle) (f : Array Value → Array Value) :
    (heap.modify h f).cell k = if k = h ∧ h < heap.size then f (heap.cell h) else heap.cell k := by
  simp only [modify, cell, size, Array.getElem?_modify]
  by_cases e : h = k
  · subst e
    by_cases b : h < heap.cells.size <;> simp [b]
  · simp [e, Ne.symm e]

theorem items_put (heap : Heap) (h k : Handle) (new : List Value) :
    (heap.put h new).items k = if k = h ∧ h < heap.size then new else heap.items k := by
  rw [put, items, cell_modify]
  split <;> rfl

end Heap

end Fabula
