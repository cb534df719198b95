import Std.Data.ExtTreeMap
import Std.Data.ExtTreeSet
import Fabula.Text.Case

/-! Kinds of elements and references to elements. The world is the one element of its kind. An
object is held by elements of the other kinds. -/

namespace Fabula

inductive ElementKind where
  | world | player | room | object | container
deriving DecidableEq, Inhabited

namespace ElementKind

def all : List ElementKind := [.world, .player, .room, .object, .container]

def tag : ElementKind → UInt8
  | world => 0 | player => 1 | room => 2 | object => 3 | container => 4

def ofTag? (tag : UInt8) : Option ElementKind := all.find? fun kind => kind.tag == tag

@[simp] theorem ofTag?_tag (kind : ElementKind) : ofTag? kind.tag = some kind := by
  cases kind <;> rfl

theorem tag_injective {a b : ElementKind} (h : a.tag = b.tag) : a = b := by
  have ha := ofTag?_tag a
  rw [h, ofTag?_tag b] at ha
  exact (Option.some.inj ha).symm

def name : ElementKind → String
  | world => "world" | player => "player" | room => "room" | object => "object"
  | container => "container"

def holdsObjects : ElementKind → Bool
  | object => false
  | _ => true

def ofName? (name : String) : Option ElementKind := all.find? fun kind => kind.name == name

end ElementKind

def worldIdentity : String := "world"

/-- A typed reference to an element by its folded identity. -/
structure ElementRef where
  kind : ElementKind
  identity : String
deriving DecidableEq, Inhabited

namespace ElementRef

def of (kind : ElementKind) (identity : String) : ElementRef := ⟨kind, Text.fold identity⟩

def world : ElementRef := ⟨.world, worldIdentity⟩

def text (e : ElementRef) : String := e.kind.name ++ ":" ++ e.identity

/-- References are ordered by kind, then by identity. -/
instance : Ord ElementRef :=
  ⟨compareLex (compareOn fun e => e.kind.tag) (compareOn fun e => e.identity)⟩

instance : Std.TransOrd ElementRef :=
  inferInstanceAs (Std.TransCmp
    (compareLex (compareOn fun e : ElementRef => e.kind.tag) (compareOn fun e => e.identity)))

instance : Std.LawfulEqOrd ElementRef where
  compare_self := Std.ReflCmp.compare_self
  eq_of_compare {a b} h := by
    have h' : (compare a.kind.tag b.kind.tag).then (compare a.identity b.identity) = .eq := h
    rw [Ordering.then_eq_eq, Std.compare_eq_iff_eq, Std.compare_eq_iff_eq] at h'
    obtain ⟨kind, identity⟩ := a
    obtain ⟨kind', identity'⟩ := b
    cases ElementKind.tag_injective h'.1
    cases h'.2
    rfl

end ElementRef

/-- A finite map from text, in the order of its keys. -/
abbrev Table (α : Type) := Std.ExtTreeMap String α

/-- A finite set of words, in their order. -/
abbrev Words := Std.ExtTreeSet String

end Fabula
