import Fabula.Bytes.Writer
import Fabula.Story.Element

/-! A story: header, world, actions and elements. Elements of one kind may descend from one another;
what an element does not define itself it takes from its nearest ancestor that does. -/

namespace Fabula

/-- A story. The header is free text about it and no part of its content. The digest of the content
is kept from when it was last asked for until the next edit. -/
structure Story where
  header : Table String := ∅
  world : Element := Element.world
  actions : Table Action := ∅
  elements : Table Element := ∅
  knownDigest : Option Bytes := none

namespace Story

/-- The story of an empty world. -/
def empty : Story := {}

instance : Inhabited Story := ⟨empty⟩

def headerText? (s : Story) (key : String) : Option String := s.header[Text.fold key]?

def setHeader (s : Story) (key value : String) : Story :=
  { s with header := s.header.insert (Text.fold key) value }

def action? (s : Story) (identity : String) : Option Action := s.actions[Text.fold identity]?

/-- An element, the world included. -/
def element? (s : Story) (identity : String) : Option Element :=
  if Text.fold identity = worldIdentity then some s.world else s.elements[Text.fold identity]?

/-- The elements of a kind other than the world, by identity. -/
def elementsOf (s : Story) (kind : ElementKind) : List Element :=
  s.elements.values.filter fun e => e.kind = kind

def addAction (s : Story) (a : Action) : Except StoryError Story :=
  if s.actions.contains a.identity then .error (.duplicateIdentity a.identity)
  else .ok { s with actions := s.actions.insert a.identity a, knownDigest := none }

def addElement (s : Story) (e : Element) : Except StoryError Story :=
  if e.kind = .world then .error (.reservedIdentity e.identity)
  else
    match checkIdentity e.identity with
    | .error error => .error error
    | .ok () =>
      if s.elements.contains e.identity then .error (.duplicateIdentity e.identity)
      else .ok { s with elements := s.elements.insert e.identity e, knownDigest := none }

/-- Edits the world. A failing edit leaves it as it was. -/
def editWorld (s : Story) (edit : Element → Except StoryError Element) :
    Except StoryError Unit × Story :=
  let s := { s with knownDigest := none }
  match edit s.world with
  | .ok e => (.ok (), { s with world := e })
  | .error error => (.error error, s)

/-- Edits an element other than the world; `none` if there is no such element. -/
def editElement (s : Story) (identity : String) (edit : Element → Except StoryError Element) :
    Option (Except StoryError Unit) × Story :=
  let s := { s with knownDigest := none }
  match s.elements[Text.fold identity]? with
  | none => (none, s)
  | some e =>
    match edit e with
    | .ok e => (some (.ok ()), { s with elements := s.elements.insert (Text.fold identity) e })
    | .error error => (some (.error error), s)

/-- The parent of an element. -/
def parent? (s : Story) (e : Element) : Option Element :=
  match e.parent with
  | none => none
  | some parent => s.elements[parent]?

/-- An element and its ancestors, nearest first, at most `generations` of them. -/
def ancestry (s : Story) : Nat → Element → List Element
  | 0, e => [e]
  | generations + 1, e =>
    match s.parent? e with
    | none => [e]
    | some parent => e :: s.ancestry generations parent

/-- The element of an identity and its ancestors, nearest first. Since no element is its own
ancestor, there are no more of them than elements. -/
def lineage (s : Story) (identity : String) : List Element :=
  match s.element? identity with
  | none => []
  | some e => s.ancestry s.elements.size e

/-- Makes one element the parent of another of the same kind. The parent is set once, and no element
becomes its own ancestor. -/
def linkParent (s : Story) (child parent : String) : Except StoryError Story :=
  let child := Text.fold child
  let parent := Text.fold parent
  match s.element? child, s.element? parent with
  | none, _ => .error (.unknownElement child)
  | some _, none => .error (.unknownElement parent)
  | some c, some p =>
    if c.kind = .world ∨ p.kind = .world then .error .worldLineage
    else if c.kind ≠ p.kind then .error (.lineageKindMismatch child parent)
    else
      match c.parent with
      | some known => if known = parent then .ok s else .error (.parentAlreadySet child)
      | none =>
        if (s.lineage parent).any fun e => e.identity = child then .error (.circularLineage child)
        else .ok { s with
          elements := s.elements.insert child { c with parent := some parent }
          knownDigest := none }

/-- The block for an entry on an element or its nearest ancestor that has one. -/
def resolveBlock? (s : Story) (heap : Heap) (identity : String) (entry : Entry) : Option Block :=
  (s.lineage identity).findSome? fun e => e.block? heap entry

/-- The function of a name on an element or its nearest ancestor that has one. -/
def resolveFunction? (s : Story) (identity name : String) : Option Function :=
  (s.lineage identity).findSome? fun e => e.function? (Text.fold name)

end Story

end Fabula
