import Fabula.Session.Save
import Fabula.Story.Decode

/-! Loading saved states. A saved state belongs to one story, and everything in it has to be live in
the session. Loading replaces all of the state but the random source, or nothing. -/

namespace Fabula

/-- What has been rebuilt so far: the heap, and the lists by their numbers. -/
structure Rebuilt where
  heap : Heap
  lists : Std.ExtTreeMap Nat Handle := ∅

namespace Reader

/-- One more item, with what the ones before rebuilt. -/
def savedItem (value : Rebuilt → Reader (Value × Rebuilt)) (found : List Value × Rebuilt) :
    Reader (List Value × Rebuilt) := do
  let (v, b) ← value found.2
  return (v :: found.1, b)

def savedItems (value : Rebuilt → Reader (Value × Rebuilt)) (b : Rebuilt) :
    Reader (List Value × Rebuilt) := do
  let found ← counted (savedItem value) ([], b)
  return (found.1.reverse, found.2)

/-- A saved value with lists at most `levels` deep. -/
def savedValue : Nat → Rebuilt → Reader (Value × Rebuilt)
  | levels, b => do
    let kind ← tagged "value" ValueKind.ofTag?
    if kind ≠ .list then return (← scalar kind, b)
    else
      let number ← natural
      let full ← tagged "list reference" fun tag =>
        if tag = 0 then some false else if tag = 1 then some true else none
      if !full then
        match b.lists[number]? with
        | some h => return (.list h, b)
        | none => fail (.badReference number)
      else
        match levels with
        | 0 => fail .nestingTooDeep
        | levels + 1 =>
          if b.lists.contains number then fail (.badReference number)
          else
            let (h, heap) := b.heap.alloc []
            let (items, b) ← savedItems (savedValue levels) ⟨heap, b.lists.insert number h⟩
            return (.list h, { b with heap := b.heap.put h items })

def savedVariable (found : Table Value × Rebuilt) : Reader (Table Value × Rebuilt) := do
  let name ← text
  let (v, b) ← savedValue maxNesting found.2
  return (found.1.insert name v, b)

/-- Memory for the announced number of variables is taken to be there. A number that is too large is
found out where the bytes end. -/
def savedVariables (b : Rebuilt) : Reader (Table Value × Rebuilt) := counted savedVariable (∅, b)

/-- An identity that must be that of a live element of the kind. -/
def liveIdentity (s : Session) (kind : ElementKind) : Reader String := do
  let identity ← text
  match s.state.context s.story identity with
  | .ok c => if c.element.kind = kind then return identity else fail (.unknownElement identity)
  | .error _ => fail (.unknownElement identity)

/-- Variables by element, the last ones first. -/
abbrev Sections := List (String × Table Value)

def savedElement (s : Session) (kind : ElementKind) (found : Sections × Rebuilt) :
    Reader (Sections × Rebuilt) := do
  let identity ← liveIdentity s kind
  let (bindings, b) ← savedVariables found.2
  return ((identity, bindings) :: found.1, b)

def savedKind (s : Session) (kind : ElementKind) (found : Sections × Rebuilt) :
    Reader (Sections × Rebuilt) :=
  counted (savedElement s kind) found

/-- The variables of the world and then of all other live elements. -/
def savedSections (s : Session) : Reader (Sections × Rebuilt) := do
  let (world, b) ← savedVariables ⟨s.state.heap, ∅⟩
  Story.fileKinds.foldlM (fun found kind => savedKind s kind found) ([(worldIdentity, world)], b)

def describedObject (s : Session) (m : Ownership) : Reader Ownership := do
  let object ← liveIdentity s .object
  let m ← counted (fun m => do return Ownership.addName m object (← text)) m
  counted (fun m => do return Ownership.addTag m object (← text)) m

def ownedObject (s : Session) (m : Ownership) : Reader Ownership := do
  let object ← liveIdentity s .object
  let kind ← tagged "holder kind" fun tag =>
    (ElementKind.ofTag? tag).filter fun kind => kind.holdsObjects
  let holder ← liveIdentity s kind
  return m.addObject (.of kind holder) object

def roomStack (s : Session) (m : Ownership) : Reader Ownership := do
  let player ← liveIdentity s .player
  counted (fun m => do return Ownership.pushRoom m player (← liveIdentity s .room)) m

def ownership (s : Session) : Reader Ownership := do
  let m ← counted (describedObject s) .empty
  let m ← counted (ownedObject s) m
  let m ← counted (roomStack s) m
  if ← flag then return m.setPlayer (some (← liveIdentity s .player)) else return m

/-- The variables, the heap and the ownership in a saved state of the session's story. -/
def savedState (s : Session) : Reader (Sections × Heap × Ownership) := do
  magic Session.saveMagic
  let version ← byte
  if version ≠ Session.saveVersion then fail (.unsupportedVersion version)
  else
    let digest ← digest
    if digest ≠ s.digest then fail .storyMismatch
    else
      let (sections, b) ← savedSections s
      return (sections, b.heap, ← ownership s)

end Reader

namespace State

def withoutVariables (contexts : Table Context) : Table Context :=
  contexts.map fun _ c => { c with bindings := ∅ }

/-- Installs the variables of one element if it has a context under exactly this identity. -/
def installSection (contexts : Table Context) (identity : String) (bindings : Table Value) :
    Table Context :=
  match contexts[identity]? with
  | none => contexts
  | some c => contexts.insert identity { c with bindings := bindings }

end State

/-- The session after loading a saved state. -/
def Session.load (s : Session) (bytes : Bytes) : Except DecodeError Session :=
  match (Reader.savedState s).complete bytes with
  | .error e => .error e
  | .ok (sections, heap, ownership) =>
    .ok { s with
      state := { s.state with
        heap := heap
        contexts := sections.foldr (fun item t => State.installSection t item.1 item.2)
          (State.withoutVariables s.state.contexts)
        ownership := ownership } }

end Fabula
