import Fabula.Element.Kind

/-! Who holds what: the holder of every object, the names and tags of objects, the rooms every
player is in, and the current player. Objects are kept by holder as well, and no set is ever kept
empty. -/

namespace Fabula

/-- Sets of words by owner; an owner without words has no entry. -/
abbrev WordTable := Table Words

namespace WordTable

def get (t : WordTable) (owner : String) : Words := t[owner]?.getD ∅

def add (t : WordTable) (owner word : String) : WordTable :=
  t.insert owner ((get t owner).insert word)

def remove (t : WordTable) (owner word : String) : WordTable :=
  match t[owner]? with
  | none => t
  | some words =>
    let rest := words.erase word
    if rest.isEmpty then t.erase owner else t.insert owner rest

def has (t : WordTable) (owner word : String) : Bool := (get t owner).contains word

end WordTable

/-- Objects by holder. -/
abbrev HeldTable := Std.ExtTreeMap ElementRef Words

/-- Who holds what. Room stacks have the innermost room first. -/
structure Ownership where
  names : WordTable := ∅
  tags : WordTable := ∅
  owner : Table ElementRef := ∅
  held : HeldTable := ∅
  rooms : Table (List String) := ∅
  player : Option String := none

namespace Ownership

def empty : Ownership := {}

instance : Inhabited Ownership := ⟨empty⟩

def objectsOf (m : Ownership) (holder : ElementRef) : Words := m.held[holder]?.getD ∅

/-- Takes an object from its holder. -/
def removeObject (m : Ownership) (object : String) : Ownership :=
  match m.owner[object]? with
  | none => m
  | some holder =>
    let rest := (m.objectsOf holder).erase object
    { m with
      owner := m.owner.erase object
      held := if rest.isEmpty then m.held.erase holder else m.held.insert holder rest }

/-- Gives an object to a holder and takes it from the one before. -/
def addObject (m : Ownership) (holder : ElementRef) (object : String) : Ownership :=
  let m := m.removeObject object
  { m with
    owner := m.owner.insert object holder
    held := m.held.insert holder ((m.objectsOf holder).insert object) }

/-- The objects of a holder in order of identity. -/
def objectsHeld (m : Ownership) (holder : ElementRef) : List String := (m.objectsOf holder).toList

/-- Gives all objects of one holder to another. -/
def moveObjects (m : Ownership) (source target : ElementRef) : Ownership :=
  if source = target then m
  else (m.objectsHeld source).foldl (fun m object => m.addObject target object) m

def owner? (m : Ownership) (object : String) : Option ElementRef := m.owner[object]?

def hasObject (m : Ownership) (holder : ElementRef) (object : String) : Bool :=
  (m.objectsOf holder).contains object

def objectCount (m : Ownership) (holder : ElementRef) : Nat := (m.objectsOf holder).size

def addName (m : Ownership) (object name : String) : Ownership :=
  { m with names := WordTable.add m.names object (Text.fold name) }

def removeName (m : Ownership) (object name : String) : Ownership :=
  { m with names := WordTable.remove m.names object (Text.fold name) }

def hasName (m : Ownership) (object name : String) : Bool :=
  WordTable.has m.names object (Text.fold name)

def addTag (m : Ownership) (object tag : String) : Ownership :=
  { m with tags := WordTable.add m.tags object (Text.fold tag) }

def removeTag (m : Ownership) (object tag : String) : Ownership :=
  { m with tags := WordTable.remove m.tags object (Text.fold tag) }

def hasTag (m : Ownership) (object tag : String) : Bool :=
  WordTable.has m.tags object (Text.fold tag)

/-- The rooms a player is in, innermost first. -/
def roomsOf (m : Ownership) (player : String) : List String := m.rooms[player]?.getD []

/-- The rooms a player is in, outermost first. -/
def roomStack (m : Ownership) (player : String) : List String := (m.roomsOf player).reverse

def setRooms (m : Ownership) (player : String) (rooms : List String) : Ownership :=
  { m with rooms := if rooms.isEmpty then m.rooms.erase player else m.rooms.insert player rooms }

def pushRoom (m : Ownership) (player room : String) : Ownership :=
  m.setRooms player (room :: m.roomsOf player)

/-- Leaves the innermost room, which is given back. -/
def popRoom (m : Ownership) (player : String) : Option String × Ownership :=
  match m.roomsOf player with
  | [] => (none, m)
  | room :: rest => (some room, m.setRooms player rest)

/-- Puts a room in the place of the innermost one, which is given back. -/
def swapRoom (m : Ownership) (player room : String) : Option String × Ownership :=
  let popped := m.popRoom player
  (popped.1, popped.2.pushRoom player room)

/-- The innermost room of a player. -/
def roomOf? (m : Ownership) (player : String) : Option String := (m.roomsOf player).head?

def setPlayer (m : Ownership) (player : Option String) : Ownership := { m with player := player }

/-- The innermost room of the current player. -/
def room? (m : Ownership) : Option String :=
  match m.player with
  | none => none
  | some player => m.roomOf? player

/-- Where the current player finds objects: on themselves, in the room, in the world. -/
def reachable (m : Ownership) : List ElementRef :=
  (m.player.map (ElementRef.of .player)).toList ++ (m.room?.map (ElementRef.of .room)).toList ++
    [ElementRef.world]

/-- The objects of a folded name that a holder has. -/
def namedObjects (m : Ownership) (holder : ElementRef) (name : String) : List String :=
  (m.objectsHeld holder).filter fun object => WordTable.has m.names object name

/-- The objects of a name that the current player can reach: those of the nearest holder that has
any. -/
def accessible (m : Ownership) (name : String) : List String :=
  ((m.reachable.map fun holder => m.namedObjects holder (Text.fold name)).find?
    fun found => !found.isEmpty).getD []

/-- Nothing is recorded. -/
def isEmpty (m : Ownership) : Bool :=
  m.names.isEmpty && m.tags.isEmpty && m.owner.isEmpty && m.held.isEmpty && m.rooms.isEmpty &&
    m.player.isNone

end Ownership

end Fabula
