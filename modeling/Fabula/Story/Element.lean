import Fabula.Block.Basic
import Fabula.Story.Entry
import Fabula.Story.Error
import Fabula.Text.Letters

/-! The definitions a story is made of: elements with their blocks, functions and capabilities, and
actions. Players and rooms may restrict actions; objects have names and tags. -/

namespace Fabula

def reservedIdentities : List String := ["player", "room", "world"]

def wellFormedIdentity (identity : String) : Bool :=
  match identity.toList with
  | [] => false
  | c :: rest =>
    (Text.isLetter c || c == '_') &&
      rest.all fun c => Text.isLetter c || Text.isNumeral c || c == '_'

/-- An identity is a word of letters, numerals and `_`, does not start with a numeral and is not
reserved. -/
def checkIdentity (identity : String) : Except StoryError Unit :=
  if !wellFormedIdentity identity then .error (.badIdentity identity)
  else if reservedIdentities.contains (Text.fold identity) then .error (.reservedIdentity identity)
  else .ok ()

structure Function where
  name : String
  arguments : List String
  block : Block
deriving Inhabited

/-- A function under its folded name, with folded argument names. -/
def Function.of (name : String) (arguments : List String) (block : Block) : Function :=
  ⟨Text.fold name, arguments.map Text.fold, block⟩

/-- Whether the listed actions are the forbidden or the allowed ones. -/
inductive PermissionMode where
  | forbid | allow
deriving DecidableEq, Inhabited

structure PermissionTable where
  mode : PermissionMode
  actions : Words
deriving DecidableEq

namespace PermissionTable

def of (mode : PermissionMode) (actions : List String) : PermissionTable :=
  ⟨mode, actions.foldl (fun set action => set.insert (Text.fold action)) ∅⟩

def permits (t : PermissionTable) (action : String) : Bool :=
  match t.mode with
  | .forbid => !t.actions.contains action
  | .allow => t.actions.contains action

end PermissionTable

structure Element where
  kind : ElementKind
  identity : String
  archetype : Bool := false
  parent : Option String := none
  blocks : List (Entry × Block) := []
  functions : Table Function := ∅
  permissions : Option PermissionTable := none
  names : Words := ∅
  tags : Words := ∅

namespace Element

instance : Inhabited Element := ⟨{ kind := .world, identity := worldIdentity }⟩

def world : Element := { kind := .world, identity := worldIdentity }

/-- A bare element other than the world. -/
def create (kind : ElementKind) (identity : String) : Except StoryError Element :=
  if kind = .world then .error (.reservedIdentity identity)
  else
    match checkIdentity identity with
    | .error e => .error e
    | .ok () => .ok { kind := kind, identity := Text.fold identity }

def toRef (e : Element) : ElementRef := ⟨e.kind, e.identity⟩

/-- An archetype stays one, and the world is none. -/
def setArchetype (e : Element) (archetype : Bool) : Except StoryError Element :=
  if e.kind = .world then .error .worldLineage
  else if e.archetype && !archetype then .error (.archetypeCleared e.identity)
  else .ok { e with archetype := archetype }

/-- Puts a block under an entry; an entry that is there already keeps its place. -/
def putBlock (heap : Heap) (entry : Entry) (block : Block) :
    List (Entry × Block) → List (Entry × Block)
  | [] => [(entry, block)]
  | (key, old) :: rest =>
    if key.same heap entry then (key, block) :: rest
    else (key, old) :: putBlock heap entry block rest

def addBlock (e : Element) (heap : Heap) (entry : Entry) (block : Block) : Element :=
  { e with blocks := putBlock heap entry block e.blocks }

/-- The element's own block for an entry. -/
def block? (e : Element) (heap : Heap) (entry : Entry) : Option Block :=
  (e.blocks.find? fun item => item.1.same heap entry).map fun item => item.2

def addFunction (e : Element) (f : Function) : Element :=
  { e with functions := e.functions.insert f.name f }

def function? (e : Element) (name : String) : Option Function := e.functions[name]?

def setPermissions (e : Element) (t : PermissionTable) : Except StoryError Element :=
  if e.kind = .player ∨ e.kind = .room then .ok { e with permissions := some t }
  else .error (.permissionMisconfigured e.identity)

def addName (e : Element) (name : String) : Except StoryError Element :=
  if e.kind = .object then .ok { e with names := e.names.insert (Text.fold name) }
  else .error (.permissionMisconfigured e.identity)

def addTag (e : Element) (tag : String) : Except StoryError Element :=
  if e.kind = .object then .ok { e with tags := e.tags.insert (Text.fold tag) }
  else .error (.permissionMisconfigured e.identity)

end Element

/-- How an action takes its targets. -/
inductive ActionKind where
  | general | transitive | ditransitive | modal | free
deriving DecidableEq, Inhabited

namespace ActionKind

def all : List ActionKind := [.general, .transitive, .ditransitive, .modal, .free]

def tag : ActionKind → UInt8
  | general => 0 | transitive => 1 | ditransitive => 2 | modal => 3 | free => 4

def ofTag? (tag : UInt8) : Option ActionKind := all.find? fun kind => kind.tag == tag

@[simp] theorem ofTag?_tag (kind : ActionKind) : ofTag? kind.tag = some kind := by
  cases kind <;> rfl

end ActionKind

/-- An action. A strict one does without the handler of its first target when the second is absent;
a reversed one swaps its two targets. The extra strings are conjunctions, modes, or the variable
that takes free text. -/
structure Action where
  identity : String
  kind : ActionKind
  strict : Bool := false
  reversed : Bool := false
  names : Words := ∅
  extra : List String := []

namespace Action

instance : Inhabited Action := ⟨{ identity := "", kind := .general }⟩

def create (identity : String) (kind : ActionKind) : Except StoryError Action :=
  match checkIdentity identity with
  | .error e => .error e
  | .ok () => .ok { identity := Text.fold identity, kind := kind }

def withName (a : Action) (name : String) : Action :=
  { a with names := a.names.insert (Text.fold name) }

def withExtra (a : Action) (extra : String) : Action :=
  { a with extra := a.extra ++ [Text.fold extra] }

end Action

end Fabula
