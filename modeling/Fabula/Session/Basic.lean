import Fabula.Number.Reading
import Fabula.Ownership
import Fabula.Random
import Fabula.Session.Fault
import Fabula.Story.Encode
import Fabula.Text.Blank

/-! A session: a story being played. Every element that is no archetype is live and has variables of
its own. -/

namespace Fabula

/-- How many operations a request may dispatch, and how deep functions may call one another. Zero is
no limit. -/
structure Limits where
  operations : UInt64 := 100000
  depth : UInt64 := 256
deriving DecidableEq, Inhabited

namespace Limits

def operationsKey : String := "tame_runaway_max"

def depthKey : String := "tame_funcdepth_max"

/-- The number in a header text; a text that is none is as good as no text. -/
def ofHeaderText (text : Option String) (fallback : UInt64) : UInt64 :=
  match text with
  | none => fallback
  | some text =>
    match Number.limit? (Text.trim text) with
    | none => fallback
    | some n => n.toUInt64

/-- The limits a story sets for itself. -/
def ofStory (s : Story) : Limits :=
  ⟨ofHeaderText (s.headerText? operationsKey) 100000, ofHeaderText (s.headerText? depthKey) 256⟩

end Limits

/-- The variables of a live element. -/
structure Context where
  element : ElementRef
  bindings : Table Value := ∅

namespace Context

def get? (c : Context) (name : String) : Option Value := c.bindings[Text.fold name]?

def set (c : Context) (name : String) (v : Value) : Context :=
  { c with bindings := c.bindings.insert (Text.fold name) v }

def clear (c : Context) (name : String) : Context :=
  { c with bindings := c.bindings.erase (Text.fold name) }

end Context

/-- All of a session that play changes. -/
structure State where
  heap : Heap
  contexts : Table Context
  ownership : Ownership
  random : RandomSource

structure Session where
  story : Story
  digest : Digest
  limits : Limits
  state : State

namespace State

/-- The context of a live element. -/
def context (st : State) (story : Story) (identity : String) : Except Fault Context :=
  match st.contexts[Text.fold identity]? with
  | some c => .ok c
  | none =>
    if (story.element? (Text.fold identity)).isSome then
      .error (.archetypeReference (Text.fold identity))
    else .error (.unknownElement (Text.fold identity))

/-- Puts the context of a live element in the place of the one before. -/
def putContext (st : State) (identity : String) (c : Context) : State :=
  { st with contexts := st.contexts.insert (Text.fold identity) c }

def currentPlayer (st : State) : Except Fault ElementRef :=
  match st.ownership.player with
  | some player => .ok (.of .player player)
  | none => .error .noCurrentPlayer

def currentRoom (st : State) : Except Fault ElementRef :=
  match st.ownership.room? with
  | some room => .ok (.of .room room)
  | none => .error .noCurrentRoom

/-- The live element of a kind and identity; the player `player` is the current player and the room
`room` the current room. -/
def resolve (st : State) (story : Story) (kind : ElementKind) (identity : String) :
    Except Fault ElementRef :=
  if kind = .player ∧ identity = "player" then st.currentPlayer
  else if kind = .room ∧ identity = "room" then st.currentRoom
  else
    match st.context story identity with
    | .error e => .error e
    | .ok c => if c.element.kind = kind then .ok c.element else .error (.unknownElement identity)

/-- The live element a value refers to, if it refers to an element at all. -/
def resolveValue (st : State) (story : Story) : Value → Except Fault (Option ElementRef)
  | .element kind identity =>
    match st.resolve story kind identity with
    | .ok e => .ok (some e)
    | .error e => .error e
  | _ => .ok none

/-- The live elements of a kind by identity. -/
def live (st : State) (kind : ElementKind) : List ElementRef :=
  (st.contexts.values.map fun c => c.element).filter fun e => e.kind = kind

end State

namespace Session

/-- The elements that are live when a session starts, besides the world. -/
def liveElements (story : Story) : List Element :=
  Story.fileKinds.flatMap fun kind => (story.elementsOf kind).filter fun e => !e.archetype

def startContexts (story : Story) : Table Context :=
  (liveElements story).foldl (fun t e => t.insert e.identity { element := e.toRef })
    ((∅ : Table Context).insert worldIdentity { element := .world })

/-- Objects start with the names and tags of their definitions. -/
def startOwnership (story : Story) : Ownership :=
  (liveElements story).foldl (fun m e =>
    let m := e.names.toList.foldl (fun m name => m.addName e.identity name) m
    e.tags.toList.foldl (fun m tag => m.addTag e.identity tag) m) .empty

/-- A new session of a story, beside the lists that are there already. -/
def start (heap : Heap) (story : Story) (seed : UInt64) : Except StoryError Session :=
  match story.digest with
  | (.error e, _) => .error e
  | (.ok digest, story) => .ok
    { story := story
      digest := digest
      limits := .ofStory story
      state :=
        { heap := heap
          contexts := startContexts story
          ownership := startOwnership story
          random := .ofSeed seed } }

/-- Sets a variable of a live element. -/
def setVariable (s : Session) (element name : String) (v : Value) : Except Fault Session :=
  match s.state.context s.story element with
  | .error e => .error e
  | .ok c => .ok { s with state := s.state.putContext element (c.set name v) }

def value? (s : Session) (element name : String) : Except Fault (Option Value) :=
  match s.state.context s.story element with
  | .error e => .error e
  | .ok c => .ok (c.get? name)

/-- Clears a variable of a live element, whose value is given back. -/
def clearVariable (s : Session) (element name : String) :
    Except Fault (Option Value × Session) :=
  match s.state.context s.story element with
  | .error e => .error e
  | .ok c => .ok (c.get? name, { s with state := s.state.putContext element (c.clear name) })

end Session

end Fabula
