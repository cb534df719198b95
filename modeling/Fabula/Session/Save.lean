import Fabula.Session.Basic

/-! Saved states. A list is written in full where it is met first, under a number of its own, and by
that number alone afterwards, so that sharing and cycles survive. -/

namespace Fabula

/-- The numbers of the lists written so far. -/
abbrev ListNumbers := Std.ExtTreeMap Handle Nat

namespace Bytes

/-- Writes things one after another, each with the numbers the ones before left. -/
def inOrder {α : Type} (save : α → ListNumbers → Bytes × ListNumbers) :
    List α → ListNumbers → Bytes × ListNumbers
  | [], known => ([], known)
  | a :: rest, known =>
    let head := save a known
    let tail := inOrder save rest head.2
    (head.1 ++ tail.1, tail.2)

/-- A value of a session. Lists written in full stand inside one another at most `levels` deep;
every one of them is another list of the heap. -/
def savedValue (heap : Heap) : Nat → Value → ListNumbers → Bytes × ListNumbers
  | levels, .list h, known =>
    match known[h]? with
    | some number => (ValueKind.list.tag :: natural number ++ [0], known)
    | none =>
      let start := ValueKind.list.tag :: natural known.size ++ 1 :: natural (heap.items h).length
      match levels with
      | 0 => (start, known)
      | levels + 1 =>
        let items := inOrder (savedValue heap levels) (heap.items h) (known.insert h known.size)
        (start ++ items.1, items.2)
  | _, v, known => (constant v, known)

/-- A variable. The levels are enough for every list of the heap inside another. -/
def savedVariable (heap : Heap) (item : String × Value) (known : ListNumbers) :
    Bytes × ListNumbers :=
  let value := savedValue heap (heap.size + 1) item.2 known
  (text item.1 ++ value.1, value.2)

/-- The variables of a context by name. -/
def savedContext (heap : Heap) (c : Context) (known : ListNumbers) : Bytes × ListNumbers :=
  let bindings := inOrder (savedVariable heap) c.bindings.toList known
  (natural c.bindings.size ++ bindings.1, bindings.2)

/-- The variables of an element after its identity. -/
def savedElement (st : State) (story : Story) (e : ElementRef) (known : ListNumbers) :
    Bytes × ListNumbers :=
  let bindings :=
    match st.context story e.identity with
    | .ok c => savedContext st.heap c known
    | .error _ => ([], known)
  (text e.identity ++ bindings.1, bindings.2)

/-- The live elements of a kind. -/
def savedKind (st : State) (story : Story) (kind : ElementKind) (known : ListNumbers) :
    Bytes × ListNumbers :=
  let elements := inOrder (savedElement st story) (st.live kind) known
  (natural (st.live kind).length ++ elements.1, elements.2)

/-- Objects that have a name or a tag. -/
def describedObjects (m : Ownership) : List String :=
  (m.tags.keys.foldl (fun (set : Words) object => set.insert object)
    (m.names.keys.foldl (fun (set : Words) object => set.insert object) ∅)).toList

def player (p : Option String) : Bytes :=
  match p with
  | none => flag false
  | some p => flag true ++ text p

def ownership (m : Ownership) : Bytes :=
  counted (fun object => text object ++ words (WordTable.get m.names object) ++
      words (WordTable.get m.tags object)) (describedObjects m) ++
    counted (fun item => text item.1 ++ [item.2.kind.tag] ++ text item.2.identity)
      m.owner.toList ++
    counted (fun item => text item.1 ++ texts item.2.reverse) m.rooms.toList ++
    player m.player

end Bytes

namespace Session

def saveMagic : Bytes := Bytes.utf8 "TSAV"

def saveVersion : UInt8 := 1

/-- The variables of the world and then of all other live elements. -/
def savedVariables (s : Session) : Bytes :=
  let world :=
    match s.state.context s.story worldIdentity with
    | .ok c => Bytes.savedContext s.state.heap c ∅
    | .error _ => ([], ∅)
  world.1 ++ (Bytes.inOrder (Bytes.savedKind s.state s.story) Story.fileKinds world.2).1

/-- The saved state of a session. -/
def save (s : Session) : Bytes :=
  saveMagic ++ [saveVersion] ++ s.digest ++ s.savedVariables ++ Bytes.ownership s.state.ownership

end Session

end Fabula
