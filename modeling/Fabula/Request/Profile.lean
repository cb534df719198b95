import Fabula.Request.Trace
import Fabula.Story.Basic
import Fabula.Text.Quoted

/-! A profiler: it follows the events of requests and knows which blocks are open. Blocks are
labelled by the element they run on, or by the element of its lineage that defines them. -/

namespace Fabula

/-- Labels found so far, by element and name. -/
abbrev LabelCache := List ((String × String) × String)

inductive Labelling where
  | byElement
  | bySymbol (entries functions : LabelCache)

namespace Labelling

/-- Labels by the defining element, none of them found yet. -/
def symbols : Labelling := bySymbol [] []

def entryLabel (element name : String) : String := "entry:" ++ element ++ ":" ++ name

def functionLabel (element name : String) : String := "func:" ++ element ++ "." ++ name

/-- The element of a lineage that has a block for the entry that is written so. -/
def entryOwner? (story : Story) (heap : Heap) (element name : String) : Option Element :=
  (story.lineage element).find? fun e => e.blocks.any fun item => item.1.text heap == name

/-- The element of a lineage that has a function of exactly this name. -/
def functionOwner? (story : Story) (element name : String) : Option Element :=
  (story.lineage element).find? fun e => (e.function? name).isSome

/-- A label from the cache, or else one made now and kept. -/
def remember (cache : LabelCache) (element name : String) (make : Option String) :
    Option String × LabelCache :=
  match cache.lookup (element, name) with
  | some label => (some label, cache)
  | none =>
    match make with
    | some label => (some label, ((element, name), label) :: cache)
    | none => (none, cache)

/-- The label of an entry's block, if it is known who defines it. -/
def entry? (l : Labelling) (story : Story) (heap : Heap) (element name : String) :
    Option String × Labelling :=
  match l with
  | byElement => (none, l)
  | bySymbol entries functions =>
    let found := remember entries element name
      ((entryOwner? story heap element name).map fun e => entryLabel e.identity name)
    (found.1, bySymbol found.2 functions)

/-- The label of a function, if it is known who defines it. -/
def function? (l : Labelling) (story : Story) (element name : String) :
    Option String × Labelling :=
  match l with
  | byElement => (none, l)
  | bySymbol entries functions =>
    let found := remember functions element name
      ((functionOwner? story element name).map fun e => functionLabel e.identity name)
    (found.1, bySymbol entries found.2)

/-- The label of a scope; where nobody is known to define it, it is that of its element. -/
def label (l : Labelling) (story : Story) (heap : Heap) (scope : Scope) (element name : String) :
    String × Labelling :=
  match scope with
  | .entry _ =>
    let found := l.entry? story heap element name
    (found.1.getD (entryLabel element name), found.2)
  | .function =>
    let found := l.function? story element name
    (found.1.getD (functionLabel element name), found.2)

end Labelling

structure OpenScope where
  scope : Scope
  depth : Nat
  label : String

/-- A profiler with its open scopes, the innermost first. -/
structure Profiler where
  labelling : Labelling
  inRequest : Bool := false
  scopes : List OpenScope := []

namespace Profiler

/-- The events a profiler asks for. -/
def mask : TraceMask := TraceMask.requests.union .scopes

/-- Closes the innermost scope, or all of them if it is not the one that is left. -/
def leave (p : Profiler) (scope : Scope) (depth : Nat) : Profiler :=
  match p.scopes with
  | [] => p
  | top :: rest =>
    if top.scope = scope ∧ top.depth = depth then { p with scopes := rest }
    else { p with scopes := [] }

def handle (p : Profiler) (story : Story) (heap : Heap) : Event → Profiler
  | .requestStart _ => { p with scopes := [], inRequest := true }
  | .operation _ _ => p
  | .enter scope depth element name =>
    let found := p.labelling.label story heap scope element name
    { p with labelling := found.2, scopes := ⟨scope, depth, found.1⟩ :: p.scopes }
  | .leave scope depth _ _ => p.leave scope depth
  | .requestEnd _ => { p with scopes := [], inRequest := false }

def activeScopes (p : Profiler) : Nat := p.scopes.length

/-- The labels of the open scopes, outermost first, and whether a request is running. -/
def inspect (p : Profiler) : String :=
  "ProfilingTraceSink \x7b open: [" ++
    String.intercalate ", " (p.scopes.reverse.map fun s => Text.quoted s.label) ++
    "], in_request: " ++ toString p.inRequest ++ ", .. \x7d"

end Profiler

end Fabula
