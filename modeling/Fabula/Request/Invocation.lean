import Fabula.Story.Element
import Fabula.Text.Quoted

/-! Invocations: an action with what it is done to. -/

namespace Fabula

inductive Target where
  | none
  | object (identity : String)
  | objects (first second : String)
  | mode (name : String)
  | text (words : String)
deriving DecidableEq

structure Invocation where
  action : String
  target : Target
deriving DecidableEq

instance : Inhabited Invocation := ⟨⟨"", .none⟩⟩

namespace Target

/-- Whether an action of the kind takes the target. -/
def fits (t : Target) (kind : ActionKind) : Bool :=
  match kind, t with
  | .general, .none => true
  | .transitive, .object _ => true
  | .ditransitive, .object _ => true
  | .ditransitive, .objects _ _ => true
  | .modal, .mode _ => true
  | .free, .text _ => true
  | _, _ => false

def inspect : Target → String
  | none => "None"
  | object identity => "Object(" ++ Text.quoted identity ++ ")"
  | objects first second => "Objects(" ++ Text.quoted first ++ ", " ++ Text.quoted second ++ ")"
  | mode name => "Mode(" ++ Text.quoted name ++ ")"
  | text words => "Text(" ++ Text.quoted words ++ ")"

end Target

namespace Invocation

def general (action : String) : Invocation := ⟨Text.fold action, .none⟩

def transitive (action object : String) : Invocation :=
  ⟨Text.fold action, .object (Text.fold object)⟩

def ditransitive (action first second : String) : Invocation :=
  ⟨Text.fold action, .objects (Text.fold first) (Text.fold second)⟩

def modal (action mode : String) : Invocation := ⟨Text.fold action, .mode (Text.fold mode)⟩

/-- An action with free text, which keeps its case. -/
def free (action text : String) : Invocation := ⟨Text.fold action, .text text⟩

def inspect (i : Invocation) : String :=
  "ActionInvocation \x7b action: " ++ Text.quoted i.action ++ ", target: " ++ i.target.inspect ++
    " \x7d"

end Invocation

end Fabula
