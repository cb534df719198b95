import Fabula.Request.Trace

/-! Cues: what a request tells its host to do, in order. -/

namespace Fabula

inductive CueKind where
  | quit | save | load | text | formatted | wait | pause
  | trace (topic : Topic)
  | tip | info | error | fatal
deriving DecidableEq

namespace CueKind

def name : CueKind → String
  | quit => "QUIT" | save => "SAVE" | load => "LOAD" | text => "TEXT" | formatted => "TEXTF"
  | wait => "WAIT" | pause => "PAUSE" | trace topic => "TRACE-" ++ topic.name | tip => "TIP"
  | info => "INFO" | error => "ERROR" | fatal => "FATAL"

def isFailure : CueKind → Bool
  | error | fatal => true
  | _ => false

def isText : CueKind → Bool
  | text | formatted => true
  | _ => false

def isTrace : CueKind → Bool
  | trace _ => true
  | _ => false

end CueKind

inductive CueContent where
  | none
  | integer (i : Int64)
  | text (s : String)
deriving DecidableEq

structure Cue where
  kind : CueKind
  content : CueContent := .none
deriving DecidableEq

def Cue.saying (kind : CueKind) (s : String) : Cue := ⟨kind, .text s⟩

/-- The text of a cue that has one. -/
def Cue.text? (c : Cue) : Option String :=
  match c.content with
  | .text s => some s
  | _ => none

/-- What a request gives back. -/
structure Response where
  cues : List Cue
  operations : Nat
  depthPeak : Nat
  events : List Event

namespace Response

/-- All text to be shown, in order. -/
def text (r : Response) : String :=
  String.join ((r.cues.filter fun c => c.kind.isText).filterMap Cue.text?)

def quits (r : Response) : Bool := r.cues.any fun c => c.kind == .quit

/-- The cue that tells of a failure. -/
def failure? (r : Response) : Option Cue := r.cues.find? fun c => c.kind.isFailure

end Response

end Fabula
