import Fabula.Request.Signal
import Fabula.Story.Entry

/-! What can be watched of a request: trace cues of seven topics among its output, and events beside
it. A mask says which of them are wanted. -/

namespace Fabula

inductive Topic where
  | interpreter | context | entry | control | function | value | internal
deriving DecidableEq

structure TraceMask where
  bits : UInt32
deriving DecidableEq

namespace TraceMask

def none : TraceMask := ⟨0⟩

instance : Inhabited TraceMask := ⟨none⟩

/-- Trace cues of every topic. -/
def cues : TraceMask := ⟨0x7f⟩

/-- The start and the end of requests. -/
def requests : TraceMask := ⟨0x100⟩

/-- Every operation. -/
def operations : TraceMask := ⟨0x200⟩

/-- The blocks that are entered and left. -/
def scopes : TraceMask := ⟨0x400⟩

def union (a b : TraceMask) : TraceMask := ⟨a.bits ||| b.bits⟩

/-- Whether all of `b` is in `a`. -/
def contains (a b : TraceMask) : Bool := a.bits &&& b.bits == b.bits

end TraceMask

namespace Topic

def all : List Topic := [.interpreter, .context, .entry, .control, .function, .value, .internal]

def mask : Topic → TraceMask
  | interpreter => ⟨0x01⟩ | context => ⟨0x02⟩ | entry => ⟨0x04⟩ | control => ⟨0x08⟩
  | function => ⟨0x10⟩ | value => ⟨0x20⟩ | internal => ⟨0x40⟩

def name : Topic → String
  | interpreter => "INTERPRETER" | context => "CONTEXT" | entry => "ENTRY" | control => "CONTROL"
  | function => "FUNCTION" | value => "VALUE" | internal => "INTERNAL"

def ofName? (name : String) : Option Topic := all.find? fun t => t.name == name

end Topic

/-- Whether cues of a topic are wanted. -/
def TraceMask.traces (m : TraceMask) (t : Topic) : Bool := m.contains t.mask

/-- What a block is run as: the block of an entry, or the body of a function. -/
inductive Scope where
  | entry (trigger : Trigger)
  | function
deriving DecidableEq, Inhabited

/-- An event of a request. The depth is the number of frames with the block's own. -/
inductive Event where
  | requestStart (label : String)
  | operation (opcode : Opcode) (count : Nat)
  | enter (scope : Scope) (depth : Nat) (element name : String)
  | leave (scope : Scope) (depth : Nat) (element name : String)
  | requestEnd (failure : Option Signal)
deriving DecidableEq

end Fabula
