import Fabula.Machine.Stack
import Fabula.Request.Cue
import Fabula.Request.Invocation
import Fabula.Session.Basic

/-! The machine of a request: the state of the session, a stack of values, a stack of frames, and
what the request has put out so far. A computation on it is done, is stopped by a signal, or is
exhausted: it has run past the bound it was given. -/

namespace Fabula

/-- A block that is running, with its element and local variables. -/
structure Frame where
  element : ElementRef
  scope : Scope
  locals : Table Value

/-- The machine. Its frames have the innermost first. All invocations of the request are kept in
order, the one it was made for before those it queued, with how many of them have been served. -/
structure Machine where
  state : State
  stack : Stack := .empty
  frames : List Frame := []
  queued : Array Invocation := #[]
  served : Nat := 0
  operations : Nat := 0
  depth : Nat := 0
  depthPeak : Nat := 0
  pendingReturn : Option Value := none
  cues : Array Cue := #[]
  events : Array Event := #[]

/-- What does not change in a request. -/
structure Env where
  story : Story
  limits : Limits
  trace : TraceMask
  watch : TraceMask

namespace Machine

/-- The machine with one more trace cue, if its topic is wanted. -/
@[inline] def traced (m : Machine) (env : Env) (topic : Topic) (message : Machine → String) :
    Machine :=
  if env.trace.traces topic then
    let cue := Cue.saying (.trace topic) (message m)
    { m with cues := m.cues.push cue }
  else m

/-- The machine with one more event, if such events are watched for. -/
@[inline] def watched (m : Machine) (env : Env) (wanted : TraceMask) (event : Machine → Event) :
    Machine :=
  if env.watch.contains wanted then
    let e := event m
    { m with events := m.events.push e }
  else m

end Machine

inductive Outcome (α : Type) where
  | done (value : α) (machine : Machine)
  | stopped (signal : Signal) (machine : Machine)
  | exhausted

def Exec (α : Type) := Machine → Outcome α

namespace Exec

variable {α β : Type}

@[always_inline, inline] protected def pure (a : α) : Exec α := fun m => .done a m

@[always_inline, inline] protected def bind (x : Exec α) (f : α → Exec β) : Exec β := fun m =>
  match x m with
  | .done a m => f a m
  | .stopped s m => .stopped s m
  | .exhausted => .exhausted

@[always_inline] instance : Monad Exec where
  pure := Exec.pure
  bind := Exec.bind

@[simp] theorem pure_apply (a : α) (m : Machine) : (pure a : Exec α) m = .done a m := rfl

theorem bind_apply (x : Exec α) (f : α → Exec β) (m : Machine) :
    (x >>= f) m = match x m with
      | .done a m => f a m
      | .stopped s m => .stopped s m
      | .exhausted => .exhausted := rfl

instance : LawfulMonad Exec := LawfulMonad.mk' Exec
  (fun x => by
    funext m
    show (x >>= pure) m = x m
    rw [bind_apply]
    cases x m <;> rfl)
  (fun _ _ => rfl)
  (fun x f g => by
    funext m
    simp only [bind_apply]
    cases x m <;> rfl)

/-- Stops with a signal. -/
@[inline] def stop (s : Signal) : Exec α := fun m => .stopped s m

@[simp] theorem stop_apply (s : Signal) (m : Machine) : (stop s : Exec α) m = .stopped s m := rfl

@[inline] def fault (f : Fault) : Exec α := stop (.fatal f)

/-- Stops because a script misused a value. -/
@[inline] def misuse (message : String) : Exec α := stop (.runtimeError message)

/-- Something seen on the machine. -/
@[inline] def see (f : Machine → α) : Exec α := fun m => .done (f m) m

@[simp] theorem see_apply (f : Machine → α) (m : Machine) : see f m = .done (f m) m := rfl

@[inline] def change (f : Machine → Machine) : Exec Unit := fun m => .done () (f m)

@[simp] theorem change_apply (f : Machine → Machine) (m : Machine) :
    change f m = .done () (f m) := rfl

/-- A result that depends on the state of the session, or a fault. -/
@[inline] def ask (f : State → Except Fault α) : Exec α := fun m =>
  match f m.state with
  | .ok a => .done a m
  | .error e => .stopped (.fatal e) m

/-- Something computed from the lists of the session. -/
@[inline] def withHeap (f : Heap → α) : Exec α := see fun m => f m.state.heap

def ownership : Exec Ownership := see fun m => m.state.ownership

def changeOwnership (f : Ownership → Ownership) : Exec Unit := change fun m =>
  { m with state := { m.state with ownership := f m.state.ownership } }

def push (v : Value) : Exec Unit := change fun m => { m with stack := m.stack.push v }

@[simp] theorem push_apply (v : Value) (m : Machine) :
    push v m = .done () { m with stack := m.stack.push v } := rfl

/-- Takes the top of the stack for an operation. -/
def pop (op : Opcode) : Exec Value := fun m =>
  match m.stack.pop? with
  | none => .stopped (.fatal (.stackUnderflow op)) m
  | some (v, rest) => .done v { m with stack := rest }

theorem pop_of_empty {op : Opcode} {m : Machine} (h : m.stack = .empty) :
    pop op m = .stopped (.fatal (.stackUnderflow op)) m := by simp [pop, h]

theorem pop_of_push {op : Opcode} {m : Machine} {v : Value} {rest : Stack}
    (h : m.stack = rest.push v) : pop op m = .done v { m with stack := rest } := by simp [pop, h]

def emit (c : Cue) : Exec Unit := change fun m => { m with cues := m.cues.push c }

/-- Emits a trace cue if its topic is wanted. -/
@[inline] def trace (env : Env) (topic : Topic) (message : Machine → String) : Exec Unit :=
  change fun m => m.traced env topic message

/-- Records an event if it is watched for. -/
@[inline] def record (env : Env) (wanted : TraceMask) (event : Machine → Event) : Exec Unit :=
  change fun m => m.watched env wanted event

/-- The frame of the running block. -/
def frame (op : Opcode) : Exec Frame := fun m =>
  match m.frames with
  | [] => .stopped (.fatal (.badOperand op)) m
  | f :: _ => .done f m

/-- Gives the running frame other local variables. -/
def setLocals (locals : Table Value) : Exec Unit := change fun m =>
  match m.frames with
  | [] => m
  | f :: rest => { m with frames := { f with locals := locals } :: rest }

/-- Changes the variables of a live element. -/
def changeContext (env : Env) (identity : String) (f : Context → Context) : Exec Unit := fun m =>
  match m.state.context env.story identity with
  | .error e => .stopped (.fatal e) m
  | .ok c => .done () { m with state := m.state.putContext identity (f c) }

/-- A new list as a value. -/
def newList (items : List Value) : Exec Value := fun m =>
  let made := m.state.heap.alloc items
  .done (.list made.1) { m with state := { m.state with heap := made.2 } }

/-- Changes what a list holds. -/
def changeList (h : Handle) (f : Array Value → Array Value) : Exec Unit := change fun m =>
  { m with state := { m.state with heap := m.state.heap.modify h f } }

/-- Draws from the random source. -/
def draw (f : RandomSource → α × RandomSource) : Exec α := fun m =>
  let drawn := f m.state.random
  .done drawn.1 { m with state := { m.state with random := drawn.2 } }

def queue (env : Env) (i : Invocation) : Exec Unit := do
  trace env .interpreter fun _ => "queued " ++ i.inspect
  change fun m => { m with queued := m.queued.push i }

/-- Runs one computation after another for the items of a list. -/
def forEach (f : α → Exec Unit) : List α → Machine → Outcome Unit
  | [], m => .done () m
  | a :: rest, m =>
    match f a m with
    | .done () m => forEach f rest m
    | .stopped s m => .stopped s m
    | .exhausted => .exhausted

@[simp] theorem forEach_nil (f : α → Exec Unit) (m : Machine) : forEach f [] m = .done () m := rfl

@[simp] theorem forEach_cons (f : α → Exec Unit) (a : α) (rest : List α) (m : Machine) :
    forEach f (a :: rest) m = (f a).bind (fun _ => forEach f rest) m := by
  simp only [forEach, Exec.bind]
  cases f a m <;> rfl

/-- Runs a round until it says that it was the last one. -/
def rounds (round : Exec Bool) : Nat → Machine → Outcome Unit
  | 0, _ => .exhausted
  | n + 1, m =>
    match round m with
    | .done true m => rounds round n m
    | .done false m => .done () m
    | .stopped s m => .stopped s m
    | .exhausted => .exhausted

end Exec

end Fabula
