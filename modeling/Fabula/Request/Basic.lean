import Fabula.Request.Dispatch

/-! Requests: starting a game and processing an action. A request runs to its end and gives back its
cues; queued actions are dispatched in it, first come first served. -/

namespace Fabula

namespace Exec

/-- Takes the next invocation off the queue, if one is left. -/
def nextInvocation : Exec (Option Invocation) := fun m =>
  match m.queued[m.served]? with
  | none => .done none m
  | some i => .done (some i) { m with served := m.served + 1 }

/-- Dispatches the next invocation, if one is left, and says whether a handler ran for it. -/
def serveNext (env : Env) (run : Block → Exec Unit) : Exec (Option Bool) := do
  match ← nextInvocation with
  | none => return none
  | some i => return some (← dispatch env run i)

/-- Dispatches invocations until none is left, fewer than `limit` of them. -/
def drainQueue (env : Env) (run : Block → Exec Unit) (limit : Nat) : Exec Unit :=
  rounds (do return (← serveNext env run).isSome) limit

/-- The kinds of elements in the order in which they are initialized. -/
def initializationOrder : List ElementKind := [.container, .object, .room, .player, .world]

/-- Starts a game: all live elements are initialized and the world is started. -/
def setUp (env : Env) (fuel : Nat) : Exec Unit := do
  let run := runBlock env fuel
  let elements ← see fun m => initializationOrder.flatMap fun kind => m.state.live kind
  forEach (fun e => do discard (runHandler env run e ⟨.init, []⟩ ∅)) elements
  discard (runHandler env run .world ⟨.start, []⟩ ∅)
  drainQueue env run fuel

/-- Runs the next invocation, the actions it queued, and what the world does after commands. -/
def serveCommand (env : Env) (fuel : Nat) : Exec Unit := do
  let run := runBlock env fuel
  let succeeded ← serveNext env run
  drainQueue env run fuel
  discard (runHandler env run .world
    ⟨if succeeded = some true then .afterSuccessfulCommand else .afterFailedCommand, []⟩ ∅)
  discard (runHandler env run .world ⟨.afterEveryCommand, []⟩ ∅)

/-- Queues an invocation and serves it. -/
def command (env : Env) (fuel : Nat) (i : Invocation) : Exec Unit := do
  change fun m => { m with queued := m.queued.push i }
  serveCommand env fuel

end Exec

/-- What to watch of a request: trace cues, and events. -/
structure RequestOptions where
  trace : TraceMask := .none
  watch : TraceMask := .none

namespace Session

/-- The cue that tells of a failure. -/
def failureCue : Signal → Cue
  | .scriptError message => .saying .error message
  | .runtimeError message => .saying .error message
  | .fatal fault => .saying .fatal fault.message
  | signal => .saying .fatal signal.message

/-- Ends a request. Failures are told of by a last cue, all other signals end it quietly. -/
def finishRequest (env : Env) (failure : Option Signal) (m : Machine) : Response × State :=
  let m := match failure with
    | none => m
    | some signal => { m with cues := m.cues.push (failureCue signal) }
  let m := m.watched env .requests fun _ => .requestEnd failure
  (⟨m.cues.toList, m.operations, m.depthPeak, m.events.toList⟩, m.state)

/-- How deep blocks may run inside one another and how many rounds loops may make. Under a limit of
operations neither is ever reached, and without one the bound is past any limit. -/
def fuel (limits : Limits) : Nat :=
  if limits.operations = 0 then 0x10000000000000000 else limits.operations.toNat + 1

/-- What does not change in a request of the session. -/
def env (s : Session) (options : RequestOptions) : Env :=
  ⟨s.story, s.limits, options.trace, options.watch⟩

/-- The answer to a request and the session it leaves; there is no answer if it is exhausted. -/
def conclude (s : Session) (env : Env) : Outcome Unit → Option (Response × Session)
  | .exhausted => none
  | .done () m =>
    let ended := finishRequest env none m
    some (ended.1, { s with state := ended.2 })
  | .stopped signal m =>
    let ended := finishRequest env (if signal.isFailure then some signal else none) m
    some (ended.1, { s with state := ended.2 })

/-- Makes a request of the session under a label. -/
def request (s : Session) (options : RequestOptions) (label : String)
    (body : Env → Exec Unit) : Option (Response × Session) :=
  let env := s.env options
  let m : Machine := { state := s.state }
  s.conclude env (body env (m.watched env .requests fun _ => .requestStart label))

/-- Starts a game. -/
def setUp (s : Session) (options : RequestOptions) : Option (Response × Session) :=
  s.request options "initialize" fun env => Exec.setUp env (fuel s.limits)

/-- Processes an action. -/
def act (s : Session) (i : Invocation) (options : RequestOptions) :
    Option (Response × Session) :=
  s.request options i.action fun env => Exec.command env (fuel s.limits) i

end Session

end Fabula
