import Fabula.Proofs.Request.Profile
import Fabula.Proofs.Session.Telling

/-! The events of a request tell of blocks that are entered and left like brackets, however the
request ends. So a profiler that follows them never loses track of the frames of the machine. -/

namespace Fabula

def Request.label : Request → String
  | .setUp _ => "initialize"
  | .act i _ => i.action

/-- Events of a request with its start and its end around them, if those are watched for. -/
def Request.framed (q : Request) (failure : Option Signal) (body : List Event) : List Event :=
  if q.options.watch.contains .requests then
    .requestStart q.label :: (body ++ [.requestEnd failure])
  else body

/-- The guard lets an operation pass if the machine has as many frames as its events tell, before
the operation and after it, and has as many after it as before. -/
def Guard.CountsFrames (guard : Guard) : Prop :=
  ∀ op x m, m.Counted → (∀ n, (x m).machine? = some n →
    n.Counted ∧ n.frames.length = m.frames.length) → guard op x m = x m

theorem Machine.Nests.length_frames {m n : Machine} (h : m.Nests n) :
    n.frames.length = m.frames.length := by
  simpa [Machine.running] using congrArg List.length h.running

namespace Session

variable {s : Session} {q : Request}

theorem startMachine_events (s : Session) (env : Env) (label : String) :
    (s.startMachine env label).events.toList =
      if env.watch.contains .requests then [.requestStart label] else [] := by
  simp only [startMachine, Machine.watched]
  split <;> rfl

theorem startMachine_frames (s : Session) (env : Env) (label : String) :
    (s.startMachine env label).frames = [] := by
  obtain ⟨events, hevents⟩ := Machine.watched_eq { state := s.state } env .requests
    fun _ => .requestStart label
  simp [startMachine, hevents]

theorem startMachine_counted (s : Session) (env : Env) (label : String) :
    (s.startMachine env label).Counted := by
  rw [Machine.Counted, startMachine_events, startMachine_frames]
  split <;> rfl

theorem finishRequest_events (env : Env) (failure : Option Signal) (m : Machine) :
    (finishRequest env failure m).1.events = m.events.toList ++
      if env.watch.contains .requests then [.requestEnd failure] else [] := by
  by_cases hwatch : env.watch.contains .requests = true <;>
    cases failure <;> simp [finishRequest, Machine.watched, hwatch]

theorem outcome_nests {guard : Guard} (hguard : guard.CountsFrames)
    (hscopes : q.options.watch.contains .scopes = true) :
    s.answerGuarded guard q = s.answer q ∧ (s.outcome (fuel s.limits) q).Follows Machine.Nests
      (s.startMachine (s.env q.options) q.label) Anything := by
  have hspares : ∀ (op : Operation) (x : Exec Unit) (m : Machine), m.Counted →
      (x m).Follows Machine.Nests m Anything → guard op x m = x m := by
    intro op x m hm hx
    refine hguard op x m hm fun n hn => ?_
    have hnests := hx.of_machine? hn
    exact ⟨hm.nests hnests, hnests.length_frames⟩
  have hattending : Attending (s.env q.options) Machine.Counted Machine.Nests :=
    Machine.attending_counted hscopes
  have hrules := hattending.requestRules hspares (fun m => ⟨rfl, [], by simp, .nil⟩) (fuel s.limits)
  have hstart := s.startMachine_counted (s.env q.options) q.label
  rw [answer_eq_conclude]
  cases q with
  | setUp options =>
    obtain ⟨hsame, hnests⟩ := hrules.setUpWith (fuel s.limits) _ hstart
    exact ⟨congrArg (s.conclude (s.env options)) hsame, hnests⟩
  | act i options =>
    obtain ⟨hsame, hnests⟩ := hrules.commandWith (fuel s.limits) i _ hstart
    exact ⟨congrArg (s.conclude (s.env options)) hsame, hnests⟩

theorem events_of_conclude {env : Env} {o : Outcome Unit} {r : Response} {s' : Session}
    (hr : s.conclude env o = some (r, s')) : ∃ n, o.machine? = some n ∧
      r.events = n.events.toList ++ if env.watch.contains .requests then
        [.requestEnd (o.signal?.filter Signal.isFailure)] else [] := by
  cases o with
  | exhausted => cases hr
  | done a n =>
    cases hr
    exact ⟨n, rfl, finishRequest_events env none n⟩
  | stopped signal n =>
    cases hr
    refine ⟨n, rfl, ?_⟩
    rw [finishRequest_events]
    simp [Outcome.signal?, Option.filter_some]

/-- Whatever a request does and however it ends, the blocks it enters are left again in the reverse
order, each as it was entered and at the depth at which it runs. A profiler never has to drop scopes
it lost track of, has as many open scopes as the machine has frames after every event, and none when
the request ends. How many frames there are is told truly: whenever one is opened or closed, and
around every operation. -/
theorem scopes_nested (s : Session) (q : Request)
    (hscopes : q.options.watch.contains .scopes = true) :
    (∀ r s', s.answer q = some (r, s') →
      (∃ body, Nested 0 body ∧ r.events =
        q.framed ((s.outcome (fuel s.limits) q).signal?.filter Signal.isFailure) body) ∧
      (q.options.watch.contains Profiler.mask = true →
        ∀ p : Profiler, p.KeepsTrack s.story r.events)) ∧
    (∀ guard : Guard, guard.CountsFrames → s.answerGuarded guard q = s.answer q) ∧
    ∀ m f name, (Exec.openFrame (s.env q.options) f name m).Counted ∧
      ∀ scope, m.frames ≠ [] → (Exec.closeFrame (s.env q.options) scope name m).Counted := by
  refine ⟨fun r s' hr => ?_, fun guard hguard => (outcome_nests hguard hscopes).1,
    fun m f name => ⟨m.counted_openFrame hscopes f name, fun scope => ?_⟩⟩
  · have hcounts : Guard.CountsFrames fun _ x => x := fun _ _ _ _ _ => rfl
    rw [answer_eq_conclude] at hr
    obtain ⟨n, hn, hevents⟩ := events_of_conclude hr
    have hnests := (outcome_nests hcounts hscopes (s := s)).2.of_machine? hn
    obtain ⟨-, body, hbody, hnested⟩ := hnests
    rw [Machine.running, startMachine_frames] at hnested
    have hframed : r.events =
        q.framed ((s.outcome (fuel s.limits) q).signal?.filter Signal.isFailure) body := by
      rw [hevents, hbody, startMachine_events, Request.framed]
      by_cases hwatch : q.options.watch.contains .requests = true <;> simp [env, hwatch]
    refine ⟨⟨body, hnested, hframed⟩, fun hmask p => ?_⟩
    rw [hframed, Request.framed, if_pos (TraceMask.contains_left hmask)]
    exact Profiler.keepsTrack_of_nested hnested _ _
  · exact Machine.counted_closeFrame hscopes scope name

end Session

namespace Sample

/-- Breaks off at an operation before which the events tell another number of frames. -/
def suspicious : Guard := fun _ x m =>
  if framesAfter m.events.toList = m.frames.length then x m else .exhausted

theorem suspicious_countsFrames : suspicious.CountsFrames := by
  intro op x m hm _
  exact if_pos hm

def profiledLook : Request := .act (.general "look") { watch := Profiler.mask }

def staleProfiler : Profiler := { labelling := .symbols, scopes := [⟨.function, 7, "stale"⟩] }

def farewellEvents : List Event :=
  [.requestStart "look", .enter (.entry .onAction) 1 "world" "ONACTION(look)",
    .enter .function 2 "world" "leave", .leave .function 2 "world" "leave",
    .leave (.entry .onAction) 1 "world" "ONACTION(look)",
    .requestEnd (some (.fatal (.stackImbalance 0 1)))]

/-- The request quits inside a function and ends with a failure outside. Its blocks are left all the
same, and the profiler keeps track. -/
theorem farewell_profiled : ∃ r s', farewell.answer profiledLook = some (r, s') ∧
    r.events = farewellEvents ∧ staleProfiler.KeepsTrack farewell.story farewellEvents ∧
    farewell.answerGuarded suspicious profiledLook = some (r, s') := by
  obtain ⟨hanswer, hguarded, -⟩ := farewell.scopes_nested profiledLook (by decide)
  have hevents : (farewell.answer profiledLook).map (fun x => x.1.events) = some farewellEvents := by
    decide +kernel
  obtain ⟨⟨r, s'⟩, hr, hevents⟩ := Option.map_eq_some_iff.mp hevents
  have htrack := (hanswer r s' hr).2 (by decide) staleProfiler
  exact ⟨r, s', hr, hevents, hevents ▸ htrack,
    (hguarded suspicious suspicious_countsFrames).trans hr⟩

end Sample

end Fabula
