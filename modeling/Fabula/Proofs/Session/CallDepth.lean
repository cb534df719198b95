import Fabula.Proofs.Request.CallDepth
import Fabula.Proofs.Session.Scopes

/-! The limit of depth is exact. Operations give back the frames they find, a request counts the
functions that are open, and a function is refused just if as many are open as the limit allows. -/

namespace Fabula

/-- The guard lets an operation pass if the machine counts the functions that are open, before the
operation and after it, and if the operation gives back the frames and the depth it found. -/
def Guard.CountsCalls (guard : Guard) (limits : Limits) : Prop :=
  ∀ op x m, m.Levelled limits → (∀ n, (x m).machine? = some n → n.Levelled limits ∧
    n.running = m.running ∧ n.frames.tail = m.frames.tail ∧ n.depth = m.depth) → guard op x m = x m

namespace Exec

/-- A function is refused by the limit, whatever its block does, just if it is found with all its
arguments and the machine is as deep as the limit allows. -/
theorem signal?_callFunction_iff {env : Env} (hlimit : 0 < env.limits.depth) (op : Opcode)
    (e : ElementRef) (name : String) (m : Machine) :
    (∀ run, (callFunction env run op e name m).signal? =
        some (.runaway (.depth env.limits.depth.toNat))) ↔
      env.limits.depth.toNat ≤ m.depth ∧ ∃ f, env.story.resolveFunction? e.identity name = some f ∧
        f.arguments.length ≤ m.stack.height := by
  cases hf : env.story.resolveFunction? e.identity name with
  | none => simp [callFunction, hf, fault, Outcome.signal?]
  | some f =>
    by_cases hshort : m.stack.height < f.arguments.length
    · have hunderflow : ∀ run, callFunction env run op e name m =
          .stopped (.fatal (.stackUnderflow op)) m := by
        intro run
        simp only [callFunction, hf, bind_apply, popMany, if_pos hshort]
      simp [hunderflow, Outcome.signal?, hshort]
    · have hcall : ∀ run, callFunction env run op e name m =
          (runFunction env run e f (bindArguments f.arguments
            (m.stack.top f.arguments.length).reverse) >>= push)
            { m with stack := m.stack.drop f.arguments.length } := by
        intro run
        simp only [callFunction, hf, bind_apply, popMany, if_neg hshort]
      simp only [hcall, runFunction_eq, bind_apply, deeper_apply]
      by_cases hdeep : env.limits.depth.toNat ≤ m.depth
      · simp [hlimit, hdeep, Outcome.signal?, Nat.le_of_not_lt hshort]
      · refine iff_of_false (fun hrefused => ?_) fun h => hdeep h.1
        have hnone := hrefused fun _ _ => .exhausted
        simp [hdeep, trace, callBlock, Exec.afterwards, settle, returned, Outcome.signal?] at hnone

end Exec

namespace Session

variable {s : Session} {q : Request}

theorem startMachine_levelled (s : Session) (env : Env) (label : String) :
    (s.startMachine env label).Levelled s.limits := by
  obtain ⟨events, hevents⟩ := Machine.watched_eq { state := s.state } env .requests
    fun _ => .requestStart label
  rw [startMachine, hevents]
  exact ⟨rfl, fun _ => Nat.zero_le _, fun _ => Nat.zero_le _⟩

theorem outcome_resumes {guard : Guard} (hguard : guard.CountsCalls s.limits) :
    s.answerGuarded guard q = s.answer q ∧ (s.outcome (fuel s.limits) q).Follows
      (Machine.Resumes s.limits) (s.startMachine (s.env q.options) q.label) Anything := by
  have hcalling : Calling (s.env q.options).limits (Machine.Levelled s.limits) :=
    Machine.calling_levelled s.limits
  have hspares : ∀ (op : Operation) (x : Exec Unit) (m : Machine), m.Levelled s.limits →
      (x m).Follows (Machine.Resumes s.limits) m Anything → guard op x m = x m := by
    intro op x m hm hx
    refine hguard op x m hm fun n hn => ?_
    have h := hx.of_machine? hn
    exact ⟨hcalling.resume hm h, h.running, h.tail_frames, h.depth⟩
  have hrules := hcalling.requestRules hspares (fuel s.limits)
  have hstart := s.startMachine_levelled (s.env q.options) q.label
  rw [answer_eq_conclude]
  cases q with
  | setUp options =>
    obtain ⟨hsame, hresumes⟩ := hrules.setUpWith (fuel s.limits) _ hstart
    exact ⟨congrArg (s.conclude (s.env options)) hsame, hresumes⟩
  | act i options =>
    obtain ⟨hsame, hresumes⟩ := hrules.commandWith (fuel s.limits) i _ hstart
    exact ⟨congrArg (s.conclude (s.env options)) hsame, hresumes⟩

theorem depthPeak_of_conclude {env : Env} {o : Outcome Unit} {r : Response} {s' : Session}
    (hr : s.conclude env o = some (r, s')) :
    ∃ n, o.machine? = some n ∧ r.depthPeak = n.depthPeak := by
  have hpeak : ∀ (failure : Option Signal) (m : Machine),
      (finishRequest env failure m).1.depthPeak = m.depthPeak := by
    intro failure m
    cases failure <;> simp only [finishRequest, Machine.watched] <;> split <;> rfl
  cases o with
  | exhausted => cases hr
  | done a n =>
    cases hr
    exact ⟨n, rfl, hpeak _ n⟩
  | stopped signal n =>
    cases hr
    exact ⟨n, rfl, hpeak _ n⟩

/-- Whatever an operation does and however it ends, it gives back the frames it found with all
below the innermost as they were, and is as deep in functions. Around every operation of a request
the depth is the number of functions that are open, and at the end of the request both are zero.
Under a limit the depth never goes past it, and a function is refused just if as many are open as
the limit allows, the function is found, and its arguments are there. -/
theorem calls_levelled (s : Session) (q : Request) :
    (∀ env fuel limit op m n,
      (Exec.execute env (Exec.runBlock env fuel) limit op m).machine? = some n →
        n.running = m.running ∧ n.frames.tail = m.frames.tail ∧ n.depth = m.depth) ∧
    (∀ guard : Guard, guard.CountsCalls s.limits → s.answerGuarded guard q = s.answer q) ∧
    (∀ n, (s.outcome (fuel s.limits) q).machine? = some n → n.frames = [] ∧ n.depth = 0) ∧
    (0 < s.limits.depth →
      (∀ r s', s.answer q = some (r, s') → r.depthPeak ≤ s.limits.depth.toNat) ∧
      ∀ op e name m, m.Levelled s.limits →
        ((∀ run, (Exec.callFunction (s.env q.options) run op e name m).signal? =
            some (.runaway (.depth s.limits.depth.toNat))) ↔
          m.calls = s.limits.depth.toNat ∧
            ∃ f, s.story.resolveFunction? e.identity name = some f ∧
              f.arguments.length ≤ m.stack.height)) := by
  have hcounts : Guard.CountsCalls (fun _ x => x) s.limits := fun _ _ _ _ _ => rfl
  have hresumes := (outcome_resumes hcounts (q := q)).2
  have hstart := s.startMachine_levelled (s.env q.options) q.label
  refine ⟨fun env fuel limit op m n hn => ?_, fun guard hguard => (outcome_resumes hguard).1,
    fun n hn => ?_, fun hlimit => ⟨fun r s' hr => ?_, fun op e name m hm => ?_⟩⟩
  · have hcalling := calling_anything env.limits
    have hstep := hcalling.execute (hcalling.runBlock fuel) limit op m .intro
    have h := hstep.2.of_machine? hn
    exact ⟨h.running, h.tail_frames, h.depth⟩
  · have h := hresumes.of_machine? hn
    obtain ⟨assign, hframes⟩ := h.frames
    rw [startMachine_frames] at hframes
    have hempty : (s.startMachine (s.env q.options) q.label).calls = 0 := by
      simp [Machine.calls, startMachine_frames]
    exact ⟨hframes, by rw [h.depth, hstart.depth, hempty]⟩
  · rw [answer_eq_conclude] at hr
    obtain ⟨n, hn, hpeak⟩ := depthPeak_of_conclude hr
    have h := hresumes.of_machine? hn
    exact hpeak ▸ ((Machine.calling_levelled s.limits).resume hstart h).peak hlimit
  · -- a levelled machine is never past the limit, so at least means as many as
    have hwithin := hm.within hlimit
    rw [hm.depth] at hwithin
    refine (Exec.signal?_callFunction_iff hlimit op e name m).trans (and_congr_left' ?_)
    rw [hm.depth]
    exact ⟨fun h => Nat.le_antisymm hwithin h, fun h => Nat.le_of_eq h.symm⟩

end Session

namespace Sample

/-- Breaks off at an operation before which the machine lost count of the functions that are open,
or is too deep. -/
def pedantic : Guard := fun _ x m => if m.depth = m.calls ∧ m.depth ≤ 2 then x m else .exhausted

theorem pedantic_countsCalls : pedantic.CountsCalls ⟨50, 2⟩ := by
  intro op x m hm _
  exact if_pos ⟨hm.depth, hm.within (by decide)⟩

/-- The cellar where looking calls a function that calls itself, under a limit of two. -/
def spiral : Session :=
  let stair := Function.of "stair" [] (Build.call "stair")
  { cellarSession .empty with
    story := onLook (cellarStory.editWorld fun e => .ok (e.addFunction stair)).2 .empty
      (Build.call "stair")
    limits := ⟨50, 2⟩ }

def onStair : Machine :=
  { state := spiral.state, depth := 2, depthPeak := 2
    frames := [⟨.world, .function, ∅⟩, ⟨.world, .function, ∅⟩, ⟨.world, .entry .onAction, ∅⟩] }

/-- The function is called twice and refused the third time. The functions that are open are counted
all the way, and with one open fewer the function would not have been refused. -/
theorem spiral_refused :
    (∃ r s', spiral.answer look = some (r, s') ∧ r.depthPeak = 2 ∧
      r.cues = [Session.failureCue (.runaway (.depth 2))] ∧
      spiral.answerGuarded pedantic look = some (r, s')) ∧
    (∀ run, (Exec.callFunction (spiral.env {}) run (.call .function) .world "stair"
      onStair).signal? = some (.runaway (.depth 2))) ∧
    ¬ ∀ run, (Exec.callFunction (spiral.env {}) run (.call .function) .world "stair"
      { onStair with depth := 1, frames := onStair.frames.tail }).signal? =
        some (.runaway (.depth 2)) := by
  obtain ⟨-, hguarded, -, hlimited⟩ := spiral.calls_levelled look
  obtain ⟨-, hrefused⟩ := hlimited (by decide)
  have hanswer : (spiral.answer look).map (fun x => (x.1.depthPeak, x.1.cues)) =
      some (2, [Session.failureCue (.runaway (.depth 2))]) := by decide +kernel
  obtain ⟨⟨r, s'⟩, hr, htold⟩ := Option.map_eq_some_iff.mp hanswer
  have hfound : ∃ f, spiral.story.resolveFunction? "world" "stair" = some f ∧
      f.arguments.length ≤ 0 := by decide +kernel
  have hdeep : onStair.Levelled ⟨50, 2⟩ := ⟨rfl, fun _ => by decide, fun _ => by decide⟩
  have hhigher : Machine.Levelled ⟨50, 2⟩
      { onStair with depth := 1, frames := onStair.frames.tail } :=
    ⟨rfl, fun _ => by decide, fun _ => by decide⟩
  obtain ⟨htwo, hcues⟩ := Prod.mk.inj htold
  refine ⟨⟨r, s', hr, htwo, hcues, (hguarded pedantic pedantic_countsCalls).trans hr⟩, ?_, ?_⟩
  · exact (hrefused _ .world _ onStair hdeep).mpr ⟨rfl, hfound⟩
  · intro hall
    obtain ⟨hcalls, -⟩ := (hrefused _ .world _ _ hhigher).mp hall
    exact absurd hcalls (by decide)

end Sample

end Fabula
