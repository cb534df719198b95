import Fabula.Proofs.Machine.Returning
import Fabula.Proofs.Session.Guarded
import Fabula.Proofs.Session.Isolation

/-! Calls of functions yield the right value. In every request a return is pending only while its
signal is on the way: no operation is executed with one pending, and none is pending when an
operation has come to its end. A call that comes back has taken its arguments, and one value lies in
their place. -/

namespace Fabula

/-- The guard lets an operation pass if no return is pending when it is executed, nor when it has
come to its end or is left by a signal that gives back no value. -/
def Guard.AwaitsReturns (guard : Guard) : Prop :=
  ∀ op x m, m.pendingReturn = none →
    (∀ n, x m = .done () n → n.pendingReturn = none) →
    (∀ s n, x m = .stopped s n → s.isFailure = false → s ≠ .giveBack → n.pendingReturn = none) →
    guard op x m = x m

namespace Exec

variable {α β : Type} {P : α → Prop} {Q : β → Prop}

def Awaits (P : α → Prop) (x y : Exec α) : Prop :=
  ∀ m, m.pendingReturn = none → y m = x m ∧ (x m).Levels m P

theorem Levels.awaits {x : Exec α} (h : Levels P x x) : Awaits P x x := fun m hm => ⟨rfl, h m hm⟩

theorem Awaits.levels {x y : Exec α} (h : Awaits P x y) : Levels P x y := fun m hm => (h m hm).2

theorem Awaits.bind {x y : Exec α} {f g : α → Exec β} (hx : Awaits P x y)
    (hf : ∀ a, P a → Awaits Q (f a) (g a)) : Awaits Q (x >>= f) (y >>= g) := by
  intro m hm
  refine ⟨?_, (hx.levels.bind fun a ha => (hf a ha).levels) m hm⟩
  obtain ⟨hsame, hlevel⟩ := hx m hm
  rw [bind_apply, bind_apply, hsame]
  cases hxm : x m with
  | exhausted => rfl
  | stopped s n => rfl
  | done a n =>
    rw [hxm] at hlevel
    exact (hf a hlevel.2.2 n hlevel.2.1).1

theorem awaits_callBlock (env : Env) {run run' : Block → Exec Unit} (f : Frame) (name : String)
    (block : Block) (hrun : Awaits Anything (run block) (run' block)) :
    Awaits Anything (callBlock env run f name block) (callBlock env run' f name block) := by
  refine fun m hm => ⟨?_, levels_callBlock env f name block hrun.levels m hm⟩
  obtain ⟨cues, events, hopen⟩ := m.openFrame_eq env f name
  have hpending : (openFrame env f name m).pendingReturn = none := by rw [hopen, hm]
  simp only [callBlock, (hrun _ hpending).1]

theorem awaits_deeper (env : Env) {x y : Exec Unit} (hx : Awaits Anything x y) :
    Awaits Anything (deeper env x) (deeper env y) := by
  refine fun m hm => ⟨?_, levels_deeper env hx.levels m hm⟩
  rw [deeper_apply, deeper_apply]
  split
  · rfl
  · have hdown : ∀ depth peak, y { m with depth := depth, depthPeak := peak } =
        x { m with depth := depth, depthPeak := peak } := fun depth peak =>
      (hx { m with depth := depth, depthPeak := peak } hm).1
    rw [hdown]

theorem rules_awaits (env : Env) : Rules env env Anything Anything Anything Awaits where
  toSteps := .of_discreet (fun hP hx m hm => ⟨(hx m hm).1, (hx m hm).2.mono hP⟩) Awaits.bind
    (fun hx => (levels_discreet hx).awaits) (fun _ _ => (levels_trace env _ _ _).awaits)
    (fun hkind hquit => ((rules_levels env).emit hkind hquit).awaits)
    fun locals => (levels_setLocals locals).awaits
  exhausted := (rules_levels env).exhausted.awaits
  stop hs hgive := ((rules_levels env).stop hs hgive).awaits
  quit := (rules_levels env).quit.awaits
  queue i := ((rules_levels env).queue i).awaits
  callBlock name block _ _ hrun := awaits_callBlock env _ name block hrun
  giveBack hv := ((rules_levels env).giveBack hv).awaits
  deeper := awaits_deeper env
  weigh hx m hm := ⟨by simp only [weigh, (hx m hm).1], (rules_levels env).weigh hx.levels m hm⟩
  goesOn hx m hm := ⟨by simp only [(hx m hm).1], (rules_levels env).goesOn hx.levels m hm⟩

variable {guard : Guard} (hguard : guard.AwaitsReturns)

include hguard

/-- A guard that lets pass all operations with no return pending is not seen. -/
theorem awaits_runGuarded (env : Env) (fuel : Nat) (block : Block) :
    Awaits Anything (runBlock env fuel block) (runGuarded guard env fuel block) := by
  refine (rules_awaits env).runGuarded (fun limit op hop hrun m hm => ?_) fuel fun _ _ _ => .intro
  obtain ⟨hsame, hlevels⟩ := (rules_awaits env).execute hrun (levels_count env).awaits limit hop
    (levels_record env _ _ _).awaits m hm
  refine ⟨?_, hlevels⟩
  rw [← hsame] at hlevels
  rw [← hsame]
  refine hguard op _ m hm (fun n hn => ?_) fun s n hn hs hgive => ?_
  · rw [hn] at hlevels
    exact hlevels.2.1
  · rw [hn] at hlevels
    exact hlevels.2 hs hgive

theorem runHandler_runGuarded (env : Env) (fuel : Nat) (e : ElementRef) (entry : Entry)
    (locals : Table Value) {m : Machine} (hm : m.Idle) :
    runHandler env (runGuarded guard env fuel) e entry locals m =
      runHandler env (runBlock env fuel) e entry locals m := by
  have hrun : Awaits Anything (runEntry env (runBlock env fuel) e entry locals)
      (runEntry env (runGuarded guard env fuel) e entry locals) :=
    (rules_awaits env).runEntry (fun _ => awaits_runGuarded hguard env fuel _) .intro entry
      fun _ _ _ => .intro
  simp only [runHandler, (hrun m hm.pendingReturn).1]

end Exec

namespace Session

theorem answerGuarded_of_awaits {guard : Guard} (hguard : guard.AwaitsReturns) (s : Session)
    (q : Request) : s.answerGuarded guard q = s.answer q := by
  have hrules : ∀ env : Env, Exec.RequestRules env env (Exec.runBlock env (fuel s.limits))
      (Exec.runGuarded guard env (fuel s.limits)) Anything Anything Anything Exec.Idles :=
    fun env => Exec.requestRules_idles env _ fun e entry locals m =>
      Exec.runHandler_runGuarded hguard env _ e entry locals
  cases q with
  | setUp options =>
    have hstart := s.idle_start (s.env options) "initialize"
    have hsame := ((hrules (s.env options)).setUpWith (fuel s.limits) _ hstart).1
    exact congrArg (s.conclude (s.env options)) hsame
  | act i options =>
    have hstart := s.idle_start (s.env options) i.action
    have hsame := ((hrules (s.env options)).commandWith (fuel s.limits) i _ hstart).1
    exact congrArg (s.conclude (s.env options)) hsame

/-- A call of a function yields one value, and the right one. A call that comes back, on whatever
machine, has taken as many values from the stack as the function has arguments, and the one that
refers to the element if there is one, and a single value is there in their place. Values further
down are as they were if the function did not reach down to them, and as many in any case. The value
is false if the body came to its end, and otherwise what was on top of the stack of the operation
whose signal came out of the body, which no other call has caught on the way. No return is left over
from another call: in every request a return is pending only while its signal is on the way, and
never when an operation is executed. -/
theorem calls_yield_value (s : Session) (q : Request) :
    (∀ (env : Env) (fuel limit : Nat) (op : Operation) (m n : Machine),
      op.opcode = .call .function ∨ op.opcode = .call .elementFunction →
      Exec.execute env (Exec.runBlock env fuel) limit op m = .done () n →
      ∃ (c : Call) (k : Machine) (v : Value) (below : Stack), Calls env op m c k.stack ∧
        k.state = m.state ∧ k.frames = m.frames ∧ n.stack = below.push v ∧
        n.stack.height + c.function.arguments.length +
          (if op.opcode = .call .elementFunction then 1 else 0) = m.stack.height + 1 ∧
        ((Exec.callBlock env (Exec.runBlock env fuel) c.frame c.function.name
          c.function.block).ReachesWithin 0 k → below = k.stack) ∧
        Yields env fuel c.function.block (Exec.openFrame env c.frame c.function.name k) v) ∧
    ∀ guard : Guard, guard.AwaitsReturns → s.answerGuarded guard q = s.answer q := by
  refine ⟨fun env fuel limit op m n hop h => ?_, fun guard hguard =>
    answerGuarded_of_awaits hguard s q⟩
  obtain ⟨c, k, v, below, hcalls, hstate, hframes, hstack, hheight, hbelow, hyields⟩ :=
    of_execute_call hop h
  refine ⟨c, k, v, below, hcalls, hstate, hframes, hstack, ?_, hbelow, hyields⟩
  rw [hstack, Stack.height_push, hheight, hcalls.height]
  omega

end Session

namespace Sample

/-- A function that gives back its argument from inside a loop. -/
def echo : Function :=
  Function.of "echo" ["sound"] (Build.whileLoop (Build.push (.boolean true))
    (Build.pushVariable "sound" ++ Build.plain (.call .giveBack)))

def echoingEnv : Env :=
  ⟨(cellarStory.editWorld fun e => .ok (e.addFunction echo)).2, {}, .none, .none⟩

def askEcho : Operation := { opcode := .call .elementFunction, first := Value.string "echo" }

/-- A machine with the world on top of its stack, and two other values below. -/
def shouting : Machine where
  state := (cellarSession .empty).state
  stack := ((Stack.empty.push (.string "kept")).push (.integer 7)).push (.element .world "world")

/-- Breaks off at an operation with a return pending. -/
def impatient : Guard := fun _ x m => if m.pendingReturn.isNone then x m else .exhausted

def valuesWhenDone : Outcome Unit → Option (List Value)
  | .done _ m => some m.stack.values
  | .stopped _ _ => none
  | .exhausted => none

theorem impatient_awaits : impatient.AwaitsReturns := by
  intro op x m hm _ _
  exact if_pos (by rw [hm, Option.isNone_none])

/-- The function gives back its argument out of a loop, in the place of the argument and of the
element. -/
theorem echo_yields_value :
    (∃ n, Exec.execute echoingEnv (Exec.runBlock echoingEnv 3) 3 askEcho shouting = .done () n ∧
      n.stack.values = [.integer 7, .string "kept"] ∧
      ∃ c k l, Calls echoingEnv askEcho shouting c k.stack ∧ GivesBack echoingEnv 3 c.function.block
        (Exec.openFrame echoingEnv c.frame c.function.name k) (.integer 7) l) ∧
    (cellarSession .empty).answerGuarded impatient look = (cellarSession .empty).answer look := by
  obtain ⟨hcalls, hguarded⟩ := (cellarSession .empty).calls_yield_value look
  refine ⟨?_, hguarded impatient impatient_awaits⟩
  have hran : valuesWhenDone (Exec.execute echoingEnv (Exec.runBlock echoingEnv 3) 3 askEcho
      shouting) = some [.integer 7, .string "kept"] := by decide +kernel
  cases hn : Exec.execute echoingEnv (Exec.runBlock echoingEnv 3) 3 askEcho shouting with
  | done value n =>
    rw [hn] at hran
    have hvalues := Option.some.inj hran
    obtain ⟨c, k, v, below, hcall, -, -, hstack, -, -, hyields⟩ :=
      hcalls echoingEnv 3 3 askEcho shouting n (.inr rfl) hn
    refine ⟨n, rfl, hvalues, ?_⟩
    rw [hstack, Stack.values_push] at hvalues
    obtain ⟨rfl, -⟩ := List.cons.inj hvalues
    cases hyields with
    | default hrun hv => cases hv
    | returned hrun hv => exact ⟨c, k, _, hcall, hv⟩
  | stopped | exhausted =>
    rw [hn] at hran
    cases hran

end Sample

end Fabula
