import Fabula.Proofs.Request.Tracing
import Fabula.Proofs.Session.Runaway

/-! Tracing is transparent: whatever is traced and watched, a request leads to the same session and
tells the same, but for the trace cues among its cues and the events it records. -/

namespace Fabula

def Request.under (options : RequestOptions) : Request → Request
  | .setUp _ => .setUp options
  | .act i _ => .act i options

namespace Session

/-- What an answer is without tracing: all cues that are no trace cues, what was counted, and the
session that is left. -/
def untraced (x : Response × Session) : List Cue × Nat × Nat × Session :=
  (x.1.cues.filter fun c => !c.kind.isTrace, x.1.operations, x.1.depthPeak, x.2)

theorem finishRequest_untraced {m n : Machine} (h : m.Untraced n) (s : Session) (env env' : Env)
    (failure : Option Signal) :
    untraced ((finishRequest env failure m).1, { s with state := (finishRequest env failure m).2 }) =
      untraced ((finishRequest env' failure n).1,
        { s with state := (finishRequest env' failure n).2 }) := by
  have hend : ∀ {k l : Machine}, k.Untraced l →
      untraced (⟨k.cues.toList, k.operations, k.depthPeak, k.events.toList⟩,
          { s with state := k.state }) =
        untraced (⟨l.cues.toList, l.operations, l.depthPeak, l.events.toList⟩,
          { s with state := l.state }) := by
    intro k l hkl
    have hcues := congrArg Array.toList hkl.cues
    simp only [untracedCues, Array.toList_filter] at hcues
    simp only [untraced, hcues, hkl.operations, hkl.depthPeak, hkl.state]
  cases failure with
  | none => exact hend (h.watched env env' _ _)
  | some signal => exact hend ((h.tell (failureCue signal)).watched env env' _ _)

theorem conclude_untraced {x y : Outcome Unit} (h : Outcome.Untraced Anything x y) (s : Session)
    (env env' : Env) : (s.conclude env x).map untraced = (s.conclude env' y).map untraced := by
  cases h with
  | done known same => exact congrArg some (finishRequest_untraced same s env env' none)
  | stopped same => exact congrArg some (finishRequest_untraced same s env env' _)
  | exhausted => rfl

/-- Tracing is transparent. Requests that differ in what is traced and watched get the same answer,
but for trace cues and events, and leave the same session. -/
theorem answer_untraced (s : Session) (r : Request) (options options' : RequestOptions) :
    (s.answer (r.under options)).map untraced = (s.answer (r.under options')).map untraced := by
  let m : Machine := { state := s.state }
  have hm : m.Untraced m := .refl m
  cases r with
  | setUp o =>
    refine conclude_untraced ?_ s (s.env options) (s.env options')
    exact Exec.untraced_setUp (s.env options) options'.trace options'.watch _ _ _
      (hm.watched _ _ _ _)
  | act i o =>
    refine conclude_untraced ?_ s (s.env options) (s.env options')
    exact Exec.untraced_command (s.env options) options'.trace options'.watch _ i _ _
      (hm.watched _ _ _ _)

end Session

end Fabula
