import Fabula.Proofs.Request.Isolation
import Fabula.Proofs.Session.Endings

/-! In every request handlers start on a machine with nothing left over from the ones before. This is
said of the blocks they run: with something else done in the place of any block of a handler that
does not start afresh, requests are answered as ever. -/

namespace Fabula

namespace Session

def answerRunning (s : Session) (run : Env → Block → Exec Unit) :
    Request → Option (Response × Session)
  | .setUp options => s.request options "initialize" fun env =>
    Exec.setUpWith env (run env) (fuel s.limits)
  | .act i options => s.request options i.action fun env =>
    Exec.commandWith env (run env) (fuel s.limits) i

theorem idle_start (s : Session) (env : Env) (label : String) :
    (Machine.watched { state := s.state } env .requests fun _ => .requestStart label).Idle := by
  obtain ⟨events, hevents⟩ := Machine.watched_eq { state := s.state } env .requests
    fun _ => .requestStart label
  rw [hevents]
  exact ⟨rfl, rfl, rfl, rfl⟩

/-- Handlers are isolated from one another. In every request of any session, the block of a handler
starts with an empty stack below no frame but its own, inside no function and with no return pending:
it makes no difference what is done to blocks that start otherwise. And a handler that is done,
whatever signal ended it, leaves the machine idle as it was. -/
theorem handlers_isolated (s : Session) (r : Request) (other : Block → Exec Unit) :
    s.answerRunning (fun env => Exec.freshly (Exec.runBlock env (fuel s.limits)) other) r =
      s.answer r ∧
    ∀ (env : Env) (fuel : Nat) (e : ElementRef) (entry : Entry) (locals : Table Value)
      (m n : Machine) (ran : Bool), m.Idle →
      Exec.runHandler env (Exec.runBlock env fuel) e entry locals m = .done ran n → n.Idle := by
  refine ⟨?_, fun env fuel e entry locals m n ran hm h => Exec.idle_of_runHandler hm h⟩
  cases r with
  | setUp options =>
    have hsame := Exec.setUp_freshly (s.env options) (fuel s.limits) other
      (s.idle_start (s.env options) "initialize")
    exact congrArg (s.conclude (s.env options)) hsame
  | act i options =>
    have hsame := Exec.command_freshly (s.env options) (fuel s.limits) other i
      (s.idle_start (s.env options) i.action)
    exact congrArg (s.conclude (s.env options)) hsame

end Session

namespace Sample

/-- The cellar where looking gives back a value from inside a loop. -/
def returning : Story :=
  onLook cellarStory .empty
    [{ opcode := .control .whileLoop
       condition := some (Build.push (.boolean true))
       success := some (Build.push (.integer 1) ++ Build.plain (.call .giveBack)) }]

def returningEnv : Env := ⟨returning, {}, .none, .none⟩

def idleMachine : Machine where
  state := ⟨.empty, ∅, .empty, .ofSeed seed⟩

/-- A return out of a loop of a handler only ends the handler, and leaves nothing behind. -/
theorem returning_isolated : idleMachine.Idle ∧
    ∃ n, Exec.runHandler returningEnv (Exec.runBlock returningEnv 5) .world (.onAction "look") ∅
      idleMachine = .done true n ∧ n.operations = 4 ∧ n.Idle := by
  have hidle : idleMachine.Idle := ⟨rfl, rfl, rfl, rfl⟩
  obtain ⟨-, hleaves⟩ :=
    Session.handlers_isolated (cellarSession .empty) look fun _ _ => .exhausted
  refine ⟨hidle, _, rfl, rfl, ?_⟩
  exact hleaves returningEnv 5 .world (.onAction "look") ∅ idleMachine _ true hidle rfl

end Sample

end Fabula
