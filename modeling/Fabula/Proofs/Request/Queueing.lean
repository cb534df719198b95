import Fabula.Proofs.Request.Attended
import Fabula.Proofs.Request.Journal

/-! What operations do to the queue. An operation that queues puts one invocation behind all others.
One that runs blocks leaves what it finds in its place, and the rest do not touch the queue. So the
invocations stand in the queue in the order in which the operations that queued them came. -/

namespace Fabula

def Machine.SameQueue (m n : Machine) : Prop := n.queued = m.queued

/-- One invocation more is last in the queue if the computation is done, and none if it is stopped. -/
def Outcome.QueuesOne (m : Machine) : Outcome Unit → Prop
  | .done _ n => ∃ i, n.queued = m.queued.push i
  | .stopped _ n => m.SameQueue n
  | .exhausted => True

def Opcode.Queues (code : Opcode) (m : Machine) (o : Outcome Unit) : Prop :=
  match code with
  | .queue _ => o.QueuesOne m
  | .control _ | .call _ | .focus _ | .holding .browse =>
    ∀ n, o.machine? = some n → m.queued.toList <+: n.queued.toList
  | _ => ∀ n, o.machine? = some n → m.SameQueue n

namespace Exec

variable {α : Type} {P : α → Prop}

abbrev SparesQueue (P : α → Prop) (x y : Exec α) : Prop :=
  Attends Anything Machine.SameQueue P x y

theorem sparesQueue_change {f : Machine → Machine} (hf : ∀ m, (f m).queued = m.queued) :
    SparesQueue Anything (change f) (change f) :=
  fun m _ => ⟨rfl, hf m, .intro⟩

theorem sparesQueue_discreet {x : Exec α} (hx : Discreet P x) : SparesQueue P x x := by
  intro m _
  refine ⟨rfl, ?_⟩
  rcases hx m with ⟨a, state, stack, hdone, ha⟩ | ⟨s, hstopped⟩
  · rw [hdone]
    exact ⟨rfl, ha⟩
  · rw [hstopped]
    rfl

theorem sparesQueue_trace (env : Env) (topic : Topic) (message : Machine → String) :
    SparesQueue Anything (trace env topic message) (trace env topic message) := by
  refine sparesQueue_change fun m => ?_
  obtain ⟨cues, hcues⟩ := m.traced_eq env topic message
  rw [hcues]

theorem sparesQueue_setLocals (locals : Table Value) :
    SparesQueue Anything (setLocals locals) (setLocals locals) := by
  refine sparesQueue_change fun m => ?_
  cases m.frames <;> rfl

theorem sparesQueue_count (env : Env) : SparesQueue Anything (count env) (count env) := by
  intro m _
  refine ⟨rfl, ?_⟩
  simp only [count]
  split
  · rfl
  · exact ⟨rfl, .intro⟩

theorem sparesQueue_record (env : Env) (wanted : TraceMask) (event : Machine → Event) :
    SparesQueue Anything (record env wanted event) (record env wanted event) := by
  refine sparesQueue_change fun m => ?_
  obtain ⟨events, hevents⟩ := m.watched_eq env wanted event
  rw [hevents]

/-- Whatever neither queues nor runs blocks leaves the queue alone. -/
theorem steps_sparesQueue (env : Env) :
    Steps env env Anything Anything Anything SparesQueue :=
  .of_discreet (fun hP hx m hm => ⟨(hx m hm).1, (hx m hm).2.mono hP⟩)
    (fun hx hf => hx.bind (fun h h' => Eq.trans h' h) (fun _ _ => .intro) hf)
    sparesQueue_discreet (sparesQueue_trace env) (fun _ _ => sparesQueue_change fun _ => rfl)
    sparesQueue_setLocals

def QueuesOne (x : Exec Unit) : Prop := ∀ m, (x m).QueuesOne m

theorem QueuesOne.after {x : Exec α} {f : α → Exec Unit} (hx : SparesQueue P x x)
    (hf : ∀ a, QueuesOne (f a)) : QueuesOne (x >>= f) := by
  intro m
  have hm := (hx m .intro).2
  rw [bind_apply]
  cases hxm : x m with
  | exhausted => trivial
  | stopped s n =>
    rw [hxm] at hm
    exact hm
  | done a n =>
    rw [hxm] at hm
    have hqueue : n.queued = m.queued := hm.1
    have hn := hf a n
    simp only
    cases hfn : f a n with
    | exhausted => trivial
    | stopped s k =>
      rw [hfn] at hn
      exact Eq.trans hn hqueue
    | done b k =>
      rw [hfn] at hn
      obtain ⟨i, hi⟩ := hn
      exact ⟨i, by rw [hi, hqueue]⟩

variable (env : Env)

theorem queuesOne_queue (i : Invocation) : QueuesOne (queue env i) :=
  .after (sparesQueue_trace env _ _) fun _ _ => ⟨i, rfl⟩

theorem queuesOne_queueOp (op : Opcode) (o : QueueOp) : QueuesOne (queueOp env op o) := by
  have h := steps_sparesQueue env
  cases o with
  | action => exact .after (h.popAction op) fun _ => queuesOne_queue env _
  | withText =>
    exact .after (h.popText op) fun _ => .after (h.popAction op) fun _ => queuesOne_queue env _
  | withObject =>
    exact .after (h.popObject op) fun _ => .after (h.popAction op) fun _ => queuesOne_queue env _
  | withObjects =>
    exact .after (h.popObject op) fun _ => .after (h.popObject op) fun _ =>
      .after (h.popAction op) fun _ => queuesOne_queue env _

variable (run : Block → Exec Unit) (limit : Nat) (op : Operation)

theorem queuesOne_execute (h : QueuesOne (perform env run limit op)) :
    QueuesOne (execute env run limit op) :=
  .after (sparesQueue_count env) fun _ => .after (sparesQueue_record env _ _) fun _ =>
    .after (sparesQueue_trace env _ _) fun _ => h

theorem sparesQueue_execute
    (h : SparesQueue Anything (perform env run limit op) (perform env run limit op)) :
    SparesQueue Anything (execute env run limit op) (execute env run limit op) :=
  have steps := steps_sparesQueue env
  steps.bind (sparesQueue_count env) fun _ _ => steps.bind (sparesQueue_record env _ _) fun _ _ =>
    steps.bind (sparesQueue_trace env _ _) fun _ _ => h

theorem sameQueue_of_spares {x : Exec Unit} (h : SparesQueue Anything x x) {m n : Machine}
    (hn : (x m).machine? = some n) : m.SameQueue n :=
  (h m .intro).2.of_machine? hn

theorem sparesQueue_holdingOp (code : Opcode) (browse : Exec Unit) {o : HoldingOp}
    (ho : o ≠ .browse) :
    SparesQueue Anything (holdingOp env code browse o) (holdingOp env code browse o) := by
  have hidle : holdingOp env code browse o = holdingOp env code (pure ()) o := by
    cases o with
    | browse => exact absurd rfl ho
    | _ => rfl
  rw [hidle]
  exact (steps_sparesQueue env).holdingOp code ((steps_sparesQueue env).pure .intro) o

/-- Operations only add to the queue, with those in the blocks they run. -/
theorem queueGrows_execute (fuel : Nat) : Follows QueueGrows Anything
    (execute env (runBlock env fuel) limit op) (execute env (runBlock env fuel) limit op) := by
  have h := progress_queueGrows env
  refine h.rules.execute (fun {block} _ => h.follows_runBlock fuel block) h.follows_count limit
    (fun _ _ _ => .intro) ?_
  exact Progress.follows_change fun m => h.operation m op.opcode

theorem queues_execute (fuel : Nat) (m : Machine) :
    op.opcode.Queues m (execute env (runBlock env fuel) limit op m) := by
  have steps := steps_sparesQueue env
  have hgrows : ∀ n, (execute env (runBlock env fuel) limit op m).machine? = some n →
      m.queued.toList <+: n.queued.toList := fun _ hn =>
    ((queueGrows_execute env limit op fuel m).of_machine? hn).queued
  have hspares : SparesQueue Anything (perform env (runBlock env fuel) limit op)
      (perform env (runBlock env fuel) limit op) →
      ∀ n, (execute env (runBlock env fuel) limit op m).machine? = some n → m.SameQueue n :=
    fun h _ => sameQueue_of_spares (sparesQueue_execute env _ limit op h)
  have hfits : op.Fits Anything := fun _ _ _ => .intro
  cases hcode : op.opcode with
  | queue o =>
    refine queuesOne_execute env _ limit op ?_ m
    simp only [perform, hcode]
    exact queuesOne_queueOp env _ o
  | control _ | call _ | focus _ => exact hgrows
  | holding o =>
    by_cases ho : o = .browse
    · subst ho
      exact hgrows
    · have hsame := hspares (by
        simp only [perform, hcode]
        exact sparesQueue_holdingOp env _ _ ho)
      cases o with
      | browse => exact absurd rfl ho
      | _ => exact hsame
  | stack o => exact hspares (by simp only [perform, hcode]; exact steps.stackOp hfits o)
  | arithmetic => exact hspares (by simp only [perform, hcode]; exact steps.arithmetic op)
  | cue o => exact hspares (by simp only [perform, hcode]; exact steps.cueOp _ o)
  | list o => exact hspares (by simp only [perform, hcode]; exact steps.listOp _ o)
  | convert o => exact hspares (by simp only [perform, hcode]; exact steps.convertOp _ o)
  | random o => exact hspares (by simp only [perform, hcode]; exact steps.randomOp _ o)

/-- A guard that lets pass what operations do, whatever machine they start on, is not seen. -/
theorem runGuarded_eq {guard : Guard}
    (hguard : ∀ fuel op m, guard op (execute env (runBlock env fuel) fuel op) m =
      execute env (runBlock env fuel) fuel op m) (fuel : Nat) :
    runGuarded guard env fuel = runBlock env fuel := by
  induction fuel with
  | zero => rfl
  | succ fuel ih =>
    funext block m
    have hops : (fun op => guard op (execute env (runBlock env fuel) fuel op)) =
        execute env (runBlock env fuel) fuel := by
      funext op m
      exact hguard fuel op m
    simp only [runGuarded, runBlock, ih, hops]

end Exec

end Fabula
