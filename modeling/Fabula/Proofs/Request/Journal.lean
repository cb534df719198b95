import Fabula.Proofs.Request.Selection

/-! Requests with a journal of what they do. A journal has the invocations that are dispatched and
the handlers that are tried besides, each with the machine it starts on. Without their journals
requests are what they always are. The queue is served first come, first served, and never while a
block is running. -/

namespace Fabula

/-- A step of a request and the machine it starts on: an invocation is dispatched, or a handler of
its own is tried. -/
inductive Step where
  | dispatch (i : Invocation) (start : Machine)
  | handle (e : ElementRef) (entry : Entry) (start : Machine)

structure Journal (α : Type) where
  outcome : Outcome α
  steps : List Step

def Journaled (α : Type) := Machine → Journal α

namespace Journaled

variable {α β : Type}

protected def bind (x : Journaled α) (f : α → Journaled β) : Journaled β := fun m =>
  match x m with
  | ⟨.done a n, steps⟩ => ⟨(f a n).outcome, steps ++ (f a n).steps⟩
  | ⟨.stopped s n, steps⟩ => ⟨.stopped s n, steps⟩
  | ⟨.exhausted, steps⟩ => ⟨.exhausted, steps⟩

def quietly (x : Exec α) : Journaled α := fun m => ⟨x m, []⟩

def noting (step : Machine → Step) (x : Exec α) : Journaled α := fun m => ⟨x m, [step m]⟩

instance : Monad Journaled where
  pure a := quietly (pure a)
  bind := Journaled.bind

theorem bind_apply (x : Journaled α) (f : α → Journaled β) (m : Machine) :
    (x >>= f) m = match x m with
      | ⟨.done a n, steps⟩ => ⟨(f a n).outcome, steps ++ (f a n).steps⟩
      | ⟨.stopped s n, steps⟩ => ⟨.stopped s n, steps⟩
      | ⟨.exhausted, steps⟩ => ⟨.exhausted, steps⟩ := rfl

def plain (x : Journaled α) : Exec α := fun m => (x m).outcome

section

variable (env : Env) (run : Block → Exec Unit)

def dispatch (i : Invocation) : Journaled Bool := noting (.dispatch i) (Exec.dispatch env run i)

def handle (e : ElementRef) (entry : Entry) : Journaled Unit :=
  noting (.handle e entry) (discard (Exec.runHandler env run e entry ∅))

def serveNext : Journaled (Option Bool) := do
  match ← quietly Exec.nextInvocation with
  | none => return none
  | some i => return some (← dispatch env run i)

def drainQueue : Nat → Journaled Unit
  | 0 => quietly fun _ => .exhausted
  | limit + 1 => do
    match ← serveNext env run with
    | none => return
    | some _ => drainQueue limit

def initAll : List ElementRef → Journaled Unit
  | [] => return
  | e :: rest => do
    handle env run e ⟨.init, []⟩
    initAll rest

end

def setUp (env : Env) (fuel : Nat) : Journaled Unit := do
  let run := Exec.runBlock env fuel
  let elements ← quietly (Exec.see fun m =>
    Exec.initializationOrder.flatMap fun kind => m.state.live kind)
  initAll env run elements
  handle env run .world ⟨.start, []⟩
  drainQueue env run fuel

def serveCommand (env : Env) (fuel : Nat) : Journaled Unit := do
  let run := Exec.runBlock env fuel
  let succeeded ← serveNext env run
  drainQueue env run fuel
  handle env run .world
    ⟨if succeeded = some true then .afterSuccessfulCommand else .afterFailedCommand, []⟩
  handle env run .world ⟨.afterEveryCommand, []⟩

theorem plain_bind (x : Journaled α) (f : α → Journaled β) :
    (x >>= f).plain = x.plain >>= fun a => (f a).plain := by
  funext m
  rw [plain, bind_apply, Exec.bind_apply, plain]
  rcases x m with ⟨_ | _ | _, steps⟩ <;> rfl

theorem plain_serveNext (env : Env) (run : Block → Exec Unit) :
    (serveNext env run).plain = Exec.serveNext env run := by
  rw [serveNext, plain_bind, Exec.serveNext]
  congr 1
  funext next
  cases next with
  | none => rfl
  | some i => exact plain_bind _ _

theorem plain_drainQueue (env : Env) (run : Block → Exec Unit) (limit : Nat) :
    (drainQueue env run limit).plain = Exec.drainQueue env run limit := by
  induction limit with
  | zero => rfl
  | succ limit ih =>
    funext m
    rw [drainQueue, plain_bind, plain_serveNext, Exec.drainQueue, Exec.rounds, Exec.bind_apply,
      Exec.bind_apply]
    cases Exec.serveNext env run m with
    | exhausted => rfl
    | stopped s n => rfl
    | done served n =>
      cases served with
      | none => rfl
      | some handled => exact congrFun ih n

theorem plain_initAll (env : Env) (run : Block → Exec Unit) (elements : List ElementRef) :
    (initAll env run elements).plain = Exec.forEach
      (fun e => discard (Exec.runHandler env run e ⟨.init, []⟩ ∅)) elements := by
  induction elements with
  | nil => rfl
  | cons e rest ih =>
    funext m
    rw [initAll, plain_bind, ih, Exec.forEach_cons]
    rfl

theorem plain_setUp (env : Env) (fuel : Nat) : (setUp env fuel).plain = Exec.setUp env fuel := by
  simp only [setUp, plain_bind, plain_initAll, plain_drainQueue]
  rfl

theorem plain_serveCommand (env : Env) (fuel : Nat) :
    (serveCommand env fuel).plain = Exec.serveCommand env fuel := by
  simp only [serveCommand, plain_bind, plain_serveNext, plain_drainQueue]
  rfl

end Journaled

/-- Nothing was served, and what was queued comes after what was there. -/
structure QueueGrows (m n : Machine) : Prop where
  served : n.served = m.served
  queued : m.queued.toList <+: n.queued.toList

theorem progress_queueGrows (env : Env) : Progress env QueueGrows where
  trans h h' := ⟨h'.served.trans h.served, h.queued.trans h'.queued⟩
  unseen _ hqueued hserved _ _ := ⟨hserved, by simp [hqueued]⟩
  emit m _ _ := ⟨rfl, List.prefix_rfl⟩
  queue m i := ⟨rfl, by simp⟩
  operation m op := by
    obtain ⟨events, hevents⟩ := m.watched_eq env .operations fun m => .operation op m.operations
    rw [hevents]
    exact ⟨rfl, List.prefix_rfl⟩
  block {m n} f name h := by
    obtain ⟨_, _, hopen⟩ := m.openFrame_eq env f name
    obtain ⟨_, _, hclose⟩ := n.closeFrame_eq env f.scope name
    rw [hopen] at h
    rw [hclose]
    exact ⟨h.served, h.queued⟩

namespace Exec

variable {env : Env} {fuel : Nat}

variable (env fuel) in
theorem queueGrows_runHandler (e : ElementRef) (entry : Entry) (locals : Table Value)
    (m : Machine) : (runHandler env (runBlock env fuel) e entry locals m).Follows QueueGrows m
      Anything :=
  (progress_queueGrows env).handled
    ((progress_queueGrows env).follows_runEntry fuel e entry locals m)

variable (env fuel) in
theorem queueGrows_dispatch (i : Invocation) (m : Machine) :
    (dispatch env (runBlock env fuel) i m).Follows QueueGrows m Anything := by
  obtain ⟨_, ⟨notes, -, rfl⟩, henacts⟩ := dispatch_enacts env i m
  rw [henacts]
  cases select env.story m.state i with
  | faulty fault => exact ⟨rfl, List.prefix_rfl⟩
  | chosen candidate handled =>
    rw [enact_chosen]
    refine Outcome.Follows.bind_pure (P := Anything) ?_ fun _ _ => .intro
    cases candidate with
    | none => exact ⟨⟨rfl, List.prefix_rfl⟩, .intro⟩
    | some c =>
      exact (queueGrows_runHandler env fuel c.element c.entry c.locals _).imp fun n hn =>
        ⟨hn.served, hn.queued⟩

theorem idle_of_dispatch {i : Invocation} {m n : Machine} {handled : Bool} (hm : m.Idle)
    (h : dispatch env (runBlock env fuel) i m = .done handled n) : n.Idle :=
  (((requestRules_idles env fuel fun _ _ _ _ _ => rfl).dispatch i m hm).2 handled n h).1

end Exec

def dispatched : List Step → List Invocation
  | [] => []
  | .dispatch i _ :: rest => i :: dispatched rest
  | .handle _ _ _ :: rest => dispatched rest

@[simp] theorem dispatched_append (xs ys : List Step) :
    dispatched (xs ++ ys) = dispatched xs ++ dispatched ys := by
  induction xs with
  | nil => rfl
  | cons step xs ih => cases step <;> simp [dispatched, ih]

/-- Every step starts on an idle machine, and the invocations that are dispatched after those before
are the next of the queue. -/
inductive InOrder : List Invocation → List Step → Prop
  | nil {before : List Invocation} : InOrder before []
  | dispatch {before : List Invocation} {i : Invocation} {start : Machine} {rest : List Step} :
      start.Idle → start.queued.toList.take start.served = before ++ [i] →
      InOrder (before ++ [i]) rest → InOrder before (.dispatch i start :: rest)
  | handle {before : List Invocation} {e : ElementRef} {entry : Entry} {start : Machine}
      {rest : List Step} : start.Idle → start.queued.toList.take start.served = before →
      InOrder before rest → InOrder before (.handle e entry start :: rest)

theorem InOrder.append {before : List Invocation} {xs ys : List Step} (hx : InOrder before xs)
    (hy : InOrder (before ++ dispatched xs) ys) : InOrder before (xs ++ ys) := by
  induction hx with
  | nil => simpa [dispatched] using hy
  | dispatch hidle hserved _ ih =>
    exact .dispatch hidle hserved (ih (by simpa [dispatched] using hy))
  | handle hidle hserved _ ih => exact .handle hidle hserved (ih hy)

theorem InOrder.at_handle {before : List Invocation} {xs ys : List Step} {e : ElementRef}
    {entry : Entry} {start : Machine} (h : InOrder before (xs ++ .handle e entry start :: ys)) :
    start.queued.toList.take start.served = before ++ dispatched xs := by
  induction xs generalizing before with
  | nil =>
    cases h with
    | handle _ hserved _ => simpa [dispatched] using hserved
  | cons step xs ih =>
    cases h with
    | dispatch _ _ hrest => simpa [dispatched] using ih hrest
    | handle _ _ hrest => exact ih hrest

structure Machine.Serving (before : List Invocation) (m : Machine) : Prop where
  idle : m.Idle
  within : m.served ≤ m.queued.size
  served : m.queued.toList.take m.served = before

/-- A journal in order, which accounts for all that was taken off the queue. -/
structure Journal.Orderly {α : Type} (before : List Invocation) (m : Machine) (j : Journal α) :
    Prop where
  order : InOrder before j.steps
  queued : ∀ n, j.outcome.machine? = some n → m.queued.toList <+: n.queued.toList
  within : ∀ n, j.outcome.machine? = some n → n.served ≤ n.queued.size
  served : ∀ n, j.outcome.machine? = some n →
    n.queued.toList.take n.served = before ++ dispatched j.steps
  idle : ∀ a n, j.outcome = .done a n → n.Idle

namespace Journaled

variable {α β : Type} {env : Env} {fuel : Nat}

def Orderly (x : Journaled α) : Prop := ∀ before m, m.Serving before → (x m).Orderly before m

theorem Orderly.bind {x : Journaled α} {f : α → Journaled β} (hx : x.Orderly)
    (hf : ∀ a, (f a).Orderly) : (x >>= f).Orderly := by
  intro before m hm
  have h := hx before m hm
  rw [bind_apply]
  generalize x m = j at h ⊢
  obtain ⟨o, steps⟩ := j
  cases o with
  | exhausted => exact ⟨h.order, h.queued, h.within, h.served, fun _ _ he => by cases he⟩
  | stopped s n => exact ⟨h.order, h.queued, h.within, h.served, fun _ _ he => by cases he⟩
  | done a n =>
    have h' := hf a (before ++ dispatched steps) n
      ⟨h.idle a n rfl, h.within n rfl, h.served n rfl⟩
    refine ⟨h.order.append h'.order, fun k hk => ?_, h'.within, fun k hk => ?_, h'.idle⟩
    · exact (h.queued n rfl).trans (h'.queued k hk)
    · simpa using h'.served k hk

theorem orderly_of_queueGrows {P : α → Prop} {before : List Invocation} {m k : Machine}
    {o : Outcome α} {steps : List Step} (order : InOrder before steps)
    (hwithin : k.served ≤ k.queued.size)
    (hserved : k.queued.toList.take k.served = before ++ dispatched steps)
    (hqueued : m.queued.toList <+: k.queued.toList) (ho : o.Follows QueueGrows k P)
    (hidle : ∀ a n, o = .done a n → n.Idle) : (Journal.mk o steps).Orderly before m := by
  refine ⟨order, fun n hn => ?_, fun n hn => ?_, fun n hn => ?_, hidle⟩
  · exact hqueued.trans (ho.of_machine? hn).queued
  · have hgrows := ho.of_machine? hn
    have hsize : k.queued.size ≤ n.queued.size := by simpa using hgrows.queued.length_le
    rw [hgrows.served]
    omega
  · have hgrows := ho.of_machine? hn
    -- the queue only grew at its end, past everything that was served
    obtain ⟨more, hmore⟩ := hgrows.queued
    rw [hgrows.served, ← hmore, ← hserved]
    exact List.take_append_of_le_length (by simpa using hwithin)

theorem orderly_see (f : Machine → α) : (quietly (Exec.see f)).Orderly := by
  rintro before m ⟨hidle, hwithin, hserved⟩
  refine orderly_of_queueGrows (P := Anything) .nil hwithin (by simpa [dispatched] using hserved)
    List.prefix_rfl ⟨⟨rfl, List.prefix_rfl⟩, .intro⟩ fun a n hdone => ?_
  cases hdone
  exact hidle

theorem orderly_exhausted : (quietly fun _ => .exhausted : Journaled α).Orderly := by
  rintro before m ⟨hidle, hwithin, hserved⟩
  exact orderly_of_queueGrows (P := Anything) .nil hwithin (by simpa [dispatched] using hserved)
    List.prefix_rfl trivial fun a n hdone => by cases hdone

theorem orderly_handle (e : ElementRef) (entry : Entry) :
    (handle env (Exec.runBlock env fuel) e entry).Orderly := by
  rintro before m ⟨hidle, hwithin, hserved⟩
  have hgrows := Exec.queueGrows_runHandler env fuel e entry ∅ m
  rw [handle, Exec.discard_eq]
  refine orderly_of_queueGrows (k := m) (P := Anything) (.handle hidle hserved .nil) hwithin
    (by simpa [dispatched] using hserved) List.prefix_rfl
    (hgrows.bind_pure fun _ _ => .intro) ?_
  intro a n hdone
  obtain ⟨ran, k, hran, hk⟩ := Exec.bind_eq_done hdone
  cases hk
  exact Exec.idle_of_runHandler hidle hran

theorem serveNext_none {run : Block → Exec Unit} {m : Machine} (h : m.queued[m.served]? = none) :
    serveNext env run m = ⟨.done none m, []⟩ := by
  simp only [serveNext, bind_apply, quietly, Exec.nextInvocation_none h]
  rfl

theorem serveNext_some {run : Block → Exec Unit} {m : Machine} {i : Invocation}
    (h : m.queued[m.served]? = some i) :
    serveNext env run m =
      ⟨(Exec.dispatch env run i >>= fun handled => pure (some handled))
        { m with served := m.served + 1 }, [.dispatch i { m with served := m.served + 1 }]⟩ := by
  simp only [serveNext, bind_apply, quietly, Exec.nextInvocation_some h, dispatch, noting,
    Exec.bind_apply]
  cases Exec.dispatch env run i { m with served := m.served + 1 } <;> rfl

theorem orderly_serveNext : (serveNext env (Exec.runBlock env fuel)).Orderly := by
  rintro before m ⟨hidle, hwithin, hserved⟩
  cases h : m.queued[m.served]? with
  | none =>
    rw [serveNext_none h]
    exact orderly_see (fun _ => none) before m ⟨hidle, hwithin, hserved⟩
  | some i =>
    -- the invocation is off the queue before it is dispatched
    let next : Machine := { m with served := m.served + 1 }
    have hnext : next.Idle := ⟨hidle.stack, hidle.frames, hidle.depth, hidle.pendingReturn⟩
    have hlt : next.served ≤ next.queued.size := (Array.getElem?_eq_some_iff.mp h).1
    have htaken : next.queued.toList.take next.served = before ++ [i] := by
      have hi : m.queued.toList[m.served]? = some i := by simpa using h
      simp only [next, List.take_add_one, hi, hserved, Option.toList_some]
    have hgrows := Exec.queueGrows_dispatch env fuel i next
    rw [serveNext_some h]
    refine orderly_of_queueGrows (k := next) (P := Anything) (.dispatch hnext htaken .nil) hlt
      (by simpa [dispatched] using htaken) List.prefix_rfl
      (hgrows.bind_pure fun _ _ => .intro) ?_
    intro a n hdone
    obtain ⟨handled, k, hran, hk⟩ := Exec.bind_eq_done hdone
    cases hk
    exact Exec.idle_of_dispatch hnext hran

theorem orderly_drainQueue (limit : Nat) :
    (drainQueue env (Exec.runBlock env fuel) limit).Orderly := by
  induction limit with
  | zero => exact orderly_exhausted
  | succ limit ih =>
    refine orderly_serveNext.bind fun served => ?_
    cases served with
    | none => exact orderly_see fun _ => ()
    | some handled => exact ih

theorem orderly_initAll (elements : List ElementRef) :
    (initAll env (Exec.runBlock env fuel) elements).Orderly := by
  induction elements with
  | nil => exact orderly_see fun _ => ()
  | cons e rest ih => exact (orderly_handle e _).bind fun _ => ih

theorem orderly_setUp : (setUp env fuel).Orderly :=
  (orderly_see _).bind fun elements => (orderly_initAll elements).bind fun _ =>
    (orderly_handle _ _).bind fun _ => orderly_drainQueue fuel

theorem orderly_serveCommand : (serveCommand env fuel).Orderly :=
  orderly_serveNext.bind fun _ => (orderly_drainQueue fuel).bind fun _ =>
    (orderly_handle _ _).bind fun _ => orderly_handle _ _

end Journaled

def tried : List Step → List (ElementRef × Entry)
  | [] => []
  | .dispatch _ _ :: rest => tried rest
  | .handle e entry _ :: rest => (e, entry) :: tried rest

@[simp] theorem tried_append (xs ys : List Step) : tried (xs ++ ys) = tried xs ++ tried ys := by
  induction xs with
  | nil => rfl
  | cons step xs ih => cases step <;> simp [tried, ih]

/-- What the world does after a command, by how the command was dispatched. -/
def afterCommand : Outcome Bool → List (ElementRef × Entry)
  | .done handled _ =>
    [(.world, ⟨if handled then .afterSuccessfulCommand else .afterFailedCommand, []⟩),
     (.world, ⟨.afterEveryCommand, []⟩)]
  | _ => []

def Journal.StoppedBy {α : Type} (env : Env) (run : Block → Exec Unit) (j : Journal α) : Prop :=
  ∃ i start signal n, j.steps.getLast? = some (.dispatch i start) ∧
    Exec.dispatch env run i start = .stopped signal n ∧ j.outcome = .stopped signal n

theorem Journal.StoppedBy.append {α : Type} {env : Env} {run : Block → Exec Unit}
    {o : Outcome α} {steps : List Step} (h : StoppedBy env run ⟨o, steps⟩) (earlier : List Step) :
    StoppedBy env run ⟨o, earlier ++ steps⟩ := by
  obtain ⟨i, start, signal, n, hlast, hdispatch, ho⟩ := h
  exact ⟨i, start, signal, n, by simp [hlast], hdispatch, ho⟩

/-- The steps by which the queue is served and then certain handlers are tried, which are two if the
request comes to its end. -/
structure Journal.Serves (env : Env) (run : Block → Exec Unit) (entries : List (ElementRef × Entry))
    (j : Journal Unit) (served afters : List Step) : Prop where
  steps : j.steps = served ++ afters
  dispatches : tried served = []
  handlers : dispatched afters = []
  tried : tried afters <+: entries
  /-- No handler is tried only if dispatching stopped the request before. -/
  stopped : afters = [] → j.outcome = .exhausted ∨ j.StoppedBy env run
  whole : ∀ n, j.outcome = .done () n → afters.length = 2
  /-- Nothing is left to serve when the first handler is tried. -/
  drained : ∀ e entry after, afters.head? = some (.handle e entry after) →
    after.queued[after.served]? = none

namespace Journal.Serves

variable {env : Env} {run : Block → Exec Unit} {entries : List (ElementRef × Entry)}
  {o : Outcome Unit} {steps served afters : List Step}

theorem of_stopped (dispatches : Fabula.tried steps = [])
    (hstopped : o = .exhausted ∨ StoppedBy env run ⟨o, steps⟩) :
    Serves env run entries ⟨o, steps⟩ steps [] where
  steps := by simp
  dispatches := dispatches
  handlers := rfl
  tried := List.nil_prefix
  stopped _ := hstopped
  whole n hdone := by
    rcases hstopped with rfl | ⟨_, _, _, _, _, _, hsignal⟩
    · cases hdone
    · exact absurd (hdone.symm.trans hsignal) (by simp)
  drained _ _ _ h := by cases h

theorem dispatch_cons (h : Serves env run entries ⟨o, steps⟩ served afters) (i : Invocation)
    (start : Machine) : Serves env run entries ⟨o, .dispatch i start :: steps⟩
      (.dispatch i start :: served) afters where
  steps := congrArg (_ :: ·) h.steps
  dispatches := h.dispatches
  handlers := h.handlers
  tried := h.tried
  stopped hnone := (h.stopped hnone).imp_right fun hstopped => hstopped.append [.dispatch i start]
  whole := h.whole
  drained := h.drained

end Journal.Serves

namespace Journaled

variable (env : Env) (run : Block → Exec Unit)

/-- Serving the queue only dispatches. It ends with nothing left to serve, or the last dispatching
stopped it, or it was exhausted. -/
theorem drainQueue_ends (limit : Nat) (m : Machine) :
    tried (drainQueue env run limit m).steps = [] ∧
    ((∃ n, (drainQueue env run limit m).outcome = .done () n ∧ n.queued[n.served]? = none) ∨
      (drainQueue env run limit m).outcome = .exhausted ∨
      (drainQueue env run limit m).StoppedBy env run) := by
  induction limit generalizing m with
  | zero => exact ⟨rfl, .inr (.inl rfl)⟩
  | succ limit ih =>
    rw [drainQueue, bind_apply]
    cases hnext : m.queued[m.served]? with
    | none =>
      rw [serveNext_none hnext]
      exact ⟨rfl, .inl ⟨m, rfl, hnext⟩⟩
    | some i =>
      rw [serveNext_some hnext, Exec.bind_apply]
      cases hdispatch : Exec.dispatch env run i { m with served := m.served + 1 } with
      | exhausted => exact ⟨rfl, .inr (.inl rfl)⟩
      | stopped s n => exact ⟨rfl, .inr (.inr ⟨_, _, s, n, rfl, hdispatch, rfl⟩)⟩
      | done handled n =>
        obtain ⟨hsteps, hends⟩ := ih n
        refine ⟨by simpa [tried] using hsteps, ?_⟩
        rcases hends with hdone | hexhausted | hstopped
        · exact .inl hdone
        · exact .inr (.inl hexhausted)
        · exact .inr (.inr (hstopped.append _))

theorem handle_twice (first second : Entry) (m : Machine) :
    let j := (do handle env run .world first; handle env run .world second : Journaled Unit) m
    j.steps.head? = some (.handle .world first m) ∧ dispatched j.steps = [] ∧
      tried j.steps <+: [(.world, first), (.world, second)] ∧
      ∀ n, j.outcome = .done () n → j.steps.length = 2 := by
  rw [bind_apply, handle, noting]
  cases (discard (Exec.runHandler env run .world first ∅) : Exec Unit) m with
  | exhausted => simp [dispatched, tried]
  | stopped s n => simp [dispatched, tried]
  | done a n => simp [handle, noting, dispatched, tried]

theorem serves_drainQueue (limit : Nat) (first second : Entry) (m : Machine) : ∃ served afters,
    ((do drainQueue env run limit; handle env run .world first; handle env run .world second :
      Journaled Unit) m).Serves env run [(.world, first), (.world, second)] served afters := by
  have hdrain := drainQueue_ends env run limit m
  rw [bind_apply]
  generalize drainQueue env run limit m = j at hdrain ⊢
  obtain ⟨o, steps⟩ := j
  obtain ⟨hsteps, ⟨n, hdone, hempty⟩ | hexhausted | hstopped⟩ := hdrain
  · cases hdone
    obtain ⟨hhead, hhandlers, htried, hwhole⟩ := handle_twice env run first second n
    refine ⟨steps, _, rfl, hsteps, hhandlers, htried, fun hnone => ?_, hwhole, ?_⟩
    · rw [hnone] at hhead
      cases hhead
    · intro e entry after hafter
      rw [hhead] at hafter
      cases hafter
      exact hempty
  · cases hexhausted
    exact ⟨steps, [], .of_stopped hsteps (.inl rfl)⟩
  · obtain ⟨i, start, signal, n, hlast, hdispatch, ho⟩ := hstopped
    cases ho
    exact ⟨steps, [], .of_stopped hsteps (.inr ⟨i, start, signal, n, hlast, hdispatch, rfl⟩)⟩

/-- A command dispatches the invocation it was made for first and asks the world last. -/
theorem serves_serveCommand (fuel : Nat) {i : Invocation} {m : Machine}
    (hnext : m.queued[m.served]? = some i) :
    ∃ start served afters, served.head? = some (.dispatch i start) ∧
      (serveCommand env fuel m).Serves env (Exec.runBlock env fuel)
        (afterCommand (Exec.dispatch env (Exec.runBlock env fuel) i start)) served afters := by
  let run := Exec.runBlock env fuel
  let start : Machine := { m with served := m.served + 1 }
  refine ⟨start, ?_⟩
  rw [serveCommand, bind_apply, serveNext_some hnext, Exec.bind_apply]
  cases hdispatch : Exec.dispatch env run i start with
  | exhausted => exact ⟨[.dispatch i start], [], rfl, .of_stopped rfl (.inl rfl)⟩
  | stopped s n =>
    exact ⟨[.dispatch i start], [], rfl,
      .of_stopped rfl (.inr ⟨i, start, s, n, rfl, hdispatch, rfl⟩)⟩
  | done handled n =>
    obtain ⟨served, afters, hserves⟩ := serves_drainQueue env run fuel
      ⟨if some handled = some true then .afterSuccessfulCommand else .afterFailedCommand, []⟩
      ⟨.afterEveryCommand, []⟩ n
    refine ⟨.dispatch i start :: served, afters, rfl, ?_⟩
    cases handled <;> exact hserves.dispatch_cons i start

/-- A game that was started has served everything queued. -/
theorem setUp_drained {fuel : Nat} {m n : Machine} (h : (setUp env fuel m).outcome = .done () n) :
    n.queued[n.served]? = none := by
  have hplain : Exec.setUp env fuel m = .done () n :=
    (congrFun (plain_setUp env fuel) m).symm.trans h
  obtain ⟨_, _, _, hinit⟩ := Exec.bind_eq_done hplain
  obtain ⟨_, _, _, hstart⟩ := Exec.bind_eq_done hinit
  obtain ⟨_, k, _, hdrain⟩ := Exec.bind_eq_done hstart
  rw [← plain_drainQueue, plain] at hdrain
  rcases (drainQueue_ends env (Exec.runBlock env fuel) fuel k).2 with
    ⟨l, hdone, hempty⟩ | hexhausted | ⟨_, _, _, _, _, _, hstopped⟩
  · rw [hdrain] at hdone
    cases hdone
    exact hempty
  · exact absurd (hdrain.symm.trans hexhausted) (by simp)
  · exact absurd (hdrain.symm.trans hstopped) (by simp)

end Journaled

end Fabula
