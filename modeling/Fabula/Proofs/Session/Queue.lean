import Fabula.Proofs.Request.Queueing
import Fabula.Proofs.Session.Cutoff
import Fabula.Proofs.Session.Guarded
import Fabula.Proofs.Session.Isolation

/-! The queue of a request. Invocations are dispatched one at a time, in the order in which they
were queued, and after all of them the world is asked what it does after a command. Whatever is
queued before that is dispatched, and what is queued in it is not. -/

namespace Fabula

def Outcome.CutShort {α : Type} : Outcome α → Prop
  | .stopped s _ => s = .finish ∨ s = .quit ∨ s.isFailure = true
  | _ => False

instance {α : Type} : (o : Outcome α) → Decidable o.CutShort
  | .stopped s _ => inferInstanceAs (Decidable (s = .finish ∨ s = .quit ∨ s.isFailure = true))
  | .done _ _ => .isFalse id
  | .exhausted => .isFalse id

namespace Exec

variable {α β : Type} {P : α → Prop} {Q : β → Prop}

def EndsByCut (P : α → Prop) (x _y : Exec α) : Prop := ∀ m,
  match x m with
  | .done a _ => P a
  | .stopped s n => (Outcome.stopped s n : Outcome α).CutShort
  | .exhausted => True

theorem EndsByCut.bind {x y : Exec α} {f g : α → Exec β} (hx : EndsByCut P x y)
    (hf : ∀ a, P a → EndsByCut Q (f a) (g a)) : EndsByCut Q (x >>= f) (y >>= g) := by
  intro m
  have hm := hx m
  rw [bind_apply]
  cases hxm : x m with
  | exhausted => trivial
  | stopped s n =>
    rw [hxm] at hm
    exact hm
  | done a n =>
    rw [hxm] at hm
    exact hf a hm n

theorem EndsByCut.cutShort {x y : Exec α} (h : EndsByCut P x y) {m n : Machine} {s : Signal}
    (hx : x m = .stopped s n) : (x m).CutShort := by
  have hm := h m
  rw [hx] at hm ⊢
  exact hm

/-- Handlers catch all other signals. -/
theorem endsByCut_runHandler (env : Env) (run : Block → Exec Unit) (e : ElementRef) (entry : Entry)
    (locals : Table Value) : EndsByCut Anything (runHandler env run e entry locals)
      (runHandler env run e entry locals) := by
  intro m
  unfold runHandler
  cases runEntry env run e entry locals m with
  | exhausted => trivial
  | done ran n => trivial
  | stopped s n => cases s <;> simp [handled, Outcome.CutShort, Signal.isFailure, Anything]

theorem requestRules_endsByCut (env : Env) (run : Block → Exec Unit) :
    RequestRules env env run run Anything Anything Anything EndsByCut where
  story := rfl
  grounds := .trivial env.story
  mono hPQ hx m := by
    have hm := hx m
    split at hm
    · exact hPQ _ hm
    · exact hm
    · trivial
  pure known _ := known
  bind := EndsByCut.bind
  fault f _ := .inr (.inr rfl)
  see f hf m := hf m.state .intro
  ask {_ _ f} hf m := by
    simp only [ask]
    cases ha : f m.state with
    | ok a => exact hf m.state a .intro ha
    | error e => exact .inr (.inr rfl)
  trace _ _ := .intro
  exhausted _ := trivial
  runHandler entry _ _ _ := endsByCut_runHandler env run _ entry _
  next m := by
    simp only [nextInvocation]
    cases m.queued[m.served]? <;> trivial
  enqueue _ _ := .intro

end Exec

def Request.given : Request → List Invocation
  | .setUp _ => []
  | .act i _ => [i]

/-- The guard lets an operation pass that does to the queue what its code says. -/
def Guard.WatchesQueue (guard : Guard) : Prop :=
  ∀ op x m, op.opcode.Queues m (x m) → guard op x m = x m

namespace Session

/-- How a request comes out, with the steps it takes. -/
def journal (s : Session) : Request → Journal Unit
  | .setUp options => Journaled.setUp (s.env options) (fuel s.limits)
    (s.startMachine (s.env options) "initialize")
  | .act i options =>
    let m := s.startMachine (s.env options) i.action
    Journaled.serveCommand (s.env options) (fuel s.limits) { m with queued := m.queued.push i }

theorem journal_outcome (s : Session) (r : Request) :
    (s.journal r).outcome = s.outcome (fuel s.limits) r := by
  cases r with
  | setUp options => exact congrFun (Journaled.plain_setUp _ _) _
  | act i options => exact congrFun (Journaled.plain_serveCommand _ _) _

theorem answer_eq_journal (s : Session) (r : Request) :
    s.answer r = s.conclude (s.env r.options) (s.journal r).outcome := by
  rw [journal_outcome, answer_eq_conclude]

theorem serving_start (s : Session) (env : Env) (label : String) :
    (s.startMachine env label).Serving [] where
  idle := s.idle_start env label
  within := by simp [(s.keeps_startMachine env label).served]
  served := by simp [(s.keeps_startMachine env label).served]

/-- The journal of a request is in order from its start, where just what the request is made for is
in the queue. -/
theorem journal_orderly (s : Session) (r : Request) :
    ∃ m : Machine, m.queued.toList = r.given ∧ (s.journal r).Orderly [] m := by
  cases r with
  | setUp options =>
    refine ⟨_, ?_, Journaled.orderly_setUp [] _ (s.serving_start (s.env options) "initialize")⟩
    simp [(s.keeps_startMachine (s.env options) "initialize").queued, Request.given]
  | act i options =>
    let m := s.startMachine (s.env options) i.action
    let queued : Machine := { m with queued := m.queued.push i }
    have kept : Machine.Keeps { state := s.state } m := s.keeps_startMachine _ _
    have hm : m.Serving [] := s.serving_start _ _
    have hserving : queued.Serving [] :=
      ⟨⟨hm.idle.stack, hm.idle.frames, hm.idle.depth, hm.idle.pendingReturn⟩,
        by simp [queued, kept.served], by simp [queued, kept.served]⟩
    refine ⟨queued, ?_, Journaled.orderly_serveCommand [] queued hserving⟩
    simp [queued, kept.queued, Request.given]

theorem journal_serves (s : Session) (i : Invocation) (options : RequestOptions) :
    ∃ start served afters, served.head? = some (.dispatch i start) ∧
      (s.journal (.act i options)).Serves (s.env options)
        (Exec.runBlock (s.env options) (fuel s.limits))
        (afterCommand (Exec.dispatch (s.env options)
          (Exec.runBlock (s.env options) (fuel s.limits)) i start)) served afters := by
  have kept := s.keeps_startMachine (s.env options) i.action
  refine Journaled.serves_serveCommand (s.env options) (fuel s.limits) ?_
  simp [kept.served, kept.queued]

theorem answerGuarded_of_watchesQueue {guard : Guard} (hguard : guard.WatchesQueue) (s : Session)
    (r : Request) : s.answerGuarded guard r = s.answer r := by
  have hrun : ∀ env, Exec.runGuarded guard env (fuel s.limits) =
      Exec.runBlock env (fuel s.limits) := fun env =>
    Exec.runGuarded_eq env (fun limit op m => hguard op _ m (Exec.queues_execute env _ op limit m)) _
  cases r with
  | setUp options =>
    simp only [answerGuarded, guardedWith, hrun, answer_eq]
    rfl
  | act i options =>
    simp only [answerGuarded, guardedWith, hrun, answer_eq]
    rfl

/-- The queue is first in, first out, and nothing is dispatched inside anything else. The answer to
a request is that of its journal. In it every step starts on an idle machine, and the invocations
are dispatched in the order of the queue, which starts with what the request is made for. Acting
dispatches that first, then what was queued, and then tries the handler of the world for a
successful or a failed command, by whether the first invocation was handled, and the one for every
command. The order of the queue is that in which operations queued, as each of them puts its
invocation behind all others. -/
theorem queue_first_in_first_out (s : Session) (r : Request) :
    s.answer r = s.conclude (s.env r.options) (s.journal r).outcome ∧
    InOrder [] (s.journal r).steps ∧
    (∀ n, (s.journal r).outcome.machine? = some n → r.given <+: n.queued.toList ∧
      dispatched (s.journal r).steps = n.queued.toList.take n.served) ∧
    (∀ i options, r = .act i options → ∃ start served afters,
      served.head? = some (.dispatch i start) ∧
      (s.journal r).Serves (s.env options) (Exec.runBlock (s.env options) (fuel s.limits))
        (afterCommand (Exec.dispatch (s.env options)
          (Exec.runBlock (s.env options) (fuel s.limits)) i start)) served afters) ∧
    ∀ guard : Guard, guard.WatchesQueue → s.answerGuarded guard r = s.answer r := by
  obtain ⟨m, hm, orderly⟩ := s.journal_orderly r
  refine ⟨s.answer_eq_journal r, orderly.order, fun n hn => ⟨?_, ?_⟩, ?_,
    fun _ hguard => answerGuarded_of_watchesQueue hguard s r⟩
  · rw [← hm]
    exact orderly.queued n hn
  · simpa using (orderly.served n hn).symm
  · rintro i options rfl
    exact s.journal_serves i options

end Session

namespace Sample

def danceHall (blocks : List (Entry × Block)) : Session :=
  { cellarSession .empty with
    story := blocks.foldl (fun s x => (s.editWorld fun e => .ok (e.addBlock .empty x.1 x.2)).2)
      ((cellarStory.addAction { identity := "dance", kind := .general }).toOption.getD .empty) }

def queueDance : Block := Build.push (.actionNamed "dance") ++ Build.plain (.queue .action)

/-- Looking leads to two dances. -/
def party : Session := danceHall
  [(.onAction "look", queueDance ++ queueDance), (.onAction "dance", Build.say "step"),
   (⟨.afterSuccessfulCommand, []⟩, Build.say "applause")]

/-- The party looks, dances twice, and asks the world about a command that was handled. -/
theorem party_in_order :
    dispatched (party.journal look).steps = [.general "look", .general "dance", .general "dance"] ∧
    (∃ n, (party.journal look).outcome.machine? = some n ∧
      dispatched (party.journal look).steps = n.queued.toList.take n.served) ∧
    ∃ start served afters, (party.journal look).steps = served ++ afters ∧
      served.head? = some (.dispatch (.general "look") start) ∧
      tried afters =
        [(.world, ⟨.afterSuccessfulCommand, []⟩), (.world, ⟨.afterEveryCommand, []⟩)] := by
  have hends : (party.journal look).outcome.machine?.isSome = true := by decide +kernel
  obtain ⟨n, hn⟩ := Option.isSome_iff_exists.mp hends
  obtain ⟨-, -, hqueue, hserves, -⟩ := party.queue_first_in_first_out look
  obtain ⟨start, served, afters, hfirst, serves⟩ := hserves (.general "look") {} rfl
  refine ⟨by decide +kernel, ⟨n, hn, (hqueue n hn).2⟩, start, served, afters, serves.steps, hfirst,
    ?_⟩
  have htried : tried (party.journal look).steps =
      [(.world, ⟨.afterSuccessfulCommand, []⟩), (.world, ⟨.afterEveryCommand, []⟩)] := by
    decide +kernel
  rwa [serves.steps, tried_append, serves.dispatches, List.nil_append] at htried

end Sample

namespace Session

theorem cutShort_of_stopped {s : Session} {allowed : Nat} {r : Request} {signal : Signal}
    {n : Machine} (h : s.outcome allowed r = .stopped signal n) :
    (s.outcome allowed r).CutShort := by
  have rules := fun env => Exec.requestRules_endsByCut env (Exec.runBlock env allowed)
  cases r with
  | setUp options => exact ((rules (s.env options)).setUpWith allowed).cutShort h
  | act i options => exact ((rules (s.env options)).commandWith allowed i).cutShort h

theorem journal_done {s : Session} {r : Request} (hanswer : (s.answer r).isSome = true)
    (hwhole : ¬ (s.journal r).outcome.CutShort) : ∃ n, (s.journal r).outcome = .done () n := by
  rw [answer_eq_journal] at hanswer
  rw [journal_outcome] at hanswer hwhole ⊢
  cases ho : s.outcome (fuel s.limits) r with
  | exhausted =>
    rw [ho] at hanswer
    cases hanswer
  | done a n => exact ⟨n, rfl⟩
  | stopped signal n => exact absurd (cutShort_of_stopped ho) hwhole

/-- A command that came to its end asked the world, with nothing left to serve. -/
theorem asks_world {env : Env} {run : Block → Exec Unit} {o : Outcome Bool} {j : Journal Unit}
    {served afters : List Step} {n : Machine} (h : j.Serves env run (afterCommand o) served afters)
    (hdone : j.outcome = .done () n) : ∃ entry after rest,
      afters = .handle .world entry after :: rest ∧ after.queued[after.served]? = none := by
  have hlength := h.whole n hdone
  have hhandlers := h.handlers
  have htried := h.tried
  have hdrained := h.drained
  cases afters with
  | nil => cases hlength
  | cons step rest =>
    cases step with
    | dispatch i start => cases hhandlers
    | handle e entry after =>
      have hworld : e = .world := by
        cases o with
        | done handled k => exact (Prod.mk.inj (List.cons_prefix_cons.mp htried).1).1
        | stopped s k => exact absurd (List.prefix_nil.mp htried) (by simp [tried])
        | exhausted => exact absurd (List.prefix_nil.mp htried) (by simp [tried])
      subst hworld
      exact ⟨entry, after, rest, rfl, hdrained _ entry after rfl⟩

theorem take_of_drained {m : Machine} (h : m.queued[m.served]? = none) :
    m.queued.toList.take m.served = m.queued.toList :=
  List.take_of_length_le (by simpa using h)

/-- No invocation is lost that is queued before the world is asked what it does after a command. In
an answered request that is not cut short everything queued has been dispatched, each once, except
for what these last handlers queued, which is not dispatched at all. -/
theorem queued_dispatched_once (s : Session) (r : Request) (hanswer : (s.answer r).isSome = true)
    (hwhole : ¬ (s.journal r).outcome.CutShort) :
    ∃ n late, (s.journal r).outcome = .done () n ∧
      n.queued.toList = dispatched (s.journal r).steps ++ late ∧
      (∀ options, r = .setUp options → late = []) ∧
      ∀ i options, r = .act i options → ∃ served entry after rest,
        (s.journal r).steps = served ++ .handle .world entry after :: rest ∧ tried served = [] ∧
        dispatched rest = [] ∧ after.queued.toList = dispatched served := by
  obtain ⟨n, hdone⟩ := journal_done hanswer hwhole
  obtain ⟨m, -, orderly⟩ := s.journal_orderly r
  have hserved : n.queued.toList.take n.served = dispatched (s.journal r).steps := by
    simpa using orderly.served n (by rw [hdone]; rfl)
  refine ⟨n, n.queued.toList.drop n.served, hdone, ?_, ?_, ?_⟩
  · rw [← hserved, List.take_append_drop]
  · rintro options rfl
    have hempty := Journaled.setUp_drained (s.env options) hdone
    exact List.drop_of_length_le (by simpa using hempty)
  · rintro i options rfl
    obtain ⟨start, served, afters, -, serves⟩ := s.journal_serves i options
    obtain ⟨entry, after, rest, rfl, hempty⟩ := asks_world serves hdone
    have horder := orderly.order
    rw [serves.steps] at horder
    refine ⟨served, entry, after, rest, serves.steps, serves.dispatches, serves.handlers, ?_⟩
    rw [← take_of_drained hempty]
    simpa using horder.at_handle

end Session

namespace Sample

/-- Every command leads to a dance that comes too late. -/
def encore : Session := danceHall
  [(.onAction "look", Build.say "dark"), (.onAction "dance", Build.say "step"),
   (⟨.afterEveryCommand, []⟩, queueDance)]

/-- All that was queued when the world is asked has been dispatched. The dance is queued after that
and is not. -/
theorem encore_dispatched : (encore.answer look).isSome = true ∧
    ¬ (encore.journal look).outcome.CutShort ∧
    ∃ n served entry after rest, (encore.journal look).outcome = .done () n ∧
      (encore.journal look).steps = served ++ .handle .world entry after :: rest ∧
      after.queued.toList = dispatched served ∧
      n.queued.toList = dispatched (encore.journal look).steps ++ [.general "dance"] := by
  have hanswer : (encore.answer look).isSome = true := by decide +kernel
  have hwhole : ¬ (encore.journal look).outcome.CutShort := by decide +kernel
  obtain ⟨n, -, hdone, -, -, hact⟩ := encore.queued_dispatched_once look hanswer hwhole
  obtain ⟨served, entry, after, rest, hsteps, -, -, hafter⟩ := hact (.general "look") {} rfl
  refine ⟨hanswer, hwhole, n, served, entry, after, rest, hdone, hsteps, hafter, ?_⟩
  have hlook : dispatched (encore.journal look).steps = [.general "look"] := by decide +kernel
  have hall : (encore.journal look).outcome.machine?.map (fun n => n.queued.toList) =
      some [.general "look", .general "dance"] := by decide +kernel
  rw [hdone] at hall
  rw [hlook]
  exact Option.some.inj hall

/-- A request that is answered and not cut short may leave an invocation on the queue. -/
theorem encore_leaves_dance : (encore.answer look).isSome = true ∧
    ¬ (encore.journal look).outcome.CutShort ∧
    dispatched (encore.journal look).steps = [.general "look"] ∧
    (encore.journal look).outcome.machine?.map (fun n => n.queued.toList) =
      some [.general "look", .general "dance"] := by
  decide +kernel

end Sample

end Fabula
