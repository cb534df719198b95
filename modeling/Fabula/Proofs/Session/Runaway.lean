import Mathlib.Data.List.Forall2
import Fabula.Proofs.Machine.Budget
import Fabula.Proofs.Session.AddressFree

/-! A limit of operations ends every request. Invocations are queued by counted operations, so
serving the queue comes to an end as well. A request that reaches the limit fails, and no other one
tells of it. -/

namespace Fabula

variable {L k : Nat}

theorem Outcome.Within.handled {m : Machine} {o : Outcome Bool} (ho : o.Within L 0 m) :
    (Exec.handled o).Within L 0 m := by
  cases ho with
  | done leads below => exact .done leads below
  | @stopped s n leads below signal =>
    cases s with
    | endHandler | leaveLoop | nextRound => exact .done leads below
    | giveBack => exact .done (leads.keeps (.of_eq rfl rfl rfl rfl)) below
    | _ => exact .stopped leads below signal
  | refused leads spent => exact .refused leads spent

namespace Exec

variable {env : Env} {run run' : Block → Exec Unit}

theorem steady_runHandler (h : RunsSteadily L k run run') (e : ElementRef) (entry : Entry)
    (locals : Table Value) :
    Steady L k 0 (runHandler env run e entry locals) (runHandler env run' e entry locals) := by
  intro m hm hk
  have hentry : Steady L k 0 (runEntry env run e entry locals) (runEntry env run' e entry locals) :=
    steady_runEntry h e entry locals
  obtain ⟨heq, hwithin⟩ := hentry m hm hk
  unfold SteadyFrom runHandler
  rw [← heq]
  exact ⟨rfl, hwithin.handled⟩

theorem steady_firstOf {xs ys : List (Exec Bool)} (h : List.Forall₂ (Steady L k 0) xs ys) :
    Steady L k 0 (firstOf xs) (firstOf ys) := by
  induction h with
  | nil => exact steady_plain (pure false)
  | cons hxy _ ih =>
    refine hxy.bind fun succeeded => ?_
    cases succeeded with
    | false => exact ih
    | true => exact steady_plain (pure true)

theorem steady_firstOnChain {f g : ElementRef → Exec Bool} (chain : List ElementRef)
    (h : ∀ e, Steady L k 0 (f e) (g e)) :
    Steady L k 0 (firstOf (chain.map f)) (firstOf (chain.map g)) := by
  refine steady_firstOf ?_
  rw [List.forall₂_map_left_iff, List.forall₂_map_right_iff]
  exact List.forall₂_same.mpr fun e _ => h e

theorem steady_runOnChain (h : RunsSteadily L k run run') (entry : Entry) (locals : Table Value) :
    Steady L k 0 (runOnChain env run entry locals) (runOnChain env run' entry locals) :=
  (steady_plain _).bind fun chain => steady_firstOnChain chain fun e =>
    steady_runHandler h e entry locals

theorem steady_runSpecificOrAny (h : RunsSteadily L k run run') (e : ElementRef)
    (trigger : Trigger) (action : String) :
    Steady L k 0 (runSpecificOrAny env run e trigger action)
      (runSpecificOrAny env run' e trigger action) :=
  steady_firstOf (.cons (steady_runHandler h e _ ∅) (.cons (steady_runHandler h e _ ∅) .nil))

instance (env : Env) (identity : String) : Plain (liveObject env identity) :=
  inferInstanceAs (Plain (ask _))

theorem steady_permitted (h : RunsSteadily L k run run') (action : Action) :
    Steady L k 0 (permitted env run action) (permitted env run' action) := by
  refine (steady_plain _).bind fun forbidder => ?_
  cases forbidder with
  | none => exact steady_plain (pure true)
  | some e =>
    have htold : Steady L k 0
        (firstOf [runSpecificOrAny env run e .onForbiddenAction action.identity,
          runSpecificOrAny env run .world .onForbiddenAction action.identity])
        (firstOf [runSpecificOrAny env run' e .onForbiddenAction action.identity,
          runSpecificOrAny env run' .world .onForbiddenAction action.identity]) :=
      steady_firstOf (.cons (steady_runSpecificOrAny h e _ _)
        (.cons (steady_runSpecificOrAny h .world _ _) .nil))
    exact (steady_plain _).bind fun _ => htold.discarded.bind fun _ => steady_plain (pure false)

theorem steady_handleTarget (h : RunsSteadily L k run run') (action : Action) (target : Target) :
    Steady L k 0 (handleTarget env run action target) (handleTarget env run' action target) := by
  cases target with
  | none => exact steady_runOnChain h _ ∅
  | text words => exact steady_runOnChain h _ _
  | mode name => exact steady_runOnChain h _ ∅
  | object identity =>
    refine (steady_plain _).bind fun object => ?_
    split
    · exact steady_plain (pure false)
    · exact steady_runHandler h object _ ∅
  | objects first second =>
    refine (steady_plain _).bind fun first => (steady_plain _).bind fun second => ?_
    exact steady_firstOf (.cons (steady_runHandler h first _ ∅)
      (.cons (steady_runHandler h first _ ∅) .nil))

theorem steady_runUnhandled (h : RunsSteadily L k run run') (action : Action) :
    Steady L k 0 (runUnhandled env run action) (runUnhandled env run' action) :=
  (steady_plain _).bind fun _ => (steady_plain _).bind fun chain =>
    (steady_firstOnChain chain fun e => steady_runSpecificOrAny h e _ _).discarded

theorem steady_dispatch (h : RunsSteadily L k run run') (i : Invocation) :
    Steady L k 0 (dispatch env run i) (dispatch env run' i) := by
  unfold dispatch
  split
  · exact steady_plain (fault _)
  · rename_i action _
    split
    · refine (steady_plain _).bind fun _ => (steady_permitted h action).bind fun permitted => ?_
      cases permitted with
      | false => exact steady_plain (pure false)
      | true =>
        refine (steady_handleTarget h action i.target).bind fun handled => ?_
        cases handled with
        | true => exact steady_plain (pure true)
        | false => exact (steady_runUnhandled h action).bind fun _ => steady_plain (pure false)
    · exact steady_plain (fault _)

theorem nextInvocation_none {m : Machine} (h : m.queued[m.served]? = none) :
    nextInvocation m = .done none m := by
  rw [nextInvocation, h]

theorem nextInvocation_some {m : Machine} {i : Invocation} (h : m.queued[m.served]? = some i) :
    nextInvocation m = .done (some i) { m with served := m.served + 1 } := by
  rw [nextInvocation, h]

theorem leads_served {m : Machine} (h : m.served < m.queued.size) :
    m.Leads 0 { m with served := m.served + 1 } where
  operations := Nat.le_refl _
  served _ := h
  queued := by
    simp only
    omega
  cues _ hc := .inl hc

theorem steady_nextInvocation : Steady L k 0 nextInvocation nextInvocation := by
  intro m hm _
  refine ⟨rfl, ?_⟩
  cases h : m.queued[m.served]? with
  | none =>
    rw [nextInvocation_none h]
    exact .done Machine.Keeps.rfl.leads hm
  | some i =>
    rw [nextInvocation_some h]
    exact .done (leads_served (Array.getElem?_eq_some_iff.mp h).1) hm

theorem steady_serveNext (h : RunsSteadily L k run run') :
    Steady L k 0 (serveNext env run) (serveNext env run') := by
  refine steady_nextInvocation.bind fun next => ?_
  cases next with
  | none => exact steady_plain (pure none)
  | some i => exact (steady_dispatch h i).bind fun handled => steady_plain (pure (some handled))

theorem serveNext_ne_none {m n : Machine} (h : m.served < m.queued.size) :
    serveNext env run m ≠ .done none n := by
  intro hs
  obtain ⟨next, l, hnext, hs⟩ := bind_eq_done hs
  rw [nextInvocation_some (Array.getElem?_eq_getElem h)] at hnext
  cases hnext
  obtain ⟨_, _, _, hs⟩ := bind_eq_done hs
  cases hs

theorem serveNext_some (h : RunsSteadily L k run run') {m n : Machine} {handled : Bool}
    (hm : m.operations < L) (hk : L ≤ k + m.operations)
    (hs : serveNext env run m = .done (some handled) n) :
    n.queued.size + m.operations + m.served < m.queued.size + n.operations + n.served := by
  obtain ⟨next, l, hnext, hs⟩ := bind_eq_done hs
  cases hi : m.queued[m.served]? with
  | none =>
    rw [nextInvocation_none hi] at hnext
    cases hnext
    cases hs
  | some i =>
    rw [nextInvocation_some hi] at hnext
    cases hnext
    obtain ⟨_, n', hdispatch, hs⟩ := bind_eq_done hs
    have hleads := ((steady_dispatch h i).done (m := { m with served := m.served + 1 }) hm hk
      hdispatch).1.queued
    cases hs
    simp only at hleads
    omega

/-- The queue is served in fewer rounds than there are operations left and invocations to serve. -/
theorem steady_drainQueue (h : RunsSteadily L k run run') {limit limit' : Nat}
    (hl : limit ≤ limit') {m : Machine} (hm : m.operations < L) (hk : L ≤ k + m.operations)
    (hserved : m.served ≤ m.queued.size)
    (henough : L + m.queued.size < limit + m.operations + m.served) :
    SteadyFrom L 0 m (drainQueue env run limit) (drainQueue env run' limit') := by
  have hround : Steady L k 0 (do return (← serveNext env run).isSome)
      (do return (← serveNext env run').isSome) :=
    (steady_serveNext h).bind fun served => steady_plain (pure served.isSome)
  refine steady_rounds (fun n m => m.served ≤ m.queued.size ∧
    L + m.queued.size < n + m.operations + m.served) hround ?_ ?_ hl hm hk ⟨hserved, henough⟩
  · rintro m hm ⟨hserved, henough⟩
    omega
  · rintro n m l hm hk hdone ⟨hserved, henough⟩
    obtain ⟨served, l', hserve, hdone⟩ := bind_eq_done hdone
    have hleads := ((steady_serveNext h).done hm hk hserve).1
    cases served with
    | none => cases hdone
    | some handled =>
      have hless := serveNext_some h hm hk hserve
      cases hdone
      exact ⟨hleads.served hserved, by omega⟩

/-- Nothing was queued that was not counted for, but what was served. -/
def QueueCounted (m : Machine) : Prop :=
  m.served ≤ m.queued.size ∧ m.queued.size ≤ m.operations + m.served

theorem QueueCounted.later {m n : Machine} (h : QueueCounted m) (hl : m.Leads 0 n) :
    QueueCounted n := by
  have hqueued := hl.queued
  refine ⟨hl.served h.1, ?_⟩
  have := h.2
  omega

theorem QueueCounted.drained {m : Machine} (hc : QueueCounted m) (h : RunsSteadily L k run run')
    {limit limit' : Nat} (hlimit : L < limit) (hl : limit ≤ limit') (hm : m.operations < L)
    (hk : L ≤ k + m.operations) :
    SteadyFrom L 0 m (drainQueue env run limit) (drainQueue env run' limit') := by
  have := hc.2
  exact steady_drainQueue h hl hm hk hc.1 (by omega)

section

variable (hlimit : 0 < env.limits.operations) (hL : env.limits.operations.toNat = L)
  {fuel fuel' : Nat} (hfuel : L < fuel) (hf : fuel ≤ fuel')

include hlimit hL hfuel hf

theorem steadyFrom_setUp {m : Machine} (hm : m.operations < L) (hc : QueueCounted m) :
    SteadyFrom L 0 m (setUp env fuel) (setUp env fuel') := by
  have hrun := runsSteadily_runBlock hlimit hL hf
  have hk : ∀ n : Machine, L ≤ fuel + n.operations := fun n => by omega
  have hhandler : ∀ e entry, Steady L fuel 0
      (discard (runHandler env (runBlock env fuel) e entry ∅))
      (discard (runHandler env (runBlock env fuel') e entry ∅)) := fun e entry =>
    (steady_runHandler hrun e entry ∅).discarded
  refine (steady_plain _ m hm (hk m)).bind fun elements m₁ _ h₁ hm₁ => ?_
  refine (steady_forEach elements (fun e _ => hhandler e _) m₁ hm₁ (hk m₁)).bind
    fun _ m₂ _ h₂ hm₂ => ?_
  refine (hhandler _ _ m₂ hm₂ (hk m₂)).bind fun _ m₃ _ h₃ hm₃ => ?_
  exact (((hc.later h₁).later h₂).later h₃).drained hrun hfuel hf hm₃ (hk m₃)

theorem steadyFrom_serveCommand {m : Machine} (hm : m.operations < L)
    (hserved : m.served < m.queued.size) (hqueued : m.queued.size ≤ m.operations + m.served + 1) :
    SteadyFrom L 0 m (serveCommand env fuel) (serveCommand env fuel') := by
  have hrun := runsSteadily_runBlock hlimit hL hf
  have hk : ∀ n : Machine, L ≤ fuel + n.operations := fun n => by omega
  have hhandler : ∀ entry, Steady L fuel 0
      (discard (runHandler env (runBlock env fuel) .world entry ∅))
      (discard (runHandler env (runBlock env fuel') .world entry ∅)) := fun entry =>
    (steady_runHandler hrun .world entry ∅).discarded
  refine (steady_serveNext hrun m hm (hk m)).bind fun succeeded m₁ hserve h₁ hm₁ => ?_
  have hc : QueueCounted m₁ := by
    refine ⟨h₁.served (Nat.le_of_lt hserved), ?_⟩
    cases succeeded with
    | none => exact absurd hserve (serveNext_ne_none hserved)
    | some handled =>
      have := serveNext_some hrun hm (hk m) hserve
      omega
  refine (hc.drained hrun hfuel hf hm₁ (hk m₁)).bind fun _ m₂ _ h₂ hm₂ => ?_
  exact ((hhandler _).bind fun _ => hhandler _) m₂ hm₂ (hk m₂)

end

end Exec

theorem head?_append {p : String} {c : Char} (h : p.toList.head? = some c) (a : String) :
    (p ++ a).toList.head? = some c := by
  rw [String.toList_append, List.head?_append, h]
  rfl

/-- No fault is told of in words that start like those for a runaway request. -/
theorem Fault.head?_message (fault : Fault) :
    ∃ c, fault.message.toList.head? = some c ∧ c ≠ 'r' := by
  cases fault with
  | unknownAction | unknownElement =>
    exact ⟨'u', head?_append (head?_append (by decide +kernel) _) _, by decide⟩
  | archetypeReference =>
    exact ⟨'a', head?_append (head?_append (by decide +kernel) _) _, by decide⟩
  | noCurrentPlayer | noCurrentRoom => exact ⟨'n', by decide +kernel, by decide⟩
  | unknownFunction =>
    refine ⟨'n', ?_, by decide⟩
    exact head?_append (head?_append (head?_append (head?_append (by decide +kernel) _) _) _) _
  | badOperand => exact ⟨'b', head?_append (by decide +kernel) _, by decide⟩
  | badInvocation => exact ⟨'i', head?_append (head?_append (by decide +kernel) _) _, by decide⟩
  | stackUnderflow => exact ⟨'v', head?_append (by decide +kernel) _, by decide⟩
  | stackImbalance =>
    refine ⟨'v', ?_, by decide⟩
    exact head?_append (head?_append (head?_append (head?_append (by decide +kernel) _) _) _) _

theorem Runaway.depth_message_ne (n limit : Nat) :
    Signal.message (.runaway (.depth n)) ≠ Signal.message (.runaway (.operations limit)) := by
  intro h
  have htails : Runaway.message (.depth n) = Runaway.message (.operations limit) :=
    (String.append_right_inj "runaway request: ").mp h
  have hdepth : (Runaway.message (.depth n)).toList.head? = some 'f' :=
    head?_append (by decide +kernel) _
  have hoperations : (Runaway.message (.operations limit)).toList.head? = some 'r' :=
    head?_append (head?_append (by decide +kernel) _) _
  rw [htails, hoperations] at hdepth
  exact absurd (Option.some.inj hdepth) (by decide)

theorem Cue.text_of_saying_eq {kind : CueKind} {a b : String}
    (h : Cue.saying kind a = Cue.saying kind b) : a = b :=
  CueContent.text.inj (congrArg Cue.content h)

namespace Session

/-- A request tells of the limit of operations only if it was stopped by it. -/
theorem failureCue_ne {s : Signal} (hf : s.isFailure = true)
    (hs : ∀ limit, s ≠ .runaway (.operations limit)) (limit : Nat) :
    failureCue s ≠ failureCue (.runaway (.operations limit)) := by
  intro h
  cases s with
  | scriptError | runtimeError => cases h
  | fatal fault =>
    have hmessage : fault.message = Signal.message (.runaway (.operations limit)) :=
      Cue.text_of_saying_eq h
    obtain ⟨c, hc, hne⟩ := fault.head?_message
    have hrunaway : (Signal.message (.runaway (.operations limit))).toList.head? = some 'r' :=
      head?_append (by decide +kernel) _
    rw [hmessage, hrunaway] at hc
    exact hne (Option.some.inj hc).symm
  | runaway kind =>
    cases kind with
    | operations n => exact hs n rfl
    | depth n => exact Runaway.depth_message_ne n limit (Cue.text_of_saying_eq h)
  | _ => cases hf

theorem finishRequest_operations (env : Env) (failure : Option Signal) (m : Machine) :
    (finishRequest env failure m).1.operations = m.operations := by
  cases failure with
  | none => exact (Machine.Keeps.watched env _ _).operations
  | some signal => exact (Machine.Keeps.watched env _ _).operations

theorem finishRequest_cues (env : Env) (failure : Option Signal) (m : Machine) :
    (finishRequest env failure m).1.cues = m.cues.toList ++ (failure.map failureCue).toList := by
  have hwatched : ∀ (m : Machine) (wanted : TraceMask) (event : Machine → Event),
      (m.watched env wanted event).cues = m.cues := by
    intro m wanted event
    unfold Machine.watched
    split <;> rfl
  cases failure with
  | none => simp [finishRequest, hwatched]
  | some signal => simp [finishRequest, hwatched]

def AnsweredWithin (limit : Nat) (response : Response) : Prop :=
  response.operations ≤ limit ∧ (response.operations = limit ↔
    response.cues.getLast? = some (failureCue (.runaway (.operations limit))))

theorem answeredWithin_of_lt {L : Nat} {response : Response} (hops : response.operations < L)
    (hcues : ∀ c ∈ response.cues.getLast?, c ≠ failureCue (.runaway (.operations L))) :
    AnsweredWithin L response :=
  ⟨Nat.le_of_lt hops, fun h => absurd h (Nat.ne_of_lt hops), fun h => absurd rfl (hcues _ h)⟩

theorem conclude_within (s : Session) (env : Env) {L : Nat} {m : Machine} {o : Outcome Unit}
    (ho : o.Within L 0 m) (hm : ∀ c ∈ m.cues, c.kind ≠ .fatal) :
    ∃ response s', s.conclude env o = some (response, s') ∧ AnsweredWithin L response := by
  have hquiet : ∀ {n : Machine}, m.Leads 0 n →
      ∀ c ∈ n.cues.toList.getLast?, c ≠ failureCue (.runaway (.operations L)) := by
    intro n leads c hc he
    have hkind : c.kind = .fatal := by
      rw [he]
      rfl
    rcases leads.cues c (Array.mem_def.mpr (List.mem_of_getLast? hc)) with hc | hc
    · exact hm c hc hkind
    · exact hc hkind
  cases ho with
  | @done a n leads below =>
    refine ⟨_, _, rfl, answeredWithin_of_lt ?_ ?_⟩
    · rwa [finishRequest_operations]
    · rw [finishRequest_cues]
      simpa using hquiet leads
  | @stopped signal n leads below hsignal =>
    refine ⟨_, _, rfl, answeredWithin_of_lt ?_ ?_⟩
    · rwa [finishRequest_operations]
    · rw [finishRequest_cues]
      by_cases hf : signal.isFailure = true
      · simpa [hf] using failureCue_ne hf hsignal L
      · simpa [hf] using hquiet leads
  | @refused n leads spent =>
    have hfailure : (Signal.runaway (.operations L)).isFailure = true := rfl
    refine ⟨_, _, rfl, ?_, ?_⟩
    · rw [finishRequest_operations, spent]
    · rw [finishRequest_operations, finishRequest_cues, hfailure]
      simp [spent]

def answerWith (s : Session) (fuel : Nat) : Request → Option (Response × Session)
  | .setUp options => s.request options "initialize" fun env => Exec.setUp env fuel
  | .act i options => s.request options i.action fun env => Exec.command env fuel i

theorem answer_eq (s : Session) (r : Request) : s.answer r = s.answerWith (fuel s.limits) r := by
  cases r <;> rfl

theorem exists_answer (s : Session) (env : Env) {L : Nat} {m : Machine} (run : Nat → Outcome Unit)
    {enough : Nat} (hsame : ∀ allowed, enough ≤ allowed → run enough = run allowed)
    (ho : (run enough).Within L 0 m) (hm : ∀ c ∈ m.cues, c.kind ≠ .fatal) :
    ∃ response s', s.conclude env (run enough) = some (response, s') ∧ AnsweredWithin L response ∧
      ∀ allowed, enough ≤ allowed → s.conclude env (run allowed) = some (response, s') := by
  obtain ⟨response, s', hs, hr⟩ := conclude_within s env ho hm
  exact ⟨response, s', hs, hr, fun allowed ha => hsame allowed ha ▸ hs⟩

theorem fuel_eq {limits : Limits} (h : 0 < limits.operations) :
    fuel limits = limits.operations.toNat + 1 := by
  rw [fuel, if_neg]
  intro hzero
  rw [hzero] at h
  exact absurd h (by decide)

def startMachine (s : Session) (env : Env) (label : String) : Machine :=
  Machine.watched { state := s.state } env .requests fun _ => .requestStart label

theorem keeps_startMachine (s : Session) (env : Env) (label : String) :
    Machine.Keeps { state := s.state } (s.startMachine env label) := .watched env _ _

theorem startMachine_cues (s : Session) (env : Env) (label : String) :
    ∀ c ∈ (s.startMachine env label).cues, c.kind ≠ .fatal := by
  intro c hc
  rcases (s.keeps_startMachine env label).cues c hc with hc | hc
  · exact absurd hc (Array.not_mem_empty c)
  · exact hc

/-- Under a limit of operations every request is answered: it counts no more operations than that,
and reaches the limit just when it ends by telling so. How deep blocks may nest and how often loops
may go round has no part in it. -/
theorem answer_within_limit (s : Session) (h : 0 < s.limits.operations) (r : Request) :
    ∃ response s', s.answer r = some (response, s') ∧
      (response.operations ≤ s.limits.operations.toNat ∧
        (response.operations = s.limits.operations.toNat ↔ response.cues.getLast? =
          some (failureCue (.runaway (.operations s.limits.operations.toNat))))) ∧
      ∀ allowed, fuel s.limits ≤ allowed → s.answerWith allowed r = some (response, s') := by
  have hpos : 0 < s.limits.operations.toNat := UInt64.lt_iff_toNat_lt.mp h
  have hfuel : s.limits.operations.toNat < fuel s.limits := by
    rw [fuel_eq h]
    omega
  rw [answer_eq]
  cases r with
  | setUp options =>
    let env := s.env options
    let m := s.startMachine env "initialize"
    have kept : Machine.Keeps { state := s.state } m := s.keeps_startMachine env "initialize"
    have hsteady : ∀ allowed, fuel s.limits ≤ allowed →
        Exec.SteadyFrom s.limits.operations.toNat 0 m (Exec.setUp env (fuel s.limits))
          (Exec.setUp env allowed) := by
      refine fun allowed ha => Exec.steadyFrom_setUp h rfl hfuel ha (kept.operations ▸ hpos) ?_
      simp [Exec.QueueCounted, kept.served, kept.queued]
    exact exists_answer s env (fun fuel => Exec.setUp env fuel m)
      (fun allowed ha => (hsteady allowed ha).1) (hsteady _ (Nat.le_refl _)).2
      (s.startMachine_cues env "initialize")
  | act i options =>
    let env := s.env options
    let m := s.startMachine env i.action
    let queued : Machine := { m with queued := m.queued.push i }
    have kept : Machine.Keeps { state := s.state } m := s.keeps_startMachine env i.action
    have hsteady : ∀ allowed, fuel s.limits ≤ allowed →
        Exec.SteadyFrom s.limits.operations.toNat 0 queued (Exec.serveCommand env (fuel s.limits))
          (Exec.serveCommand env allowed) := by
      refine fun allowed ha => Exec.steadyFrom_serveCommand h rfl hfuel ha (kept.operations ▸ hpos)
        ?_ ?_
      · simp [queued, kept.served, kept.queued]
      · simp [queued, kept.queued]
    exact exists_answer s env (fun fuel => Exec.command env fuel i m)
      (fun allowed ha => (hsteady allowed ha).1) (hsteady _ (Nat.le_refl _)).2
      (s.startMachine_cues env i.action)

end Session

namespace Sample

/-- The cellar with a hero who never stops looking, under a limit of operations only. -/
def restless : Session :=
  { cellarSession .empty with
    story := onLook cellarStory .empty (Build.whileLoop (Build.push (.boolean true)) [])
    limits := ⟨50, 0⟩ }

/-- A loop that does nothing but ask its condition is stopped by the limit. -/
theorem restless_look : ∃ response s',
    restless.answer (.act (.general "look") {}) = some (response, s') ∧ response.operations = 50 ∧
      response.cues.getLast? = some (Session.failureCue (.runaway (.operations 50))) := by
  obtain ⟨response, s', hanswer, ⟨_, htold⟩, _⟩ :=
    restless.answer_within_limit (by decide) (.act (.general "look") {})
  have hcounted : (restless.answer (.act (.general "look") {})).map (fun x => x.1.operations) =
      some 50 := by decide +kernel
  rw [hanswer] at hcounted
  have hspent : response.operations = 50 := Option.some.inj hcounted
  exact ⟨response, s', hanswer, hspent, htold.mp hspent⟩

end Sample

end Fabula
