import Fabula.Proofs.Request.Telling
import Fabula.Proofs.Session.Cutoff
import Fabula.Proofs.Session.Guarded

/-! The cues of a request stand in the order in which they were told, and none is taken back. A
failure is told last and just when a failure ended the request. The end of the game is told at most
once, and after that no operation is dispatched and nothing is told but traces and the failure. -/

namespace Fabula

def Outcome.signal? {α : Type} : Outcome α → Option Signal
  | .stopped s _ => some s
  | _ => none

/-- How the cues of a request go with the signal that ended it, if one did. Only the last cue tells
of a failure, as an error if a script raised it and as fatal otherwise. No cue tells of the end
twice, and none but traces and a failure comes after it. -/
structure CuesInOrder (cues : List Cue) (ended : Option Signal) : Prop where
  failure_last : ∀ c ∈ cues.dropLast, c.kind.isFailure = false
  error : (∃ c ∈ cues, c.kind = .error) ↔
    ∃ message, ended = some (.scriptError message) ∨ ended = some (.runtimeError message)
  fatal : (∃ c ∈ cues, c.kind = .fatal) ↔
    (∃ kind, ended = some (.runaway kind)) ∨ ∃ fault, ended = some (.fatal fault)
  quit : ∀ before c after, cues = before ++ c :: after → c.kind = .quit →
    (∀ d ∈ before, d.kind ≠ .quit) ∧
      ∀ d ∈ after, d.kind.isTrace = true ∨ d.kind.isFailure = true

/-- The guard lets an operation pass that is dispatched before the end was told and leaves all cues
told before it where they are. -/
def Guard.Trusts (guard : Guard) : Prop :=
  ∀ op x m, m.Going → (∀ n, (x m).machine? = some n → m.cues.toList <+: n.cues.toList) →
    guard op x m = x m

structure Quits (told : List Cue) : Prop where
  quiet : ∀ c ∈ told, c.kind.isFailure = false
  once : ∀ before c after, told = before ++ c :: after → c.kind = .quit →
    (∀ d ∈ before, d.kind ≠ .quit) ∧ ∀ d ∈ after, d.kind.isTrace = true

namespace Quits

variable {told : List Cue}

theorem of_ordinary (h : ∀ c ∈ told, c.Ordinary) : Quits told where
  quiet c hc := (h c hc).1
  once before c after htold hquit := by
    have hc : c ∈ told := by simp [htold]
    exact absurd hquit (h c hc).2

theorem of_quit {before after : List Cue} (hbefore : ∀ c ∈ before, c.Ordinary)
    (hafter : ∀ c ∈ after, c.IsTrace) : Quits (before ++ { kind := .quit } :: after) where
  quiet c hc := by
    rcases List.mem_append.mp hc with hc | hc
    · exact (hbefore c hc).1
    · rcases List.mem_cons.mp hc with rfl | hc
      · rfl
      · exact (hafter c hc).ordinary.1
  once before' c after' htold hquit := by
    -- a second place where the end is told would lie before or after the one that is known
    rcases List.append_eq_append_iff.mp htold with ⟨gap, rfl, hgap⟩ | ⟨gap, rfl, hgap⟩
    · cases gap with
      | nil =>
        obtain ⟨-, rfl⟩ := List.cons.inj hgap
        exact ⟨fun d hd => (hbefore d (by simpa using hd)).2, hafter⟩
      | cons d gap =>
        have hc : c ∈ after := by simp [(List.cons.inj hgap).2]
        exact absurd hquit (hafter c hc).ordinary.2
    · cases gap with
      | nil =>
        obtain ⟨-, rfl⟩ := List.cons.inj hgap
        exact ⟨fun d hd => (hbefore d (by simpa using hd)).2, hafter⟩
      | cons d gap =>
        have hc : c ∈ before' ++ d :: gap := by simp [(List.cons.inj hgap).1]
        exact absurd hquit (hbefore c hc).2

theorem inOrder (h : Quits told) (ended : Option Signal)
    (hended : ∀ s, ended = some s → s.isFailure = false) : CuesInOrder told ended := by
  have hnone : ∀ kind : CueKind, kind.isFailure = true → ¬ ∃ c ∈ told, c.kind = kind := by
    rintro kind hkind ⟨c, hc, rfl⟩
    simp [h.quiet c hc] at hkind
  refine ⟨fun c hc => h.quiet c (List.dropLast_subset told hc), ?_, ?_, ?_⟩
  · refine iff_of_false (hnone .error rfl) ?_
    rintro ⟨message, hs | hs⟩
    · cases hended _ hs
    · cases hended _ hs
  · refine iff_of_false (hnone .fatal rfl) ?_
    rintro (⟨kind, hs⟩ | ⟨fault, hs⟩)
    · cases hended _ hs
    · cases hended _ hs
  · intro before c after hcues hquit
    obtain ⟨hbefore, hafter⟩ := h.once before c after hcues hquit
    exact ⟨hbefore, fun d hd => .inl (hafter d hd)⟩

theorem inOrder_failure (h : Quits told) {s : Signal} (hs : s.isFailure = true) :
    CuesInOrder (told ++ [Session.failureCue s]) (some s) := by
  have hkind : (Session.failureCue s).kind = .error ∧
        (∃ message, s = .scriptError message ∨ s = .runtimeError message) ∧
        ¬ ((∃ kind, s = .runaway kind) ∨ ∃ fault, s = .fatal fault) ∨
      (Session.failureCue s).kind = .fatal ∧
        ((∃ kind, s = .runaway kind) ∨ ∃ fault, s = .fatal fault) ∧
        ¬ ∃ message, s = .scriptError message ∨ s = .runtimeError message := by
    cases s with
    | scriptError message | runtimeError message => simp [Session.failureCue, Cue.saying]
    | runaway kind | fatal fault => simp [Session.failureCue, Cue.saying]
    | _ => cases hs
  have hfailure : (Session.failureCue s).kind.isFailure = true := by
    rcases hkind with ⟨hk, -⟩ | ⟨hk, -⟩ <;> rw [hk] <;> rfl
  have hmem : ∀ kind : CueKind, kind.isFailure = true →
      ((∃ c ∈ told ++ [Session.failureCue s], c.kind = kind) ↔
        (Session.failureCue s).kind = kind) := by
    intro kind hk
    constructor
    · rintro ⟨c, hc, rfl⟩
      rcases List.mem_append.mp hc with hc | hc
      · simp [h.quiet c hc] at hk
      · rw [List.mem_singleton.mp hc]
    · exact fun he => ⟨_, by simp, he⟩
  refine ⟨?_, ?_, ?_, ?_⟩
  · simpa using h.quiet
  · rw [hmem .error rfl]
    rcases hkind with ⟨hk, hs, -⟩ | ⟨hk, -, hs⟩ <;> simp_all
  · rw [hmem .fatal rfl]
    rcases hkind with ⟨hk, -, hs⟩ | ⟨hk, hs, -⟩ <;> simp_all
  · intro before c after hcues hquit
    -- the failure does not tell of the end, so the end was told before it
    have hne : Session.failureCue s ≠ c := by
      rintro rfl
      simp [hquit, CueKind.isFailure] at hfailure
    rcases List.append_eq_append_iff.mp hcues with ⟨gap, rfl, hgap⟩ | ⟨gap, rfl, hgap⟩
    · cases gap with
      | nil => exact absurd (List.cons.inj hgap).1 hne
      | cons d gap => simp at hgap
    · cases gap with
      | nil => exact absurd (List.cons.inj hgap).1.symm hne
      | cons d gap =>
        obtain ⟨rfl, rfl⟩ := List.cons.inj hgap
        obtain ⟨hbefore, hafter⟩ := h.once before c gap rfl hquit
        refine ⟨hbefore, fun d hd => ?_⟩
        rcases List.mem_append.mp hd with hd | hd
        · exact .inl (hafter d hd)
        · rw [List.mem_singleton.mp hd]
          exact .inr hfailure

end Quits

namespace Outcome.Tells

variable {m n : Machine} {o : Outcome Unit} (h : o.Tells Anything m) (hn : o.machine? = some n)

include h hn

theorem told_first : m.cues.toList <+: n.cues.toList := by
  cases h with
  | exhausted => cases hn
  | done known told =>
    cases hn
    exact told.isPrefix
  | stopped told =>
    cases hn
    exact told.isPrefix
  | @quit _ k _ before after passes =>
    cases hn
    have hquit : k.Adds (fun _ => True) k.quitting := .push .intro
    exact before.isPrefix.trans (hquit.isPrefix.trans after.isPrefix)

theorem quits (hm : m.cues = #[]) : Quits n.cues.toList := by
  have hnews : ∀ {p : Cue → Prop} {k : Machine}, m.Adds p k → ∀ c ∈ k.cues.toList, p c := by
    rintro p k ⟨news, hnews, hp⟩
    simpa [hnews, hm] using hp
  cases h with
  | exhausted => cases hn
  | done known told =>
    cases hn
    exact .of_ordinary (hnews told)
  | stopped told =>
    cases hn
    exact .of_ordinary (hnews told)
  | @quit _ k _ before after passes =>
    cases hn
    obtain ⟨later, hlater, htrace⟩ := after
    have hquit := Quits.of_quit (hnews before) htrace
    simpa [hlater, Machine.quitting] using hquit

end Outcome.Tells

namespace Session

theorem startMachine_silent (s : Session) (env : Env) (label : String) :
    (s.startMachine env label).cues = #[] := by
  obtain ⟨events, hevents⟩ := Machine.watched_eq { state := s.state } env .requests
    fun _ => .requestStart label
  simp [startMachine, hevents]

/-- A request tells in order, and a guard that trusts such operations is not seen. -/
theorem outcome_tells {guard : Guard} (hguard : guard.Trusts) (s : Session) (q : Request) :
    s.answerGuarded guard q = s.answer q ∧
      ∃ m : Machine, m.cues = #[] ∧ (s.outcome (fuel s.limits) q).Tells Anything m := by
  have hspares : ∀ (op : Operation) (x : Exec Unit) (m : Machine), m.Going →
      (x m).Tells Anything m → guard op x m = x m :=
    fun op x m hm hx => hguard op x m hm fun n hn => hx.told_first hn
  have hgoing : ∀ env label, (s.startMachine env label).Going := by
    intro env label
    simp [Machine.Going, s.startMachine_silent env label]
  have hrules := fun env => Exec.requestRules_tells hspares env (fuel s.limits)
  rw [answer_eq_conclude]
  cases q with
  | setUp options =>
    obtain ⟨hsame, htells⟩ := (hrules (s.env options)).setUpWith (fuel s.limits) _
      (hgoing (s.env options) "initialize")
    exact ⟨congrArg (s.conclude (s.env options)) hsame, _, s.startMachine_silent _ _, htells⟩
  | act i options =>
    obtain ⟨hsame, htells⟩ := (hrules (s.env options)).commandWith (fuel s.limits) i _
      (hgoing (s.env options) i.action)
    exact ⟨congrArg (s.conclude (s.env options)) hsame, _, s.startMachine_silent _ _, htells⟩

theorem cuesInOrder_of_conclude {s : Session} {env : Env} {o : Outcome Unit} {m : Machine}
    (h : o.Tells Anything m) (hm : m.cues = #[]) {r : Response} {s' : Session}
    (hr : s.conclude env o = some (r, s')) : CuesInOrder r.cues o.signal? := by
  cases o with
  | exhausted => cases hr
  | done a n =>
    cases hr
    rw [finishRequest_cues]
    simpa [Outcome.signal?] using (h.quits rfl hm).inOrder none (by simp)
  | stopped signal n =>
    cases hr
    rw [finishRequest_cues]
    have hquits := h.quits rfl hm
    by_cases hs : signal.isFailure = true
    · simpa [hs, Outcome.signal?] using hquits.inOrder_failure hs
    · simpa [hs, Outcome.signal?] using hquits.inOrder (some signal) (by simpa using hs)

/-- What was told before the operation that reaches a limit is told first without the limit. -/
theorem told_before_limit {s : Session} {q : Request} {r : Response} {s' : Session}
    (hr : s.answer q = some (r, s')) {limit : UInt64} (hlimit : 0 < limit)
    (htighter : s.limits.operations = 0 ∨ limit ≤ s.limits.operations) :
    ∃ r' t, (s.allowing limit).answer q = some (r', t) ∧ (r'.cues = r.cues ∨
      r'.cues.getLast? = some (failureCue (.runaway (.operations limit.toNat))) ∧
        r'.told.dropLast <+: r.told) := by
  have hpos : 0 < (s.allowing limit).limits.operations := hlimit
  obtain ⟨r', t, ht⟩ := exists_answer_of_ends (outcome_steady hpos (Nat.le_refl _) q).2
  refine ⟨r', t, ht, ?_⟩
  have hback : (s.allowing limit).allowing s.limits.operations = s := rfl
  rcases answer_cut hpos htighter ht with hsame | ⟨hlast, hfirst⟩
  · rw [hback, hr] at hsame
    cases hsame
    exact .inl rfl
  · exact .inr ⟨hlast, hfirst r s' hr⟩

/-- The cues of every request are in order. No operation takes back a cue and none is dispatched
after the end was told: a guard that would let pass nothing else makes no difference. The cues of an
answer fit the signal that ended the request. And in whatever operation a request is broken off by a
limit, what it told until then, traces apart, stands first in the answer that it gets without. -/
theorem cues_in_order (s : Session) (q : Request) :
    (∀ guard : Guard, guard.Trusts → s.answerGuarded guard q = s.answer q) ∧
    ∀ r s', s.answer q = some (r, s') →
      CuesInOrder r.cues (s.outcome (fuel s.limits) q).signal? ∧
      ∀ limit : UInt64, 0 < limit → s.limits.operations = 0 ∨ limit ≤ s.limits.operations →
        ∃ r' t, (s.allowing limit).answer q = some (r', t) ∧ (r'.cues = r.cues ∨
          r'.cues.getLast? = some (failureCue (.runaway (.operations limit.toNat))) ∧
            r'.told.dropLast <+: r.told) := by
  refine ⟨fun guard hguard => (outcome_tells hguard s q).1, fun r s' hr => ⟨?_, ?_⟩⟩
  · have htrusts : Guard.Trusts fun _ x => x := fun _ _ _ _ _ => rfl
    obtain ⟨m, hm, htells⟩ := (outcome_tells htrusts s q).2
    rw [answer_eq_conclude] at hr
    exact cuesInOrder_of_conclude htells hm hr
  · exact fun limit => told_before_limit hr

end Session

namespace Sample

/-- Breaks off at an operation that is dispatched after the end was told. -/
def unforgiving : Guard := fun _ x m =>
  if m.cues.any fun c => c.kind == .quit then .exhausted else x m

theorem unforgiving_trusts : unforgiving.Trusts := by
  intro op x m hm _
  have hnone : ¬ (m.cues.any fun c => c.kind == .quit) := by
    rw [Array.any_eq_true']
    rintro ⟨c, hc, hquit⟩
    exact hm c hc (eq_of_beq hquit)
  simp [unforgiving, hnone]

/-- The cellar where looking is to say goodbye and to leave with a value pending. -/
def farewell : Session := leaving (Build.say "bye" ++ Build.push (.integer 1)) .quit

def watchfulLook : Request := .act (.general "look") { trace := Topic.context.mask }

/-- The end is told among frames, then two frames are closed, and the value that was left pending is
told of as a failure. Broken off before the end is told, the request has said goodbye already. -/
theorem farewell_in_order : ∃ r s', farewell.answer watchfulLook = some (r, s') ∧
    farewell.answerGuarded unforgiving watchfulLook = some (r, s') ∧
    r.cues.map (fun c => c.kind) = [.trace .context, .text, .trace .context, .quit, .trace .context,
      .trace .context, .fatal] ∧
    CuesInOrder r.cues (some (.fatal (.stackImbalance 0 1))) ∧
    ∃ r' t, (farewell.allowing 5).answer watchfulLook = some (r', t) ∧
      r'.told.dropLast = [.saying .text "bye"] ∧ r'.told.dropLast <+: r.told := by
  obtain ⟨hguarded, hordered⟩ := farewell.cues_in_order watchfulLook
  have hkinds : (farewell.answer watchfulLook).map (fun x => x.1.cues.map fun c => c.kind) =
      some [.trace .context, .text, .trace .context, .quit, .trace .context, .trace .context,
        .fatal] := by decide +kernel
  have htold : ((farewell.allowing 5).answer watchfulLook).map (fun x => x.1.told) =
      some [.saying .text "bye", Session.failureCue (.runaway (.operations 5))] := by
    decide +kernel
  have hsignal : (farewell.outcome (Session.fuel farewell.limits) watchfulLook).signal? =
      some (.fatal (.stackImbalance 0 1)) := by decide +kernel
  obtain ⟨⟨r, s'⟩, hr, hkinds⟩ := Option.map_eq_some_iff.mp hkinds
  obtain ⟨horder, hlimit⟩ := hordered r s' hr
  obtain ⟨r', t, ht, hfirst⟩ := hlimit 5 (by decide) (.inr (by decide))
  rw [ht] at htold
  have htold : r'.told = [.saying .text "bye", Session.failureCue (.runaway (.operations 5))] :=
    Option.some.inj htold
  refine ⟨r, s', hr, (hguarded unforgiving unforgiving_trusts).trans hr, hkinds, hsignal ▸ horder,
    r', t, ht, by rw [htold]; rfl, ?_⟩
  rcases hfirst with hsame | ⟨-, hfirst⟩
  · have heq : r'.told = r.told := by rw [Response.told, Response.told, hsame]
    rw [heq]
    exact List.dropLast_prefix _
  · exact hfirst

end Sample

end Fabula
