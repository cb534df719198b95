import Fabula.Proofs.Request.Cutoff
import Fabula.Proofs.Session.Runaway

/-! The limit of operations only cuts requests short. A request that does not come up to the limit
is answered the same under every looser limit and with no limit at all, and one that does has told
just the beginning of what it tells under a looser limit. -/

namespace Fabula

def Request.options : Request → RequestOptions
  | .setUp options => options
  | .act _ options => options

def Response.told (r : Response) : List Cue := r.cues.filter fun c => !c.kind.isTrace

def Outcome.Ends {α : Type} : Outcome α → Prop
  | .exhausted => False
  | _ => True

namespace Session

/-- How a request comes out, where blocks may nest and loops go round only so often. -/
def outcome (s : Session) (allowed : Nat) : Request → Outcome Unit
  | .setUp options =>
    Exec.setUp (s.env options) allowed (s.startMachine (s.env options) "initialize")
  | .act i options =>
    Exec.command (s.env options) allowed i (s.startMachine (s.env options) i.action)

theorem answerWith_eq (s : Session) (allowed : Nat) (r : Request) :
    s.answerWith allowed r = s.conclude (s.env r.options) (s.outcome allowed r) := by
  cases r <;> rfl

theorem answer_eq_conclude (s : Session) (r : Request) :
    s.answer r = s.conclude (s.env r.options) (s.outcome (fuel s.limits) r) := by
  rw [answer_eq, answerWith_eq]

/-- Under a limit of operations a request comes to its end, and it makes no difference how deep
blocks may nest and how often loops may go round. -/
theorem outcome_steady {s : Session} (h : 0 < s.limits.operations) {allowed : Nat}
    (ha : fuel s.limits ≤ allowed) (r : Request) :
    s.outcome (fuel s.limits) r = s.outcome allowed r ∧ (s.outcome allowed r).Ends := by
  have hpos : 0 < s.limits.operations.toNat := UInt64.lt_iff_toNat_lt.mp h
  have hfuel : s.limits.operations.toNat < fuel s.limits := by
    rw [fuel_eq h]
    omega
  have hends : ∀ {m : Machine} {x y : Exec Unit},
      Exec.SteadyFrom s.limits.operations.toNat 0 m x y → x m = y m ∧ (y m).Ends := by
    rintro m x y ⟨hsame, hwithin⟩
    rw [← hsame]
    generalize x m = o at hwithin
    cases hwithin <;> simp [Outcome.Ends]
  have hlimit : ∀ options, 0 < (s.env options).limits.operations := fun _ => h
  cases r with
  | setUp options =>
    let m := s.startMachine (s.env options) "initialize"
    have kept : Machine.Keeps { state := s.state } m := s.keeps_startMachine _ _
    have hcounted : Exec.QueueCounted m := by simp [Exec.QueueCounted, kept.served, kept.queued]
    exact hends (Exec.steadyFrom_setUp (hlimit options) rfl hfuel ha (kept.operations ▸ hpos)
      hcounted)
  | act i options =>
    let m := s.startMachine (s.env options) i.action
    let queued : Machine := { m with queued := m.queued.push i }
    have kept : Machine.Keeps { state := s.state } m := s.keeps_startMachine _ _
    have hserved : queued.served < queued.queued.size := by simp [queued, kept.served, kept.queued]
    have hone : queued.queued.size ≤ queued.operations + queued.served + 1 := by
      simp [queued, kept.queued]
    exact hends (Exec.steadyFrom_serveCommand (hlimit options) rfl hfuel ha
      (kept.operations ▸ hpos) hserved hone)

def allowing (s : Session) (limit : UInt64) : Session :=
  { s with limits := { s.limits with operations := limit } }

theorem conclude_allowing (s : Session) (limit : UInt64) (options : RequestOptions)
    (o : Outcome Unit) :
    (s.allowing limit).conclude ((s.allowing limit).env options) o =
      (s.conclude (s.env options) o).map fun x => (x.1, x.2.allowing limit) := by
  cases o <;> rfl

/-- A looser limit allows blocks to nest and loops to go round at least as often. -/
theorem fuel_le_of_looser {limits : Limits} (h : 0 < limits.operations) {limit : UInt64}
    (hlooser : limit = 0 ∨ limits.operations ≤ limit) :
    fuel limits ≤ fuel { limits with operations := limit } := by
  rw [fuel_eq h]
  by_cases hoff : limit = 0
  · have hlt := limits.operations.toNat_lt
    simp only [fuel, hoff, if_true]
    omega
  · have hle := UInt64.le_iff_toNat_le.mp (hlooser.resolve_left hoff)
    simpa [fuel, hoff] using hle

theorem outcome_cut {s : Session} (h : 0 < s.limits.operations) {limit : UInt64}
    (hlooser : limit = 0 ∨ s.limits.operations ≤ limit) (r : Request) :
    ∃ m, Outcome.Cut s.limits.operations.toNat Anything m (s.outcome (fuel s.limits) r)
      ((s.allowing limit).outcome (fuel (s.allowing limit).limits) r) := by
  -- the two run side by side only with the same bound, and that of the looser limit will do
  rw [(outcome_steady h (fuel_le_of_looser h hlooser) r).1]
  have hlimit : ∀ options, 0 < (s.env options).limits.operations := fun _ => h
  cases r with
  | setUp options => exact ⟨_, Exec.cut_setUp (hlimit options) rfl hlooser _ _⟩
  | act i options => exact ⟨_, Exec.cut_command (hlimit options) rfl hlooser _ i _⟩

theorem told_finishRequest (env : Env) (failure : Option Signal) (m : Machine) :
    (finishRequest env failure m).1.told = m.told ++ (failure.map failureCue).toList := by
  have hcue : ∀ signal, (failureCue signal).kind.isTrace = false := by
    intro signal
    cases signal <;> rfl
  rw [Response.told, finishRequest_cues, List.filter_append]
  cases failure <;> simp [Machine.told, hcue]

theorem told_of_conclude {s : Session} {env : Env} {o : Outcome Unit} {m : Machine}
    (ho : o.Follows ToldFirst m Anything) {response : Response} {s' : Session}
    (hs : s.conclude env o = some (response, s')) : m.told <+: response.told := by
  cases o with
  | exhausted => cases hs
  | done a n =>
    cases hs
    rw [told_finishRequest]
    exact ho.1.trans (List.prefix_append _ _)
  | stopped signal n =>
    cases hs
    rw [told_finishRequest]
    exact List.IsPrefix.trans ho (List.prefix_append _ _)

theorem exists_answer_of_ends {s : Session} {r : Request}
    (h : (s.outcome (fuel s.limits) r).Ends) : ∃ response s', s.answer r = some (response, s') := by
  rw [answer_eq_conclude]
  generalize s.outcome (fuel s.limits) r = o at h
  cases o with
  | exhausted => exact h.elim
  | done a m => exact ⟨_, _, rfl⟩
  | stopped signal m => exact ⟨_, _, rfl⟩

theorem answer_cut {s : Session} (h : 0 < s.limits.operations) {limit : UInt64}
    (hlooser : limit = 0 ∨ s.limits.operations ≤ limit) {r : Request} {response : Response}
    {s' : Session} (hs : s.answer r = some (response, s')) :
    (s.allowing limit).answer r = some (response, s'.allowing limit) ∨
      response.cues.getLast? =
          some (failureCue (.runaway (.operations s.limits.operations.toNat))) ∧
        ∀ response' t, (s.allowing limit).answer r = some (response', t) →
          response.told.dropLast <+: response'.told := by
  obtain ⟨m, hcut⟩ := outcome_cut h hlooser r
  rw [answer_eq_conclude] at hs ⊢
  generalize s.outcome (fuel s.limits) r = o at hcut hs
  generalize (s.allowing limit).outcome (fuel (s.allowing limit).limits) r = o' at hcut ⊢
  cases hcut with
  | same follows =>
    left
    rw [conclude_allowing, hs]
    rfl
  | refused first follows =>
    right
    cases hs
    refine ⟨by simp [finishRequest_cues, Signal.isFailure], fun response' t ht => ?_⟩
    have htold := told_of_conclude follows ht
    simpa [told_finishRequest, Signal.isFailure] using htold

/-- The limit of operations only cuts a request short and never changes it. A request that does not
end by telling of the limit is answered the same, and leaves the same session, under every larger
limit and with no limit. One that does has told, trace cues and the failure apart, the beginning of
what it tells under a larger limit. -/
theorem limit_only_cuts_short (s : Session) (h : 0 < s.limits.operations) (limit : UInt64)
    (hle : s.limits.operations ≤ limit) (r : Request) :
    ∃ response s', s.answer r = some (response, s') ∧
      (response.cues.getLast? ≠
          some (failureCue (.runaway (.operations s.limits.operations.toNat))) →
        (s.allowing limit).answer r = some (response, s'.allowing limit) ∧
          (s.allowing 0).answer r = some (response, s'.allowing 0)) ∧
      (response.cues.getLast? =
          some (failureCue (.runaway (.operations s.limits.operations.toNat))) →
        ∃ response' t, (s.allowing limit).answer r = some (response', t) ∧
          response.told.dropLast <+: response'.told) := by
  have hlimit : 0 < limit := UInt64.lt_of_lt_of_le h hle
  obtain ⟨response, s', hs⟩ := exists_answer_of_ends (outcome_steady h (Nat.le_refl _) r).2
  refine ⟨response, s', hs, fun hlast => ⟨?_, ?_⟩, fun _ => ?_⟩
  · exact (answer_cut h (.inr hle) hs).resolve_right fun hcut => hlast hcut.1
  · exact (answer_cut h (.inl rfl) hs).resolve_right fun hcut => hlast hcut.1
  · have hends : ((s.allowing limit).outcome (fuel (s.allowing limit).limits) r).Ends :=
      (outcome_steady (s := s.allowing limit) hlimit (Nat.le_refl _) r).2
    obtain ⟨response', t, ht⟩ := exists_answer_of_ends hends
    refine ⟨response', t, ht, ?_⟩
    rcases answer_cut h (.inr hle) hs with hsame | ⟨_, htold⟩
    · rw [ht] at hsame
      cases hsame
      exact List.dropLast_prefix _
    · exact htold response' t ht

end Session

namespace Sample

/-- The cellar with a hero who tells of the dark and then of the drops from the ceiling. -/
def dripping (drops : Block) : Session :=
  { cellarSession .empty with
    story := onLook cellarStory .empty (Build.say "dark" ++ drops)
    limits := ⟨7, 0⟩ }

def endlessDrops : Block := Build.whileLoop (Build.push (.boolean true)) (Build.say "drip")

/-- Drops that never end are cut short at the seventh operation, after the first of them. Where none
falls the limit has no part in the answer. -/
theorem dripping_cut_short :
    (∃ response response' s' t,
      (dripping endlessDrops).answer (.act (.general "look") {}) = some (response, s') ∧
      ((dripping endlessDrops).allowing 11).answer (.act (.general "look") {}) =
        some (response', t) ∧
      response.told.dropLast = [.saying .text "dark", .saying .text "drip"] ∧
      response.told.dropLast <+: response'.told) ∧
    ∃ response s', (dripping []).answer (.act (.general "look") {}) = some (response, s') ∧
      ((dripping []).allowing 0).answer (.act (.general "look") {}) =
        some (response, s'.allowing 0) ∧
      response.told = [.saying .text "dark"] := by
  constructor
  · obtain ⟨response, s', hs, -, hcut⟩ := (dripping endlessDrops).limit_only_cuts_short
      (by decide) 11 (by decide) (.act (.general "look") {})
    have htold : ((dripping endlessDrops).answer (.act (.general "look") {})).map
        (fun x => x.1.cues) = some [.saying .text "dark", .saying .text "drip",
          Session.failureCue (.runaway (.operations 7))] := by decide +kernel
    rw [hs] at htold
    have hcues : response.cues = [.saying .text "dark", .saying .text "drip",
        Session.failureCue (.runaway (.operations 7))] := Option.some.inj htold
    obtain ⟨response', t, ht, hfirst⟩ := hcut (by rw [hcues]; rfl)
    refine ⟨response, response', s', t, hs, ht, ?_, hfirst⟩
    rw [Response.told, hcues]
    rfl
  · obtain ⟨response, s', hs, hsame, -⟩ := (dripping []).limit_only_cuts_short
      (by decide) 11 (by decide) (.act (.general "look") {})
    have htold : ((dripping []).answer (.act (.general "look") {})).map (fun x => x.1.cues) =
        some [.saying .text "dark"] := by decide +kernel
    rw [hs] at htold
    have hcues : response.cues = [.saying .text "dark"] := Option.some.inj htold
    refine ⟨response, s', hs, (hsame ?_).2, ?_⟩
    · rw [hcues]
      decide +kernel
    · rw [Response.told, hcues]
      rfl

end Sample

end Fabula
