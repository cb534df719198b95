import Fabula.Proofs.Machine.Keeping
import Fabula.Proofs.Request.Rules
import Fabula.Proofs.Session.Endings

/-! Games with a guard around every operation. A guard that lets pass all operations that keep an
invariant of the machine is not seen in requests, and so not over whole games. -/

namespace Fabula

theorem Outcome.Keeps.handled {I : Machine → Prop} {o : Outcome Bool} (h : o.Keeps I Anything)
    (hreturn : ∀ m, I m → I { m with pendingReturn := none }) :
    (Exec.handled o).Keeps I Anything := by
  cases o with
  | exhausted => trivial
  | done a m => exact h
  | stopped s m =>
    cases s with
    | endHandler | leaveLoop | nextRound => exact ⟨h, .intro⟩
    | giveBack => exact ⟨hreturn m h, .intro⟩
    | _ => exact h

namespace Exec

variable {story : Story} {env : Env} {S : State → Prop} {G : ElementRef → Prop}
  {V : Value → Prop} {I : Machine → Prop}

theorem requestRules_keeps (h : Invariant story S G V I) (hstory : env.story = story)
    {guard : Guard} (hguard : ∀ run limit op m, I m →
      (execute env run limit op m).Keeps I Anything →
      guard op (execute env run limit op) m = execute env run limit op m) (fuel : Nat) :
    RequestRules env env (runBlock env fuel) (runGuarded guard env fuel) S G V (Keeps I) where
  toBasics := (h.rules hstory).toBasics
  grounds := (h.rules hstory).grounds
  exhausted := (h.rules hstory).exhausted
  runHandler entry _ he hlocals := by
    have hrun := (h.rules hstory).runEntry (keeps_runGuarded h hstory hguard fuel) he entry hlocals
    exact hrun.through fun _ _ hkept => hkept.handled fun m hm => (h.returned hm).1
  next := by
    refine keeps_of fun m hm => ?_
    unfold nextInvocation
    split
    · exact ⟨hm, .intro⟩
    · exact ⟨h.unseen hm rfl rfl rfl rfl, .intro⟩
  enqueue i := h.keeps_aside (fun _ => rfl) (fun _ => rfl) (fun _ => rfl) fun _ => rfl

end Exec

namespace Session

/-- The answer to a request with a guard around every operation, where blocks may nest and loops go
round only so often. -/
def guardedWith (s : Session) (guard : Guard) (fuel : Nat) : Request → Option (Response × Session)
  | .setUp options => s.request options "initialize" fun env =>
    Exec.setUpWith env (Exec.runGuarded guard env fuel) fuel
  | .act i options => s.request options i.action fun env =>
    Exec.commandWith env (Exec.runGuarded guard env fuel) fuel i

def answerGuarded (s : Session) (guard : Guard) (r : Request) : Option (Response × Session) :=
  s.guardedWith guard (fuel s.limits) r

def playGuarded (s : Session) (guard : Guard) : List Request → List (Response × Session)
  | [] => []
  | r :: rest =>
    match s.answerGuarded guard r with
    | none => []
    | some (response, s') => (response, s') :: s'.playGuarded guard rest

variable {story : Story} {S : State → Prop} {G : ElementRef → Prop} {V : Value → Prop}
  {I : Machine → Prop} {guard : Guard}

theorem conclude_keeps (hstate : ∀ m, I m → S m.state) {s : Session} {env : Env} {o : Outcome Unit}
    (h : o.Keeps I Anything) : ∀ x ∈ s.conclude env o, S x.2.state := by
  intro x hx
  cases o with
  | exhausted => cases hx
  | done a m =>
    obtain rfl := Option.some.inj hx
    rw [finishRequest_state]
    exact hstate m h.1
  | stopped signal m =>
    obtain rfl := Option.some.inj hx
    rw [finishRequest_state]
    exact hstate m h

/-- A request keeps an invariant that the machine it starts with has, and the guard is not seen. -/
theorem guardedWith_keeps (h : Invariant story S G V I)
    (hguard : ∀ (env : Env) run limit op m, env.story = story → I m →
      (Exec.execute env run limit op m).Keeps I Anything →
      guard op (Exec.execute env run limit op) m = Exec.execute env run limit op m)
    {s : Session} (hstory : s.story = story) (hs : I { state := s.state }) (allowed : Nat)
    (r : Request) :
    s.guardedWith guard allowed r = s.answerWith allowed r ∧
      ∀ x ∈ s.answerWith allowed r, S x.2.state := by
  have hrequest : ∀ (options : RequestOptions) (label : String) (body body' : Env → Exec Unit),
      Exec.Keeps I Anything (body (s.env options)) (body' (s.env options)) →
      s.request options label body' = s.request options label body ∧
        ∀ x ∈ s.request options label body, S x.2.state := by
    intro options label body body' hbody
    obtain ⟨hsame, hkept⟩ := hbody _ (h.watched hs .requests fun _ => .requestStart label)
    exact ⟨congrArg (s.conclude (s.env options)) hsame, conclude_keeps h.state hkept⟩
  cases r with
  | setUp options =>
    have hrules := Exec.requestRules_keeps h hstory
      (fun run limit op m => hguard (s.env options) run limit op m hstory) allowed
    simp only [guardedWith, answerWith]
    exact hrequest options _ (Exec.setUp · allowed) _ (hrules.setUpWith allowed)
  | act i options =>
    have hrules := Exec.requestRules_keeps h hstory
      (fun run limit op m => hguard (s.env options) run limit op m hstory) allowed
    simp only [guardedWith, answerWith]
    exact hrequest options _ (Exec.command · allowed i) _ (hrules.commandWith allowed i)

theorem answer_keeps (h : Invariant story S G V I) {s : Session} (hstory : s.story = story)
    (hs : I { state := s.state }) (r : Request) : ∀ x ∈ s.answer r, S x.2.state := by
  let guard : Guard := fun _ x => x
  have hguard : ∀ (env : Env) run limit op m, env.story = story → I m →
      (Exec.execute env run limit op m).Keeps I Anything →
      guard op (Exec.execute env run limit op) m = Exec.execute env run limit op m :=
    fun _ _ _ _ _ _ _ _ => rfl
  rw [answer_eq]
  exact (guardedWith_keeps h hguard hstory hs _ r).2

/-- Whole games keep an invariant that follows from the state when a request starts, and the guard
is not seen. -/
theorem playGuarded_keeps (h : Invariant story S G V I)
    (hguard : ∀ (env : Env) run limit op m, env.story = story → I m →
      (Exec.execute env run limit op m).Keeps I Anything →
      guard op (Exec.execute env run limit op) m = Exec.execute env run limit op m)
    (hstart : ∀ st, S st → I { state := st }) (requests : List Request) (s : Session)
    (hstory : s.story = story) (hs : S s.state) :
    s.playGuarded guard requests = s.play requests ∧ ∀ x ∈ s.play requests, S x.2.state := by
  induction requests generalizing s with
  | nil => exact ⟨rfl, fun x hx => absurd hx List.not_mem_nil⟩
  | cons r requests ih =>
    obtain ⟨hsame, hkept⟩ :=
      guardedWith_keeps h hguard hstory (hstart s.state hs) (fuel s.limits) r
    have hstays := s.answer_story r
    rw [← answer_eq] at hsame hkept
    unfold playGuarded play answerGuarded
    rw [hsame]
    cases hr : s.answer r with
    | none => exact ⟨rfl, fun x hx => absurd hx List.not_mem_nil⟩
    | some x =>
      rw [hr] at hkept hstays
      obtain ⟨hrest, hall⟩ := ih x.2 ((hstays x rfl).trans hstory) (hkept x rfl)
      refine ⟨congrArg _ hrest, fun y hy => ?_⟩
      rcases List.mem_cons.mp hy with rfl | hy
      · exact hkept _ rfl
      · exact hall y hy

end Session

end Fabula
