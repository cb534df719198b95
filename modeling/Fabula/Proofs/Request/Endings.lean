import Fabula.Proofs.Request.Rules

/-! Operations that end a handler or a request. A signal that is raised by such an operation runs
outward through loops, functions and frames of focus. On its way it can become one thing only: at
the end of a block with values left on the stack, it gives way to the fault of an imbalance. What
operations were dispatched is known from the events of the same request made while operations are
watched, which goes the same way as the request that is not watched. -/

namespace Fabula

/-- The signal that an operation raises to end a handler or a request. -/
def Opcode.ending? : Opcode → Option Signal
  | .control .finish => some .finish
  | .control .quit => some .quit
  | .control .endHandler => some .endHandler
  | _ => none

def Event.ending? : Event → Option Signal
  | .operation op _ => op.ending?
  | _ => none

def Signal.IsImbalance (s : Signal) : Prop :=
  ∃ expected actual : Nat, expected ≠ actual ∧ s = .fatal (.stackImbalance expected actual)

namespace Machine

def withEvents (m : Machine) (events : Array Event) : Machine := { m with events := events }

def Quiet (m n : Machine) : Prop := ∀ c ∈ n.cues, c ∈ m.cues ∨ c.kind.isFailure = false

variable {m n l : Machine}

theorem Quiet.of_eq (h : n.cues = m.cues) : m.Quiet n := fun _ hc => .inl (h ▸ hc)

theorem Quiet.trans (h : m.Quiet n) (h' : n.Quiet l) : m.Quiet l := by
  intro c hc
  rcases h' c hc with hc | hc
  · exact h c hc
  · exact .inr hc

theorem Quiet.of_push {c : Cue} (hc : c.kind.isFailure = false) :
    m.Quiet { m with cues := m.cues.push c } := by
  intro c' h
  rcases Array.mem_push.mp h with h | rfl
  · exact .inl h
  · exact .inr hc

theorem quiet_traced (env : Env) (topic : Topic) (message : Machine → String) :
    m.Quiet (m.traced env topic message) := by
  unfold traced
  split
  · exact .of_push rfl
  · exact .of_eq rfl

theorem quiet_watched (env : Env) (wanted : TraceMask) (event : Machine → Event) :
    m.Quiet (m.watched env wanted event) := by
  unfold watched
  split <;> exact .of_eq rfl

end Machine

variable {α β : Type} {E : Signal → Prop} {P : α → Prop}

def EndingFree (E : Signal → Prop) (news : Array Event) : Prop :=
  ∀ v ∈ news, ∀ s, v.ending? = some s → ¬ E s

theorem EndingFree.none : EndingFree E #[] := by simp [EndingFree]

theorem EndingFree.append {news later : Array Event} (h : EndingFree E news) (h' : EndingFree E later) :
    EndingFree E (news ++ later) := by
  intro v hv
  rcases Array.mem_append.mp hv with hv | hv
  · exact h v hv
  · exact h' v hv

/-- The machines of a request and of the same request watched for other events: from `m` and the
events `e` there came about `n` and some more events. -/
structure Beside (m : Machine) (e : Array Event) (n n' : Machine) (news : Array Event) : Prop where
  beside : n' = n.withEvents (e ++ news)
  quiet : m.Quiet n

theorem Beside.of_quiet {m n : Machine} {e : Array Event} (h : m.Quiet n) :
    Beside m e n (n.withEvents e) #[] := ⟨by simp, h⟩

theorem Beside.after {m n l l' : Machine} {e news later : Array Event} (h : m.Quiet n)
    (h' : Beside n (e ++ news) l l' later) : Beside m e l l' (news ++ later) :=
  ⟨by rw [h'.beside, Array.append_assoc], h.trans h'.quiet⟩

/-- The same outcome in a request and in the same request watched for operations. Endings of the
kind `E` that were dispatched stopped the computation. -/
inductive Outcome.Endings (E : Signal → Prop) (P : α → Prop) (m : Machine) (e : Array Event) :
    Outcome α → Outcome α → Prop
  | done {a : α} {n n' : Machine} {news : Array Event} (known : P a) (came : Beside m e n n' news)
      (free : EndingFree E news) : Endings E P m e (.done a n) (.done a n')
  | stopped {s : Signal} {n n' : Machine} {news : Array Event} (came : Beside m e n n' news)
      (ends : ∀ v ∈ news, ∀ s', v.ending? = some s' → E s' → s = s' ∨ s.IsImbalance) :
      Endings E P m e (.stopped s n) (.stopped s n')
  | exhausted : Endings E P m e .exhausted .exhausted

namespace Outcome.Endings

variable {m n : Machine} {e news : Array Event} {x y : Outcome α}

theorem halt {s : Signal} {n' : Machine} (came : Beside m e n n' news) (free : EndingFree E news) :
    Endings E P m e (.stopped s n : Outcome α) (.stopped s n') :=
  .stopped came fun v hv s' hs hE => absurd hE (free v hv s' hs)

theorem after (hq : m.Quiet n) (hf : EndingFree E news) (h : Endings E P n (e ++ news) x y) :
    Endings E P m e x y := by
  cases h with
  | done known came free => exact .done known (came.after hq) (hf.append free)
  | stopped came ends =>
    refine .stopped (came.after hq) fun v hv s' hs hE => ?_
    rcases Array.mem_append.mp hv with hv | hv
    · exact absurd hE (hf v hv s' hs)
    · exact ends v hv s' hs hE
  | exhausted => exact .exhausted

theorem afterwards (h : Endings E P m e x y) {after after' : Machine → Machine}
    (ha : ∀ (n : Machine) (e : Array Event), ∃ news, EndingFree E news ∧
      Beside n e (after n) (after' (n.withEvents e)) news) :
    Endings E P m e (Exec.afterwards after x) (Exec.afterwards after' y) := by
  cases h with
  | @done a n n' news known came free =>
    obtain ⟨later, hfree, hlater⟩ := ha n (e ++ news)
    rw [came.beside]
    exact .done known (hlater.after came.quiet) (free.append hfree)
  | @stopped s n n' news came ends =>
    obtain ⟨later, hfree, hlater⟩ := ha n (e ++ news)
    rw [came.beside]
    refine .stopped (hlater.after came.quiet) fun v hv s' hs hE => ?_
    rcases Array.mem_append.mp hv with hv | hv
    · exact ends v hv s' hs hE
    · exact absurd hE (hfree v hv s' hs)
  | exhausted => exact .exhausted

/-- A block that left the stack too high or too low stops with an imbalance, whatever stopped it. -/
theorem settle (h : Endings E P m e x y) (height : Nat) :
    Endings E P m e (Exec.settle height x) (Exec.settle height y) := by
  cases h with
  | @done a n n' news known came free =>
    obtain ⟨rfl, quiet⟩ := came
    have hstack : (n.withEvents (e ++ news)).stack = n.stack := rfl
    simp only [Exec.settle, hstack]
    split
    · exact .done known ⟨rfl, quiet⟩ free
    · exact .halt ⟨rfl, quiet⟩ free
  | @stopped s n n' news came ends =>
    obtain ⟨rfl, quiet⟩ := came
    have hstack : (n.withEvents (e ++ news)).stack = n.stack := rfl
    simp only [Exec.settle, hstack]
    split
    · exact .stopped ⟨rfl, quiet⟩ ends
    · split
      · exact .stopped ⟨rfl, quiet⟩ ends
      · rename_i hheight
        refine .stopped ⟨rfl, quiet⟩ fun _ _ _ _ _ => .inr ?_
        exact ⟨height, n.stack.height, fun he => hheight he.symm, rfl⟩
  | exhausted => exact .exhausted

theorem weighed {x y : Outcome Unit} (h : Endings E Anything m e x y) (height : Nat) :
    Endings E Anything m e (Exec.weighed height x) (Exec.weighed height y) := by
  cases h with
  | @done a n n' news known came free =>
    obtain ⟨rfl, quiet⟩ := came
    have hstack : (n.withEvents (e ++ news)).stack = n.stack := rfl
    simp only [Exec.weighed, hstack]
    split
    · exact .done .intro ⟨rfl, quiet⟩ free
    · exact .halt ⟨rfl, quiet⟩ free
  | stopped came ends => exact .stopped came ends
  | exhausted => exact .exhausted

theorem free_of_ends {s : Signal} (hs : ¬ E s) (hi : ¬ s.IsImbalance)
    (ends : ∀ v ∈ news, ∀ s', v.ending? = some s' → E s' → s = s' ∨ s.IsImbalance) :
    EndingFree E news := by
  intro v hv s' hv' hE
  rcases ends v hv s' hv' hE with rfl | h
  · exact hs hE
  · exact hi h

theorem returned {x y : Outcome Unit} (h : Endings E Anything m e x y) (hE : ¬ E .giveBack) :
    Endings E Anything m e (Exec.returned x) (Exec.returned y) := by
  cases h with
  | done known came free => exact .done .intro came free
  | @stopped s n n' news came ends =>
    obtain ⟨rfl, quiet⟩ := came
    cases s with
    | giveBack =>
      exact .done .intro ⟨rfl, quiet⟩ (free_of_ends hE (by simp [Signal.IsImbalance]) ends)
    | _ => exact .stopped ⟨rfl, quiet⟩ ends
  | exhausted => exact .exhausted

theorem handled {x y : Outcome Bool} {E' : Signal → Prop} (h : Endings E Anything m e x y)
    (hE : ∀ s, E' s → E s)
    (hcaught : ∀ s, E' s → s ≠ .endHandler ∧ s ≠ .leaveLoop ∧ s ≠ .nextRound ∧ s ≠ .giveBack) :
    Endings E' Anything m e (Exec.handled x) (Exec.handled y) := by
  cases h with
  | done known came free =>
    exact .done .intro came fun v hv s hs hs' => free v hv s hs (hE s hs')
  | @stopped s n n' news came ends =>
    have ends' : ∀ v ∈ news, ∀ s', v.ending? = some s' → E' s' → s = s' ∨ s.IsImbalance :=
      fun v hv s' hs hs' => ends v hv s' hs (hE s' hs')
    have hfree : ¬ s.IsImbalance → ¬ E' s → EndingFree E' news := fun hi hs =>
      free_of_ends hs hi ends'
    obtain ⟨rfl, quiet⟩ := came
    cases s with
    | endHandler | leaveLoop | nextRound | giveBack =>
      refine .done .intro ⟨rfl, quiet⟩ (hfree (by simp [Signal.IsImbalance]) fun hs => ?_)
      simpa using hcaught _ hs
    | _ => exact .stopped ⟨rfl, quiet⟩ ends'
  | exhausted => exact .exhausted

end Outcome.Endings

def Env.watching (env : Env) (watch : TraceMask) : Env := { env with watch := watch }

theorem Machine.traced_withEvents (m : Machine) (env : Env) (watch : TraceMask) (topic : Topic)
    (message : Machine → String) (e : Array Event) (h : message (m.withEvents e) = message m) :
    (m.withEvents e).traced (env.watching watch) topic message =
      (m.traced env topic message).withEvents e := by
  have htrace : (env.watching watch).trace = env.trace := rfl
  unfold traced
  rw [h, htrace]
  split <;> rfl

namespace Exec

def Endings (E : Signal → Prop) (P : α → Prop) (x y : Exec α) : Prop :=
  ∀ m e, Outcome.Endings E P m e (x m) (y (m.withEvents e))

theorem Endings.bind {Q : β → Prop} {x y : Exec α} {f g : α → Exec β} (hx : Endings E P x y)
    (hf : ∀ a, P a → Endings E Q (f a) (g a)) : Endings E Q (x >>= f) (y >>= g) := by
  intro m e
  have h := hx m e
  rw [bind_apply, bind_apply]
  generalize x m = p at h ⊢
  generalize y (m.withEvents e) = q at h ⊢
  cases h with
  | @done a n n' news known came free =>
    rw [came.beside]
    exact (hf a known n (e ++ news)).after came.quiet free
  | stopped came ends => exact .stopped came ends
  | exhausted => exact .exhausted

theorem Endings.mono {Q : α → Prop} {x y : Exec α} (hpq : ∀ a, P a → Q a) (hx : Endings E P x y) :
    Endings E Q x y := by
  intro m e
  have h := hx m e
  generalize x m = p at h ⊢
  generalize y (m.withEvents e) = q at h ⊢
  cases h with
  | done known came free => exact .done (hpq _ known) came free
  | stopped came ends => exact .stopped came ends
  | exhausted => exact .exhausted

theorem endings_done {m n : Machine} {e : Array Event} {a : α} (known : P a) (quiet : m.Quiet n) :
    Outcome.Endings E P m e (.done a n) (.done a (n.withEvents e)) :=
  .done known (.of_quiet quiet) .none

theorem endings_change {g : Machine → Machine}
    (hg : ∀ (m : Machine) (e : Array Event), g (m.withEvents e) = (g m).withEvents e)
    (hquiet : ∀ m : Machine, m.Quiet (g m)) : Endings E Anything (change g) (change g) := by
  intro m e
  rw [change_apply, change_apply, hg]
  exact endings_done .intro (hquiet m)

theorem endings_silent {g : Machine → Machine}
    (hg : ∀ (m : Machine) (e : Array Event), g (m.withEvents e) = (g m).withEvents e)
    (hcues : ∀ m : Machine, (g m).cues = m.cues) : Endings E Anything (change g) (change g) :=
  endings_change hg fun m => .of_eq (hcues m)

theorem endings_stop (s : Signal) : Endings E P (stop s) (stop s) :=
  fun _ _ => .halt (.of_quiet (.of_eq rfl)) .none

variable {env : Env} {watch : TraceMask}

theorem endings_trace {topic : Topic} {message : Machine → String}
    (h : ∀ m n : Machine, m.state = n.state → message m = message n) :
    Endings E Anything (trace env topic message) (trace (env.watching watch) topic message) := by
  refine endings_change (fun m e => ?_) fun m => Machine.quiet_traced env topic message
  exact m.traced_withEvents env watch topic message e (h _ _ rfl)

theorem endings_ask {f : State → Except Fault α} (hf : ∀ st a, True → f st = .ok a → P a) :
    Endings E P (ask f) (ask f) := by
  intro m e
  have hstate : (m.withEvents e).state = m.state := rfl
  unfold ask
  rw [hstate]
  cases hm : f m.state with
  | error _ => exact endings_stop _ m e
  | ok a => exact endings_done (hf _ a .intro hm) (.of_eq rfl)

theorem beside_watched (env : Env) (watch wanted : TraceMask) (event : Machine → Event)
    (hsame : ∀ m e, event (m.withEvents e) = event m) (m : Machine) (e : Array Event) :
    ∃ news, (∀ v ∈ news, v = event m) ∧ Beside m e (m.watched env wanted event)
      ((m.withEvents e).watched (env.watching watch) wanted event) news := by
  have hleft : (m.watched env wanted event).withEvents = m.withEvents := by
    unfold Machine.watched
    split <;> rfl
  by_cases hw : watch.contains wanted = true
  · refine ⟨#[event m], by simp, ?_, Machine.quiet_watched env wanted event⟩
    rw [hleft]
    simp only [Machine.watched, Env.watching, hw, if_true, hsame]
    simp [Machine.withEvents]
  · refine ⟨#[], by simp, ?_, Machine.quiet_watched env wanted event⟩
    rw [hleft]
    simp [Machine.watched, Env.watching, hw]

theorem endingFree_of_forall_eq {news : Array Event} {event : Event}
    (h : ∀ v ∈ news, v = event) (hend : event.ending? = none) : EndingFree E news := by
  intro v hv s hs
  rw [h v hv, hend] at hs
  cases hs

theorem endings_pop (op : Opcode) : Endings E Anything (pop op) (pop op) := by
  intro m e
  have hstack : (m.withEvents e).stack = m.stack := rfl
  unfold pop
  rw [hstack]
  cases m.stack.pop? with
  | none => exact endings_stop _ m e
  | some found => exact endings_done .intro (.of_eq rfl)

theorem endings_popMany (op : Opcode) (n : Nat) :
    Endings E Anything (popMany op n) (popMany op n) := by
  intro m e
  have hstack : (m.withEvents e).stack = m.stack := rfl
  unfold popMany
  rw [hstack]
  split
  · exact endings_stop _ m e
  · exact endings_done .intro (.of_eq rfl)

theorem endings_frame (op : Opcode) :
    Endings E (fun f => True ∧ Holds Anything f.locals) (frame op) (frame op) := by
  intro m e
  have hframes : (m.withEvents e).frames = m.frames := rfl
  unfold frame
  rw [hframes]
  cases m.frames with
  | nil => exact endings_stop _ m e
  | cons f rest => exact endings_done ⟨.intro, fun _ _ _ => .intro⟩ (.of_eq rfl)

theorem endings_changeContext (identity : String) (f : Context → Context) :
    Endings E Anything (changeContext env identity f)
      (changeContext (env.watching watch) identity f) := by
  intro m e
  have hcontext : (m.withEvents e).state.context (env.watching watch).story identity =
      m.state.context env.story identity := rfl
  unfold changeContext
  rw [hcontext]
  cases m.state.context env.story identity with
  | error _ => exact endings_stop _ m e
  | ok c => exact endings_done .intro (.of_eq rfl)

theorem endings_descend : Endings E Anything (descend env) (descend (env.watching watch)) := by
  intro m e
  by_cases hdeep : 0 < env.limits.depth ∧ env.limits.depth.toNat ≤ m.depth
  · have hdeep' : 0 < (env.watching watch).limits.depth ∧
        (env.watching watch).limits.depth.toNat ≤ (m.withEvents e).depth := hdeep
    rw [descend, descend, if_pos hdeep, if_pos hdeep']
    exact endings_stop _ m e
  · have hdeep' : ¬ (0 < (env.watching watch).limits.depth ∧
        (env.watching watch).limits.depth.toNat ≤ (m.withEvents e).depth) := hdeep
    rw [descend, descend, if_neg hdeep, if_neg hdeep']
    exact endings_done .intro (.of_eq rfl)

variable (env watch)

theorem beside_openFrame (f : Frame) (name : String) (m : Machine) (e : Array Event) :
    ∃ news, EndingFree E news ∧ Beside m e (openFrame env f name m)
      (openFrame (env.watching watch) f name (m.withEvents e)) news := by
  have htraced := m.traced_withEvents env watch .context
    (fun _ => "push frame " ++ f.element.text) e rfl
  obtain ⟨news, hnews, hbeside, hquiet⟩ := beside_watched env watch .scopes
    (fun m => .enter f.scope (m.frames.length + 1) f.element.identity name) (fun _ _ => rfl)
    (m.traced env .context fun _ => "push frame " ++ f.element.text) e
  refine ⟨news, endingFree_of_forall_eq hnews rfl, ?_, ?_⟩
  · simp only [openFrame, htraced, hbeside]
    rfl
  · exact (Machine.quiet_traced env _ _).trans hquiet

theorem beside_closeFrame (scope : Scope) (name : String) (m : Machine) (e : Array Event) :
    ∃ news, EndingFree E news ∧ Beside m e (closeFrame env scope name m)
      (closeFrame (env.watching watch) scope name (m.withEvents e)) news := by
  have hframes : (m.withEvents e).frames = m.frames := rfl
  unfold closeFrame
  rw [hframes]
  cases m.frames with
  | nil => exact ⟨#[], .none, .of_quiet (.of_eq rfl)⟩
  | cons f rest =>
    obtain ⟨news, hnews, hbeside, hquiet⟩ := beside_watched env watch .scopes
      (fun m => .leave scope m.frames.length f.element.identity name) (fun _ _ => rfl) m e
    refine ⟨news, endingFree_of_forall_eq hnews rfl, ?_, ?_⟩
    · simp only [hbeside]
      exact Machine.traced_withEvents { m.watched env .scopes _ with frames := rest } env watch
        .context _ (e ++ news) rfl
    · exact hquiet.trans (.trans (.of_eq rfl) (Machine.quiet_traced env _ _))

variable {env watch}

theorem endings_callBlock {run run' : Block → Exec Unit} (f : Frame) (name : String)
    (block : Block) (hrun : Endings E Anything (run block) (run' block)) :
    Endings E Anything (callBlock env run f name block)
      (callBlock (env.watching watch) run' f name block) := by
  intro m e
  obtain ⟨news, hfree, hopen⟩ := beside_openFrame env watch f name m e
  have hran := (hrun (openFrame env f name m) (e ++ news)).after hopen.quiet hfree
  rw [← hopen.beside] at hran
  exact (hran.afterwards (beside_closeFrame env watch f.scope name)).settle m.stack.height

theorem endings_goesOn (hnext : ¬ E .nextRound) (hleave : ¬ E .leaveLoop) {x y : Exec Unit}
    (hx : Endings E Anything x y) : Endings E Anything (fun m => goesOn env (x m))
      fun m => goesOn (env.watching watch) (y m) := by
  intro m e
  have h := hx m e
  dsimp only
  generalize x m = p at h ⊢
  generalize y (m.withEvents e) = q at h ⊢
  cases h with
  | done known came free => exact .done .intro came free
  | @stopped s n n' news came ends =>
    obtain ⟨rfl, quiet⟩ := came
    have hfree : ¬ s.IsImbalance → ¬ E s → EndingFree E news := fun hi hs =>
      Outcome.Endings.free_of_ends hs hi ends
    cases s with
    | nextRound => exact .done .intro ⟨rfl, quiet⟩ (hfree (by simp [Signal.IsImbalance]) hnext)
    | leaveLoop =>
      have htraced := n.traced_withEvents env watch .control (fun _ => "BREAK") (e ++ news) rfl
      refine .done .intro ⟨htraced, quiet.trans (Machine.quiet_traced env _ _)⟩ ?_
      exact hfree (by simp [Signal.IsImbalance]) hleave
    | _ => exact .stopped ⟨rfl, quiet⟩ ends
  | exhausted => exact .exhausted

theorem rules_endings (hE : ∀ s, E s → s = .finish ∨ s = .quit ∨ s = .endHandler) :
    Rules env (env.watching watch) Anything Anything Anything (Endings E) where
  story := rfl
  grounds := .trivial env.story
  mono := Endings.mono
  pure known _ _ := endings_done known (.of_eq rfl)
  bind := Endings.bind
  fault f := endings_stop _
  see f hf m _ := endings_done (hf m.state .intro) (.of_eq rfl)
  ask := endings_ask
  trace := endings_trace
  misuse message := endings_stop _
  push _ := endings_silent (fun _ _ => rfl) fun _ => rfl
  pop := endings_pop
  popMany op n := (endings_popMany op n).mono fun _ _ _ _ => .intro
  emit hc _ := endings_change (fun _ _ => rfl) fun _ => .of_push hc
  frame := endings_frame
  setLocals _ := endings_silent
    (fun m _ => by cases hf : m.frames <;> simp [Machine.withEvents, hf])
    fun m => by cases m.frames <;> rfl
  changeContext identity f _ := endings_changeContext identity f
  newList _ _ _ := endings_done .intro (.of_eq rfl)
  changeList _ _ := endings_silent (fun _ _ => rfl) fun _ => rfl
  draw f _ _ := endings_done .intro (.of_eq rfl)
  change c _ := endings_silent (fun _ _ => rfl) fun _ => rfl
  exhausted _ _ := .exhausted
  stop _ _ := endings_stop _
  quit := (endings_change (fun _ _ => rfl) fun _ => .of_push rfl).bind fun _ _ => endings_stop _
  queue i := (endings_trace fun _ _ _ => rfl).bind fun _ _ =>
    endings_silent (fun _ _ => rfl) fun _ => rfl
  callBlock name block _ _ hrun := endings_callBlock _ name block hrun
  giveBack _ := by
    refine Endings.bind (P := Anything) ?_ fun _ _ => endings_stop .giveBack
    exact endings_silent (fun _ _ => rfl) fun _ => rfl
  deeper hx := endings_descend.bind fun _ _ m e => by
    have hdepth : ∀ (n : Machine) (e : Array Event), ∃ news, EndingFree E news ∧
        Beside n e { n with depth := n.depth - 1 }
          { n.withEvents e with depth := (n.withEvents e).depth - 1 } news :=
      fun n e => ⟨#[], .none, .of_quiet (.of_eq rfl)⟩
    exact ((hx m e).afterwards hdepth).returned fun hs => by simpa using hE _ hs
  weigh hx m e := (hx m e).weighed m.stack.height
  goesOn := endings_goesOn (fun hs => by simpa using hE _ hs) fun hs => by simpa using hE _ hs

theorem endings_count : Endings E Anything (count env) (count (env.watching watch)) := by
  intro m e
  by_cases hspent : 0 < env.limits.operations ∧ env.limits.operations.toNat ≤ m.operations + 1
  · have hspent' : 0 < (env.watching watch).limits.operations ∧
        (env.watching watch).limits.operations.toNat ≤ (m.withEvents e).operations + 1 := hspent
    simp only [count]
    rw [if_pos hspent, if_pos hspent']
    exact .halt ⟨by simp [Machine.withEvents], .of_eq rfl⟩ .none
  · have hspent' : ¬ (0 < (env.watching watch).limits.operations ∧
        (env.watching watch).limits.operations.toNat ≤ (m.withEvents e).operations + 1) := hspent
    simp only [count]
    rw [if_neg hspent, if_neg hspent']
    exact endings_done .intro (.of_eq rfl)

/-- An operation that ends something tells of no failure and raises its signal. -/
theorem perform_of_ending {op : Operation} {s : Signal} (h : op.opcode.ending? = some s) :
    ∃ told : Array Cue, (∀ c ∈ told, c.kind.isFailure = false) ∧
      ∀ (env : Env) (run : Block → Exec Unit) (limit : Nat) (m : Machine),
        perform env run limit op m = .stopped s { m with cues := m.cues ++ told } := by
  unfold Opcode.ending? at h
  split at h
  · rename_i hop
    cases h
    refine ⟨#[], by simp, fun env run limit m => ?_⟩
    simp [perform, hop, controlOp]
  · rename_i hop
    cases h
    refine ⟨#[{ kind := .quit }], by simp [CueKind.isFailure], fun env run limit m => ?_⟩
    simp [perform, hop, controlOp, emit, bind_apply]
  · rename_i hop
    cases h
    refine ⟨#[], by simp, fun env run limit m => ?_⟩
    simp [perform, hop, controlOp]
  · cases h

theorem endings_execute (hE : ∀ s, E s → s = .finish ∨ s = .quit ∨ s = .endHandler)
    {run run' : Block → Exec Unit} (limit : Nat) {op : Operation} (hfits : op.Fits Anything)
    (hrun : ∀ {block : Block}, block.Fits Anything → Endings E Anything (run block) (run' block)) :
    Endings E Anything (execute env run limit op)
      (execute (env.watching watch) run' limit op) := by
  let event (m : Machine) : Event := .operation op.opcode m.operations
  have hwatched := beside_watched env watch .operations event fun _ _ => rfl
  cases hop : op.opcode.ending? with
  | none =>
    have hrecord : Endings E Anything (record env .operations event)
        (record (env.watching watch) .operations event) := by
      intro m e
      obtain ⟨news, hnews, hbeside⟩ := hwatched m e
      exact .done .intro hbeside (endingFree_of_forall_eq hnews hop)
    exact (rules_endings hE).execute hrun endings_count limit hfits hrecord
  | some s =>
    obtain ⟨told, htold, hperform⟩ := perform_of_ending hop
    refine endings_count.bind fun _ _ m e => ?_
    obtain ⟨news, hnews, hbeside, hquiet⟩ := hwatched m e
    let text (m : Machine) : String := operationText m.state.heap op
    have htraced := (m.watched env .operations event).traced_withEvents env watch .internal text
      (e ++ news) rfl
    show Outcome.Endings E Anything m e
      (perform env run limit op ((m.watched env .operations event).traced env .internal text))
      (perform (env.watching watch) run' limit op
        (((m.withEvents e).watched (env.watching watch) .operations event).traced
          (env.watching watch) .internal text))
    rw [hperform, hperform, hbeside, htraced]
    have htold' : ∀ n : Machine, n.Quiet { n with cues := n.cues ++ told } := by
      intro n c hc
      rcases Array.mem_append.mp hc with hc | hc
      · exact .inl hc
      · exact .inr (htold c hc)
    refine .stopped ⟨rfl, hquiet.trans ((Machine.quiet_traced env _ _).trans (htold' _))⟩ ?_
    intro v hv s' hs _
    have hv' : v.ending? = some s := by rw [hnews v hv]; exact hop
    exact .inl (Option.some.inj (hv'.symm.trans hs))

theorem endings_runBlock (hE : ∀ s, E s → s = .finish ∨ s = .quit ∨ s = .endHandler)
    (fuel : Nat) (block : Block) :
    Endings E Anything (runBlock env fuel block) (runBlock (env.watching watch) fuel block) :=
  (rules_endings hE).runBlock (fun limit _ hop hrun => endings_execute hE limit hop hrun) fuel
    fun _ _ _ => .intro

theorem endings_nextInvocation : Endings E Anything nextInvocation nextInvocation := by
  intro m e
  have hqueue : (m.withEvents e).queued[(m.withEvents e).served]? = m.queued[m.served]? := rfl
  unfold nextInvocation
  rw [hqueue]
  cases m.queued[m.served]? with
  | none => exact endings_done .intro (.of_eq rfl)
  | some i => exact endings_done .intro (.of_eq rfl)

theorem endings_runEntry (env : Env) (watch : TraceMask) (fuel : Nat) (e : ElementRef)
    (entry : Entry) (locals : Table Value) :
    Endings (fun s => s = .finish ∨ s = .quit ∨ s = .endHandler) Anything
      (runEntry env (runBlock env fuel) e entry locals)
      (runEntry (env.watching watch) (runBlock (env.watching watch) fuel) e entry locals) :=
  (rules_endings fun _ hs => hs).runEntry (fun _ => endings_runBlock (fun _ hs => hs) fuel _) .intro
    entry fun _ _ _ => .intro

/-- Inside handlers all endings stop what runs, outside only those of the request. -/
theorem requestRules_endings (env : Env) (watch : TraceMask) (fuel : Nat) :
    RequestRules env (env.watching watch) (runBlock env fuel) (runBlock (env.watching watch) fuel)
      Anything Anything Anything (Endings fun s => s = .finish ∨ s = .quit) where
  toBasics := (rules_endings fun _ hs => hs.elim .inl fun hs => .inr (.inl hs)).toBasics
  grounds := .trivial env.story
  exhausted _ _ := .exhausted
  runHandler {e} entry locals _ _ m events :=
    (endings_runEntry env watch fuel e entry locals m events).handled
      (fun _ hs => hs.elim .inl fun hs => .inr (.inl hs)) (by rintro s (rfl | rfl) <;> simp)
  next := endings_nextInvocation
  enqueue i := endings_silent (fun _ _ => rfl) fun _ => rfl

theorem endings_setUp (env : Env) (watch : TraceMask) (fuel : Nat) :
    Endings (fun s => s = .finish ∨ s = .quit) Anything (setUp env fuel)
      (setUp (env.watching watch) fuel) := by
  rw [setUp_eq, setUp_eq]
  exact (requestRules_endings env watch fuel).setUpWith fuel

theorem endings_command (env : Env) (watch : TraceMask) (fuel : Nat) (i : Invocation) :
    Endings (fun s => s = .finish ∨ s = .quit) Anything (command env fuel i)
      (command (env.watching watch) fuel i) := by
  rw [command_eq, command_eq]
  exact (requestRules_endings env watch fuel).commandWith fuel i

end Exec

end Fabula
