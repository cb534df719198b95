import Fabula.Proofs.Machine.Keeping
import Fabula.Proofs.Request.Rules

/-! What a request tells, cue by cue. Cues are only ever added behind those that are there. The
operation that quits tells so and raises a signal that nothing catches. So nothing is told after it
but of frames that are closed on the way out, and no operation is dispatched any more. -/

namespace Fabula

def Cue.Ordinary (c : Cue) : Prop := c.kind.isFailure = false ∧ c.kind ≠ .quit

def Cue.IsTrace (c : Cue) : Prop := c.kind.isTrace = true

theorem Cue.IsTrace.ordinary {c : Cue} (h : c.IsTrace) : c.Ordinary := by
  obtain ⟨kind, content⟩ := c
  cases kind <;> simp_all [IsTrace, Ordinary, CueKind.isTrace, CueKind.isFailure]

namespace Machine

def Going (m : Machine) : Prop := ∀ c ∈ m.cues, c.kind ≠ .quit

/-- All that the second machine has told was told by the first, but for cues of a kind after that. -/
def Adds (p : Cue → Prop) (m n : Machine) : Prop :=
  ∃ news, n.cues.toList = m.cues.toList ++ news ∧ ∀ c ∈ news, p c

variable {p q : Cue → Prop} {m n k : Machine}

namespace Adds

theorem of_eq (h : n.cues = m.cues) : m.Adds p n := ⟨[], by simp [h], by simp⟩

theorem push {c : Cue} (hc : p c) : m.Adds p { m with cues := m.cues.push c } :=
  ⟨[c], by simp, by simpa using hc⟩

theorem trans (h : m.Adds p n) (h' : n.Adds p k) : m.Adds p k := by
  obtain ⟨news, hnews, hp⟩ := h
  obtain ⟨later, hlater, hp'⟩ := h'
  refine ⟨news ++ later, by simp [hlater, hnews], fun c hc => ?_⟩
  rcases List.mem_append.mp hc with hc | hc
  · exact hp c hc
  · exact hp' c hc

theorem mono (h : m.Adds p n) (hpq : ∀ c, p c → q c) : m.Adds q n := by
  obtain ⟨news, hnews, hp⟩ := h
  exact ⟨news, hnews, fun c hc => hpq c (hp c hc)⟩

theorem ordinary (h : m.Adds Cue.IsTrace n) : m.Adds Cue.Ordinary n :=
  h.mono fun _ hc => hc.ordinary

theorem isPrefix (h : m.Adds p n) : m.cues.toList <+: n.cues.toList := by
  obtain ⟨news, hnews, -⟩ := h
  exact ⟨news, hnews.symm⟩

theorem going (h : m.Adds Cue.Ordinary n) (hm : m.Going) : n.Going := by
  obtain ⟨news, hnews, hp⟩ := h
  intro c hc
  rw [← Array.mem_toList_iff, hnews, List.mem_append, Array.mem_toList_iff] at hc
  rcases hc with hc | hc
  · exact hm c hc
  · exact (hp c hc).2

end Adds

theorem adds_traced (env : Env) (topic : Topic) (message : Machine → String) :
    m.Adds Cue.IsTrace (m.traced env topic message) := by
  by_cases h : env.trace.traces topic = true
  · simp only [traced, h, if_true]
    exact .push rfl
  · simp only [traced, h]
    exact .of_eq rfl

theorem adds_watched (env : Env) (wanted : TraceMask) (event : Machine → Event) :
    m.Adds p (m.watched env wanted event) := by
  obtain ⟨events, hevents⟩ := m.watched_eq env wanted event
  exact .of_eq (by simp [hevents])

theorem adds_openFrame (env : Env) (f : Frame) (name : String) :
    m.Adds Cue.IsTrace (Exec.openFrame env f name m) :=
  ((adds_traced env _ _).trans (adds_watched env _ _)).trans (.of_eq rfl)

theorem adds_closeFrame (env : Env) (scope : Scope) (name : String) :
    m.Adds Cue.IsTrace (Exec.closeFrame env scope name m) := by
  unfold Exec.closeFrame
  cases m.frames with
  | nil => exact .of_eq rfl
  | cons f rest =>
    exact ((adds_watched env _ _).trans (.of_eq rfl)).trans (adds_traced env _ _)

def quitting (m : Machine) : Machine := { m with cues := m.cues.push { kind := .quit } }

end Machine

def Signal.Passes (s : Signal) : Prop := s = .quit ∨ s.isFailure = true

variable {α β : Type} {P : α → Prop} {Q : β → Prop}

/-- What a computation from `m` told. The end is told once if at all, the computation is then
stopped by a signal that nothing catches, and only traces come after. -/
inductive Outcome.Tells (P : α → Prop) (m : Machine) : Outcome α → Prop
  | done {a : α} {n : Machine} (known : P a) (told : m.Adds Cue.Ordinary n) : Tells P m (.done a n)
  | stopped {s : Signal} {n : Machine} (told : m.Adds Cue.Ordinary n) : Tells P m (.stopped s n)
  | quit {s : Signal} {k n : Machine} (before : m.Adds Cue.Ordinary k)
      (after : k.quitting.Adds Cue.IsTrace n) (passes : s.Passes) : Tells P m (.stopped s n)
  | exhausted : Tells P m .exhausted

namespace Outcome.Tells

variable {m k : Machine} {o : Outcome α}

theorem mono {P' : α → Prop} (h : o.Tells P m) (hP : ∀ a, P a → P' a) : o.Tells P' m := by
  cases h with
  | done known told => exact .done (hP _ known) told
  | stopped told => exact .stopped told
  | quit before after passes => exact .quit before after passes
  | exhausted => exact .exhausted

theorem earlier (hk : k.Adds Cue.Ordinary m) (h : o.Tells P m) : o.Tells P k := by
  cases h with
  | done known told => exact .done known (hk.trans told)
  | stopped told => exact .stopped (hk.trans told)
  | quit before after passes => exact .quit (hk.trans before) after passes
  | exhausted => exact .exhausted

theorem afterwards (h : o.Tells P m) {after : Machine → Machine}
    (hafter : ∀ n : Machine, n.Adds Cue.IsTrace (after n)) :
    (Exec.afterwards after o).Tells P m := by
  cases h with
  | done known told => exact .done known (told.trans (hafter _).ordinary)
  | stopped told => exact .stopped (told.trans (hafter _).ordinary)
  | quit before later passes => exact .quit before (later.trans (hafter _)) passes
  | exhausted => exact .exhausted

theorem settle (h : o.Tells P m) (height : Nat) : (Exec.settle height o).Tells P m := by
  cases h with
  | exhausted => exact .exhausted
  | @done a n known told =>
    by_cases hheight : n.stack.height = height
    · simpa only [Exec.settle, if_pos hheight] using .done known told
    · simp only [Exec.settle, if_neg hheight]
      exact .stopped told
  | @stopped s n told =>
    simp only [Exec.settle]
    split
    · exact .stopped told
    · split
      · exact .stopped told
      · exact .stopped told
  | quit before after passes =>
    simp only [Exec.settle]
    split
    · exact .quit before after passes
    · split
      · exact .quit before after passes
      · exact .quit before after (.inr rfl)

theorem weighed {o : Outcome Unit} (h : o.Tells Anything m) (height : Nat) :
    (Exec.weighed height o).Tells Anything m := by
  cases h with
  | exhausted => exact .exhausted
  | @done a n known told =>
    by_cases hheight : n.stack.height = height + 1
    · simpa only [Exec.weighed, if_pos hheight] using .done .intro told
    · simp only [Exec.weighed, if_neg hheight]
      exact .stopped told
  | stopped told => exact .stopped told
  | quit before after passes => exact .quit before after passes

theorem returned {o : Outcome Unit} (h : o.Tells Anything m) :
    (Exec.returned o).Tells Anything m := by
  cases h with
  | exhausted => exact .exhausted
  | done known told => exact .done .intro told
  | @stopped s n told =>
    cases s with
    | giveBack => exact .done .intro told
    | _ => exact .stopped told
  | @quit s k n before after passes =>
    cases s with
    | giveBack => simp [Signal.Passes, Signal.isFailure] at passes
    | _ => exact .quit before after passes

theorem goesOn {o : Outcome Unit} (h : o.Tells Anything m) (env : Env) :
    (Exec.goesOn env o).Tells Anything m := by
  cases h with
  | exhausted => exact .exhausted
  | done known told => exact .done .intro told
  | @stopped s n told =>
    cases s with
    | nextRound => exact .done .intro told
    | leaveLoop => exact .done .intro (told.trans (Machine.adds_traced env _ _).ordinary)
    | _ => exact .stopped told
  | @quit s k n before after passes =>
    cases s with
    | nextRound | leaveLoop => simp [Signal.Passes, Signal.isFailure] at passes
    | _ => exact .quit before after passes

theorem handled {o : Outcome Bool} (h : o.Tells Anything m) :
    (Exec.handled o).Tells Anything m := by
  cases h with
  | exhausted => exact .exhausted
  | done known told => exact .done .intro told
  | @stopped s n told =>
    cases s with
    | endHandler | leaveLoop | nextRound | giveBack => exact .done .intro told
    | _ => exact .stopped told
  | @quit s k n before after passes =>
    cases s with
    | endHandler | leaveLoop | nextRound | giveBack =>
      simp [Signal.Passes, Signal.isFailure] at passes
    | _ => exact .quit before after passes

end Outcome.Tells

namespace Exec

def Tells {α : Type} (P : α → Prop) (x y : Exec α) : Prop :=
  ∀ m : Machine, m.Going → y m = x m ∧ (x m).Tells P m

theorem tells_of {x : Exec α} (h : ∀ m, (x m).Tells P m) : Tells P x x := fun m _ => ⟨rfl, h m⟩

theorem Tells.mono {P' : α → Prop} {x y : Exec α} (hP : ∀ a, P a → P' a) (hx : Tells P x y) :
    Tells P' x y :=
  fun m hm => ⟨(hx m hm).1, (hx m hm).2.mono hP⟩

theorem Tells.bind {x y : Exec α} {f g : α → Exec β} (hx : Tells P x y)
    (hf : ∀ a, P a → Tells Q (f a) (g a)) : Tells Q (x >>= f) (y >>= g) := by
  intro m hm
  obtain ⟨hsame, htells⟩ := hx m hm
  rw [bind_apply, bind_apply, hsame]
  generalize x m = o at htells ⊢
  cases htells with
  | exhausted => exact ⟨rfl, .exhausted⟩
  | stopped told => exact ⟨rfl, .stopped told⟩
  | quit before after passes => exact ⟨rfl, .quit before after passes⟩
  | @done a n known told =>
    obtain ⟨hsame', htells'⟩ := hf a known n (told.going hm)
    exact ⟨hsame', htells'.earlier told⟩

theorem Tells.through {x y : Exec α} (hx : Tells P x y) {after : Machine → Outcome α → Outcome β}
    (hafter : ∀ m o, Outcome.Tells P m o → (after m o).Tells Q m) :
    Tells Q (fun m => after m (x m)) fun m => after m (y m) := by
  intro m hm
  obtain ⟨hsame, htells⟩ := hx m hm
  exact ⟨by simp only [hsame], hafter m _ htells⟩

theorem tells_silent {x : Exec α}
    (hx : ∀ m, (∃ a n, x m = .done a n ∧ P a ∧ n.cues = m.cues) ∨
      ∃ s n, x m = .stopped s n ∧ n.cues = m.cues) : Tells P x x := by
  refine tells_of fun m => ?_
  rcases hx m with ⟨a, n, hx, known, hcues⟩ | ⟨s, n, hx, hcues⟩
  · rw [hx]
    exact .done known (.of_eq hcues)
  · rw [hx]
    exact .stopped (.of_eq hcues)

theorem tells_discreet {x : Exec α} (hx : Discreet P x) : Tells P x x := by
  refine tells_silent fun m => ?_
  rcases hx m with ⟨a, state, stack, hx, known⟩ | ⟨s, hx⟩
  · exact .inl ⟨a, _, hx, known, rfl⟩
  · exact .inr ⟨s, m, hx, rfl⟩

theorem tells_change {f : Machine → Machine} (hf : ∀ m : Machine, m.Adds Cue.Ordinary (f m)) :
    Tells Anything (change f) (change f) :=
  tells_of fun m => .done .intro (hf m)

theorem tells_aside {f : Machine → Machine} (hf : ∀ m, (f m).cues = m.cues) :
    Tells Anything (change f) (change f) :=
  tells_change fun m => .of_eq (hf m)

theorem tells_setLocals (locals : Table Value) :
    Tells Anything (setLocals locals) (setLocals locals) := by
  refine tells_aside fun m => ?_
  cases m.frames <;> rfl

variable {env : Env}

theorem tells_trace (topic : Topic) (message : Machine → String) :
    Tells Anything (trace env topic message) (trace env topic message) :=
  tells_change fun _ => (Machine.adds_traced env topic message).ordinary

theorem tells_record (wanted : TraceMask) (event : Machine → Event) :
    Tells Anything (record env wanted event) (record env wanted event) :=
  tells_change fun _ => Machine.adds_watched env wanted event

theorem tells_count : Tells Anything (count env) (count env) := by
  refine tells_silent fun m => ?_
  simp only [count]
  split
  · exact .inr ⟨_, _, rfl, rfl⟩
  · exact .inl ⟨_, _, rfl, .intro, rfl⟩

theorem tells_quit : Tells Anything quit quit :=
  tells_of fun m => .quit (k := m) (.of_eq rfl) (.of_eq rfl) (.inl rfl)

theorem tells_callBlock {run run' : Block → Exec Unit} (f : Frame) (name : String) (block : Block)
    (hrun : Tells Anything (run block) (run' block)) :
    Tells Anything (callBlock env run f name block) (callBlock env run' f name block) := by
  intro m hm
  have hopen : m.Adds Cue.Ordinary (openFrame env f name m) :=
    (Machine.adds_openFrame env f name).ordinary
  obtain ⟨hsame, htells⟩ := hrun _ (hopen.going hm)
  refine ⟨by simp only [callBlock, hsame], Outcome.Tells.settle ?_ _⟩
  exact (htells.earlier hopen).afterwards fun n => n.adds_closeFrame env f.scope name

theorem tells_deeper {x y : Exec Unit} (hx : Tells Anything x y) :
    Tells Anything (deeper env x) (deeper env y) := by
  have hdescend : Tells Anything (descend env) (descend env) := by
    refine tells_silent fun m => ?_
    unfold descend
    split
    · exact .inr ⟨_, _, rfl, rfl⟩
    · exact .inl ⟨_, _, rfl, .intro, rfl⟩
  refine hdescend.bind fun _ _ => hx.through fun m o ho => Outcome.Tells.returned ?_
  exact ho.afterwards fun n => .of_eq rfl

theorem rules_tells (env : Env) : Rules env env Anything Anything Anything Tells where
  toSteps := .of_discreet Tells.mono Tells.bind tells_discreet tells_trace
    (fun hfailure hquit => tells_change fun _ => .push ⟨hfailure, hquit⟩) tells_setLocals
  exhausted := tells_of fun _ => .exhausted
  stop _ _ := tells_discreet (discreet_stop _)
  quit := tells_quit
  queue _ := (tells_trace _ _).bind fun _ _ => tells_aside fun _ => rfl
  callBlock name block _ _ hrun := tells_callBlock _ name block hrun
  giveBack _ := Tells.bind (tells_aside fun _ => rfl) fun _ _ =>
    tells_discreet (discreet_stop .giveBack)
  deeper := tells_deeper
  weigh hx := hx.through fun m _ ho => ho.weighed m.stack.height
  goesOn hx := hx.through fun _ _ ho => ho.goesOn env

section

variable {guard : Guard} (hguard : ∀ (op : Operation) (x : Exec Unit) (m : Machine), m.Going →
  (x m).Tells Anything m → guard op x m = x m)

include hguard

/-- A guard that lets pass what tells in order is not seen: no operation is dispatched once the end
has been told. -/
theorem tells_runGuarded (env : Env) (fuel : Nat) (block : Block) :
    Tells Anything (runBlock env fuel block) (runGuarded guard env fuel block) := by
  refine (rules_tells env).runGuarded (fun limit op hop hrun m hm => ?_) fuel fun _ _ _ => .intro
  obtain ⟨hsame, htells⟩ := (rules_tells env).execute hrun tells_count limit hop
    (tells_record _ _) m hm
  rw [hguard op _ m hm (hsame ▸ htells)]
  exact ⟨hsame, htells⟩

theorem requestRules_tells (env : Env) (fuel : Nat) :
    RequestRules env env (runBlock env fuel) (runGuarded guard env fuel) Anything Anything Anything
      Tells where
  toBasics := (rules_tells env).toBasics
  grounds := .trivial env.story
  exhausted := (rules_tells env).exhausted
  runHandler entry _ he hlocals := by
    have hrun := tells_runGuarded hguard env fuel
    exact ((rules_tells env).runEntry (fun _ => hrun _) he entry hlocals).through
      fun _ _ ho => ho.handled
  next := by
    refine tells_silent fun m => .inl ?_
    unfold nextInvocation
    cases m.queued[m.served]? with
    | none => exact ⟨_, _, rfl, .intro, rfl⟩
    | some i => exact ⟨_, _, rfl, .intro, rfl⟩
  enqueue i := tells_aside fun _ => rfl

end

end Exec

end Fabula
