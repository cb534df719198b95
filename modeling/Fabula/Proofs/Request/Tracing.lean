import Fabula.Proofs.Request.Rules

/-! Tracing only tells of what goes on. Two requests that differ in what is traced and watched run
side by side: their machines are the same at every step, once trace cues and events are left out. -/

namespace Fabula

def untracedCues (cues : Array Cue) : Array Cue := cues.filter fun c => !c.kind.isTrace

/-- Machines that are the same but for trace cues and events. -/
structure Machine.Untraced (m n : Machine) : Prop where
  state : n.state = m.state
  stack : n.stack = m.stack
  frames : n.frames = m.frames
  queued : n.queued = m.queued
  served : n.served = m.served
  operations : n.operations = m.operations
  depth : n.depth = m.depth
  depthPeak : n.depthPeak = m.depthPeak
  pendingReturn : n.pendingReturn = m.pendingReturn
  cues : untracedCues n.cues = untracedCues m.cues

namespace Machine.Untraced

variable {m n : Machine}

theorem refl (m : Machine) : m.Untraced m := ⟨rfl, rfl, rfl, rfl, rfl, rfl, rfl, rfl, rfl, rfl⟩

theorem symm (h : m.Untraced n) : n.Untraced m where
  state := h.state.symm
  stack := h.stack.symm
  frames := h.frames.symm
  queued := h.queued.symm
  served := h.served.symm
  operations := h.operations.symm
  depth := h.depth.symm
  depthPeak := h.depthPeak.symm
  pendingReturn := h.pendingReturn.symm
  cues := h.cues.symm

theorem traced_right (h : m.Untraced n) (env : Env) (topic : Topic) (message : Machine → String) :
    m.Untraced (n.traced env topic message) := by
  unfold Machine.traced
  split
  · have hcues : untracedCues (n.cues.push (.saying (.trace topic) (message n))) =
        untracedCues n.cues := by
      simp [untracedCues, Cue.saying, CueKind.isTrace]
    exact { h with cues := hcues.trans h.cues }
  · exact h

theorem watched_right (h : m.Untraced n) (env : Env) (wanted : TraceMask)
    (event : Machine → Event) : m.Untraced (n.watched env wanted event) := by
  unfold Machine.watched
  split
  · exact { h with }
  · exact h

theorem traced (h : m.Untraced n) (env env' : Env) (topic : Topic) (message : Machine → String) :
    (m.traced env topic message).Untraced (n.traced env' topic message) :=
  ((h.traced_right env' topic message).symm.traced_right env topic message).symm

theorem watched (h : m.Untraced n) (env env' : Env) (wanted : TraceMask)
    (event : Machine → Event) :
    (m.watched env wanted event).Untraced (n.watched env' wanted event) :=
  ((h.watched_right env' wanted event).symm.watched_right env wanted event).symm

theorem tell (h : m.Untraced n) (c : Cue) :
    { m with cues := m.cues.push c }.Untraced { n with cues := n.cues.push c } := by
  have hcues : untracedCues (n.cues.push c) = untracedCues (m.cues.push c) := by
    have hfilter := h.cues
    unfold untracedCues at hfilter ⊢
    rw [Array.filter_push, Array.filter_push, hfilter]
  exact { h with cues := hcues }

theorem cut (h : m.Untraced n) (height : Nat) :
    { m with stack := m.stack.bottom height }.Untraced
      { n with stack := n.stack.bottom height } :=
  { h with stack := by rw [h.stack] }

theorem openFrame (h : m.Untraced n) (env env' : Env) (f : Frame) (name : String) :
    (Exec.openFrame env f name m).Untraced (Exec.openFrame env' f name n) := by
  have hwatched := (h.traced env env' .context fun _ => "push frame " ++ f.element.text).watched
    env env' .scopes fun m => .enter f.scope (m.frames.length + 1) f.element.identity name
  exact { hwatched with frames := congrArg (f :: ·) hwatched.frames }

theorem closeFrame (h : m.Untraced n) (env env' : Env) (scope : Scope) (name : String) :
    (Exec.closeFrame env scope name m).Untraced (Exec.closeFrame env' scope name n) := by
  unfold Exec.closeFrame
  rw [h.frames]
  split
  · exact h
  · rename_i f rest _
    have hwatched := h.watched env env' .scopes fun m =>
      .leave scope m.frames.length f.element.identity name
    have hrest : { m.watched env .scopes _ with frames := rest }.Untraced
        { n.watched env' .scopes _ with frames := rest } := { hwatched with frames := rfl }
    exact hrest.traced env env' _ _

end Machine.Untraced

def Env.tracing (env : Env) (trace watch : TraceMask) : Env :=
  { env with trace := trace, watch := watch }

variable {α β : Type} {P : α → Prop}

inductive Outcome.Untraced (P : α → Prop) : Outcome α → Outcome α → Prop
  | done {a : α} {m n : Machine} (known : P a) (same : m.Untraced n) :
      Untraced P (.done a m) (.done a n)
  | stopped {s : Signal} {m n : Machine} (same : m.Untraced n) :
      Untraced P (.stopped s m) (.stopped s n)
  | exhausted : Untraced P .exhausted .exhausted

namespace Outcome.Untraced

theorem afterwards {x y : Outcome α} (h : Untraced P x y) {f g : Machine → Machine}
    (hfg : ∀ m n : Machine, m.Untraced n → (f m).Untraced (g n)) :
    Untraced P (Exec.afterwards f x) (Exec.afterwards g y) := by
  cases h with
  | done known same => exact .done known (hfg _ _ same)
  | stopped same => exact .stopped (hfg _ _ same)
  | exhausted => exact .exhausted

theorem settle {x y : Outcome α} (h : Untraced P x y) (height : Nat) :
    Untraced P (Exec.settle height x) (Exec.settle height y) := by
  cases h with
  | @done a m n known same =>
    have hcut := same.cut height
    rw [same.stack] at hcut
    simp only [Exec.settle, same.stack]
    split
    · exact .done known same
    · exact .stopped hcut
  | @stopped s m n same =>
    have hcut := same.cut height
    rw [same.stack] at hcut
    simp only [Exec.settle, same.stack]
    split
    · exact .stopped hcut
    · split
      · exact .stopped same
      · exact .stopped hcut
  | exhausted => exact .exhausted

theorem weighed {x y : Outcome Unit} (h : Untraced Anything x y) (height : Nat) :
    Untraced Anything (Exec.weighed height x) (Exec.weighed height y) := by
  cases h with
  | done known same =>
    have hcut := same.cut height
    rw [same.stack] at hcut
    simp only [Exec.weighed, same.stack]
    split
    · exact .done .intro same
    · exact .stopped hcut
  | stopped same => exact .stopped same
  | exhausted => exact .exhausted

theorem returned {x y : Outcome Unit} (h : Untraced Anything x y) :
    Untraced Anything (Exec.returned x) (Exec.returned y) := by
  cases h with
  | done known same => exact .done .intro same
  | @stopped s m n same =>
    cases s with
    | giveBack =>
      simp only [Exec.returned, same.pendingReturn]
      exact .done .intro { same with pendingReturn := rfl }
    | _ => exact .stopped same
  | exhausted => exact .exhausted

theorem goesOn {x y : Outcome Unit} (h : Untraced Anything x y) (env env' : Env) :
    Untraced Anything (Exec.goesOn env x) (Exec.goesOn env' y) := by
  cases h with
  | done known same => exact .done .intro same
  | @stopped s m n same =>
    cases s with
    | nextRound => exact .done .intro same
    | leaveLoop => exact .done .intro (same.traced env env' _ _)
    | _ => exact .stopped same
  | exhausted => exact .exhausted

theorem handled {x y : Outcome Bool} (h : Untraced Anything x y) :
    Untraced Anything (Exec.handled x) (Exec.handled y) := by
  cases h with
  | done known same => exact .done .intro same
  | @stopped s m n same =>
    cases s with
    | endHandler | leaveLoop | nextRound => exact .done .intro same
    | giveBack => exact .done .intro { same with pendingReturn := rfl }
    | _ => exact .stopped same
  | exhausted => exact .exhausted

end Outcome.Untraced

namespace Exec

def Untraced (P : α → Prop) (x y : Exec α) : Prop :=
  ∀ m n : Machine, m.Untraced n → Outcome.Untraced P (x m) (y n)

theorem Untraced.mono {Q : α → Prop} {x y : Exec α} (hPQ : ∀ a, P a → Q a)
    (hx : Untraced P x y) : Untraced Q x y := by
  intro m n hmn
  have h := hx m n hmn
  generalize x m = p at h ⊢
  generalize y n = q at h ⊢
  cases h with
  | done known same => exact .done (hPQ _ known) same
  | stopped same => exact .stopped same
  | exhausted => exact .exhausted

theorem Untraced.bind {Q : β → Prop} {x y : Exec α} {f g : α → Exec β} (hx : Untraced P x y)
    (hf : ∀ a, P a → Untraced Q (f a) (g a)) : Untraced Q (x >>= f) (y >>= g) := by
  intro m n hmn
  have h := hx m n hmn
  rw [bind_apply, bind_apply]
  generalize x m = p at h ⊢
  generalize y n = q at h ⊢
  cases h with
  | done known same => exact hf _ known _ _ same
  | stopped same => exact .stopped same
  | exhausted => exact .exhausted

theorem untraced_stop (s : Signal) : Untraced P (stop s) (stop s) := fun _ _ h => .stopped h

theorem untraced_change {f g : Machine → Machine}
    (h : ∀ m n : Machine, m.Untraced n → (f m).Untraced (g n)) :
    Untraced Anything (change f) (change g) :=
  fun m n hmn => .done .intro (h m n hmn)

theorem untraced_ask {f : State → Except Fault α} (hf : ∀ st a, True → f st = .ok a → P a) :
    Untraced P (ask f) (ask f) := by
  intro m n h
  unfold ask
  rw [h.state]
  split
  · rename_i a ha
    exact .done (hf m.state a .intro ha) h
  · exact .stopped h

theorem untraced_pop (op : Opcode) : Untraced Anything (pop op) (pop op) := by
  intro m n h
  unfold pop
  rw [h.stack]
  split
  · exact .stopped h
  · exact .done .intro { h with stack := rfl }

theorem untraced_popMany (op : Opcode) (k : Nat) :
    Untraced (fun values => ∀ v ∈ values, Anything v) (popMany op k) (popMany op k) := by
  intro m n h
  unfold popMany
  rw [h.stack]
  split
  · exact .stopped h
  · exact .done (fun _ _ => .intro) { h with stack := rfl }

theorem untraced_frame (op : Opcode) :
    Untraced (fun f => True ∧ Holds Anything f.locals) (frame op) (frame op) := by
  intro m n h
  unfold frame
  rw [h.frames]
  split
  · exact .stopped h
  · exact .done ⟨.intro, fun _ _ _ => .intro⟩ h

theorem untraced_setLocals (locals : Table Value) :
    Untraced Anything (setLocals locals) (setLocals locals) := by
  refine untraced_change fun m n h => ?_
  rw [h.frames]
  split
  · exact h
  · exact { h with frames := rfl }

theorem untraced_newList (items : List Value) :
    Untraced Anything (newList items) (newList items) := by
  intro m n h
  unfold newList
  rw [h.state]
  exact .done .intro { h with state := rfl }

theorem untraced_draw (f : RandomSource → α × RandomSource) :
    Untraced Anything (draw f) (draw f) := by
  intro m n h
  unfold draw
  rw [h.state]
  exact .done .intro { h with state := rfl }

theorem untraced_next : Untraced Anything nextInvocation nextInvocation := by
  intro m n h
  simp only [nextInvocation, h.queued, h.served]
  split
  · exact .done .intro h
  · exact .done .intro { h with queued := rfl, served := rfl }

variable {env : Env} {trace watch : TraceMask}

theorem untraced_trace (topic : Topic) (message : Machine → String) :
    Untraced Anything (Exec.trace env topic message)
      (Exec.trace (env.tracing trace watch) topic message) :=
  untraced_change fun _ _ h => h.traced env _ topic message

theorem untraced_changeContext (identity : String) (f : Context → Context) :
    Untraced Anything (changeContext env identity f)
      (changeContext (env.tracing trace watch) identity f) := by
  have hstory : (env.tracing trace watch).story = env.story := rfl
  intro m n h
  unfold changeContext
  rw [h.state, hstory]
  split
  · exact .stopped h
  · exact .done .intro { h with state := rfl }

theorem untraced_descend :
    Untraced Anything (descend env) (descend (env.tracing trace watch)) := by
  have hlimits : (env.tracing trace watch).limits = env.limits := rfl
  intro m n h
  unfold descend
  rw [h.depth, hlimits, h.depthPeak]
  split
  · exact .stopped h
  · exact .done .intro { h with depth := rfl, depthPeak := rfl }

theorem untraced_count : Untraced Anything (count env) (count (env.tracing trace watch)) := by
  have hlimits : (env.tracing trace watch).limits = env.limits := rfl
  intro m n h
  simp only [count, h.operations, hlimits]
  split
  · exact .stopped { h with operations := rfl }
  · exact .done .intro { h with operations := rfl }

theorem untraced_callBlock {run run' : Block → Exec Unit} (f : Frame) (name : String)
    (block : Block) (hrun : Untraced Anything (run block) (run' block)) :
    Untraced Anything (callBlock env run f name block)
      (callBlock (env.tracing trace watch) run' f name block) := by
  intro m n h
  unfold callBlock
  rw [h.stack]
  refine ((hrun _ _ (h.openFrame env _ f name)).afterwards fun k l hkl => ?_).settle _
  exact hkl.closeFrame env _ f.scope name

/-- Every part of an operation is the same but for tracing. -/
theorem rules_untraced :
    Rules env (env.tracing trace watch) Anything Anything Anything Untraced where
  story := rfl
  grounds := .trivial env.story
  mono := Untraced.mono
  pure known _ _ h := .done known h
  bind := Untraced.bind
  fault f := untraced_stop _
  see f hf m n h := by
    rw [see_apply, see_apply, h.state]
    exact .done (hf m.state .intro) h
  ask hf := untraced_ask hf
  trace _ := untraced_trace _ _
  misuse message := untraced_stop _
  push _ := untraced_change fun _ _ h => { h with stack := by rw [h.stack] }
  pop := untraced_pop
  popMany := untraced_popMany
  emit _ _ := untraced_change fun _ _ h => h.tell _
  frame := untraced_frame
  setLocals _ := untraced_setLocals _
  changeContext identity f _ := untraced_changeContext identity f
  newList _ := untraced_newList _
  changeList _ _ := untraced_change fun _ _ h => { h with state := by rw [h.state] }
  draw := untraced_draw
  change c _ := untraced_change fun _ _ h => { h with state := by rw [h.state] }
  exhausted _ _ _ := .exhausted
  stop _ _ := untraced_stop _
  quit := (untraced_change fun _ _ h => h.tell _).bind fun _ _ => untraced_stop _
  queue i := (untraced_trace _ _).bind fun _ _ =>
    untraced_change fun _ _ h => { h with queued := by rw [h.queued] }
  callBlock name block _ _ hrun := untraced_callBlock _ name block hrun
  giveBack _ := by
    refine Untraced.bind (P := Anything) ?_ fun _ _ => untraced_stop .giveBack
    exact untraced_change fun _ _ h => { h with pendingReturn := rfl }
  deeper hx := by
    refine untraced_descend.bind fun _ _ m n h => Outcome.Untraced.returned ?_
    refine (hx m n h).afterwards fun k l hkl => ?_
    exact { hkl with depth := congrArg (· - 1) hkl.depth }
  weigh hx m n h := by
    unfold weigh
    rw [h.stack]
    exact (hx m n h).weighed m.stack.height
  goesOn hx m n h := (hx m n h).goesOn env _

variable (env trace watch)

theorem untraced_runBlock (fuel : Nat) (block : Block) :
    Untraced Anything (runBlock env fuel block)
      (runBlock (env.tracing trace watch) fuel block) := by
  refine rules_untraced.runBlock (fun limit op hop hrun => ?_) fuel fun _ _ _ => .intro
  refine rules_untraced.execute hrun untraced_count limit hop ?_
  exact untraced_change fun _ _ h => h.watched env _ _ _

theorem requestRules_untraced (fuel : Nat) :
    RequestRules env (env.tracing trace watch) (runBlock env fuel)
      (runBlock (env.tracing trace watch) fuel) Anything Anything Anything Untraced where
  toBasics := rules_untraced.toBasics
  grounds := .trivial env.story
  exhausted _ _ _ := .exhausted
  runHandler entry _ he hlocals m n h := by
    have hrun := untraced_runBlock env trace watch fuel
    exact (rules_untraced.runEntry (fun _ => hrun _) he entry hlocals m n h).handled
  next := untraced_next
  enqueue i := untraced_change fun _ _ h => { h with queued := by rw [h.queued] }

theorem untraced_setUp (fuel : Nat) :
    Untraced Anything (setUp env fuel) (setUp (env.tracing trace watch) fuel) := by
  rw [setUp_eq, setUp_eq]
  exact (requestRules_untraced env trace watch fuel).setUpWith fuel

theorem untraced_command (fuel : Nat) (i : Invocation) :
    Untraced Anything (command env fuel i) (command (env.tracing trace watch) fuel i) := by
  rw [command_eq, command_eq]
  exact (requestRules_untraced env trace watch fuel).commandWith fuel i

end Exec

end Fabula
