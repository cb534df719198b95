import Fabula.Proofs.Machine.StackFrame
import Fabula.Proofs.Request.Rules

/-! Handlers are isolated from one another. Whatever runs on a machine with no return pending leaves
as many frames as there were and is as deep in functions, however it ends. A return is pending only
while its signal is on the way, and whoever catches the signal takes the value. So a handler that is
done leaves the machine as idle as it was. -/

namespace Fabula

/-- Nothing runs on the machine, and nothing is left over from what ran before. -/
structure Machine.Idle (m : Machine) : Prop where
  stack : m.stack.height = 0
  frames : m.frames.length = 0
  depth : m.depth = 0
  pendingReturn : m.pendingReturn = none

structure Machine.Level (m n : Machine) : Prop where
  frames : n.frames.length = m.frames.length
  depth : n.depth = m.depth

namespace Machine

variable {m n k : Machine}

theorem Level.refl (m : Machine) : m.Level m := ⟨rfl, rfl⟩

theorem Level.trans (h : m.Level n) (h' : n.Level k) : m.Level k :=
  ⟨h'.frames.trans h.frames, h'.depth.trans h.depth⟩

end Machine

variable {α β : Type} {P : α → Prop} {Q : β → Prop}

/-- A computation ended level with the machine it started from. No return is left pending, unless
its signal is on the way or there was a failure. -/
def Outcome.Levels (m : Machine) (P : α → Prop) : Outcome α → Prop
  | .done a n => m.Level n ∧ n.pendingReturn = none ∧ P a
  | .stopped s n => m.Level n ∧ (s.isFailure = false → s ≠ .giveBack → n.pendingReturn = none)
  | .exhausted => True

namespace Outcome.Levels

variable {m : Machine} {o : Outcome α}

theorem mono {P' : α → Prop} (h : o.Levels m P) (hP : ∀ a, P a → P' a) : o.Levels m P' := by
  cases o with
  | exhausted => trivial
  | done a n => exact ⟨h.1, h.2.1, hP a h.2.2⟩
  | stopped s n => exact h

theorem earlier {k : Machine} (hk : k.Level m) (h : o.Levels m P) : o.Levels k P := by
  cases o with
  | exhausted => trivial
  | done a n => exact ⟨hk.trans h.1, h.2⟩
  | stopped s n => exact ⟨hk.trans h.1, h.2⟩

theorem settle (h : o.Levels m P) (height : Nat) : (Exec.settle height o).Levels m P := by
  cases o with
  | exhausted => trivial
  | done a n =>
    simp only [Exec.settle]
    split
    · exact h
    · exact ⟨⟨h.1.frames, h.1.depth⟩, by simp [Signal.isFailure]⟩
  | stopped s n =>
    simp only [Exec.settle]
    split
    · rename_i hs
      exact ⟨⟨h.1.frames, h.1.depth⟩, by simp [hs]⟩
    · split
      · exact h
      · exact ⟨⟨h.1.frames, h.1.depth⟩, by simp [Signal.isFailure]⟩

theorem weighed {o : Outcome Unit} (h : o.Levels m Anything) (height : Nat) :
    (Exec.weighed height o).Levels m Anything := by
  cases o with
  | exhausted => trivial
  | stopped s n => exact h
  | done a n =>
    simp only [Exec.weighed]
    split
    · exact h
    · exact ⟨⟨h.1.frames, h.1.depth⟩, by simp [Signal.isFailure]⟩

theorem goesOn {o : Outcome Unit} (h : o.Levels m Anything) (env : Env) :
    (Exec.goesOn env o).Levels m Anything := by
  cases o with
  | exhausted => trivial
  | done a n => exact ⟨h.1, h.2.1, .intro⟩
  | stopped s n =>
    cases s with
    | nextRound => exact ⟨h.1, h.2 rfl (by simp), .intro⟩
    | leaveLoop =>
      obtain ⟨cues, hcues⟩ := n.traced_eq env .control fun _ => "BREAK"
      simp only [Exec.goesOn, hcues]
      exact ⟨⟨h.1.frames, h.1.depth⟩, h.2 rfl (by simp), .intro⟩
    | _ => exact h

end Outcome.Levels

namespace Exec

def Levels (P : α → Prop) (x _y : Exec α) : Prop :=
  ∀ m, m.pendingReturn = none → (x m).Levels m P

theorem Levels.bind {x y : Exec α} {f g : α → Exec β} (hx : Levels P x y)
    (hf : ∀ a, P a → Levels Q (f a) (g a)) : Levels Q (x >>= f) (y >>= g) := by
  intro m hm
  have h := hx m hm
  rw [bind_apply]
  cases hxm : x m with
  | exhausted => trivial
  | stopped s n =>
    rw [hxm] at h
    exact h
  | done a n =>
    rw [hxm] at h
    exact (hf a h.2.2 n h.2.1).earlier h.1

theorem levels_discreet {x y : Exec α} (h : Discreet P x) : Levels P x y := by
  intro m hm
  rcases h m with ⟨a, state, stack, hx, ha⟩ | ⟨s, hx⟩
  · rw [hx]
    exact ⟨⟨rfl, rfl⟩, hm, ha⟩
  · rw [hx]
    exact ⟨.refl m, fun _ _ => hm⟩

theorem levels_change {f : Machine → Machine}
    (hframes : ∀ m, (f m).frames.length = m.frames.length) (hdepth : ∀ m, (f m).depth = m.depth)
    (hpending : ∀ m, (f m).pendingReturn = m.pendingReturn) :
    Levels Anything (change f) (change f) :=
  fun m hm => ⟨⟨hframes m, hdepth m⟩, (hpending m).trans hm, .intro⟩

theorem levels_trace (env : Env) (topic : Topic) (message : Machine → String) (y : Exec Unit) :
    Levels Anything (trace env topic message) y := by
  intro m hm
  obtain ⟨cues, hcues⟩ := m.traced_eq env topic message
  rw [trace, change_apply, hcues]
  exact ⟨⟨rfl, rfl⟩, hm, .intro⟩

theorem levels_record (env : Env) (wanted : TraceMask) (event : Machine → Event) (y : Exec Unit) :
    Levels Anything (record env wanted event) y := by
  intro m hm
  obtain ⟨events, hevents⟩ := m.watched_eq env wanted event
  rw [record, change_apply, hevents]
  exact ⟨⟨rfl, rfl⟩, hm, .intro⟩

theorem levels_setLocals (locals : Table Value) :
    Levels Anything (setLocals locals) (setLocals locals) := by
  refine levels_change (fun m => ?_) (fun m => ?_) (fun m => ?_) <;>
    cases hm : m.frames <;> simp [hm]

theorem levels_count (env : Env) : Levels Anything (count env) (count env) := by
  intro m hm
  simp only [count]
  split
  · exact ⟨⟨rfl, rfl⟩, fun _ _ => hm⟩
  · exact ⟨⟨rfl, rfl⟩, hm, .intro⟩

theorem levels_callBlock (env : Env) {run run' : Block → Exec Unit} (f : Frame) (name : String)
    (block : Block) (hrun : Levels Anything (run block) (run' block)) :
    Levels Anything (callBlock env run f name block) (callBlock env run' f name block) := by
  intro m hm
  refine Outcome.Levels.settle ?_ _
  obtain ⟨cues, events, hopen⟩ := m.openFrame_eq env f name
  rw [hopen]
  have h := hrun { m with frames := f :: m.frames, cues := cues, events := events } hm
  have hclosed : ∀ n : Machine,
      Machine.Level { m with frames := f :: m.frames, cues := cues, events := events } n →
      m.Level (closeFrame env f.scope name n) ∧
        (closeFrame env f.scope name n).pendingReturn = n.pendingReturn := by
    intro n hn
    obtain ⟨cues', events', hclose⟩ := n.closeFrame_eq env f.scope name
    have hframes : n.frames.length = m.frames.length + 1 := hn.frames
    refine ⟨⟨?_, ?_⟩, by rw [hclose]⟩
    · simp only [hclose, List.length_tail, hframes, Nat.add_sub_cancel]
    · rw [hclose]
      exact hn.depth
  generalize run block _ = o at h ⊢
  cases o with
  | exhausted => trivial
  | done a n => exact ⟨(hclosed n h.1).1, (hclosed n h.1).2.trans h.2.1, .intro⟩
  | stopped s n =>
    exact ⟨(hclosed n h.1).1, fun hs hgive => (hclosed n h.1).2.trans (h.2 hs hgive)⟩

/-- A function comes back from where it went, and takes the value that is given back. -/
theorem levels_deeper (env : Env) {x y : Exec Unit} (hx : Levels Anything x y) :
    Levels Anything (deeper env x) (deeper env y) := by
  intro m hm
  rw [deeper_apply]
  split
  · exact ⟨.refl m, fun _ _ => hm⟩
  · let down : Machine :=
      { m with depth := m.depth + 1, depthPeak := max m.depthPeak (m.depth + 1) }
    have hback : ∀ n : Machine, down.Level n → m.Level { n with depth := n.depth - 1 } := by
      intro n hn
      have hdepth : n.depth = m.depth + 1 := hn.depth
      exact ⟨hn.frames, by simp only [hdepth, Nat.add_sub_cancel]⟩
    have h : (x down).Levels down Anything := hx down hm
    generalize x down = o at h ⊢
    cases o with
    | exhausted => trivial
    | done a n => exact ⟨hback n h.1, h.2.1, .intro⟩
    | stopped s n =>
      cases s with
      | giveBack => exact ⟨⟨(hback n h.1).frames, (hback n h.1).depth⟩, rfl, .intro⟩
      | _ => exact ⟨hback n h.1, h.2⟩

theorem levels_giveBack (v : Value) : Levels Anything (giveBack v) (giveBack v) := by
  intro m hm
  exact ⟨⟨rfl, rfl⟩, fun _ hgive => absurd rfl hgive⟩

theorem rules_levels (env : Env) : Rules env env Anything Anything Anything Levels where
  toSteps := .of_discreet (fun hP hx m hm => (hx m hm).mono hP) Levels.bind levels_discreet
    (fun _ _ => levels_trace env _ _ _)
    (fun _ _ => levels_change (fun _ => rfl) (fun _ => rfl) fun _ => rfl) levels_setLocals
  exhausted _ _ := trivial
  stop _ _ := levels_discreet (discreet_stop _)
  quit _ hm := ⟨⟨rfl, rfl⟩, fun _ _ => hm⟩
  queue _ := (levels_trace env _ _ (trace env _ _)).bind fun _ _ =>
    levels_change (fun _ => rfl) (fun _ => rfl) fun _ => rfl
  callBlock name block _ _ hrun := levels_callBlock env _ name block hrun
  giveBack _ := levels_giveBack _
  deeper := levels_deeper env
  weigh hx m hm := (hx m hm).weighed m.stack.height
  goesOn hx m hm := (hx m hm).goesOn env

theorem levels_runBlock (env : Env) (fuel : Nat) (block : Block) :
    Levels Anything (runBlock env fuel block) (runBlock env fuel block) := by
  refine (rules_levels env).runBlock (fun limit op hop hrun => ?_) fuel fun _ _ _ => .intro
  exact (rules_levels env).execute hrun (levels_count env) limit hop (levels_record env _ _ _)

theorem levels_runEntry (env : Env) (fuel : Nat) (e : ElementRef) (entry : Entry)
    (locals : Table Value) : Levels Anything (runEntry env (runBlock env fuel) e entry locals)
      (runEntry env (runBlock env fuel) e entry locals) :=
  (rules_levels env).runEntry (fun _ => levels_runBlock env fuel _) .intro entry
    fun _ _ _ => .intro

theorem runEntry_apply (env : Env) (run : Block → Exec Unit) (e : ElementRef) (entry : Entry)
    (locals : Table Value) (m : Machine) :
    runEntry env run e entry locals m =
      match env.story.resolveBlock? m.state.heap e.identity entry with
      | none => .done false m
      | some block =>
        let name := entry.text m.state.heap
        (callBlock env run ⟨e, .entry entry.trigger, locals⟩ name block >>= fun _ => pure true)
          (m.traced env .entry fun _ => e.text ++ " runs " ++ name) := by
  have hbound : runEntry env run e entry locals m =
      (match env.story.resolveBlock? m.state.heap e.identity entry with
        | none => pure false
        | some block => do
          let name ← withHeap fun heap => entry.text heap
          trace env .entry fun _ => e.text ++ " runs " ++ name
          callBlock env run ⟨e, .entry entry.trigger, locals⟩ name block
          return true : Exec Bool) m := rfl
  rw [hbound]
  cases env.story.resolveBlock? m.state.heap e.identity entry <;> rfl

theorem endsAt_of_bind_pure {x : Exec α} {b : β} {m n : Machine}
    (h : ((x >>= fun _ => pure b) m).EndsAt n) : (x m).EndsAt n := by
  rw [bind_apply] at h
  cases hx : x m with
  | exhausted =>
    rw [hx] at h
    cases h
  | done a k =>
    rw [hx] at h
    cases h
    exact .done a
  | stopped s k =>
    rw [hx] at h
    cases h with
    | signal _ quiet => exact .signal s quiet

theorem height_of_runEntry {env : Env} {run : Block → Exec Unit} {e : ElementRef} {entry : Entry}
    {locals : Table Value} {m n : Machine} (h : (runEntry env run e entry locals m).EndsAt n) :
    n.stack.height = m.stack.height := by
  rw [runEntry_apply] at h
  cases hblock : env.story.resolveBlock? m.state.heap e.identity entry with
  | none =>
    rw [hblock] at h
    cases h
    rfl
  | some block =>
    rw [hblock] at h
    have hheight := height_of_settle (endsAt_of_bind_pure h)
    obtain ⟨cues, hcues⟩ := m.traced_eq env .entry
      fun _ => e.text ++ " runs " ++ entry.text m.state.heap
    rw [hcues] at hheight
    exact hheight

/-- A handler that is done leaves the machine idle, whatever ended it. -/
theorem idle_of_runHandler {env : Env} {fuel : Nat} {e : ElementRef} {entry : Entry}
    {locals : Table Value} {m n : Machine} {ran : Bool} (hm : m.Idle)
    (h : runHandler env (runBlock env fuel) e entry locals m = .done ran n) : n.Idle := by
  have hlevels := levels_runEntry env fuel e entry locals m hm.pendingReturn
  have hheight : ∀ {k : Machine},
      (runEntry env (runBlock env fuel) e entry locals m).EndsAt k → k.stack.height = 0 :=
    fun hk => (height_of_runEntry hk).trans hm.stack
  have hidle : ∀ {k : Machine}, m.Level k → k.stack.height = 0 → k.pendingReturn = none → k.Idle :=
    fun hk hstack hpending =>
      ⟨hstack, hk.frames.trans hm.frames, hk.depth.trans hm.depth, hpending⟩
  unfold runHandler at h
  generalize runEntry env (runBlock env fuel) e entry locals m = o at h hlevels hheight
  cases o with
  | exhausted => cases h
  | done a k =>
    cases h
    exact hidle hlevels.1 (hheight (.done ran)) hlevels.2.1
  | stopped s k =>
    -- the four signals that end a handler only; a return is taken on the way
    cases s with
    | endHandler =>
      cases h
      exact hidle hlevels.1 (hheight (.signal _ rfl)) (hlevels.2 rfl (by simp))
    | leaveLoop =>
      cases h
      exact hidle hlevels.1 (hheight (.signal _ rfl)) (hlevels.2 rfl (by simp))
    | nextRound =>
      cases h
      exact hidle hlevels.1 (hheight (.signal _ rfl)) (hlevels.2 rfl (by simp))
    | giveBack =>
      cases h
      have hstack : k.stack.height = 0 := hheight (.signal .giveBack rfl)
      exact hidle ⟨hlevels.1.frames, hlevels.1.depth⟩ hstack rfl
    | _ => cases h

end Exec

def Machine.fresh (m : Machine) : Bool :=
  m.stack.height == 0 && m.frames.length == 1 && m.depth == 0 && m.pendingReturn.isNone

namespace Exec

/-- Runs blocks on fresh machines, and does something else on all others. -/
def freshly (run other : Block → Exec Unit) : Block → Exec Unit := fun block m =>
  if m.fresh then run block m else other block m

theorem runHandler_freshly (env : Env) (run other : Block → Exec Unit) (e : ElementRef)
    (entry : Entry) (locals : Table Value) {m : Machine} (hm : m.Idle) :
    runHandler env (freshly run other) e entry locals m = runHandler env run e entry locals m := by
  have hcall : ∀ (f : Frame) (name : String) (block : Block) (cues : Array Cue),
      callBlock env (freshly run other) f name block { m with cues := cues } =
        callBlock env run f name block { m with cues := cues } := by
    intro f name block cues
    obtain ⟨cues', events, hopen⟩ := Machine.openFrame_eq { m with cues := cues } env f name
    have hfresh : (openFrame env f name { m with cues := cues }).fresh = true := by
      rw [hopen]
      simp [Machine.fresh, hm.stack, hm.frames, hm.depth, hm.pendingReturn]
    simp only [callBlock, freshly, hfresh, if_true]
  simp only [runHandler, runEntry_apply]
  cases env.story.resolveBlock? m.state.heap e.identity entry with
  | none => rfl
  | some block =>
    obtain ⟨cues, hcues⟩ := m.traced_eq env .entry
      fun _ => e.text ++ " runs " ++ entry.text m.state.heap
    simp only [hcues, bind_apply, hcall]

def Idles (P : α → Prop) (x y : Exec α) : Prop :=
  ∀ m, m.Idle → y m = x m ∧ ∀ a n, x m = .done a n → n.Idle ∧ P a

theorem Idles.bind {x y : Exec α} {f g : α → Exec β} (hx : Idles P x y)
    (hf : ∀ a, P a → Idles Q (f a) (g a)) : Idles Q (x >>= f) (y >>= g) := by
  intro m hm
  obtain ⟨hsame, hdone⟩ := hx m hm
  rw [bind_apply, bind_apply, hsame]
  cases hxm : x m with
  | exhausted => exact ⟨rfl, fun _ _ h => by cases h⟩
  | stopped s n => exact ⟨rfl, fun _ _ h => by cases h⟩
  | done a n =>
    obtain ⟨hn, ha⟩ := hdone a n hxm
    exact hf a ha n hn

theorem idles_of {x : Exec α} (h : ∀ m, m.Idle → ∀ a n, x m = .done a n → n.Idle ∧ P a) :
    Idles P x x :=
  fun m hm => ⟨rfl, h m hm⟩

theorem idles_ask {f : State → Except Fault α} (hf : ∀ st a, True → f st = .ok a → P a) :
    Idles P (ask f) (ask f) := by
  refine idles_of fun m hm a n h => ?_
  unfold ask at h
  split at h
  · rename_i b hb
    cases h
    exact ⟨hm, hf m.state a .intro hb⟩
  · cases h

theorem idles_trace (env : Env) (topic : Topic) (message : Machine → String) :
    Idles Anything (trace env topic message) (trace env topic message) := by
  refine idles_of fun m hm a n h => ?_
  obtain ⟨cues, hcues⟩ := m.traced_eq env topic message
  rw [trace, change_apply, hcues] at h
  cases h
  exact ⟨⟨hm.stack, hm.frames, hm.depth, hm.pendingReturn⟩, .intro⟩

theorem idles_next : Idles Anything nextInvocation nextInvocation := by
  refine idles_of fun m hm a n h => ?_
  unfold nextInvocation at h
  split at h
  · cases h
    exact ⟨hm, .intro⟩
  · cases h
    exact ⟨⟨hm.stack, hm.frames, hm.depth, hm.pendingReturn⟩, .intro⟩

/-- Between handlers the machine is idle, so it makes no difference if blocks are run by something
that handlers cannot tell on an idle machine. -/
theorem requestRules_idles (env : Env) (fuel : Nat) {run : Block → Exec Unit}
    (hrun : ∀ e entry locals m, m.Idle → runHandler env run e entry locals m =
      runHandler env (runBlock env fuel) e entry locals m) :
    RequestRules env env (runBlock env fuel) run Anything Anything Anything Idles where
  story := rfl
  grounds := .trivial env.story
  mono hPQ hx m hm :=
    ⟨(hx m hm).1, fun a n h => ⟨((hx m hm).2 a n h).1, hPQ a ((hx m hm).2 a n h).2⟩⟩
  pure known := idles_of fun m hm a n h => by
    cases h
    exact ⟨hm, known⟩
  bind := Idles.bind
  fault f := idles_of fun m hm a n h => by cases h
  see f hf := idles_of fun m hm a n h => by
    cases h
    exact ⟨hm, hf m.state .intro⟩
  ask hf := idles_ask hf
  trace _ := idles_trace env _ _
  exhausted := idles_of fun m hm a n h => by cases h
  runHandler {e} entry locals _ _ m hm :=
    ⟨hrun e entry locals m hm, fun _ _ h => ⟨idle_of_runHandler hm h, .intro⟩⟩
  next := idles_next
  enqueue i := idles_of fun m hm a n h => by
    cases h
    exact ⟨⟨hm.stack, hm.frames, hm.depth, hm.pendingReturn⟩, .intro⟩

theorem setUp_freshly (env : Env) (fuel : Nat) (other : Block → Exec Unit) {m : Machine}
    (hm : m.Idle) :
    setUpWith env (freshly (runBlock env fuel) other) fuel m = setUp env fuel m := by
  rw [setUp_eq]
  exact ((requestRules_idles env fuel fun e entry locals m =>
    runHandler_freshly env _ other e entry locals).setUpWith fuel m hm).1

theorem command_freshly (env : Env) (fuel : Nat) (other : Block → Exec Unit) (i : Invocation)
    {m : Machine} (hm : m.Idle) :
    commandWith env (freshly (runBlock env fuel) other) fuel i m = command env fuel i m := by
  rw [command_eq]
  exact ((requestRules_idles env fuel fun e entry locals m =>
    runHandler_freshly env _ other e entry locals).commandWith fuel i m hm).1

end Exec

end Fabula
