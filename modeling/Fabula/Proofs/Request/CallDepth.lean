import Fabula.Proofs.Request.Attended

/-! Frames, and how deep functions are called. Whatever runs on a machine gives back the frames it
found, and changes at most the local variables of the innermost one. It is as deep in functions as
before, however it ends. A function goes deeper just before its frame is opened and comes back just
after it is closed, so around every operation the depth is the number of functions that are open. -/

namespace Fabula

/-- The second machine is where the first one was. Its frames are the same, but for what the
innermost one holds, and it is as deep in functions. On the way it was no deeper than the limit. -/
structure Machine.Resumes (limits : Limits) (m n : Machine) : Prop where
  frames : ∃ assign : Table Value → Table Value,
    n.frames = m.frames.modifyHead fun f => { f with locals := assign f.locals }
  depth : n.depth = m.depth
  peak : 0 < limits.depth → n.depthPeak ≤ max m.depthPeak limits.depth.toNat

def Machine.calls (m : Machine) : Nat := m.frames.countP fun f => f.scope = .function

/-- The machine is as deep as functions are open, and was never deeper than the limit. -/
structure Machine.Levelled (limits : Limits) (m : Machine) : Prop where
  depth : m.depth = m.calls
  within : 0 < limits.depth → m.depth ≤ limits.depth.toNat
  peak : 0 < limits.depth → m.depthPeak ≤ limits.depth.toNat

namespace Machine

variable {limits : Limits} {m n k : Machine}

theorem Resumes.of_eq (hframes : n.frames = m.frames) (hdepth : n.depth = m.depth)
    (hpeak : n.depthPeak = m.depthPeak) : m.Resumes limits n :=
  ⟨⟨id, by cases hm : m.frames <;> simp [hframes, hm]⟩, hdepth,
    fun _ => hpeak ▸ Nat.le_max_left _ _⟩

theorem Resumes.refl (m : Machine) : m.Resumes limits m := .of_eq rfl rfl rfl

theorem Resumes.trans (h : m.Resumes limits n) (h' : n.Resumes limits k) : m.Resumes limits k := by
  obtain ⟨assign, hframes⟩ := h.frames
  obtain ⟨assign', hframes'⟩ := h'.frames
  refine ⟨⟨assign' ∘ assign, ?_⟩, h'.depth.trans h.depth, fun hlimit => ?_⟩
  · rw [hframes', hframes]
    cases m.frames <;> rfl
  · have := h.peak hlimit
    have := h'.peak hlimit
    omega

theorem Resumes.running (h : m.Resumes limits n) : n.running = m.running := by
  obtain ⟨assign, hframes⟩ := h.frames
  rw [Machine.running, Machine.running, hframes]
  cases m.frames <;> rfl

theorem Resumes.tail_frames (h : m.Resumes limits n) : n.frames.tail = m.frames.tail := by
  obtain ⟨assign, hframes⟩ := h.frames
  rw [hframes]
  cases m.frames <;> rfl

theorem Resumes.calls (h : m.Resumes limits n) : n.calls = m.calls := by
  obtain ⟨assign, hframes⟩ := h.frames
  rw [Machine.calls, Machine.calls, hframes]
  cases m.frames with
  | nil => rfl
  | cons f rest => simp only [List.modifyHead_cons, List.countP_cons]

theorem Resumes.traced (m : Machine) (env : Env) (topic : Topic) (message : Machine → String) :
    m.Resumes limits (m.traced env topic message) := by
  obtain ⟨cues, hcues⟩ := m.traced_eq env topic message
  rw [hcues]
  exact .of_eq rfl rfl rfl

theorem Resumes.watched (m : Machine) (env : Env) (wanted : TraceMask)
    (event : Machine → Event) : m.Resumes limits (m.watched env wanted event) := by
  obtain ⟨events, hevents⟩ := m.watched_eq env wanted event
  rw [hevents]
  exact .of_eq rfl rfl rfl

theorem Resumes.cut (h : m.Resumes limits n) (height : Nat) :
    m.Resumes limits { n with stack := n.stack.bottom height } :=
  h.trans (.of_eq rfl rfl rfl)

theorem Resumes.taken (h : m.Resumes limits n) :
    m.Resumes limits { n with pendingReturn := none } :=
  h.trans (.of_eq rfl rfl rfl)

theorem Resumes.block {env : Env} {f : Frame} {name : String}
    (h : (Exec.openFrame env f name m).Resumes limits n) :
    m.Resumes limits (Exec.closeFrame env f.scope name n) := by
  obtain ⟨cues, events, hopen⟩ := m.openFrame_eq env f name
  obtain ⟨cues', events', hclose⟩ := n.closeFrame_eq env f.scope name
  rw [hopen] at h
  rw [hclose]
  have hframes : n.frames.tail = m.frames := h.tail_frames
  refine ⟨⟨id, ?_⟩, h.depth, h.peak⟩
  cases hm : m.frames <;> simp [hframes, hm]

theorem Resumes.ascend (hdepth : ¬ (0 < limits.depth ∧ limits.depth.toNat ≤ m.depth))
    (h : Resumes limits
      { m with depth := m.depth + 1, depthPeak := max m.depthPeak (m.depth + 1) } n) :
    m.Resumes limits { n with depth := n.depth - 1 } := by
  have hback : n.depth = m.depth + 1 := h.depth
  refine ⟨h.frames, by simp only [hback, Nat.add_sub_cancel], fun hlimit => ?_⟩
  have hpeak : n.depthPeak ≤ max (max m.depthPeak (m.depth + 1)) limits.depth.toNat := h.peak hlimit
  have hroom : m.depth < limits.depth.toNat := Nat.lt_of_not_le fun hle => hdepth ⟨hlimit, hle⟩
  show n.depthPeak ≤ _
  omega

end Machine

/-- What is known of machines on the way of a request, if it is only about frames and depth, and if
it is kept when something is resumed, when a handler is entered, and when a function is. -/
structure Calling (limits : Limits) (I : Machine → Prop) : Prop where
  resume : ∀ {m n : Machine}, I m → m.Resumes limits n → I n
  enter : ∀ {m n : Machine} {e : ElementRef} {trigger : Trigger} {locals : Table Value}, I m →
    n.frames = ⟨e, .entry trigger, locals⟩ :: m.frames → n.depth = m.depth →
    n.depthPeak = m.depthPeak → I n
  descend : ∀ {m n : Machine} {e : ElementRef} {locals : Table Value}, I m →
    ¬ (0 < limits.depth ∧ limits.depth.toNat ≤ m.depth) →
    n.frames = ⟨e, .function, locals⟩ :: m.frames → n.depth = m.depth + 1 →
    n.depthPeak = max m.depthPeak (m.depth + 1) → I n

theorem calling_anything (limits : Limits) : Calling limits Anything where
  resume _ _ := .intro
  enter _ _ _ _ := .intro
  descend _ _ _ _ _ := .intro

theorem Machine.calling_levelled (limits : Limits) : Calling limits (Machine.Levelled limits) where
  resume hm h := by
    refine ⟨?_, fun hlimit => h.depth ▸ hm.within hlimit, fun hlimit => ?_⟩
    · rw [h.depth, hm.depth, h.calls]
    · exact (h.peak hlimit).trans (max_le (hm.peak hlimit) (Nat.le_refl _))
  enter hm hframes hdepth hpeak := by
    refine ⟨?_, fun hlimit => hdepth ▸ hm.within hlimit, fun hlimit => hpeak ▸ hm.peak hlimit⟩
    simp [hdepth, hm.depth, Machine.calls, hframes]
  descend {m n _ _} hm hroom hframes hdepth hpeak := by
    have hbelow : 0 < limits.depth → m.depth + 1 ≤ limits.depth.toNat :=
      fun hlimit => Nat.lt_of_not_le fun hle => hroom ⟨hlimit, hle⟩
    refine ⟨?_, fun hlimit => hdepth ▸ hbelow hlimit, fun hlimit => ?_⟩
    · simp [hdepth, hm.depth, Machine.calls, hframes]
    · exact hpeak ▸ max_le (hm.peak hlimit) (hbelow hlimit)

namespace Exec

variable {α : Type} {limits : Limits} {I : Machine → Prop} {P : α → Prop}

theorem attends_discreet {x : Exec α} (hx : Discreet P x) :
    Attends I (Machine.Resumes limits) P x x := by
  refine fun m _ => ⟨rfl, ?_⟩
  rcases hx m with ⟨a, state, stack, hx, ha⟩ | ⟨s, hx⟩
  · rw [hx]
    exact ⟨.of_eq rfl rfl rfl, ha⟩
  · rw [hx]
    exact .refl m

theorem attends_change {f : Machine → Machine} (hf : ∀ m : Machine, m.Resumes limits (f m)) :
    Attends I (Machine.Resumes limits) Anything (change f) (change f) :=
  fun m _ => ⟨rfl, hf m, .intro⟩

theorem attends_setLocals (locals : Table Value) :
    Attends I (Machine.Resumes limits) Anything (setLocals locals) (setLocals locals) := by
  refine attends_change fun m => ⟨⟨fun _ => locals, ?_⟩, ?_, fun _ => ?_⟩ <;>
    cases hm : m.frames <;> simp [hm]

theorem attends_count (env : Env) :
    Attends I (Machine.Resumes limits) Anything (count env) (count env) := by
  refine fun m _ => ⟨rfl, ?_⟩
  simp only [count]
  split
  · exact .of_eq rfl rfl rfl
  · exact ⟨.of_eq rfl rfl rfl, .intro⟩

theorem attends_next :
    Attends I (Machine.Resumes limits) Anything nextInvocation nextInvocation := by
  refine fun m _ => ⟨rfl, ?_⟩
  unfold nextInvocation
  cases m.queued[m.served]? with
  | none => exact ⟨.refl m, .intro⟩
  | some i => exact ⟨.of_eq rfl rfl rfl, .intro⟩

end Exec

namespace Calling

open Exec

variable {env : Env} {I : Machine → Prop} (h : Calling env.limits I)

include h

theorem bind {α β : Type} {P : α → Prop} {Q : β → Prop} {x y : Exec α} {f g : α → Exec β}
    (hx : Attends I (Machine.Resumes env.limits) P x y)
    (hf : ∀ a, P a → Attends I (Machine.Resumes env.limits) Q (f a) (g a)) :
    Attends I (Machine.Resumes env.limits) Q (x >>= f) (y >>= g) :=
  hx.bind .trans h.resume hf

omit h in
theorem callBlock {run run' : Block → Exec Unit} {block : Block}
    (hrun : Attends I (Machine.Resumes env.limits) Anything (run block) (run' block)) {f : Frame}
    {name : String} {m : Machine} (hopen : I (openFrame env f name m)) :
    callBlock env run' f name block m = callBlock env run f name block m ∧
      (callBlock env run f name block m).Follows (Machine.Resumes env.limits) m Anything := by
  obtain ⟨hsame, hfollows⟩ := hrun _ hopen
  refine ⟨by simp only [Exec.callBlock, hsame], ?_⟩
  exact (hfollows.afterwards fun _ hn => hn.block).settle _ fun _ hn => hn.cut _

theorem callEntry {run run' : Block → Exec Unit} {block : Block}
    (hrun : Attends I (Machine.Resumes env.limits) Anything (run block) (run' block))
    (e : ElementRef) (trigger : Trigger) (locals : Table Value) (name : String) :
    Attends I (Machine.Resumes env.limits) Anything
      (Exec.callBlock env run ⟨e, .entry trigger, locals⟩ name block)
      (Exec.callBlock env run' ⟨e, .entry trigger, locals⟩ name block) := by
  intro m hm
  refine callBlock hrun ?_
  obtain ⟨cues, events, hopen⟩ := m.openFrame_eq env ⟨e, .entry trigger, locals⟩ name
  rw [hopen]
  exact h.enter hm rfl rfl rfl

/-- A function is refused at the limit. Otherwise it runs one deeper, in a frame of its own. -/
theorem runFunction {run run' : Block → Exec Unit} (f : Function)
    (hrun : Attends I (Machine.Resumes env.limits) Anything (run f.block) (run' f.block))
    (e : ElementRef) (locals : Table Value) :
    Attends I (Machine.Resumes env.limits) Anything (Exec.runFunction env run e f locals)
      (Exec.runFunction env run' e f locals) := by
  intro m hm
  rw [runFunction_eq, runFunction_eq, deeper_apply, deeper_apply]
  by_cases hlimit : 0 < env.limits.depth ∧ env.limits.depth.toNat ≤ m.depth
  · rw [if_pos hlimit, if_pos hlimit]
    exact ⟨rfl, .refl m⟩
  · rw [if_neg hlimit, if_neg hlimit]
    let down : Machine :=
      { m with depth := m.depth + 1, depthPeak := max m.depthPeak (m.depth + 1) }
    let told := down.traced env .function fun _ => "call " ++ e.text ++ "." ++ f.name ++ "()"
    have hopen : I (openFrame env ⟨e, .function, locals⟩ f.name told) := by
      obtain ⟨cues, hcues⟩ := down.traced_eq env .function
        fun _ => "call " ++ e.text ++ "." ++ f.name ++ "()"
      obtain ⟨cues', events, hopen⟩ := told.openFrame_eq env ⟨e, .function, locals⟩ f.name
      rw [hopen]
      refine h.descend hm hlimit (congrArg (List.cons (Frame.mk e .function locals)) ?_) ?_ ?_ <;>
        simp only [told, hcues, down]
    obtain ⟨hsame, hfollows⟩ := callBlock hrun hopen
    refine ⟨congrArg (fun o => returned (afterwards _ o)) hsame, ?_⟩
    refine Outcome.Follows.returned ?_ fun _ hn => hn.taken
    refine hfollows.afterwards fun n hn => Machine.Resumes.ascend hlimit ?_
    exact (Machine.Resumes.traced down env .function _).trans hn

theorem callFunction {run run' : Block → Exec Unit}
    (hrun : ∀ block, Attends I (Machine.Resumes env.limits) Anything (run block) (run' block))
    (op : Opcode) (e : ElementRef) (name : String) :
    Attends I (Machine.Resumes env.limits) Anything (Exec.callFunction env run op e name)
      (Exec.callFunction env run' op e name) := by
  unfold Exec.callFunction
  cases env.story.resolveFunction? e.identity name with
  | none => exact attends_discreet (discreet_stop _)
  | some f =>
    refine h.bind (attends_discreet (discreet_popMany op _)) fun values _ => ?_
    refine h.bind (h.runFunction f (hrun f.block) e _) fun v _ => ?_
    exact attends_discreet discreet_change

theorem rules : CallRules env env Anything Anything Anything
    (Attends I (Machine.Resumes env.limits)) where
  toSteps := .of_discreet (fun hP hx m hm => ⟨(hx m hm).1, (hx m hm).2.mono hP⟩) h.bind
    attends_discreet (fun _ _ => attends_change fun m => .traced m env _ _)
    (fun _ _ => attends_change fun _ => .of_eq rfl rfl rfl) attends_setLocals
  exhausted _ _ := ⟨rfl, trivial⟩
  stop _ _ := attends_discreet (discreet_stop _)
  quit _ _ := ⟨rfl, .of_eq rfl rfl rfl⟩
  queue _ := h.bind (attends_change fun m => .traced m env _ _) fun _ _ =>
    attends_change fun _ => .of_eq rfl rfl rfl
  callEntry trigger name _ _ _ hrun := h.callEntry hrun _ trigger _ name
  callFunction op name hrun _ := h.callFunction (fun _ => hrun fun _ _ _ => .intro) op _ name
  giveBack _ _ _ := ⟨rfl, .of_eq rfl rfl rfl⟩
  weigh hx := hx.through fun m _ ho => ho.weighed m.stack.height fun _ hn => hn.cut _
  goesOn hx := hx.through fun _ _ ho => ho.goesOn fun n hn => hn.trans (.traced n env _ _)

theorem execute {run run' : Block → Exec Unit}
    (hrun : ∀ block, Attends I (Machine.Resumes env.limits) Anything (run block) (run' block))
    (limit : Nat) (op : Operation) : Attends I (Machine.Resumes env.limits) Anything
      (Exec.execute env run limit op) (Exec.execute env run' limit op) :=
  h.rules.execute (fun _ => hrun _) (attends_count env) limit (fun _ _ _ => .intro)
    (attends_change fun m => .watched m env _ _)

theorem runBlock (fuel : Nat) (block : Block) : Attends I (Machine.Resumes env.limits) Anything
    (Exec.runBlock env fuel block) (Exec.runBlock env fuel block) := by
  refine h.rules.runBlock (fun limit op _ hrun => ?_) fuel fun _ _ _ => .intro
  exact h.execute (fun _ => hrun fun _ _ _ => .intro) limit op

theorem requestRules {guard : Guard} (hguard : ∀ (op : Operation) (x : Exec Unit) (m : Machine),
      I m → (x m).Follows (Machine.Resumes env.limits) m Anything → guard op x m = x m)
    (fuel : Nat) :
    RequestRules env env (Exec.runBlock env fuel) (runGuarded guard env fuel) Anything Anything
      Anything (Attends I (Machine.Resumes env.limits)) :=
  h.rules.attends_requestRules (attends_count env)
    (fun _ => attends_change fun m => .watched m env _ _) hguard .taken attends_next
    (fun _ => attends_change fun _ => .of_eq rfl rfl rfl) fuel

end Calling

end Fabula
