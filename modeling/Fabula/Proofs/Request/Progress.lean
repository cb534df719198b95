import Fabula.Proofs.Request.Rules

/-! How a request gets on. A way to compare machines, such as that one has told all the other has,
is kept by operations if it is kept by the few changes it sees: a cue or an invocation more, an
operation recorded, and a frame opened and closed around something that keeps it. Everything else
that operations do is not seen. -/

namespace Fabula

variable {α β : Type} {T : Machine → Machine → Prop} {P : α → Prop} {Q : β → Prop}

def Outcome.machine? : Outcome α → Option Machine
  | .done _ m => some m
  | .stopped _ m => some m
  | .exhausted => none

def Outcome.Follows (T : Machine → Machine → Prop) (m : Machine) (P : α → Prop) : Outcome α → Prop
  | .done a n => T m n ∧ P a
  | .stopped _ n => T m n
  | .exhausted => True

/-- The computation leaves a machine that follows the one it starts with. The other one does not
matter. -/
def Exec.Follows (T : Machine → Machine → Prop) {α : Type} (P : α → Prop) (x _y : Exec α) : Prop :=
  ∀ m, (x m).Follows T m P

def Machine.running (m : Machine) : List ElementRef := m.frames.map Frame.element

/-- What a comparison of machines has to stand. It sees whose blocks are running, what is queued and
served, and what was told and recorded. -/
structure Progress (env : Env) (T : Machine → Machine → Prop) : Prop where
  trans : ∀ {m n k : Machine}, T m n → T n k → T m k
  unseen : ∀ {m n : Machine}, n.running = m.running → n.queued = m.queued →
    n.served = m.served → n.cues = m.cues → n.events = m.events → T m n
  emit : ∀ (m : Machine) {c : Cue}, c.kind.isFailure = false → T m { m with cues := m.cues.push c }
  queue : ∀ (m : Machine) (i : Invocation), T m { m with queued := m.queued.push i }
  operation : ∀ (m : Machine) (op : Opcode),
    T m (m.watched env .operations fun m => .operation op m.operations)
  block : ∀ {m n : Machine} (f : Frame) (name : String), T (Exec.openFrame env f name m) n →
    T m (Exec.closeFrame env f.scope name n)

namespace Outcome.Follows

variable {m n : Machine} {o : Outcome α}

theorem of_machine? (h : o.Follows T m P) (hn : o.machine? = some n) : T m n := by
  cases o with
  | exhausted => cases hn
  | done a k =>
    cases hn
    exact h.1
  | stopped s k =>
    cases hn
    exact h

theorem mono {P' : α → Prop} (h : o.Follows T m P) (hP : ∀ a, P a → P' a) : o.Follows T m P' := by
  cases o with
  | exhausted => trivial
  | done a n => exact ⟨h.1, hP a h.2⟩
  | stopped s n => exact h

theorem imp {U : Machine → Machine → Prop} {k : Machine} (h : o.Follows T m P)
    (hT : ∀ n, T m n → U k n) : o.Follows U k P := by
  cases o with
  | exhausted => trivial
  | done a n => exact ⟨hT n h.1, h.2⟩
  | stopped s n => exact hT n h

theorem afterwards {U : Machine → Machine → Prop} {k : Machine} (h : o.Follows T m P)
    {after : Machine → Machine} (hafter : ∀ n, T m n → U k (after n)) :
    (Exec.afterwards after o).Follows U k P := by
  cases o with
  | exhausted => trivial
  | done a n => exact ⟨hafter n h.1, h.2⟩
  | stopped s n => exact hafter n h

theorem settle (h : o.Follows T m P) (height : Nat)
    (hcut : ∀ n, T m n → T m { n with stack := n.stack.bottom height }) :
    (Exec.settle height o).Follows T m P := by
  cases o with
  | exhausted => trivial
  | done a n =>
    simp only [Exec.settle]
    split
    · exact h
    · exact hcut n h.1
  | stopped s n =>
    simp only [Exec.settle]
    split
    · exact hcut n h
    · split
      · exact h
      · exact hcut n h

theorem weighed {o : Outcome Unit} (h : o.Follows T m Anything) (height : Nat)
    (hcut : ∀ n, T m n → T m { n with stack := n.stack.bottom height }) :
    (Exec.weighed height o).Follows T m Anything := by
  cases o with
  | exhausted => trivial
  | stopped s n => exact h
  | done a n =>
    simp only [Exec.weighed]
    split
    · exact h
    · exact hcut n h.1

theorem returned {o : Outcome Unit} (h : o.Follows T m Anything)
    (htaken : ∀ n, T m n → T m { n with pendingReturn := none }) :
    (Exec.returned o).Follows T m Anything := by
  cases o with
  | exhausted => trivial
  | done a n => exact h
  | stopped s n =>
    cases s with
    | giveBack => exact ⟨htaken n h, .intro⟩
    | _ => exact h

theorem goesOn {o : Outcome Unit} (h : o.Follows T m Anything) {env : Env}
    (htraced : ∀ n, T m n → T m (n.traced env .control fun _ => "BREAK")) :
    (Exec.goesOn env o).Follows T m Anything := by
  cases o with
  | exhausted => trivial
  | done a n => exact ⟨h.1, .intro⟩
  | stopped s n =>
    cases s with
    | nextRound => exact ⟨h, .intro⟩
    | leaveLoop => exact ⟨htraced n h, .intro⟩
    | _ => exact h

theorem handled {o : Outcome Bool} (h : o.Follows T m Anything)
    (htaken : ∀ n, T m n → T m { n with pendingReturn := none }) :
    (Exec.handled o).Follows T m Anything := by
  cases o with
  | exhausted => trivial
  | done a n => exact h
  | stopped s n =>
    cases s with
    | endHandler | leaveLoop | nextRound => exact ⟨h, .intro⟩
    | giveBack => exact ⟨htaken n h, .intro⟩
    | _ => exact h

theorem bind_pure {x : Exec α} {k : Machine} (h : (x k).Follows T m P) {f : α → β}
    (hf : ∀ a, P a → Q (f a)) : ((x >>= fun a => pure (f a)) k).Follows T m Q := by
  rw [Exec.bind_apply]
  generalize x k = o at h ⊢
  cases o with
  | exhausted => trivial
  | done a n => exact ⟨h.1, hf a h.2⟩
  | stopped s n => exact h

end Outcome.Follows

namespace Progress

open Exec

variable {env : Env} {m n : Machine} {o : Outcome α} (h : Progress env T)

include h

theorem refl (m : Machine) : T m m := h.unseen rfl rfl rfl rfl rfl

theorem later {f : Machine → Machine} (hmn : T m n)
    (hrunning : (f n).running = n.running) (hqueued : (f n).queued = n.queued)
    (hserved : (f n).served = n.served) (hcues : (f n).cues = n.cues)
    (hevents : (f n).events = n.events) : T m (f n) :=
  h.trans hmn (h.unseen hrunning hqueued hserved hcues hevents)

theorem traced (m : Machine) (topic : Topic) (message : Machine → String) :
    T m (m.traced env topic message) := by
  unfold Machine.traced
  split
  · exact h.emit m rfl
  · exact h.refl m

theorem cut (hmn : T m n) (height : Nat) : T m { n with stack := n.stack.bottom height } :=
  h.later (f := fun n => { n with stack := n.stack.bottom height }) hmn rfl rfl rfl rfl rfl

theorem taken (hmn : T m n) : T m { n with pendingReturn := none } :=
  h.later (f := fun n => { n with pendingReturn := none }) hmn rfl rfl rfl rfl rfl

theorem settle (ho : o.Follows T m P) (height : Nat) : (settle height o).Follows T m P :=
  ho.settle height fun _ hn => h.cut hn height

theorem weighed {o : Outcome Unit} (ho : o.Follows T m Anything) (height : Nat) :
    (weighed height o).Follows T m Anything :=
  ho.weighed height fun _ hn => h.cut hn height

theorem returned {o : Outcome Unit} (ho : o.Follows T m Anything) :
    (returned o).Follows T m Anything := ho.returned fun _ hn => h.taken hn

theorem goesOn {o : Outcome Unit} (ho : o.Follows T m Anything) :
    (goesOn env o).Follows T m Anything :=
  ho.goesOn fun n hn => h.trans hn (h.traced n _ _)

theorem handled {o : Outcome Bool} (ho : o.Follows T m Anything) :
    (handled o).Follows T m Anything := ho.handled fun _ hn => h.taken hn

theorem follows_bind {x y : Exec α} {f g : α → Exec β} (hx : Follows T P x y)
    (hf : ∀ a, P a → Follows T Q (f a) (g a)) : Follows T Q (x >>= f) (y >>= g) := by
  intro m
  have hm := hx m
  rw [bind_apply]
  cases hxm : x m with
  | exhausted => trivial
  | stopped s n =>
    rw [hxm] at hm
    exact hm
  | done a n =>
    rw [hxm] at hm
    exact (hf a hm.2 n).imp fun k hk => h.trans hm.1 hk

theorem follows_discreet {x y : Exec α} (hx : Discreet P x) : Follows T P x y := by
  intro m
  rcases hx m with ⟨a, state, stack, hx, ha⟩ | ⟨s, hx⟩
  · rw [hx]
    exact ⟨h.unseen rfl rfl rfl rfl rfl, ha⟩
  · rw [hx]
    exact h.refl m

omit h in
theorem follows_change {f : Machine → Machine} (hf : ∀ m, T m (f m)) :
    Follows T Anything (change f) (change f) :=
  fun m => ⟨hf m, .intro⟩

theorem follows_setLocals (locals : Table Value) :
    Follows T Anything (setLocals locals) (setLocals locals) := by
  refine follows_change fun m => ?_
  cases hf : m.frames with
  | nil => exact h.refl m
  | cons f rest => exact h.unseen (by simp [Machine.running, hf]) rfl rfl rfl rfl

theorem follows_count : Follows T Anything (count env) (count env) := by
  intro m
  have hcounted : T m { m with operations := m.operations + 1 } := h.unseen rfl rfl rfl rfl rfl
  simp only [count]
  split
  · exact hcounted
  · exact ⟨hcounted, .intro⟩

theorem follows_callBlock {run run' : Block → Exec Unit} (f : Frame) (name : String)
    (block : Block) (hrun : Follows T Anything (run block) (run' block)) :
    Follows T Anything (callBlock env run f name block) (callBlock env run' f name block) :=
  fun m => h.settle ((hrun _).afterwards fun _ hn => h.block f name hn) m.stack.height

theorem follows_deeper {x y : Exec Unit} (hx : Follows T Anything x y) :
    Follows T Anything (deeper env x) (deeper env y) := by
  intro m
  rw [deeper_apply]
  split
  · exact h.refl m
  · let down : Machine :=
      { m with depth := m.depth + 1, depthPeak := max m.depthPeak (m.depth + 1) }
    have hdown : T m down := h.unseen rfl rfl rfl rfl rfl
    refine h.returned ((hx down).afterwards fun n hn => ?_)
    exact h.later (f := fun n => { n with depth := n.depth - 1 }) (h.trans hdown hn) rfl rfl rfl rfl
      rfl

theorem steps : Steps env env Anything Anything Anything (Follows T) :=
  .of_discreet (fun hP hx m => (hx m).mono hP) h.follows_bind h.follows_discreet
    (fun _ _ => follows_change fun m => h.traced m _ _)
    (fun hc _ => follows_change fun m => h.emit m hc) h.follows_setLocals

theorem rules : Rules env env Anything Anything Anything (Follows T) where
  toSteps := h.steps
  exhausted _ := trivial
  stop _ _ := h.follows_discreet (discreet_stop _)
  quit := h.follows_bind (follows_change fun m => h.emit m rfl) fun _ _ =>
    h.follows_discreet (discreet_stop _)
  queue i := by
    have htold := follows_change fun m => h.traced m .interpreter fun _ => "queued " ++ i.inspect
    exact h.follows_bind htold fun _ _ => follows_change fun m => h.queue m i
  callBlock name block _ _ hrun := h.follows_callBlock _ name block hrun
  giveBack {v} _ := by
    have hstored : Follows T Anything (change fun m => { m with pendingReturn := some v })
        (change fun m => { m with pendingReturn := some v }) := follows_change fun _ =>
      h.unseen rfl rfl rfl rfl rfl
    exact h.follows_bind hstored fun _ _ => h.follows_discreet (discreet_stop .giveBack)
  deeper := h.follows_deeper
  weigh hx m := h.weighed (hx m) m.stack.height
  goesOn hx m := h.goesOn (hx m)

/-- Blocks keep the comparison, however deep they run inside one another. -/
theorem follows_runBlock (fuel : Nat) (block : Block) :
    Follows T Anything (runBlock env fuel block) (runBlock env fuel block) := by
  refine h.rules.runBlock (fun limit op hop hrun => ?_) fuel fun _ _ _ => .intro
  exact h.rules.execute hrun h.follows_count limit hop
    (follows_change fun m => h.operation m op.opcode)

theorem follows_runEntry (fuel : Nat) (e : ElementRef) (entry : Entry) (locals : Table Value) :
    Follows T Anything (runEntry env (runBlock env fuel) e entry locals)
      (runEntry env (runBlock env fuel) e entry locals) :=
  h.rules.runEntry (fun _ => h.follows_runBlock fuel _) .intro entry fun _ _ _ => .intro

end Progress

end Fabula
