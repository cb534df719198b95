import Fabula.Proofs.Machine.Keeping
import Fabula.Proofs.Request.Progress

/-! How a request gets on, with a look at the machine around every operation. Inside a block the
machine does not follow the one that the block was called on, as a frame is open. What is known of
machines on the way has to be kept by whatever follows and when a frame is opened, and that is
enough: when the frame is closed again the machine follows the one before. -/

namespace Fabula

variable {α β : Type} {I : Machine → Prop} {T : Machine → Machine → Prop} {P : α → Prop}
  {Q : β → Prop}

/-- What is known of machines on the way of a request that gets on. -/
structure Attending (env : Env) (I : Machine → Prop) (T : Machine → Machine → Prop) : Prop where
  progress : Progress env T
  follow : ∀ {m n : Machine}, I m → T m n → I n
  enter : ∀ {m : Machine} (f : Frame) (name : String), I m → I (Exec.openFrame env f name m)

namespace Exec

def Attends (I : Machine → Prop) (T : Machine → Machine → Prop) {α : Type} (P : α → Prop)
    (x y : Exec α) : Prop :=
  ∀ m, I m → y m = x m ∧ (x m).Follows T m P

theorem Follows.attends {x y : Exec α} (h : Follows T P x y) : Attends I T P x x :=
  fun m _ => ⟨rfl, h m⟩

theorem Attends.through {x y : Exec α} (hx : Attends I T P x y)
    {after : Machine → Outcome α → Outcome β}
    (hafter : ∀ m o, Outcome.Follows T m P o → (after m o).Follows T m Q) :
    Attends I T Q (fun m => after m (x m)) fun m => after m (y m) := by
  intro m hm
  obtain ⟨hsame, hfollows⟩ := hx m hm
  exact ⟨by simp only [hsame], hafter m _ hfollows⟩

theorem Attends.bind {x y : Exec α} {f g : α → Exec β} (hx : Attends I T P x y)
    (htrans : ∀ {m n k : Machine}, T m n → T n k → T m k)
    (hfollow : ∀ {m n : Machine}, I m → T m n → I n)
    (hf : ∀ a, P a → Attends I T Q (f a) (g a)) : Attends I T Q (x >>= f) (y >>= g) := by
  intro m hm
  obtain ⟨hsame, hfollows⟩ := hx m hm
  rw [bind_apply, bind_apply, hsame]
  cases hxm : x m with
  | exhausted => exact ⟨rfl, trivial⟩
  | stopped s n =>
    rw [hxm] at hfollows
    exact ⟨rfl, hfollows⟩
  | done a n =>
    rw [hxm] at hfollows
    obtain ⟨hsame', hfollows'⟩ := hf a hfollows.2 n (hfollow hm hfollows.1)
    exact ⟨hsame', hfollows'.imp fun _ hk => htrans hfollows.1 hk⟩

section

variable {env : Env} (h : CallRules env env Anything Anything Anything (Attends I T))
  (hcount : Attends I T Anything (count env) (count env))
  (hrecord : ∀ op, Attends I T Anything (record env .operations fun m => .operation op m.operations)
    (record env .operations fun m => .operation op m.operations))
  {guard : Guard} (hguard : ∀ (op : Operation) (x : Exec Unit) (m : Machine), I m →
    (x m).Follows T m Anything → guard op x m = x m)

include h hcount hrecord hguard

/-- A guard that lets pass all operations that get on is not seen. -/
theorem CallRules.attends_runGuarded (fuel : Nat) (block : Block) :
    Attends I T Anything (runBlock env fuel block) (runGuarded guard env fuel block) := by
  refine h.runGuarded (fun limit op hop hrun m hm => ?_) fuel fun _ _ _ => .intro
  obtain ⟨hsame, hfollows⟩ := h.execute hrun hcount limit hop (hrecord _) m hm
  rw [hguard op _ m hm (hsame ▸ hfollows)]
  exact ⟨hsame, hfollows⟩

theorem CallRules.attends_requestRules
    (htaken : ∀ {m n : Machine}, T m n → T m { n with pendingReturn := none })
    (hnext : Attends I T Anything nextInvocation nextInvocation)
    (henqueue : ∀ i, Attends I T Anything (change fun m => { m with queued := m.queued.push i })
      (change fun m => { m with queued := m.queued.push i })) (fuel : Nat) :
    RequestRules env env (runBlock env fuel) (runGuarded guard env fuel) Anything Anything Anything
      (Attends I T) where
  toBasics := h.toBasics
  grounds := .trivial env.story
  exhausted := h.exhausted
  runHandler entry _ he hlocals := by
    have hrun := h.attends_runGuarded hcount hrecord hguard fuel
    exact (h.runEntry (fun _ => hrun _) he entry hlocals).through
      fun _ _ ho => ho.handled fun _ hn => htaken hn
  next := hnext
  enqueue := henqueue

end

end Exec

namespace Attending

open Exec

variable {env : Env} (h : Attending env I T)

include h

theorem bind {x y : Exec α} {f g : α → Exec β} (hx : Attends I T P x y)
    (hf : ∀ a, P a → Attends I T Q (f a) (g a)) : Attends I T Q (x >>= f) (y >>= g) :=
  hx.bind h.progress.trans h.follow hf

theorem callBlock {run run' : Block → Exec Unit} (f : Frame) (name : String) (block : Block)
    (hrun : Attends I T Anything (run block) (run' block)) :
    Attends I T Anything (callBlock env run f name block) (callBlock env run' f name block) := by
  intro m hm
  obtain ⟨hsame, hfollows⟩ := hrun _ (h.enter f name hm)
  refine ⟨by simp only [Exec.callBlock, hsame], h.progress.settle ?_ m.stack.height⟩
  exact hfollows.afterwards fun _ hn => h.progress.block f name hn

theorem deeper {x y : Exec Unit} (hx : Attends I T Anything x y) :
    Attends I T Anything (deeper env x) (deeper env y) := by
  have hdescend : Follows T Anything (descend env) (descend env) := by
    intro m
    unfold descend
    split
    · exact h.progress.refl m
    · exact ⟨h.progress.unseen rfl rfl rfl rfl rfl, .intro⟩
  refine h.bind hdescend.attends fun _ _ => hx.through fun m o ho => h.progress.returned ?_
  refine ho.afterwards fun n hn => ?_
  exact h.progress.later (f := fun n => { n with depth := n.depth - 1 }) hn rfl rfl rfl rfl rfl

theorem rules : Rules env env Anything Anything Anything (Attends I T) where
  toSteps := .of_discreet (fun hP hx m hm => ⟨(hx m hm).1, (hx m hm).2.mono hP⟩) h.bind
    (fun {_ _ x} hx => (h.progress.follows_discreet (y := x) hx).attends)
    (fun _ _ => (Progress.follows_change fun m => h.progress.traced m _ _).attends)
    (fun hfailure hquit => (h.progress.rules.emit hfailure hquit).attends)
    (fun _ => (h.progress.follows_setLocals _).attends)
  exhausted := h.progress.rules.exhausted.attends
  stop hrunaway hgiveBack := (h.progress.rules.stop hrunaway hgiveBack).attends
  quit := h.progress.rules.quit.attends
  queue i := (h.progress.rules.queue i).attends
  callBlock name block _ _ hrun := h.callBlock _ name block hrun
  giveBack hv := (h.progress.rules.giveBack hv).attends
  deeper := h.deeper
  weigh hx := hx.through fun m _ ho => h.progress.weighed ho m.stack.height
  goesOn hx := hx.through fun _ _ ho => h.progress.goesOn ho

/-- Requests get on if the queue is looked after, and a guard that lets pass all operations that get
on is not seen. -/
theorem requestRules {guard : Guard} (hguard : ∀ (op : Operation) (x : Exec Unit) (m : Machine),
      I m → (x m).Follows T m Anything → guard op x m = x m)
    (hnext : ∀ m : Machine, T m { m with served := m.served + 1 }) (fuel : Nat) :
    RequestRules env env (runBlock env fuel) (Exec.runGuarded guard env fuel) Anything Anything
      Anything (Attends I T) := by
  refine h.rules.callRules.attends_requestRules h.progress.follows_count.attends (fun op => ?_)
    hguard h.progress.taken ?_ (fun i => ?_) fuel
  · exact (Progress.follows_change fun m => h.progress.operation m op).attends
  · refine Follows.attends (y := nextInvocation) fun m => ?_
    unfold nextInvocation
    cases m.queued[m.served]? with
    | none => exact ⟨h.progress.refl m, .intro⟩
    | some i => exact ⟨hnext m, .intro⟩
  · exact (Progress.follows_change fun m => h.progress.queue m i).attends

end Attending

end Fabula
