import Fabula.Proofs.Machine.Plan

/-! Where signals come from and where they go. While a block runs, one of its operations may have
started another block, and so on down to the operation that is being executed. A signal raised there
passes through all blocks that were started, from the innermost to the outermost, until it meets a
link that catches it: the body of a loop for leaving the loop or the round, the body of a function
for giving back a value. Links that opened a frame hold the signal to a stack that is as high as it
was, and it turns into a failure where it is not. The other way round, a value that is given back
out of a link was given back in its block, and stays the value that is pending. -/

namespace Fabula

def Link.catches : Link → Signal → Bool
  | .body, .leaveLoop | .body, .nextRound | .function _ _, .giveBack => true
  | _, _ => false

structure Start where
  link : Link
  machine : Machine

/-- The machine is left by a signal. What it had to tell and its frames do not matter. -/
structure Machine.Unwound (m n : Machine) : Prop where
  state : n.state = m.state
  stack : n.stack = m.stack
  operations : n.operations = m.operations
  pendingReturn : n.pendingReturn = m.pendingReturn
  queued : n.queued = m.queued
  served : n.served = m.served

namespace Machine.Unwound

variable {m n k : Machine}

theorem refl (m : Machine) : m.Unwound m := ⟨rfl, rfl, rfl, rfl, rfl, rfl⟩

theorem trans (h : m.Unwound n) (h' : n.Unwound k) : m.Unwound k :=
  ⟨h'.state.trans h.state, h'.stack.trans h.stack, h'.operations.trans h.operations,
    h'.pendingReturn.trans h.pendingReturn, h'.queued.trans h.queued, h'.served.trans h.served⟩

theorem closeFrame (m : Machine) (env : Env) (scope : Scope) (name : String) :
    m.Unwound (Exec.closeFrame env scope name m) := by
  obtain ⟨cues, events, h⟩ := m.closeFrame_eq env scope name
  rw [h]
  exact ⟨rfl, rfl, rfl, rfl, rfl, rfl⟩

theorem traced (m : Machine) (env : Env) (topic : Topic) (message : Machine → String) :
    m.Unwound (m.traced env topic message) := by
  obtain ⟨cues, h⟩ := m.traced_eq env topic message
  rw [h]
  exact ⟨rfl, rfl, rfl, rfl, rfl, rfl⟩

end Machine.Unwound

namespace Outcome

variable {α β : Type} {level : Prop} {s : Signal} {m n : Machine} {o : Outcome α} {o' : Outcome β}

/-- A frame was left with a stack of another height than it was opened with. -/
def Imbalanced (o : Outcome α) : Prop :=
  ∃ n expected actual, o = .stopped (.fatal (.stackImbalance expected actual)) n

/-- A signal that was raised on the machine `n` comes out if all frames are level, and otherwise a
failure does. -/
structure Unwinds (level : Prop) (s : Signal) (n : Machine) (o : Outcome α) : Prop where
  passes : level → ∃ k, o = .stopped s k ∧ n.Unwound k
  fails : ¬ level → o.Imbalanced

theorem Unwinds.of_unwound (h : o.Unwinds level s n) (hn : m.Unwound n) : o.Unwinds level s m := by
  refine ⟨fun hlevel => ?_, h.fails⟩
  obtain ⟨k, hk, hunwound⟩ := h.passes hlevel
  exact ⟨k, hk, hn.trans hunwound⟩

theorem Unwinds.of_stopped (h : o.Unwinds level s n)
    (ho : ∀ s' k, o = .stopped s' k → o' = .stopped s' k) : o'.Unwinds level s n := by
  constructor
  · intro hlevel
    obtain ⟨k, hk, hunwound⟩ := h.passes hlevel
    exact ⟨k, ho s k hk, hunwound⟩
  · intro hlevel
    obtain ⟨k, expected, actual, hk⟩ := h.fails hlevel
    exact ⟨k, expected, actual, ho _ k hk⟩

end Outcome

namespace Link

variable {env : Env} {link : Link} {s : Signal} {m n : Machine} {height : Nat} {level : Prop}
  {o : Outcome Unit}

theorem goesOn_of_not_caught (h : body.catches s = false) :
    Exec.goesOn env (.stopped s m) = .stopped s m := by
  cases s with
  | leaveLoop | nextRound => cases h
  | _ => rfl

theorem returned_of_not_caught {f : Frame} {name : String}
    (h : (function f name).catches s = false) : Exec.returned (.stopped s m) = .stopped s m := by
  cases s with
  | giveBack => cases h
  | _ => rfl

theorem catches_of_isFailure (hs : s.isFailure = true) : link.catches s = false := by
  cases s with
  | leaveLoop | nextRound | endHandler | finish | quit | giveBack => cases hs
  | _ => cases link <;> rfl

/-- A signal that is not caught passes, if a frame was left with a stack as high as it was. -/
theorem out_of_level (hs : s.isFailure = false) (hcatches : link.catches s = false)
    (hheight : link.frame?.isSome → height = m.stack.height) :
    ∃ n, link.out env height (.stopped s m) = .stopped s n ∧ m.Unwound n := by
  have hclosed : ∀ (f : Frame) (name : String), height = m.stack.height →
      Exec.settle height (Exec.afterwards (Exec.closeFrame env f.scope name) (.stopped s m)) =
        (.stopped s (Exec.closeFrame env f.scope name m) : Outcome Unit) := by
    intro f name hm
    have hlevel : (Exec.closeFrame env f.scope name m).stack.height = height := by
      rw [(Machine.Unwound.closeFrame m env f.scope name).stack, hm]
    simp only [Exec.afterwards, Exec.settle, hs, hlevel, if_true, Bool.false_eq_true, if_false]
  cases link with
  | part => exact ⟨m, rfl, .refl m⟩
  | condition => exact ⟨m, rfl, .refl m⟩
  | body => exact ⟨m, goesOn_of_not_caught hcatches, .refl m⟩
  | entry f name => exact ⟨_, hclosed f name (hheight rfl), .closeFrame m env f.scope name⟩
  | function f name =>
    have hunwound : m.Unwound (Exec.closeFrame env f.scope name m) := .closeFrame m env f.scope name
    rw [out, hclosed f name (hheight rfl)]
    exact ⟨_, returned_of_not_caught hcatches, hunwound.state, hunwound.stack,
      hunwound.operations, hunwound.pendingReturn, hunwound.queued, hunwound.served⟩

/-- Where a frame is left with a stack of another height, the signal turns into a failure. -/
theorem out_of_uneven (hs : s.isFailure = false) (hframe : link.frame?.isSome)
    (hheight : height ≠ m.stack.height) :
    ∃ n, link.out env height (.stopped s m) =
      .stopped (.fatal (.stackImbalance height m.stack.height)) n := by
  have hclosed : ∀ (f : Frame) (name : String), ∃ n,
      Exec.settle height (Exec.afterwards (Exec.closeFrame env f.scope name) (.stopped s m)) =
        (.stopped (.fatal (.stackImbalance height m.stack.height)) n : Outcome Unit) := by
    intro f name
    have hstack := (Machine.Unwound.closeFrame m env f.scope name).stack
    simp only [Exec.afterwards, Exec.settle, hs, hstack, hheight.symm, Bool.false_eq_true, if_false]
    exact ⟨_, rfl⟩
  cases link with
  | part | condition | body => cases hframe
  | entry f name => exact hclosed f name
  | function f name =>
    obtain ⟨n, hn⟩ := hclosed f name
    rw [out, hn]
    exact ⟨_, rfl⟩

theorem out_of_isFailure (hs : s.isFailure = true) :
    ∃ n, link.out env height (.stopped s m) = .stopped s n := by
  have hcatches : link.catches s = false := catches_of_isFailure hs
  cases link with
  | part | condition => exact ⟨m, rfl⟩
  | body => exact ⟨m, goesOn_of_not_caught hcatches⟩
  | entry f name =>
    simp only [out, Exec.afterwards, Exec.settle, hs, if_true]
    exact ⟨_, rfl⟩
  | function f name =>
    simp only [out, Exec.afterwards, Exec.settle, hs, if_true]
    exact ⟨_, returned_of_not_caught hcatches⟩

/-- A link adds to what has to be level, if it opened a frame. -/
theorem out_unwinds (hs : s.isFailure = false) (hcatches : link.catches s = false)
    (h : o.Unwinds level s n) :
    (link.out env height o).Unwinds (level ∧ (link.frame?.isSome → height = n.stack.height)) s
      n := by
  constructor
  · rintro ⟨hlevel, hheight⟩
    obtain ⟨k, rfl, hunwound⟩ := h.passes hlevel
    rw [← hunwound.stack] at hheight
    obtain ⟨k', hout, hleft⟩ := out_of_level hs hcatches hheight
    exact ⟨k', hout, hunwound.trans hleft⟩
  · intro huneven
    by_cases hlevel : level
    · obtain ⟨k, rfl, hunwound⟩ := h.passes hlevel
      rw [← hunwound.stack] at huneven
      obtain ⟨hframe, hheight⟩ := Classical.not_imp.mp fun hheight => huneven ⟨hlevel, hheight⟩
      obtain ⟨k', hout⟩ := out_of_uneven hs hframe hheight
      exact ⟨k', _, _, hout⟩
    · -- the failure is there already
      obtain ⟨k, expected, actual, rfl⟩ := h.fails hlevel
      obtain ⟨k', hout⟩ : ∃ k', link.out env height
          (.stopped (.fatal (.stackImbalance expected actual)) k) = .stopped _ k' :=
        out_of_isFailure rfl
      exact ⟨k', expected, actual, hout⟩

theorem of_settle (h : Exec.settle height o = .stopped .giveBack m) :
    o = .stopped .giveBack m := by
  cases o with
  | exhausted => cases h
  | done a n =>
    simp only [Exec.settle] at h
    split at h <;> cases h
  | stopped s n =>
    simp only [Exec.settle] at h
    split at h
    · rename_i hs
      cases h
      cases hs
    · split at h <;> cases h
      rfl

theorem of_weighed (h : Exec.weighed height o = .stopped .giveBack m) :
    o = .stopped .giveBack m := by
  cases o with
  | exhausted => cases h
  | done a n =>
    simp only [Exec.weighed] at h
    split at h <;> cases h
  | stopped s n => exact h

theorem of_goesOn (h : Exec.goesOn env o = .stopped .giveBack m) :
    o = .stopped .giveBack m := by
  cases o with
  | exhausted => cases h
  | done a n => cases h
  | stopped s n =>
    cases s with
    | giveBack =>
      cases h
      rfl
    | _ => cases h

theorem returned_ne (o : Outcome Unit) : Exec.returned o ≠ .stopped .giveBack m := by
  intro h
  cases o with
  | exhausted => cases h
  | done a n => cases h
  | stopped s n => cases s <;> cases h

theorem giveBack_of_out (h : link.out env height o = .stopped .giveBack m) :
    link.catches .giveBack = false ∧ ∃ n, o = .stopped .giveBack n ∧ n.Unwound m := by
  cases link with
  | part => exact ⟨rfl, m, h, .refl m⟩
  | condition => exact ⟨rfl, m, of_weighed h, .refl m⟩
  | body => exact ⟨rfl, m, of_goesOn h, .refl m⟩
  | function f name => exact absurd h (returned_ne _)
  | entry f name =>
    refine ⟨rfl, ?_⟩
    have hclosed := of_settle h
    cases o with
    | exhausted => cases hclosed
    | done a n => cases hclosed
    | stopped s n =>
      cases hclosed
      exact ⟨n, rfl, .closeFrame n env f.scope name⟩

end Link

def Exec.announce (env : Env) (op : Operation) : Exec Unit := do
  count env
  record env .operations fun m => .operation op.opcode m.operations
  trace env .internal fun m => operationText m.state.heap op

theorem Exec.announce_cases (env : Env) (op : Operation) (m : Machine) :
    (∃ n, announce env op m = .done () n ∧ n.frames = m.frames ∧
      Machine.Unwound { m with operations := m.operations + 1 } n) ∨
    (0 < env.limits.operations ∧ env.limits.operations.toNat ≤ m.operations + 1 ∧
      ∃ n limit, announce env op m = .stopped (.runaway (.operations limit)) n) := by
  obtain ⟨events, hevents⟩ := Machine.watched_eq { m with operations := m.operations + 1 } env
    .operations fun m => .operation op.opcode m.operations
  obtain ⟨cues, hcues⟩ := Machine.traced_eq
    { m with operations := m.operations + 1, events := events } env .internal
    fun m => operationText m.state.heap op
  simp only [announce, bind_apply, count]
  split
  · rename_i k hk
    split at hk <;> cases hk
    simp only [record, trace, change_apply, hevents, hcues]
    exact .inl ⟨_, rfl, rfl, rfl, rfl, rfl, rfl, rfl, rfl⟩
  · rename_i s k hk
    split at hk <;> cases hk
    rename_i hrefused
    exact .inr ⟨hrefused.1, hrefused.2, _, _, rfl⟩
  · rename_i hk
    split at hk <;> cases hk

theorem Exec.execute_eq (env : Env) (run : Block → Exec Unit) (limit : Nat) (op : Operation) :
    execute env run limit op = announce env op >>= fun _ => perform env run limit op := by
  simp only [execute, announce, bind_assoc]

/-- While a block runs on the machine `m`, the operation `op` comes to be executed on the machine
`l`, in the last of the blocks that were started one inside the other. -/
inductive Inside (env : Env) :
    Nat → Block → Machine → List Start → Operation → Machine → Prop
  | here {fuel : Nat} {before after : Block} {op : Operation} {m l : Machine}
      (hbefore : Exec.forEach (Exec.execute env (Exec.runBlock env fuel) fuel) before m =
        .done () l) :
      Inside env (fuel + 1) (before ++ op :: after) m [] op l
  | inner {fuel : Nat} {before after block : Block} {outer op : Operation} {link : Link}
      {m n k c l : Machine} {rest : link.Result → Plan Unit} {starts : List Start}
      (hbefore : Exec.forEach (Exec.execute env (Exec.runBlock env fuel) fuel) before m =
        .done () n)
      (hannounce : Exec.announce env outer n = .done () c)
      (hstarts : (Plan.operation env fuel outer).Starts env (Exec.runBlock env fuel) c link block k
        rest)
      (h : Inside env fuel block (link.enter env k) starts op l) :
      Inside env (fuel + 1) (before ++ outer :: after) m (⟨link, k⟩ :: starts) op l

def LevelWith (starts : List Start) (n : Machine) : Prop :=
  ∀ start ∈ starts, start.link.frame?.isSome → start.machine.stack.height = n.stack.height

section Runs

variable {env : Env} {fuel : Nat} {block : Block} {m n l : Machine} {op : Operation}
  {starts : List Start} {s : Signal}

theorem forEach_append {α : Type} (f : α → Exec Unit) (xs ys : List α) (m : Machine) :
    Exec.forEach f (xs ++ ys) m = (Exec.bind (Exec.forEach f xs) fun _ => Exec.forEach f ys) m := by
  induction xs generalizing m with
  | nil => rfl
  | cons a xs ih =>
    simp only [List.cons_append, Exec.forEach_cons, Exec.bind]
    cases f a m with
    | done _ n => exact ih n
    | stopped s n => rfl
    | exhausted => rfl

theorem runBlock_of_stopped {before after : Block}
    (hbefore : Exec.forEach (Exec.execute env (Exec.runBlock env fuel) fuel) before m = .done () l)
    (h : Exec.execute env (Exec.runBlock env fuel) fuel op l = .stopped s n) :
    Exec.runBlock env (fuel + 1) (before ++ op :: after) m = .stopped s n := by
  simp only [Exec.runBlock, forEach_append, Exec.bind, hbefore, Exec.forEach, h]

theorem exists_of_forEach_stopped {α : Type} {f : α → Exec Unit} {items : List α}
    (h : Exec.forEach f items m = .stopped s n) :
    ∃ before a after l, items = before ++ a :: after ∧ Exec.forEach f before m = .done () l ∧
      f a l = .stopped s n := by
  induction items generalizing m with
  | nil => cases h
  | cons a rest ih =>
    rw [Exec.forEach] at h
    cases ha : f a m with
    | exhausted =>
      rw [ha] at h
      cases h
    | stopped s' n' =>
      rw [ha] at h
      cases h
      exact ⟨[], a, rest, m, rfl, rfl, ha⟩
    | done _ k =>
      rw [ha] at h
      obtain ⟨before, b, after, l, hitems, hbefore, hb⟩ := ih h
      refine ⟨a :: before, b, after, l, by rw [hitems, List.cons_append], ?_, hb⟩
      rw [Exec.forEach, ha]
      exact hbefore

theorem levelWith_cons (start : Start) : LevelWith (start :: starts) n ↔
    LevelWith starts n ∧
      (start.link.frame?.isSome → start.machine.stack.height = n.stack.height) := by
  simp only [LevelWith, List.forall_mem_cons, and_comm]

/-- A signal that is caught by none of the blocks that were started goes all the way through them,
if all frames are left with a stack as high as it was, and turns into a failure otherwise. -/
theorem Inside.runBlock (h : Inside env fuel block m starts op l)
    (hop : ∀ run limit, Exec.execute env run limit op l = .stopped s n)
    (hs : s.isFailure = false) (hcatches : ∀ start ∈ starts, start.link.catches s = false) :
    (Exec.runBlock env fuel block m).Unwinds (LevelWith starts n) s n := by
  -- from the outside in: what comes out of the block below goes through one link more
  induction h with
  | here hbefore =>
    refine ⟨fun _ => ⟨n, runBlock_of_stopped hbefore (hop _ _), .refl n⟩, fun hlevel => ?_⟩
    exact absurd (fun start hstart => by cases hstart) hlevel
  | @inner fuel before after block outer op link m n' k c l rest starts hbefore hannounce hstarts h
      ih =>
    have hblock := ih hop fun start hstart => hcatches start (.tail _ hstart)
    have hlink : (link.around env (Exec.runBlock env fuel) block k).Unwinds
        (LevelWith starts n ∧ (link.frame?.isSome → k.stack.height = n.stack.height)) s n :=
      Link.out_unwinds hs (hcatches ⟨link, k⟩ (.head _)) hblock
    rw [levelWith_cons]
    refine hlink.of_stopped fun s' n'' hout => runBlock_of_stopped hbefore ?_
    rw [Exec.execute_eq, Exec.bind_apply, hannounce, ← Plan.exec_operation]
    exact hstarts.stopped hout

end Runs

end Fabula
