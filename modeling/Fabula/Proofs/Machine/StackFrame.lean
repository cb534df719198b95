import Fabula.Proofs.Machine.Rules
import Fabula.Sample.Cellar

/-! What a block leaves alone on the stack. A computation takes values from the top, so whatever lies
below the values it finds use for is neither read nor changed: it could be taken away before and put
back afterwards. A block in a frame of its own has to leave the stack as high as it was, and that is
all it is held to. It may take values it did not push, if it pushes as many others. -/

namespace Fabula

namespace Stack

def onto (s base : Stack) : Stack :=
  ⟨s.values ++ base.values, s.height + base.height, by simp [s.height_eq, base.height_eq]⟩

def upper (s : Stack) (k : Nat) : Stack :=
  ⟨s.values.take k, min k s.height, by simp [s.height_eq]⟩

@[simp] theorem values_onto (s base : Stack) : (s.onto base).values = s.values ++ base.values := rfl

@[simp] theorem height_onto (s base : Stack) : (s.onto base).height = s.height + base.height := rfl

theorem upper_onto_drop (s : Stack) (k : Nat) : (s.upper k).onto (s.drop k) = s :=
  eq_of_values (List.take_append_drop k s.values)

/-- What was put below a stack that is as high as before is still below its top `k` values. -/
theorem drop_of_onto_drop {s l t : Stack} {k : Nat} (h : s = l.onto (t.drop k))
    (hheight : s.height = t.height) : s.drop k = t.drop k := by
  apply eq_of_values
  have hlength := hheight
  rw [h, height_onto, height_drop, l.height_eq, t.height_eq] at hlength
  rw [h, values_drop, values_onto, values_drop]
  rcases Nat.le_total k t.values.length with hk | hk
  · have hl : l.values.length = k := by omega
    rw [← hl, List.drop_left]
  · simp only [List.drop_eq_nil_of_le hk, List.append_nil, List.drop_eq_nil_iff]
    omega

theorem push_onto (s base : Stack) (v : Value) : (s.onto base).push v = (s.push v).onto base :=
  eq_of_values rfl

theorem drop_onto (s base : Stack) {k : Nat} (h : k ≤ s.height) :
    (s.onto base).drop k = (s.drop k).onto base := by
  apply eq_of_values
  rw [s.height_eq] at h
  simp [List.drop_append_of_le_length h]

theorem top_onto (s base : Stack) {k : Nat} (h : k ≤ s.height) : (s.onto base).top k = s.top k := by
  rw [s.height_eq] at h
  simp [top, List.take_append_of_le_length h]

theorem bottom_onto (s base : Stack) (height : Nat) :
    (s.onto base).bottom (height + base.height) = (s.bottom height).onto base := by
  have hcut : (s.onto base).height - (height + base.height) = s.height - height := by
    rw [height_onto]
    omega
  rw [bottom, hcut, drop_onto s base (Nat.sub_le _ _), bottom]

theorem pop?_onto {s rest : Stack} {v : Value} (h : s.pop? = some (v, rest)) (base : Stack) :
    (s.onto base).pop? = some (v, rest.onto base) := by
  obtain ⟨values, height, hheight⟩ := s
  cases values with
  | nil => cases h
  | cons w values =>
    cases h
    simp only [pop?, onto, List.cons_append, Option.some.injEq, Prod.mk.injEq, true_and]
    exact eq_of_values rfl

end Stack

namespace Machine

def onto (m : Machine) (base : Stack) : Machine := { m with stack := m.stack.onto base }

variable (m : Machine) (base : Stack)

@[simp] theorem state_onto : (m.onto base).state = m.state := rfl

@[simp] theorem frames_onto : (m.onto base).frames = m.frames := rfl

@[simp] theorem depth_onto : (m.onto base).depth = m.depth := rfl

@[simp] theorem operations_onto : (m.onto base).operations = m.operations := rfl

@[simp] theorem stack_onto : (m.onto base).stack = m.stack.onto base := rfl

theorem push_onto (v : Value) :
    { m.onto base with stack := (m.onto base).stack.push v } =
      { m with stack := m.stack.push v }.onto base := by
  rw [stack_onto, Stack.push_onto]
  rfl

theorem traced_onto (env : Env) (topic : Topic) {message : Machine → String}
    (h : message (m.onto base) = message m) :
    (m.onto base).traced env topic message = (m.traced env topic message).onto base := by
  unfold traced
  rw [h]
  split <;> rfl

theorem watched_onto (env : Env) (wanted : TraceMask) {event : Machine → Event}
    (h : event (m.onto base) = event m) :
    (m.onto base).watched env wanted event = (m.watched env wanted event).onto base := by
  unfold watched
  rw [h]
  split <;> rfl

theorem bottom_onto (height : Nat) :
    { m.onto base with stack := (m.onto base).stack.bottom (height + base.height) } =
      { m with stack := m.stack.bottom height }.onto base := by
  rw [stack_onto, Stack.bottom_onto]
  rfl

end Machine

/-- Signals that are the same, but for the heights that an imbalance of the stack tells of. -/
inductive Signal.Raised (height : Nat) : Signal → Signal → Prop
  | same (s : Signal) : Raised height s s
  | imbalance (expected actual : Nat) : Raised height (.fatal (.stackImbalance expected actual))
      (.fatal (.stackImbalance (expected + height) (actual + height)))

theorem Signal.Raised.isFailure {height : Nat} {s s' : Signal} (h : s.Raised height s') :
    s'.isFailure = s.isFailure := by
  cases h <;> rfl

variable {α β : Type} {P : α → Prop} {base : Stack}

/-- The outcome with other values underneath, unless they were reached for. -/
inductive Outcome.Over (base : Stack) (P : α → Prop) : Outcome α → Outcome α → Prop
  | done {a : α} {m n : Machine} (known : P a) (under : n = m.onto base) :
      Over base P (.done a m) (.done a n)
  | stopped {s s' : Signal} {m n : Machine} (raised : s.Raised base.height s')
      (under : n = m.onto base) : Over base P (.stopped s m) (.stopped s' n)
  | short {op : Opcode} {m : Machine} {o : Outcome α} :
      Over base P (.stopped (.fatal (.stackUnderflow op)) m) o
  | exhausted : Over base P .exhausted .exhausted

/-- The computation came to its end, or was ended by a signal that is no failure. -/
inductive Outcome.EndsAt (n : Machine) : Outcome α → Prop
  | done (a : α) : EndsAt n (.done a n)
  | signal (s : Signal) (quiet : s.isFailure = false) : EndsAt n (.stopped s n)

namespace Outcome.Over

theorem halt (s : Signal) (m : Machine) :
    Over base P (.stopped s m : Outcome α) (.stopped s (m.onto base)) := .stopped (.same s) rfl

theorem afterwards {x y : Outcome α} (h : Over base P x y) {after : Machine → Machine}
    (ha : ∀ m : Machine, after (m.onto base) = (after m).onto base) :
    Over base P (Exec.afterwards after x) (Exec.afterwards after y) := by
  cases h with
  | done known under => exact .done known (under ▸ ha _)
  | stopped raised under => exact .stopped raised (under ▸ ha _)
  | short => exact .short
  | exhausted => exact .exhausted

theorem settle {x y : Outcome α} (h : Over base P x y) (height : Nat) :
    Over base P (Exec.settle height x) (Exec.settle (height + base.height) y) := by
  cases h with
  | done known under =>
    subst under
    simp only [Exec.settle, Machine.stack_onto, Stack.height_onto, Nat.add_right_cancel_iff]
    split
    · exact .done known rfl
    · exact .stopped (.imbalance _ _) (Machine.bottom_onto _ _ _)
  | stopped raised under =>
    subst under
    simp only [Exec.settle, Machine.stack_onto, Stack.height_onto, Nat.add_right_cancel_iff,
      raised.isFailure]
    split
    · exact .stopped raised (Machine.bottom_onto _ _ _)
    · split
      · exact .stopped raised rfl
      · exact .stopped (.imbalance _ _) (Machine.bottom_onto _ _ _)
  | short => exact .short
  | exhausted => exact .exhausted

theorem weighed {x y : Outcome Unit} (h : Over base Anything x y) (height : Nat) :
    Over base Anything (Exec.weighed height x) (Exec.weighed (height + base.height) y) := by
  cases h with
  | done known under =>
    subst under
    simp only [Exec.weighed, Machine.stack_onto, Stack.height_onto,
      Nat.add_right_comm _ base.height 1, Nat.add_right_cancel_iff]
    split
    · exact .done .intro rfl
    · exact .stopped (.imbalance _ _) (Machine.bottom_onto _ _ _)
  | stopped raised under => exact .stopped raised under
  | short => exact .short
  | exhausted => exact .exhausted

theorem returned {x y : Outcome Unit} (h : Over base Anything x y) :
    Over base Anything (Exec.returned x) (Exec.returned y) := by
  cases h with
  | done known under => exact .done .intro under
  | @stopped s s' m n raised under =>
    subst under
    cases raised with
    | same s =>
      cases s with
      | giveBack => exact .done .intro rfl
      | _ => exact .halt _ _
    | imbalance e a => exact .stopped (.imbalance e a) rfl
  | short => exact .short
  | exhausted => exact .exhausted

theorem goesOn {x y : Outcome Unit} (h : Over base Anything x y) (env : Env) :
    Over base Anything (Exec.goesOn env x) (Exec.goesOn env y) := by
  cases h with
  | done known under => exact .done .intro under
  | @stopped s s' m n raised under =>
    subst under
    cases raised with
    | same s =>
      cases s with
      | nextRound => exact .done .intro rfl
      | leaveLoop => exact .done .intro (m.traced_onto base env _ rfl)
      | _ => exact .halt _ _
    | imbalance e a => exact .stopped (.imbalance e a) rfl
  | short => exact .short
  | exhausted => exact .exhausted

end Outcome.Over

namespace Exec

def Over (base : Stack) (P : α → Prop) (x y : Exec α) : Prop :=
  ∀ m, Outcome.Over base P (x m) (y (m.onto base))

theorem Over.bind {Q : β → Prop} {x y : Exec α} {f g : α → Exec β} (hx : Over base P x y)
    (hf : ∀ a, P a → Over base Q (f a) (g a)) : Over base Q (x >>= f) (y >>= g) := by
  intro m
  have h := hx m
  rw [bind_apply, bind_apply]
  generalize x m = p at h ⊢
  generalize y (m.onto base) = q at h ⊢
  cases h with
  | done known under => exact under ▸ hf _ known _
  | stopped raised under => exact .stopped raised under
  | short => exact .short
  | exhausted => exact .exhausted

theorem Over.mono {Q : α → Prop} {x y : Exec α} (hpq : ∀ a, P a → Q a) (hx : Over base P x y) :
    Over base Q x y := by
  intro m
  have h := hx m
  generalize x m = p at h ⊢
  generalize y (m.onto base) = q at h ⊢
  cases h with
  | done known under => exact .done (hpq _ known) under
  | stopped raised under => exact .stopped raised under
  | short => exact .short
  | exhausted => exact .exhausted

theorem over_change {f : Machine → Machine} (h : ∀ m : Machine, f (m.onto base) = (f m).onto base) :
    Over base Anything (change f) (change f) :=
  fun m => .done .intro (h m)

theorem over_trace (env : Env) {topic : Topic} {message : Machine → String}
    (h : ∀ m n : Machine, m.state = n.state → message m = message n) :
    Over base Anything (trace env topic message) (trace env topic message) :=
  over_change fun m => m.traced_onto base env topic (h _ _ rfl)

theorem over_pop (op : Opcode) : Over base Anything (pop op) (pop op) := by
  intro m
  unfold pop
  cases hp : m.stack.pop? with
  | none => exact .short
  | some found =>
    simp only [Machine.stack_onto, Stack.pop?_onto hp]
    exact .done .intro rfl

theorem over_popMany (op : Opcode) (n : Nat) : Over base Anything (popMany op n) (popMany op n) := by
  intro m
  unfold popMany
  by_cases hn : m.stack.height < n
  · rw [if_pos hn]
    exact .short
  · have hn' : ¬ (m.onto base).stack.height < n := by
      rw [Machine.stack_onto, Stack.height_onto]
      omega
    have hle : n ≤ m.stack.height := Nat.not_lt.mp hn
    rw [if_neg hn, if_neg hn', Machine.stack_onto, Stack.top_onto _ _ hle, Stack.drop_onto _ _ hle]
    exact .done .intro rfl

theorem over_ask {f : State → Except Fault α} (hf : ∀ st a, True → f st = .ok a → P a) :
    Over base P (ask f) (ask f) := by
  intro m
  unfold ask
  rw [Machine.state_onto]
  cases he : f m.state with
  | error e => exact .halt _ _
  | ok a => exact .done (hf _ _ .intro he) rfl

theorem over_frame (op : Opcode) :
    Over base (fun f => True ∧ Holds Anything f.locals) (frame op) (frame op) := by
  intro m
  unfold frame
  rw [Machine.frames_onto]
  cases m.frames with
  | nil => exact .halt _ _
  | cons f rest => exact .done ⟨.intro, fun _ _ _ => .intro⟩ rfl

theorem over_changeContext (env : Env) (identity : String) (f : Context → Context) :
    Over base Anything (changeContext env identity f) (changeContext env identity f) := by
  intro m
  unfold changeContext
  rw [Machine.state_onto]
  cases m.state.context env.story identity with
  | error e => exact .halt _ _
  | ok c => exact .done .intro rfl

theorem over_descend (env : Env) : Over base Anything (descend env) (descend env) := by
  intro m
  by_cases hdeep : 0 < env.limits.depth ∧ env.limits.depth.toNat ≤ m.depth
  · rw [descend, descend, Machine.depth_onto, if_pos hdeep, if_pos hdeep]
    exact .halt _ _
  · rw [descend, descend, Machine.depth_onto, if_neg hdeep, if_neg hdeep]
    exact .done .intro rfl

theorem openFrame_onto (env : Env) (f : Frame) (name : String) (m : Machine) :
    openFrame env f name (m.onto base) = (openFrame env f name m).onto base := by
  simp only [openFrame]
  rw [Machine.traced_onto _ _ _ _ rfl, Machine.watched_onto _ _ _ _ rfl]
  rfl

theorem closeFrame_onto (env : Env) (scope : Scope) (name : String) (m : Machine) :
    closeFrame env scope name (m.onto base) = (closeFrame env scope name m).onto base := by
  simp only [closeFrame, Machine.frames_onto]
  split
  · rfl
  · rw [Machine.watched_onto _ _ _ _ rfl, ← Machine.traced_onto _ _ _ _ rfl]
    rfl

theorem over_callBlock (env : Env) {run run' : Block → Exec Unit} (f : Frame) (name : String)
    (block : Block) (hrun : Over base Anything (run block) (run' block)) :
    Over base Anything (callBlock env run f name block) (callBlock env run' f name block) := by
  intro m
  have hran := hrun (openFrame env f name m)
  rw [← openFrame_onto] at hran
  exact (hran.afterwards (closeFrame_onto env f.scope name)).settle m.stack.height

/-- Every part of an operation leaves alone what lies below the values it takes. -/
theorem rules_over (env : Env) (base : Stack) :
    Rules env env Anything Anything Anything (Over base) where
  story := rfl
  grounds := .trivial env.story
  mono := Over.mono
  pure known m := .done known rfl
  bind := Over.bind
  fault f m := .halt _ _
  see f hf m := .done (hf m.state .intro) rfl
  ask hf := over_ask hf
  trace := over_trace env
  misuse message m := .halt _ _
  push _ := over_change fun m => m.push_onto base _
  pop := over_pop
  popMany op n := (over_popMany op n).mono fun _ _ _ _ => .intro
  emit _ _ := over_change fun _ => rfl
  frame op := over_frame op
  setLocals _ := over_change fun m => by cases hf : m.frames <;> simp [Machine.onto, hf]
  changeContext identity f _ := over_changeContext env identity f
  newList _ m := .done .intro rfl
  changeList _ _ := over_change fun _ => rfl
  draw f m := .done .intro rfl
  change c _ := over_change fun _ => rfl
  exhausted _ := .exhausted
  stop _ _ m := .halt _ _
  quit := (over_change fun _ => rfl).bind fun _ _ _ => .halt _ _
  queue i := (over_trace env fun _ _ _ => rfl).bind fun _ _ => over_change fun _ => rfl
  callBlock name block _ _ hrun := over_callBlock env _ name block hrun
  giveBack _ := (over_change fun _ => rfl).bind fun _ _ _ => .halt _ _
  deeper hx := (over_descend env).bind fun _ _ m => ((hx m).afterwards fun _ => rfl).returned
  weigh hx m := (hx m).weighed m.stack.height
  goesOn hx m := (hx m).goesOn env

theorem over_count (env : Env) : Over base Anything (count env) (count env) := by
  intro m
  have hcount : count env (m.onto base) = afterwards (fun m => m.onto base) (count env m) := by
    unfold count
    dsimp only [Machine.operations_onto]
    split <;> rfl
  rw [hcount]
  cases count env m with
  | done _ n => exact .done .intro rfl
  | stopped s n => exact .halt s n
  | exhausted => exact .exhausted

theorem over_runBlock (env : Env) (base : Stack) (fuel : Nat) (block : Block) :
    Over base Anything (runBlock env fuel block) (runBlock env fuel block) := by
  refine (rules_over env base).runBlock (fun limit op hop hrun => ?_) fuel fun _ _ _ => .intro
  have hrecord : Over base Anything
      (record env .operations fun m => .operation op.opcode m.operations)
      (record env .operations fun m => .operation op.opcode m.operations) :=
    over_change fun m => m.watched_onto base env _ rfl
  exact (rules_over env base).execute hrun (over_count env) limit hop hrecord

/-- The computation finds all values it takes among the top `k`. -/
def ReachesWithin (x : Exec α) (k : Nat) (m : Machine) : Prop :=
  ∀ op n, x { m with stack := m.stack.upper k } ≠ .stopped (.fatal (.stackUnderflow op)) n

theorem height_of_settle {o : Outcome α} {height : Nat} {n : Machine}
    (h : (settle height o).EndsAt n) : n.stack.height = height := by
  cases o with
  | exhausted => cases h
  | done a l =>
    simp only [settle] at h
    split at h
    · rename_i hl
      cases h
      exact hl
    · cases h with
      | signal s quiet => cases quiet
  | stopped s l =>
    simp only [settle] at h
    split at h
    · rename_i hs
      cases h with
      | signal _ quiet =>
        rw [hs] at quiet
        cases quiet
    · split at h
      · rename_i hl
        cases h
        exact hl
      · cases h with
        | signal _ quiet => cases quiet

theorem stack_of_over {x y : Outcome α} (h : Outcome.Over base P x y)
    (hx : ∀ op n, x ≠ .stopped (.fatal (.stackUnderflow op)) n) {n : Machine} (hn : y.EndsAt n) :
    ∃ l : Machine, n.stack = l.stack.onto base := by
  cases h with
  | @done a m _ known under =>
    cases hn
    exact ⟨m, congrArg Machine.stack under⟩
  | @stopped s s' m _ raised under =>
    cases hn
    exact ⟨m, congrArg Machine.stack under⟩
  | short => exact absurd rfl (hx _ _)
  | exhausted => cases hn

/-- A block leaves alone what lies below the values it takes: if it does not fail, the stack is as
high as before, and the same below the top `k` values if the block takes no values but them. A block
that takes none of the values that were there leaves the stack as it was. -/
theorem callBlock_leaves_below (env : Env) (fuel : Nat) (f : Frame) (name : String) (block : Block)
    (m n : Machine) (k : Nat)
    (hk : (callBlock env (runBlock env fuel) f name block).ReachesWithin k m)
    (hn : (callBlock env (runBlock env fuel) f name block m).EndsAt n) :
    n.stack.height = m.stack.height ∧ n.stack.drop k = m.stack.drop k ∧
      (k = 0 → n.stack = m.stack) := by
  have hheight : n.stack.height = m.stack.height := height_of_settle hn
  have hover := over_callBlock env f name block (over_runBlock env (m.stack.drop k) fuel block)
    { m with stack := m.stack.upper k }
  have hm : Machine.onto { m with stack := m.stack.upper k } (m.stack.drop k) = m := by
    simp only [Machine.onto, Stack.upper_onto_drop]
  rw [hm] at hover
  obtain ⟨l, hl⟩ := stack_of_over hover hk hn
  have hdrop : n.stack.drop k = m.stack.drop k := Stack.drop_of_onto_drop hl hheight
  refine ⟨hheight, hdrop, ?_⟩
  rintro rfl
  exact Stack.eq_of_values (congrArg Stack.values hdrop)

end Exec

namespace Sample

/-- A block that takes a value it did not push and leaves another one. -/
def meddle : Block := Build.plain (.stack .pop) ++ Build.push (.string "theirs")

def meddling : Exec Unit :=
  let env : Env := ⟨cellarStory, {}, .none, .none⟩
  Exec.callBlock env (Exec.runBlock env 1) ⟨.world, .function, ∅⟩ "meddle" meddle

def trusting : Machine where
  state := ⟨.empty, ∅, .empty, .ofSeed seed⟩
  stack := (Stack.empty.push (.string "kept")).push (.string "mine")

/-- The meddling block comes to its end with the value on top overwritten, and the one below kept. -/
theorem meddling_leaves_below : meddling.ReachesWithin 1 trusting ∧ ∃ n, meddling trusting =
    .done () n ∧ n.stack ≠ trusting.stack ∧ n.stack.height = trusting.stack.height ∧
      n.stack.drop 1 = trusting.stack.drop 1 := by
  have hreach : meddling.ReachesWithin 1 trusting := by
    intro op n h
    cases h
  refine ⟨hreach, _, rfl, ?_, ?_⟩
  · intro h
    have hvalues := congrArg Stack.values h
    revert hvalues
    decide
  · have hends : (meddling trusting).EndsAt _ := .done ()
    obtain ⟨hheight, hbelow, -⟩ := Exec.callBlock_leaves_below _ 1 _ _ _ _ _ 1 hreach hends
    exact ⟨hheight, hbelow⟩

end Sample

end Fabula
