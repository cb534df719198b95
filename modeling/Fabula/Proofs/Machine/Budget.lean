import Fabula.Machine.Execute
import Fabula.Proofs.Machine.Plain

/-! Running under a limit of operations. Every block that runs inside another one and every round of
a loop goes with an operation that was counted, so the operations that are left also bound how deep
blocks nest and how often loops go round. Two computations that differ only in how much of either
they are allowed come to the same outcome as long as both are allowed what is left. -/

namespace Fabula

variable {α β : Type} {L k credit : Nat}

/-- What the machine can come to. Invocations are queued only by counted operations, but for as many
as the credit says. -/
structure Machine.Leads (credit : Nat) (m n : Machine) : Prop where
  operations : m.operations ≤ n.operations
  served : m.served ≤ m.queued.size → n.served ≤ n.queued.size
  queued : n.queued.size + m.operations + m.served ≤
    m.queued.size + n.operations + n.served + credit
  cues : ∀ c ∈ n.cues, c ∈ m.cues ∨ c.kind ≠ .fatal

theorem Machine.Keeps.leads {m n : Machine} (h : m.Keeps n) : m.Leads credit n where
  operations := Nat.le_of_eq h.operations.symm
  served := by simp [h.served, h.queued]
  queued := by
    rw [h.served, h.queued, h.operations]
    omega
  cues := h.cues

theorem Machine.Leads.credited {m n : Machine} (h : m.Leads 0 n) : m.Leads credit n :=
  { h with queued := Nat.le_trans h.queued (Nat.le_add_right _ credit) }

theorem Machine.Leads.trans {m n l : Machine} (h : m.Leads 0 n) (h' : n.Leads credit l) :
    m.Leads credit l where
  operations := Nat.le_trans h.operations h'.operations
  served hm := h'.served (h.served hm)
  queued := by
    have := h.queued
    have := h'.queued
    omega
  cues c hc := by
    rcases h'.cues c hc with hc | hc
    · exact h.cues c hc
    · exact .inr hc

theorem Machine.Leads.counted {m n : Machine}
    (h : Machine.Leads 1 { m with operations := m.operations + 1 } n) : m.Leads 0 n where
  operations := Nat.le_of_succ_le h.operations
  served := h.served
  queued := by
    have := h.queued
    simp only at this
    omega
  cues := h.cues

theorem Machine.Leads.keeps {m n l : Machine} (h : m.Leads credit n) (h' : n.Keeps l) :
    m.Leads credit l where
  operations := h'.operations ▸ h.operations
  served hm := h'.served ▸ h'.queued ▸ h.served hm
  queued := by
    rw [h'.served, h'.queued, h'.operations]
    exact h.queued
  cues c hc := by
    rcases h'.cues c hc with hc | hc
    · exact h.cues c hc
    · exact .inr hc

/-- The computation ended below the limit, or was refused the operation that reaches it. -/
inductive Outcome.Within (L credit : Nat) (m : Machine) : Outcome α → Prop
  | done {a : α} {n : Machine} (leads : m.Leads credit n) (below : n.operations < L) :
      Within L credit m (.done a n)
  | stopped {s : Signal} {n : Machine} (leads : m.Leads credit n) (below : n.operations < L)
      (signal : ∀ limit, s ≠ .runaway (.operations limit)) : Within L credit m (.stopped s n)
  | refused {n : Machine} (leads : m.Leads credit n) (spent : n.operations = L) :
      Within L credit m (.stopped (.runaway (.operations L)) n)

namespace Outcome.Within

variable {m n : Machine} {o : Outcome α}

theorem imp {credit' : Nat} (ho : o.Within L credit n)
    (h : ∀ l, n.Leads credit l → m.Leads credit' l) : o.Within L credit' m := by
  cases ho with
  | done leads below => exact .done (h _ leads) below
  | stopped leads below signal => exact .stopped (h _ leads) below signal
  | refused leads spent => exact .refused (h _ leads) spent

theorem earlier (h : m.Leads 0 n) (ho : o.Within L credit n) : o.Within L credit m :=
  ho.imp fun _ leads => h.trans leads

theorem counted (ho : o.Within L 1 { m with operations := m.operations + 1 }) : o.Within L 0 m :=
  ho.imp fun _ leads => leads.counted

theorem credited (ho : o.Within L 0 m) : o.Within L credit m := ho.imp fun _ leads => leads.credited

theorem afterwards (ho : o.Within L credit m) {after : Machine → Machine}
    (h : ∀ n : Machine, n.Keeps (after n)) : (Exec.afterwards after o).Within L credit m := by
  cases ho with
  | @done a n leads below =>
    exact .done (leads.keeps (h n)) (Nat.lt_of_le_of_lt (Nat.le_of_eq (h n).operations) below)
  | @stopped s n leads below signal =>
    exact .stopped (leads.keeps (h n)) (Nat.lt_of_le_of_lt (Nat.le_of_eq (h n).operations) below)
      signal
  | @refused n leads spent => exact .refused (leads.keeps (h n)) ((h n).operations.trans spent)

theorem settle (ho : o.Within L credit m) (height : Nat) :
    (Exec.settle height o).Within L credit m := by
  have hcut : ∀ n : Machine, n.Keeps { n with stack := n.stack.bottom height } := fun _ =>
    .of_eq rfl rfl rfl rfl
  cases ho with
  | done leads below =>
    simp only [Exec.settle]
    split
    · exact .done leads below
    · exact .stopped (leads.keeps (hcut _)) below (by simp)
  | stopped leads below signal =>
    simp only [Exec.settle]
    split
    · exact .stopped (leads.keeps (hcut _)) below signal
    · split
      · exact .stopped leads below signal
      · exact .stopped (leads.keeps (hcut _)) below (by simp)
  | refused leads spent => exact .refused (leads.keeps (hcut _)) spent

theorem returned {o : Outcome Unit} (ho : o.Within L credit m) :
    (Exec.returned o).Within L credit m := by
  cases ho with
  | done leads below => exact .done leads below
  | @stopped s n leads below signal =>
    cases s with
    | giveBack => exact .done (leads.keeps (.of_eq rfl rfl rfl rfl)) below
    | _ => exact .stopped leads below signal
  | refused leads spent => exact .refused leads spent

theorem goesOn {o : Outcome Unit} (ho : o.Within L credit m) (env : Env) :
    (Exec.goesOn env o).Within L credit m := by
  cases ho with
  | done leads below => exact .done leads below
  | @stopped s n leads below signal =>
    cases s with
    | nextRound => exact .done leads below
    | leaveLoop =>
      have kept : n.Keeps (n.traced env .control fun _ => "BREAK") := .traced env _ _
      exact .done (leads.keeps kept) (kept.operations ▸ below)
    | _ => exact .stopped leads below signal
  | refused leads spent => exact .refused leads spent

end Outcome.Within

namespace Exec

def SteadyFrom (L credit : Nat) (m : Machine) (x y : Exec α) : Prop :=
  x m = y m ∧ (x m).Within L credit m

def Steady (L k credit : Nat) (x y : Exec α) : Prop :=
  ∀ m : Machine, m.operations < L → L ≤ k + m.operations → SteadyFrom L credit m x y

theorem steady_plain (x : Exec α) [hx : Plain x] : Steady L k credit x x := by
  intro m hm _
  refine ⟨rfl, ?_⟩
  have h := hx.outcome m
  generalize x m = o at h ⊢
  cases h with
  | done kept => exact .done kept.leads (kept.operations ▸ hm)
  | stopped kept signal => exact .stopped kept.leads (kept.operations ▸ hm) signal

theorem steady_stop {s : Signal} (h : ∀ limit, s ≠ .runaway (.operations limit)) :
    Steady L k credit (stop s : Exec α) (stop s) :=
  fun _ hm _ => ⟨rfl, .stopped Machine.Keeps.rfl.leads hm h⟩

theorem SteadyFrom.bind {m : Machine} {x y : Exec α} {f g : α → Exec β}
    (hx : SteadyFrom L 0 m x y)
    (hf : ∀ a n, x m = .done a n → m.Leads 0 n → n.operations < L →
      SteadyFrom L credit n (f a) (g a)) : SteadyFrom L credit m (x >>= f) (y >>= g) := by
  obtain ⟨heq, hx⟩ := hx
  unfold SteadyFrom
  rw [bind_apply, bind_apply, ← heq]
  generalize x m = o at hx hf ⊢
  cases hx with
  | @done a n leads below =>
    obtain ⟨heq, hwithin⟩ := hf a n rfl leads below
    exact ⟨heq, hwithin.earlier leads⟩
  | stopped leads below signal => exact ⟨rfl, .stopped leads.credited below signal⟩
  | refused leads spent => exact ⟨rfl, .refused leads.credited spent⟩

theorem Steady.bind {x y : Exec α} {f g : α → Exec β} (hx : Steady L k 0 x y)
    (hf : ∀ a, Steady L k credit (f a) (g a)) : Steady L k credit (x >>= f) (y >>= g) :=
  fun m hm hk => (hx m hm hk).bind fun a n _ leads below =>
    hf a n below (Nat.le_trans hk (Nat.add_le_add_left leads.operations k))

theorem Steady.credited {x y : Exec α} (h : Steady L k 0 x y) : Steady L k credit x y :=
  fun m hm hk => ⟨(h m hm hk).1, (h m hm hk).2.credited⟩

theorem bind_eq_done {x : Exec α} {f : α → Exec β} {m n : Machine} {b : β}
    (h : (x >>= f) m = .done b n) : ∃ a l, x m = .done a l ∧ f a l = .done b n := by
  rw [bind_apply] at h
  cases hx : x m with
  | done a l =>
    rw [hx] at h
    exact ⟨a, l, rfl, h⟩
  | stopped s l =>
    rw [hx] at h
    cases h
  | exhausted =>
    rw [hx] at h
    cases h

theorem Plain.keeps {x : Exec α} [hx : Plain x] {m n : Machine} {a : α} (h : x m = .done a n) :
    m.Keeps n := by
  have ho := hx.outcome m
  rw [h] at ho
  cases ho with
  | done kept => exact kept

theorem Steady.done {x y : Exec α} (h : Steady L k credit x y) {m n : Machine} {a : α}
    (hm : m.operations < L) (hk : L ≤ k + m.operations) (hx : x m = .done a n) :
    m.Leads credit n ∧ n.operations < L ∧ L ≤ k + n.operations := by
  have ho := (h m hm hk).2
  rw [hx] at ho
  cases ho with
  | done leads below =>
    exact ⟨leads, below, Nat.le_trans hk (Nat.add_le_add_left leads.operations k)⟩

theorem Steady.discarded {x y : Exec α} (h : Steady L k 0 x y) :
    Steady L k credit (discard x) (discard y) :=
  h.bind fun _ => steady_plain (pure PUnit.unit)

theorem steady_forEach {f g : α → Exec Unit} (items : List α)
    (h : ∀ a ∈ items, Steady L k 0 (f a) (g a)) :
    Steady L k 0 (forEach f items) (forEach g items) := by
  induction items with
  | nil => exact fun m hm _ => ⟨rfl, .done Machine.Keeps.rfl.leads hm⟩
  | cons a items ih =>
    intro m hm hk
    unfold SteadyFrom
    rw [forEach_cons, forEach_cons]
    have hrest := ih fun b hb => h b (List.mem_cons_of_mem _ hb)
    exact (h a List.mem_cons_self).bind (fun _ => hrest) m hm hk

/-- Rounds that end in time: `enough` says of a machine how many more rounds are enough, and every
round that goes on leaves one less to do. -/
theorem steady_rounds {x y : Exec Bool} (enough : Nat → Machine → Prop) (h : Steady L k 0 x y)
    (hzero : ∀ m : Machine, m.operations < L → ¬ enough 0 m)
    (hstep : ∀ n (m l : Machine), m.operations < L → L ≤ k + m.operations → x m = .done true l →
      enough (n + 1) m → enough n l)
    {n n' : Nat} (hn : n ≤ n') {m : Machine} (hm : m.operations < L) (hk : L ≤ k + m.operations)
    (he : enough n m) :
    SteadyFrom L 0 m (rounds x n) (rounds y n') := by
  induction n generalizing n' m with
  | zero => exact absurd he (hzero m hm)
  | succ n ih =>
    obtain ⟨n', rfl⟩ : ∃ j, n' = j + 1 := ⟨n' - 1, by omega⟩
    obtain ⟨heq, hx⟩ := h m hm hk
    have hnext := hstep n m
    simp only [SteadyFrom, rounds, ← heq]
    generalize x m = o at hx hnext ⊢
    cases hx with
    | @done goesOn l leads below =>
      cases goesOn with
      | false => exact ⟨rfl, .done leads below⟩
      | true =>
        have hk' : L ≤ k + l.operations := Nat.le_trans hk (Nat.add_le_add_left leads.operations k)
        obtain ⟨heq, hrest⟩ := ih (Nat.le_of_succ_le_succ hn) below hk' (hnext l hm hk rfl he)
        exact ⟨heq, hrest.earlier leads⟩
    | stopped leads below signal => exact ⟨rfl, .stopped leads below signal⟩
    | refused leads spent => exact ⟨rfl, .refused leads spent⟩

/-- What is asked of two ways to run blocks: they are steady, and a block that runs to its end has
left the stack alone or counted an operation. -/
structure RunsSteadily (L k : Nat) (run run' : Block → Exec Unit) : Prop where
  steady : ∀ block, Steady L k 0 (run block) (run' block)
  moves : ∀ (block : Block) (m n : Machine), m.operations < L → L ≤ k + m.operations →
    run block m = .done () n → n.stack = m.stack ∨ m.operations < n.operations

variable {env : Env} {run run' : Block → Exec Unit}

theorem keeps_openFrame (env : Env) (f : Frame) (name : String) (m : Machine) :
    m.Keeps (openFrame env f name m) :=
  ((Machine.Keeps.traced env _ _).trans (.watched env _ _)).trans (.of_eq rfl rfl rfl rfl)

theorem keeps_closeFrame (env : Env) (scope : Scope) (name : String) (m : Machine) :
    m.Keeps (closeFrame env scope name m) := by
  unfold closeFrame
  split
  · exact .rfl
  · rename_i f rest _
    have hwatched : m.Keeps (m.watched env .scopes fun m =>
        .leave scope m.frames.length f.element.identity name) := .watched env _ _
    refine .trans (hwatched.trans ?_) (.traced env _ _)
    exact .of_eq rfl rfl rfl rfl

theorem steady_callBlock (h : RunsSteadily L k run run') (f : Frame) (name : String)
    (block : Block) :
    Steady L k 0 (callBlock env run f name block) (callBlock env run' f name block) := by
  intro m hm hk
  have hopen := keeps_openFrame env f name m
  obtain ⟨heq, hrun⟩ := h.steady block (openFrame env f name m) (hopen.operations ▸ hm)
    (hopen.operations ▸ hk)
  have hclosed := (hrun.earlier hopen.leads).afterwards (keeps_closeFrame env f.scope name)
  unfold SteadyFrom callBlock
  rw [← heq]
  exact ⟨rfl, hclosed.settle m.stack.height⟩

theorem steady_runEntry (h : RunsSteadily L k run run') (e : ElementRef) (entry : Entry)
    (locals : Table Value) :
    Steady L k 0 (runEntry env run e entry locals) (runEntry env run' e entry locals) := by
  refine (steady_plain _).bind fun block => ?_
  cases block with
  | none => exact steady_plain (pure false)
  | some block =>
    refine (steady_plain _).bind fun name => (steady_plain _).bind fun _ => ?_
    exact (steady_callBlock h _ name block).bind fun _ => steady_plain (pure true)

theorem plain_descend (env : Env) : Plain (descend env) where
  outcome m := by
    unfold descend
    split
    · exact .stopped .rfl (by simp)
    · exact .done (.of_eq rfl rfl rfl rfl)

theorem steady_runFunction (h : RunsSteadily L k run run') (e : ElementRef) (f : Function)
    (locals : Table Value) :
    Steady L k 0 (runFunction env run e f locals) (runFunction env run' e f locals) := by
  have hdescend := plain_descend env
  refine (steady_plain _).bind fun _ => (steady_plain _).bind fun _ m hm hk => ?_
  have hcall : Steady L k 0 (callBlock env run ⟨e, .function, locals⟩ f.name f.block)
      (callBlock env run' ⟨e, .function, locals⟩ f.name f.block) := steady_callBlock h _ _ _
  have hreturn : ∀ n : Machine, n.Keeps { n with depth := n.depth - 1 } := fun _ =>
    .of_eq rfl rfl rfl rfl
  obtain ⟨heq, hwithin⟩ := hcall m hm hk
  simp only [SteadyFrom, ← heq]
  exact ⟨trivial, (hwithin.afterwards hreturn).returned⟩

theorem steady_callFunction (h : RunsSteadily L k run run') (op : Opcode) (e : ElementRef)
    (name : String) :
    Steady L k 0 (callFunction env run op e name) (callFunction env run' op e name) := by
  unfold callFunction
  cases env.story.resolveFunction? e.identity name with
  | none => exact steady_plain (fault _)
  | some f =>
    refine (steady_plain _).bind fun values => ?_
    exact (steady_runFunction h e f _).bind fun v => steady_plain (push v)

theorem steady_callOp (h : RunsSteadily L k run run') (op : Operation) (o : CallOp) :
    Steady L k 0 (callOp env run op o) (callOp env run' op o) := by
  cases o with
  | function | elementFunction =>
    exact (steady_plain _).bind fun name => (steady_plain _).bind fun e =>
      steady_callFunction h op.opcode _ name
  | giveBack =>
    refine (steady_plain _).bind fun v => (steady_plain _).bind fun _ => ?_
    have hstore : Plain (change fun m => { m with pendingReturn := some v }) :=
      plain_change fun _ => .of_eq rfl rfl rfl rfl
    exact (steady_plain _).bind fun _ => steady_stop (by simp)

theorem steady_runFocus (h : RunsSteadily L k run run') (e : ElementRef) (trigger : Trigger) :
    Steady L k 0 (runFocus env run e trigger) (runFocus env run' e trigger) :=
  (steady_runEntry h e ⟨trigger, []⟩ ∅).discarded

theorem steady_unfocus (h : RunsSteadily L k run run') (previous : Option ElementRef) :
    Steady L k 0 (unfocus env run previous) (unfocus env run' previous) := by
  cases previous with
  | none => exact steady_plain (pure ())
  | some e => exact steady_runFocus h e .onUnfocus

theorem steady_setPlayer (h : RunsSteadily L k run run') (player : ElementRef) :
    Steady L k 0 (setPlayer env run player) (setPlayer env run' player) := by
  refine (steady_plain _).bind fun previous => ?_
  split
  · exact steady_plain (pure ())
  · exact (steady_unfocus h previous).bind fun _ => (steady_plain _).bind fun _ =>
      steady_runFocus h player .onFocus

theorem steady_focusOp (h : RunsSteadily L k run run') (op : Opcode) (o : FocusOp) :
    Steady L k 0 (focusOp env run op o) (focusOp env run' op o) := by
  cases o with
  | setPlayer => exact (steady_plain _).bind fun player => steady_setPlayer h player
  | pushRoom =>
    exact (steady_plain _).bind fun room => (steady_plain _).bind fun player =>
      (steady_plain _).bind fun _ => steady_runFocus h room .onFocus
  | popRoom =>
    exact (steady_plain _).bind fun player => (steady_plain _).bind fun room =>
      (steady_runFocus h room .onUnfocus).bind fun _ => steady_plain _
  | swapRoom =>
    exact (steady_plain _).bind fun room => (steady_plain _).bind fun player =>
      (steady_plain _).bind fun previous => (steady_unfocus h previous).bind fun _ =>
        (steady_plain _).bind fun _ => steady_runFocus h room .onFocus
  | playerIs | roomIs | noPlayer | noRoom =>
    simp only [focusOp]
    exact steady_plain _

theorem steady_browse (h : RunsSteadily L k run run') (op : Opcode) :
    Steady L k 0 (browse env run op) (browse env run' op) := by
  refine (steady_plain _).bind fun holder => (steady_plain _).bind fun m => ?_
  refine steady_forEach _ fun object _ => ?_
  refine (steady_runEntry h _ _ ∅).bind fun ran => ?_
  cases ran with
  | false => exact (steady_runEntry h _ _ ∅).discarded
  | true => exact steady_plain (pure ())

theorem steady_condition (h : RunsSteadily L k run run') (op : Operation) :
    Steady L k 0 (condition run op) (condition run' op) := by
  refine (steady_plain _).bind fun block => (steady_plain _).bind fun height =>
    (h.steady block).bind fun _ => ?_
  have hcut : Plain (change fun m => { m with stack := m.stack.bottom height }) :=
    plain_change fun _ => .of_eq rfl rfl rfl rfl
  exact steady_plain _

/-- A condition counts an operation: without one it has no value to leave on the stack. -/
theorem operations_lt_of_condition (h : RunsSteadily L k run run') {op : Operation} {m n : Machine}
    {holds : Bool} (hm : m.operations < L) (hk : L ≤ k + m.operations)
    (hc : condition run op m = .done holds n) : m.operations < n.operations := by
  obtain ⟨block, m₁, hblock, hc⟩ := bind_eq_done hc
  have hkept := Plain.keeps hblock
  obtain ⟨height, m₂, hheight, hc⟩ := bind_eq_done hc
  obtain ⟨_, n₁, hrun, hc⟩ := bind_eq_done hc
  obtain ⟨actual, n₂, hactual, hc⟩ := bind_eq_done hc
  cases hheight
  cases hactual
  rw [← hkept.operations] at hm hk ⊢
  split at hc
  · rename_i heights
    have hone : n₁.stack.height = m₁.stack.height + 1 := heights
    rw [(Plain.keeps hc).operations]
    rcases h.moves block m₁ n₁ hm hk hrun with hstack | hmoved
    · rw [hstack] at hone
      omega
    · exact hmoved
  · obtain ⟨_, _, _, hfault⟩ := bind_eq_done hc
    cases hfault

theorem steady_decideCondition (h : RunsSteadily L k run run') (op : Operation) :
    Steady L k 0 (decideCondition env run op) (decideCondition env run' op) :=
  (steady_condition h op).bind fun _ => steady_plain _

theorem steady_runIfAny (h : RunsSteadily L k run run') (block : Option Block) :
    Steady L k 0 (runIfAny run block) (runIfAny run' block) := by
  cases block with
  | none => exact steady_plain (pure ())
  | some block => exact h.steady block

theorem steady_loopBody (h : RunsSteadily L k run run') (op : Operation) :
    Steady L k 0 (loopBody env run op) (loopBody env run' op) := by
  intro m hm hk
  obtain ⟨heq, hbody⟩ := steady_runIfAny h op.success m hm hk
  unfold SteadyFrom loopBody
  rw [← heq]
  exact ⟨rfl, hbody.goesOn env⟩

theorem steady_loopRound (h : RunsSteadily L k run run') (op : Operation) (step : Option Block) :
    Steady L k 0 (loopRound env run op step) (loopRound env run' op step) := by
  refine (steady_decideCondition h op).bind fun holds => ?_
  cases holds with
  | false => exact steady_plain (pure false)
  | true =>
    refine (steady_loopBody h op).bind fun goesOn => ?_
    cases goesOn with
    | false => exact steady_plain (pure false)
    | true => exact (steady_runIfAny h step).bind fun _ => steady_plain (pure true)

theorem operations_lt_of_loopRound (h : RunsSteadily L k run run') {op : Operation}
    {step : Option Block} {m n : Machine} (hm : m.operations < L) (hk : L ≤ k + m.operations)
    (hr : loopRound env run op step m = .done true n) : m.operations < n.operations := by
  obtain ⟨holds, m₁, hdecide, hr⟩ := bind_eq_done hr
  obtain ⟨_, m₀, hcondition, htold⟩ := bind_eq_done hdecide
  have hcounted := operations_lt_of_condition h hm hk hcondition
  have htrace := (Plain.keeps htold).operations
  obtain ⟨_, hm₁, hk₁⟩ := (steady_decideCondition h op).done hm hk hdecide
  cases holds with
  | false => cases hr
  | true =>
    obtain ⟨goesOn, m₂, hbody, hr⟩ := bind_eq_done hr
    obtain ⟨hleads, hm₂, hk₂⟩ := (steady_loopBody h op).done hm₁ hk₁ hbody
    cases goesOn with
    | false => cases hr
    | true =>
      obtain ⟨_, m₃, hstep, hr⟩ := bind_eq_done hr
      obtain ⟨hleads', _, _⟩ := (steady_runIfAny h step).done hm₂ hk₂ hstep
      cases hr
      have := hleads.operations
      have := hleads'.operations
      omega

theorem steady_loop (h : RunsSteadily L k run run') {limit limit' : Nat} (hl : k ≤ limit)
    (hl' : limit ≤ limit') (op : Operation) (step : Option Block) :
    Steady L k 0 (rounds (loopRound env run op step) limit)
      (rounds (loopRound env run' op step) limit') := by
  intro m hm hk
  refine steady_rounds (fun n m => L ≤ n + m.operations) (steady_loopRound h op step) ?_ ?_ hl' hm
    hk ?_
  · intro m hm he
    omega
  · intro n m l hm hk hround he
    have := operations_lt_of_loopRound h hm hk hround
    omega
  · omega

theorem steady_controlOp (h : RunsSteadily L k run run') {limit limit' : Nat} (hl : k ≤ limit)
    (hl' : limit ≤ limit') (op : Operation) (o : ControlOp) :
    Steady L k 0 (controlOp env run limit op o) (controlOp env run' limit' op o) := by
  cases o with
  | branch =>
    refine (steady_decideCondition h op).bind fun holds => ?_
    cases holds with
    | false => exact steady_runIfAny h op.failure
    | true => exact steady_runIfAny h op.success
  | whileLoop => exact steady_loop h hl hl' op none
  | forLoop =>
    exact (steady_plain _).bind fun init => (h.steady init).bind fun _ =>
      steady_loop h hl hl' op op.step
  | leaveLoop | nextRound | endHandler | finish => exact steady_stop (by simp)
  | quit =>
    have hquit : Plain (emit { kind := .quit }) := plain_emit (by simp)
    exact (steady_plain _).bind fun _ => steady_stop (by simp)
  | error => exact (steady_plain _).bind fun _ => steady_stop (by simp)

theorem steady_queue (i : Invocation) : Steady L k 1 (queue env i) (queue env i) := by
  refine (steady_plain _).bind fun _ m hm hk => ⟨rfl, .done ⟨Nat.le_refl _, ?_, ?_, ?_⟩ hm⟩
  · intro hs
    simp only [Array.size_push]
    omega
  · simp only [Array.size_push]
    omega
  · exact fun _ h => .inl h

theorem steady_queueOp (op : Opcode) (o : QueueOp) :
    Steady L k 1 (queueOp env op o) (queueOp env op o) := by
  cases o with
  | action => exact (steady_plain _).bind fun _ => steady_queue _
  | withText | withObject =>
    exact (steady_plain _).bind fun _ => (steady_plain _).bind fun _ => steady_queue _
  | withObjects =>
    exact (steady_plain _).bind fun _ => (steady_plain _).bind fun _ =>
      (steady_plain _).bind fun _ => steady_queue _

theorem steady_holdingOp (h : RunsSteadily L k run run') (op : Opcode) (o : HoldingOp) :
    Steady L k 0 (holdingOp env op (browse env run op) o)
      (holdingOp env op (browse env run' op) o) := by
  by_cases ho : o = .browse
  · subst ho
    exact steady_browse h op
  · have hplain := plain_holdingOp env op (browse env run op) ho
    have hsame : holdingOp env op (browse env run' op) o =
        holdingOp env op (browse env run op) o := by
      cases o with
      | browse => exact absurd rfl ho
      | _ => simp only [holdingOp]
    rw [hsame]
    exact steady_plain _

theorem steady_perform (h : RunsSteadily L k run run') {limit limit' : Nat} (hl : k ≤ limit)
    (hl' : limit ≤ limit') (op : Operation) :
    Steady L k 1 (perform env run limit op) (perform env run' limit' op) := by
  unfold perform
  split
  · exact steady_plain _
  · exact steady_plain _
  · exact (steady_controlOp h hl hl' op _).credited
  · exact (steady_callOp h op _).credited
  · exact steady_plain _
  · exact steady_queueOp op.opcode _
  · exact (steady_holdingOp h op.opcode _).credited
  · exact (steady_focusOp h op.opcode _).credited
  · exact steady_plain _
  · exact steady_plain _
  · exact steady_plain _

theorem steady_counted (h : RunsSteadily L k run run') {limit limit' : Nat} (hl : k ≤ limit)
    (hl' : limit ≤ limit') (op : Operation) :
    Steady L k 1
      (do record env .operations fun m => .operation op.opcode m.operations
          trace env .internal fun m => operationText m.state.heap op
          perform env run limit op)
      (do record env .operations fun m => .operation op.opcode m.operations
          trace env .internal fun m => operationText m.state.heap op
          perform env run' limit' op) :=
  (steady_plain _).bind fun _ => (steady_plain _).bind fun _ => steady_perform h hl hl' op

theorem count_below (hL : env.limits.operations.toNat = L) {m : Machine}
    (hm : m.operations + 1 < L) :
    count env m = .done () { m with operations := m.operations + 1 } := by
  simp only [count, hL]
  rw [if_neg fun h => absurd h.2 (Nat.not_le.mpr hm)]

variable (hlimit : 0 < env.limits.operations) (hL : env.limits.operations.toNat = L)

include hlimit hL

theorem count_spent {m : Machine} (hm : m.operations + 1 = L) : count env m =
    .stopped (.runaway (.operations L)) { m with operations := m.operations + 1 } := by
  simp only [count, hL]
  rw [if_pos ⟨hlimit, Nat.le_of_eq hm.symm⟩]

theorem steady_execute (h : RunsSteadily L k run run') {limit limit' : Nat} (hl : k ≤ limit)
    (hl' : limit ≤ limit') (op : Operation) :
    Steady L (k + 1) 0 (execute env run limit op) (execute env run' limit' op) := by
  intro m hm hk
  unfold SteadyFrom execute
  rw [bind_apply, bind_apply]
  by_cases hspent : m.operations + 1 = L
  · rw [count_spent hlimit hL hspent]
    exact ⟨rfl, .refused (Machine.Leads.counted Machine.Keeps.rfl.leads) hspent⟩
  · have hbelow : m.operations + 1 < L := by omega
    rw [count_below hL hbelow]
    obtain ⟨heq, hrest⟩ := steady_counted h hl hl' op { m with operations := m.operations + 1 }
      hbelow (by simp only; omega)
    exact ⟨heq, hrest.counted⟩

theorem operations_lt_of_execute (h : RunsSteadily L k run run') {limit limit' : Nat}
    (hl : k ≤ limit) (hl' : limit ≤ limit') {op : Operation} {m n : Machine}
    (hm : m.operations < L) (hk : L ≤ k + 1 + m.operations)
    (hx : execute env run limit op m = .done () n) : m.operations < n.operations := by
  obtain ⟨_, l, hcount, hrest⟩ := bind_eq_done hx
  have hbelow : m.operations + 1 < L := by
    rcases Nat.lt_or_ge (m.operations + 1) L with hbelow | hspent
    · exact hbelow
    · rw [count_spent hlimit hL (by omega)] at hcount
      cases hcount
  rw [count_below hL hbelow] at hcount
  cases hcount
  have hleads := ((steady_counted h hl hl' op).done hbelow (by simp only; omega) hrest).1
  exact hleads.operations

/-- Blocks run the same way with every allowance that covers the operations that are left. -/
theorem runsSteadily_runBlock {fuel fuel' : Nat} (hf : fuel ≤ fuel') :
    RunsSteadily L fuel (runBlock env fuel) (runBlock env fuel') := by
  induction fuel generalizing fuel' with
  | zero =>
    constructor
    · intro block m hm hk
      omega
    · intro block m n hm hk
      omega
  | succ fuel ih =>
    obtain ⟨fuel', rfl⟩ : ∃ j, fuel' = j + 1 := ⟨fuel' - 1, by omega⟩
    have hf' : fuel ≤ fuel' := Nat.le_of_succ_le_succ hf
    have hrun := ih hf'
    have hexecute := steady_execute hlimit hL hrun (Nat.le_refl fuel) hf'
    constructor
    · exact fun block => steady_forEach block fun op _ => hexecute op
    · intro block m n hm hk hdone
      cases block with
      | nil =>
        cases hdone
        exact .inl rfl
      | cons op rest =>
        have hdone : forEach (execute env (runBlock env fuel) fuel) (op :: rest) m = .done () n :=
          hdone
        rw [forEach_cons] at hdone
        obtain ⟨_, l, hop, hrest⟩ := bind_eq_done hdone
        have hlt := operations_lt_of_execute hlimit hL hrun (Nat.le_refl fuel) hf' hm hk hop
        obtain ⟨_, hl, hk'⟩ := (hexecute op).done hm hk hop
        have hle := ((steady_forEach rest fun op _ => hexecute op).done hl hk' hrest).1.operations
        exact .inr (Nat.lt_of_lt_of_le hlt hle)

end Exec

end Fabula
