import Fabula.Proofs.Machine.Operations
import Fabula.Proofs.Story.Constants
import Fabula.Request.Basic

/-! Blocks run alike on machines that differ only in the places of their lists, and so do handlers,
dispatching and whole requests. The operations that run blocks are shown to do so for any way of
running blocks that does; running a block to a given depth is then an induction on that depth. -/

namespace Fabula

namespace Outcome.Agree

variable {R : Handle → Handle → Prop} {α β : Type} {A : (Handle → Handle → Prop) → α → β → Prop}
  {x : Outcome α} {y : Outcome β}

theorem settled (h : Agree Machine.Alike A R x y) (height : Nat) :
    Agree Machine.Alike A R (Exec.settle height x) (Exec.settle height y) := by
  cases h with
  | exhausted => exact .exhausted
  | done later results machines =>
    simp only [Exec.settle, machines.height_eq]
    split
    · exact .done later results machines
    · exact .stopped later (machines.bottom height)
  | stopped later machines =>
    simp only [Exec.settle, machines.height_eq]
    split
    · exact .stopped later (machines.bottom height)
    · split
      · exact .stopped later machines
      · exact .stopped later (machines.bottom height)

theorem afterwards (h : Agree Machine.Alike A R x y) {f g : Machine → Machine}
    (hfg : ∀ (S : Handle → Handle → Prop) (m n : Machine),
      R ≤ S → m.Alike S n → (f m).Alike S (g n)) :
    Agree Machine.Alike A R (Exec.afterwards f x) (Exec.afterwards g y) := by
  cases h with
  | exhausted => exact .exhausted
  | done later results machines => exact .done later results (hfg _ _ _ later machines)
  | stopped later machines => exact .stopped later (hfg _ _ _ later machines)

end Outcome.Agree

namespace Machine.Alike

variable {R : Handle → Handle → Prop} {m n : Machine}

theorem withFrames (h : m.Alike R n) {fs gs : List Frame}
    (hfg : List.Forall₂ (Frame.Alike R) fs gs) :
    { m with frames := fs }.Alike R { n with frames := gs } := { h with frames := hfg }

theorem openFrame (h : m.Alike R n) (env : Env) {f g : Frame} (hfg : f.Alike R g) (name : String) :
    (Exec.openFrame env f name m).Alike R (Exec.openFrame env g name n) := by
  unfold Exec.openFrame
  rw [hfg.element, hfg.scope]
  have ht := h.traced env .context (f := fun _ => "push frame " ++ g.element.text)
    (g := fun _ => "push frame " ++ g.element.text) rfl
  have hw := ht.watched env .scopes
    (f := fun m => .enter g.scope (m.frames.length + 1) g.element.identity name)
    (g := fun m => .enter g.scope (m.frames.length + 1) g.element.identity name)
    (by simp only [ht.frames.length_eq])
  exact hw.withFrames (.cons hfg hw.frames)

theorem closeFrame (h : m.Alike R n) (env : Env) (scope : Scope) (name : String) :
    (Exec.closeFrame env scope name m).Alike R (Exec.closeFrame env scope name n) := by
  have hf := h.frames
  unfold Exec.closeFrame
  cases hm : m.frames with
  | nil =>
    rw [hm] at hf
    rw [List.forall₂_nil_left_iff.mp hf]
    exact h
  | cons f fs =>
    rw [hm] at hf
    obtain ⟨g, gs, hfg, hrest, hn⟩ := List.forall₂_cons_left_iff.mp hf
    rw [hn]
    simp only [hfg.element]
    have hw := h.watched env .scopes
      (f := fun m => .leave scope m.frames.length g.element.identity name)
      (g := fun m => .leave scope m.frames.length g.element.identity name)
      (by simp only [h.frames.length_eq])
    exact (hw.withFrames hrest).traced env .context rfl

end Machine.Alike

namespace Exec

variable {R : Handle → Handle → Prop} {env : Env} {run : Block → Exec Unit}

/-- A way of running blocks that runs those without list constants alike. -/
def RunsBlocksAlike (R : Handle → Handle → Prop) (run : Block → Exec Unit) : Prop :=
  ∀ block, operationsListFree block = true → RunsAlike R (run block) (run block)

theorem RunsBlocksAlike.later {S : Handle → Handle → Prop} (hRS : R ≤ S)
    (h : RunsBlocksAlike R run) : RunsBlocksAlike S run :=
  fun block hb => (h block hb).later hRS

theorem alike_callBlock {f g : Frame} (hfg : f.Alike R g) (name : String) {block : Block}
    (h : RunsAlike R (run block) (run block)) :
    RunsAlike R (callBlock env run f name block) (callBlock env run g name block) := by
  intro S m n hS hm
  have hopen := hm.openFrame env (hfg.mono hS) name
  have hclosed := (h S _ _ hS hopen).afterwards fun _ _ _ _ hm => hm.closeFrame env f.scope name
  unfold callBlock
  rw [hm.height_eq, ← hfg.scope]
  exact hclosed.settled n.stack.height

theorem alike_runEntry (hstory : env.story.listFree = true) (hrun : RunsBlocksAlike R run)
    (e : ElementRef) {entry : Entry} (hentry : entry.listFree = true) {t u : Table Value}
    (ht : TablesAlike (Value.Alike R) t u) :
    RunsAlike R (runEntry env run e entry t) (runEntry env run e entry u) := by
  have hfound : Agree Machine.Alike
      (fun _ x y => x = y ∧ ∀ block, x = some block → operationsListFree block = true) R
      (withHeap fun heap => env.story.resolveBlock? heap e.identity entry)
      (withHeap fun heap => env.story.resolveBlock? heap e.identity entry) :=
    alike_withHeap fun _ _ _ _ h =>
      ⟨Story.resolveBlock?_eq h hstory e.identity hentry,
        fun _ hb => Story.resolveBlock?_listFree hstory hb⟩
  refine hfound.bind fun S hS found _ hb => ?_
  obtain ⟨rfl, hb⟩ := hb
  cases found with
  | none => exact agree_pure_same _
  | some block =>
    refine (alike_withHeap fun _ _ _ _ h => Entry.text_eq h hentry).bind_same fun T hT name => ?_
    refine (alike_trace_same env _ _).bind_same fun U hU _ => ?_
    have hlater : R ≤ U := hS.trans (hT.trans hU)
    have hframe : Frame.Alike U ⟨e, .entry entry.trigger, t⟩ ⟨e, .entry entry.trigger, u⟩ :=
      ⟨rfl, rfl, ht.mono fun _ _ hv => hv.mono hlater⟩
    exact (alike_callBlock hframe name ((hrun block (hb block rfl)).later hlater)).bind_same
      fun _ _ _ => agree_pure_same _

theorem alike_runEntry_bare (hstory : env.story.listFree = true) (hrun : RunsBlocksAlike R run)
    (e : ElementRef) {entry : Entry} (hentry : entry.listFree = true) :
    RunsAlike R (runEntry env run e entry ∅) (runEntry env run e entry ∅) :=
  alike_runEntry hstory hrun e hentry TablesAlike.empty

theorem tablesAlike_bindArguments (arguments : List String) {xs ys : List Value}
    (h : List.Forall₂ (Value.Alike R) xs ys) :
    TablesAlike (Value.Alike R) (bindArguments arguments xs) (bindArguments arguments ys) := by
  suffices hfold : ∀ t u : Table Value, TablesAlike (Value.Alike R) t u →
      TablesAlike (Value.Alike R)
        ((arguments.zip xs).foldl (fun t item => t.insert item.1 item.2) t)
        ((arguments.zip ys).foldl (fun t item => t.insert item.1 item.2) u) from
    hfold ∅ ∅ TablesAlike.empty
  induction h generalizing arguments with
  | nil => simp
  | cons hv _ ih =>
    intro t u htu
    cases arguments with
    | nil => exact htu
    | cons name arguments => exact ih arguments _ _ (htu.insert hv name)

theorem alike_descend : RunsAlike R (descend env) (descend env) := by
  intro S m n _ hm
  unfold descend
  rw [hm.depth, hm.depthPeak]
  split
  · exact .stopped le_rfl hm
  · exact .done le_rfl rfl { hm with depth := rfl, depthPeak := rfl }

end Exec

namespace Outcome.Agree

variable {R : Handle → Handle → Prop}

theorem returned {x y : Outcome Unit} (h : Agree Machine.Alike Exec.Same R x y) :
    Agree Machine.Alike Value.Alike R (Exec.returned x) (Exec.returned y) := by
  cases h with
  | exhausted => exact .exhausted
  | done later _ machines => exact .done later (.scalar rfl) machines
  | @stopped _ s m n later machines =>
    cases s with
    | giveBack =>
      refine .done later ?_ { machines with pendingReturn := .none }
      have hv := machines.pendingReturn
      generalize m.pendingReturn = v at hv ⊢
      generalize n.pendingReturn = w at hv ⊢
      cases hv with
      | none => exact .scalar rfl
      | some hv => exact hv
    | _ => exact .stopped later machines

theorem goesOn {x y : Outcome Unit} (h : Agree Machine.Alike Exec.Same R x y) (env : Env) :
    Agree Machine.Alike Exec.Same R (Exec.goesOn env x) (Exec.goesOn env y) := by
  cases h with
  | exhausted => exact .exhausted
  | done later _ machines => exact .done later rfl machines
  | @stopped _ s m n later machines =>
    cases s with
    | nextRound => exact .done later rfl machines
    | leaveLoop => exact .done later rfl (machines.traced env .control rfl)
    | _ => exact .stopped later machines

theorem handled {x y : Outcome Bool} (h : Agree Machine.Alike Exec.Same R x y) :
    Agree Machine.Alike Exec.Same R (Exec.handled x) (Exec.handled y) := by
  cases h with
  | exhausted => exact .exhausted
  | done later results machines => exact .done later results machines
  | @stopped _ s m n later machines =>
    cases s with
    | endHandler | leaveLoop | nextRound => exact .done later rfl machines
    | giveBack => exact .done later rfl { machines with pendingReturn := .none }
    | _ => exact .stopped later machines

end Outcome.Agree

namespace Exec

variable {R : Handle → Handle → Prop} {env : Env} {run : Block → Exec Unit}

theorem alike_runFunction (hrun : RunsBlocksAlike R run) (e : ElementRef) {f : Function}
    (hf : operationsListFree f.block = true) {t u : Table Value}
    (ht : TablesAlike (Value.Alike R) t u) :
    Agree Machine.Alike Value.Alike R (runFunction env run e f t) (runFunction env run e f u) := by
  refine alike_descend.bind_same fun S hS _ => ?_
  refine (alike_trace_same env _ _).bind_same fun T hT _ => ?_
  have hframe : Frame.Alike T ⟨e, .function, t⟩ ⟨e, .function, u⟩ :=
    ⟨rfl, rfl, ht.mono fun _ _ hv => hv.mono (hS.trans hT)⟩
  intro U m n hU hm
  have hcall : RunsAlike T (callBlock env run ⟨e, .function, t⟩ f.name f.block)
      (callBlock env run ⟨e, .function, u⟩ f.name f.block) :=
    alike_callBlock hframe f.name ((hrun f.block hf).later (hS.trans hT))
  have hcalled := hcall U m n hU hm
  refine Outcome.Agree.returned (hcalled.afterwards fun _ _ _ _ hm => ?_)
  exact { hm with depth := by simp only [hm.depth] }

theorem alike_callFunction (hstory : env.story.listFree = true) (hrun : RunsBlocksAlike R run)
    (op : Opcode) (e : ElementRef) (name : String) :
    RunsAlike R (callFunction env run op e name) (callFunction env run op e name) := by
  unfold callFunction
  cases hf : env.story.resolveFunction? e.identity name with
  | none => exact agree_stop _
  | some f =>
    have hblock := Story.resolveFunction?_listFree hstory hf
    refine (alike_popMany op _).bind fun S hS xs ys hxy => ?_
    have hlocals := tablesAlike_bindArguments f.arguments hxy
    exact (alike_runFunction (hrun.later hS) e hblock hlocals).bind fun _ _ _ _ hv => alike_push hv

theorem alike_callOp (hstory : env.story.listFree = true) (hrun : RunsBlocksAlike R run)
    (op : Operation) (o : CallOp) : RunsAlike R (callOp env run op o) (callOp env run op o) := by
  cases o with
  | function =>
    refine (alike_firstName op).bind_same fun S hS name => ?_
    refine (alike_frame op.opcode).bind fun T hT f g hfg => ?_
    rw [hfg.element]
    exact alike_callFunction hstory (hrun.later (hS.trans hT)) _ _ _
  | elementFunction =>
    exact (alike_firstName op).bind_same fun S hS name =>
      (alike_popElement env op.opcode).bind_same fun T hT _ =>
        alike_callFunction hstory (hrun.later (hS.trans hT)) _ _ _
  | giveBack =>
    refine (alike_pop op.opcode).bind fun _ _ v w hv => ?_
    refine (alike_trace_text env _ _ hv).bind_same fun S hS _ => ?_
    refine (agree_change fun T _ _ hT hm => ?_).bind_same fun _ _ _ => agree_stop _
    exact { hm with pendingReturn := .some (hv.mono (hS.trans hT)) }

theorem alike_runFocus (hstory : env.story.listFree = true) (hrun : RunsBlocksAlike R run)
    (e : ElementRef) (trigger : Trigger) :
    RunsAlike R (runFocus env run e trigger) (runFocus env run e trigger) :=
  (alike_runEntry_bare hstory hrun e rfl).discarded

theorem alike_unfocus (hstory : env.story.listFree = true) (hrun : RunsBlocksAlike R run)
    (previous : Option ElementRef) :
    RunsAlike R (unfocus env run previous) (unfocus env run previous) := by
  cases previous with
  | none => exact agree_pure_same _
  | some e => exact alike_runFocus hstory hrun e _

theorem alike_setPlayer (hstory : env.story.listFree = true) (hrun : RunsBlocksAlike R run)
    (player : ElementRef) :
    RunsAlike R (setPlayer env run player) (setPlayer env run player) := by
  refine Agree.bind_same (agree_see fun _ _ _ _ hm => ?_) fun S hS previous => ?_
  · exact congrArg Except.toOption hm.state.currentPlayer_eq
  · split
    · exact agree_pure_same _
    · exact (alike_unfocus hstory (hrun.later hS) previous).bind_same fun T hT _ =>
        (alike_changeOwnership _).bind_same fun U hU _ =>
          alike_runFocus hstory (hrun.later (hS.trans (hT.trans hU))) _ _

theorem alike_askPlayer : RunsAlike R (ask State.currentPlayer) (ask State.currentPlayer) :=
  alike_ask fun _ _ _ _ h => h.currentPlayer_eq

theorem alike_focusOp (hstory : env.story.listFree = true) (hrun : RunsBlocksAlike R run)
    (op : Opcode) (o : FocusOp) : RunsAlike R (focusOp env run op o) (focusOp env run op o) := by
  have hplayer : RunsAlike R (popPlayer env op) (popPlayer env op) := alike_popElementOf env op _ _
  have hroom : RunsAlike R (popRoom env op) (popRoom env op) := alike_popElementOf env op _ _
  cases o with
  | setPlayer => exact hplayer.bind_same fun _ hS _ => alike_setPlayer hstory (hrun.later hS) _
  | pushRoom =>
    exact hroom.bind_same fun S hS _ => alike_askPlayer.bind_same fun T hT _ =>
      (alike_changeOwnership _).bind_same fun U hU _ =>
        alike_runFocus hstory (hrun.later (hS.trans (hT.trans hU))) _ _
  | popRoom =>
    refine alike_askPlayer.bind_same fun S hS _ => ?_
    refine (alike_ask fun _ _ _ _ h => h.currentRoom_eq).bind_same fun T hT _ => ?_
    exact (alike_runFocus hstory (hrun.later (hS.trans hT)) _ _).bind_same fun _ _ _ =>
      alike_changeOwnership _
  | swapRoom =>
    refine hroom.bind_same fun S hS _ => alike_askPlayer.bind_same fun T hT _ => ?_
    refine Agree.bind_same (agree_see fun _ _ _ _ hm => ?_) fun U hU previous => ?_
    · exact congrArg Except.toOption hm.state.currentRoom_eq
    · have hrun' := hrun.later (hS.trans (hT.trans hU))
      exact (alike_unfocus hstory hrun' previous).bind_same fun V hV _ =>
        (alike_changeOwnership _).bind_same fun W hW _ =>
          alike_runFocus hstory (hrun'.later (hV.trans hW)) _ _
  | playerIs =>
    exact hplayer.bind_same fun _ _ _ => alike_ownership.bind_same fun _ _ _ =>
      alike_push_scalar rfl
  | roomIs =>
    exact hroom.bind_same fun _ _ _ => alike_ownership.bind_same fun _ _ _ => alike_push_scalar rfl
  | noPlayer | noRoom => exact alike_ownership.bind_same fun _ _ _ => alike_push_scalar rfl

theorem alike_browse (hstory : env.story.listFree = true) (hrun : RunsBlocksAlike R run)
    (op : Opcode) : RunsAlike R (browse env run op) (browse env run op) := by
  refine (alike_popElementOf env op _ _).bind_same fun S hS holder => ?_
  refine alike_ownership.bind_same fun T hT held => ?_
  refine agree_forEach _ fun object _ => ?_
  have hrun' := hrun.later (hS.trans hT)
  refine (alike_runEntry_bare hstory hrun' _ rfl).bind_same fun U hU ran => ?_
  cases ran with
  | true => exact agree_pure_same _
  | false => exact (alike_runEntry_bare hstory (hrun'.later hU) _ rfl).discarded

theorem alike_height : RunsAlike R (see fun m => m.stack.height) (see fun m => m.stack.height) :=
  agree_see fun _ _ _ _ hm => hm.height_eq

theorem alike_condition (hrun : RunsBlocksAlike R run) {op : Operation}
    (hop : op.listFree = true) :
    RunsAlike R (condition run op) (condition run op) := by
  refine (alike_part op.opcode op.condition).bind fun S hS block _ hb => ?_
  obtain ⟨rfl, hb⟩ := hb
  have hblock := hrun block (Operation.block_of_listFree hop .condition hb)
  refine alike_height.bind_same fun T hT height => ?_
  refine (hblock.later (hS.trans hT)).bind_same fun _ _ _ => ?_
  refine alike_height.bind_same fun _ _ actual => ?_
  split
  · exact (alike_pop _).bind fun _ _ v w hv =>
      alike_withHeap fun _ _ _ hU h => h.truth_eq (hv.mono hU)
  · exact Agree.bind_same (agree_change fun _ _ _ _ hm => hm.bottom height) fun _ _ _ =>
      agree_stop _

theorem alike_decideCondition (hrun : RunsBlocksAlike R run) {op : Operation}
    (hop : op.listFree = true) :
    RunsAlike R (decideCondition env run op) (decideCondition env run op) :=
  (alike_condition hrun hop).bind_same fun _ _ _ =>
    (alike_trace_same env _ _).bind_same fun _ _ _ => agree_pure_same _

theorem alike_runIfAny (hrun : RunsBlocksAlike R run) {op : Operation} (hop : op.listFree = true)
    (slot : Slot) :
    RunsAlike R (runIfAny run (op.block? slot)) (runIfAny run (op.block? slot)) := by
  cases hb : op.block? slot with
  | none => exact agree_pure_same _
  | some block => exact hrun block (Operation.block_of_listFree hop slot hb)

theorem alike_loopRound (hrun : RunsBlocksAlike R run) {op : Operation} (hop : op.listFree = true)
    {step : Option Block}
    (hstep : RunsAlike R (runIfAny run step) (runIfAny run step)) :
    RunsAlike R (loopRound env run op step) (loopRound env run op step) := by
  have hbody : RunsAlike R (loopBody env run op) (loopBody env run op) :=
    fun S m n hS hm => (alike_runIfAny hrun hop .success S m n hS hm).goesOn env
  refine (alike_decideCondition hrun hop).bind_same fun S hS holds => ?_
  cases holds with
  | false => exact agree_pure_same _
  | true =>
    refine (hbody.later hS).bind_same fun T hT more => ?_
    cases more with
    | false => exact agree_pure_same _
    | true => exact (hstep.later (hS.trans hT)).bind_same fun _ _ _ => agree_pure_same _

theorem alike_controlOp (hrun : RunsBlocksAlike R run) (limit : Nat) {op : Operation}
    (hop : op.listFree = true) (o : ControlOp) :
    RunsAlike R (controlOp env run limit op o) (controlOp env run limit op o) := by
  cases o with
  | branch =>
    refine (alike_decideCondition hrun hop).bind_same fun S hS holds => ?_
    cases holds with
    | true => exact alike_runIfAny (hrun.later hS) hop .success
    | false => exact alike_runIfAny (hrun.later hS) hop .failure
  | whileLoop => exact agree_rounds limit (alike_loopRound hrun hop (agree_pure_same _))
  | forLoop =>
    refine (alike_part op.opcode op.init).bind fun S hS block _ hb => ?_
    obtain ⟨rfl, hb⟩ := hb
    have hinit := hrun block (Operation.block_of_listFree hop .init hb)
    refine (hinit.later hS).bind_same fun T hT _ => ?_
    have hrun' := hrun.later (hS.trans hT)
    exact agree_rounds limit (alike_loopRound hrun' hop (alike_runIfAny hrun' hop .step))
  | leaveLoop | nextRound | endHandler | finish => exact agree_stop _
  | quit => exact (alike_emit _).bind_same fun _ _ _ => agree_stop _
  | error => exact (alike_popText _).bind_same fun _ _ _ => agree_stop _

theorem alike_count : RunsAlike R (count env) (count env) := by
  intro S m n _ hm
  unfold count
  simp only [hm.operations]
  split
  · exact .stopped le_rfl { hm with operations := rfl }
  · exact .done le_rfl rfl { hm with operations := rfl }

theorem alike_perform (hstory : env.story.listFree = true) (hrun : RunsBlocksAlike R run)
    (limit : Nat) {op : Operation} (hop : op.listFree = true) :
    RunsAlike R (perform env run limit op) (perform env run limit op) := by
  unfold perform
  split
  · exact alike_stackOp env (Operation.first_of_listFree hop) _
  · exact alike_arithmetic op
  · exact alike_controlOp hrun limit hop _
  · exact alike_callOp hstory hrun op _
  · exact alike_cueOp _ _
  · exact alike_queueOp env _ _
  · exact alike_holdingOp env _ (alike_browse hstory hrun _) _
  · exact alike_focusOp hstory hrun _ _
  · exact alike_listOp _ _
  · exact alike_convertOp env _ _
  · exact alike_randomOp _ _

theorem operationText_eq {a b : Heap} (h : a.Mirrors R b) {op : Operation}
    (hop : op.first.all (fun v => !v.isShared) = true) :
    operationText a op = operationText b op := by
  unfold operationText
  cases hf : op.first with
  | none => rfl
  | some v =>
    have hv : v.isShared = false := by simpa [hf] using hop
    simp only [h.text_eq (.scalar hv)]

theorem alike_execute (hstory : env.story.listFree = true) (hrun : RunsBlocksAlike R run)
    (limit : Nat) {op : Operation} (hop : op.listFree = true) :
    RunsAlike R (execute env run limit op) (execute env run limit op) := by
  refine alike_count.bind_same fun S hS _ => ?_
  refine (alike_record env _ fun _ _ _ _ hm => ?_).bind_same fun T hT _ => ?_
  · rw [hm.operations]
  · refine (alike_trace env _ fun _ _ _ _ hm => ?_).bind_same fun U hU _ =>
      alike_perform hstory (hrun.later (hS.trans (hT.trans hU))) limit hop
    exact operationText_eq hm.heap (Operation.first_of_listFree hop)

/-- Blocks of a story without list constants run alike, however deep they may go. -/
theorem alike_runBlock (hstory : env.story.listFree = true) (fuel : Nat) :
    RunsBlocksAlike R (runBlock env fuel) := by
  induction fuel generalizing R with
  | zero => exact fun _ _ _ _ _ _ _ => .exhausted
  | succ fuel ih =>
    intro block hblock
    have hops := operationsListFree_iff.mp hblock
    exact agree_forEach block fun op hop => alike_execute hstory ih fuel (hops op hop)

theorem focusChain_eq {s t : State} (h : s.Alike R t) : focusChain s = focusChain t := by
  rw [focusChain, focusChain, h.currentPlayer_eq, h.currentRoom_eq]

theorem forbidder?_eq {s t : State} (h : s.Alike R t) (story : Story) (action : String) :
    forbidder? story action s = forbidder? story action t := by
  rw [forbidder?, forbidder?, h.currentPlayer_eq, h.currentRoom_eq]

theorem alike_focusChain :
    RunsAlike R (see fun m => focusChain m.state) (see fun m => focusChain m.state) :=
  agree_see fun _ _ _ _ hm => focusChain_eq hm.state

theorem alike_firstOf {attempts : List (Exec Bool)} (h : ∀ x ∈ attempts, RunsAlike R x x) :
    RunsAlike R (firstOf attempts) (firstOf attempts) := by
  induction attempts generalizing R with
  | nil => exact agree_pure_same _
  | cons x attempts ih =>
    refine (h x List.mem_cons_self).bind_same fun S hS done => ?_
    cases done with
    | true => exact agree_pure_same _
    | false => exact ih fun y hy => (h y (List.mem_cons_of_mem x hy)).later hS

theorem alike_runHandler (hstory : env.story.listFree = true) (hrun : RunsBlocksAlike R run)
    (e : ElementRef) {entry : Entry} (hentry : entry.listFree = true) {t : Table Value}
    (ht : TablesAlike (Value.Alike R) t t) :
    RunsAlike R (runHandler env run e entry t) (runHandler env run e entry t) :=
  fun S m n hS hm => (alike_runEntry hstory hrun e hentry ht S m n hS hm).handled

theorem alike_runHandler_bare (hstory : env.story.listFree = true) (hrun : RunsBlocksAlike R run)
    (e : ElementRef) {entry : Entry} (hentry : entry.listFree = true) :
    RunsAlike R (runHandler env run e entry ∅) (runHandler env run e entry ∅) :=
  alike_runHandler hstory hrun e hentry TablesAlike.empty

theorem alike_runOnChain (hstory : env.story.listFree = true) (hrun : RunsBlocksAlike R run)
    {entry : Entry} (hentry : entry.listFree = true) {t : Table Value}
    (ht : ∀ S : Handle → Handle → Prop, TablesAlike (Value.Alike S) t t) :
    RunsAlike R (runOnChain env run entry t) (runOnChain env run entry t) := by
  refine alike_focusChain.bind_same fun S hS chain => alike_firstOf fun x hx => ?_
  obtain ⟨e, _, rfl⟩ := List.mem_map.mp hx
  exact alike_runHandler hstory (hrun.later hS) e hentry (ht S)

theorem alike_runSpecificOrAny (hstory : env.story.listFree = true) (hrun : RunsBlocksAlike R run)
    (e : ElementRef) (trigger : Trigger) (action : String) :
    RunsAlike R (runSpecificOrAny env run e trigger action)
      (runSpecificOrAny env run e trigger action) := by
  refine alike_firstOf fun x hx => ?_
  rcases List.mem_pair.mp hx with rfl | rfl
  · exact alike_runHandler_bare hstory hrun e rfl
  · exact alike_runHandler_bare hstory hrun e rfl

theorem alike_liveObject (identity : String) :
    RunsAlike R (liveObject env identity) (liveObject env identity) :=
  alike_ask fun _ _ _ _ h => h.resolve_eq env.story _ _

theorem alike_permitted (hstory : env.story.listFree = true) (hrun : RunsBlocksAlike R run)
    (action : Action) : RunsAlike R (permitted env run action) (permitted env run action) := by
  refine Agree.bind_same (agree_see fun _ _ _ _ hm => forbidder?_eq hm.state _ _)
    fun S hS found => ?_
  cases found with
  | none => exact agree_pure_same _
  | some e =>
    refine (alike_trace_same env _ _).bind_same fun T hT _ => ?_
    have hrun' := hrun.later (hS.trans hT)
    refine (alike_firstOf fun x hx => ?_).discarded.bind_same fun _ _ _ => agree_pure_same _
    rcases List.mem_pair.mp hx with rfl | rfl
    · exact alike_runSpecificOrAny hstory hrun' _ _ _
    · exact alike_runSpecificOrAny hstory hrun' _ _ _

theorem textLocals_alike (S : Handle → Handle → Prop) (action : Action) (words : String) :
    TablesAlike (Value.Alike S) (textLocals action words) (textLocals action words) := by
  unfold textLocals
  split
  · exact TablesAlike.empty
  · exact TablesAlike.empty.insert (.scalar rfl) _

theorem alike_handleTarget (hstory : env.story.listFree = true) (hrun : RunsBlocksAlike R run)
    (action : Action) (target : Target) :
    RunsAlike R (handleTarget env run action target) (handleTarget env run action target) := by
  cases target with
  | none => exact alike_runOnChain hstory hrun rfl fun _ => TablesAlike.empty
  | text words =>
    exact alike_runOnChain hstory hrun rfl fun S => textLocals_alike S action words
  | mode name => exact alike_runOnChain hstory hrun rfl fun _ => TablesAlike.empty
  | object identity =>
    refine (alike_liveObject identity).bind_same fun S hS object => ?_
    split
    · exact agree_pure_same _
    · exact alike_runHandler_bare hstory (hrun.later hS) object rfl
  | objects first second =>
    refine (alike_liveObject _).bind_same fun S hS first => ?_
    refine (alike_liveObject _).bind_same fun T hT second => alike_firstOf fun x hx => ?_
    rcases List.mem_pair.mp hx with rfl | rfl
    · exact alike_runHandler_bare hstory (hrun.later (hS.trans hT)) first rfl
    · exact alike_runHandler_bare hstory (hrun.later (hS.trans hT)) first rfl

theorem alike_runUnhandled (hstory : env.story.listFree = true) (hrun : RunsBlocksAlike R run)
    (action : Action) :
    RunsAlike R (runUnhandled env run action) (runUnhandled env run action) := by
  refine (alike_trace_same env _ _).bind_same fun S hS _ => ?_
  refine alike_focusChain.bind_same fun T hT chain => (alike_firstOf fun x hx => ?_).discarded
  obtain ⟨e, _, rfl⟩ := List.mem_map.mp hx
  exact alike_runSpecificOrAny hstory (hrun.later (hS.trans hT)) e _ _

theorem alike_dispatch (hstory : env.story.listFree = true) (hrun : RunsBlocksAlike R run)
    (i : Invocation) : RunsAlike R (dispatch env run i) (dispatch env run i) := by
  unfold dispatch
  split
  · exact agree_stop _
  · rename_i action _
    split
    · refine (alike_trace_same env _ _).bind_same fun S hS _ => ?_
      refine (alike_permitted hstory (hrun.later hS) action).bind_same fun T hT may => ?_
      cases may with
      | false => exact agree_pure_same _
      | true =>
        have hrun' := hrun.later (hS.trans hT)
        refine (alike_handleTarget hstory hrun' action i.target).bind_same fun U hU handled => ?_
        cases handled with
        | true => exact agree_pure_same _
        | false =>
          exact (alike_runUnhandled hstory (hrun'.later hU) action).bind_same fun _ _ _ =>
            agree_pure_same _
    · exact agree_stop _

theorem alike_nextInvocation : RunsAlike R nextInvocation nextInvocation := by
  intro S m n _ hm
  unfold nextInvocation
  rw [hm.queued, hm.served]
  split
  · exact .done le_rfl rfl hm
  · exact .done le_rfl rfl { hm with queued := rfl, served := rfl }

theorem alike_serveNext (hstory : env.story.listFree = true) (hrun : RunsBlocksAlike R run) :
    RunsAlike R (serveNext env run) (serveNext env run) := by
  refine alike_nextInvocation.bind_same fun S hS next => ?_
  cases next with
  | none => exact agree_pure_same _
  | some i =>
    exact (alike_dispatch hstory (hrun.later hS) i).bind_same fun _ _ _ => agree_pure_same _

theorem alike_drainQueue (hstory : env.story.listFree = true) (hrun : RunsBlocksAlike R run)
    (limit : Nat) : RunsAlike R (drainQueue env run limit) (drainQueue env run limit) :=
  agree_rounds limit ((alike_serveNext hstory hrun).bind_same fun _ _ _ => agree_pure_same _)

theorem live_eq {s t : State} (h : s.Alike R t) (kind : ElementKind) :
    s.live kind = t.live kind := by
  rw [State.live, State.live, map_eq_of_forall₂ h.contexts.values fun _ _ hc => hc.element]

theorem alike_setUp (hstory : env.story.listFree = true) (fuel : Nat) :
    RunsAlike R (setUp env fuel) (setUp env fuel) := by
  refine Agree.bind_same (agree_see fun _ _ _ _ hm => ?_) fun S _ elements => ?_
  · simp only [live_eq hm.state, Same]
  · refine Agree.bind_same (agree_forEach elements fun e _ => ?_) fun T _ _ => ?_
    · exact (alike_runHandler_bare hstory (alike_runBlock hstory fuel) e rfl).discarded
    · refine Agree.bind_same ?_ fun U _ _ =>
        alike_drainQueue hstory (alike_runBlock hstory fuel) fuel
      exact (alike_runHandler_bare hstory (alike_runBlock hstory fuel) _ rfl).discarded

theorem alike_command (hstory : env.story.listFree = true) (fuel : Nat) (i : Invocation) :
    RunsAlike R (command env fuel i) (command env fuel i) := by
  have hrun : ∀ S, RunsBlocksAlike S (runBlock env fuel) := fun _ => alike_runBlock hstory fuel
  refine Agree.bind_same (agree_change fun _ _ _ _ hm => ?_) fun S _ _ => ?_
  · exact { hm with queued := by rw [hm.queued] }
  · refine (alike_serveNext hstory (hrun S)).bind_same fun T _ succeeded => ?_
    refine (alike_drainQueue hstory (hrun T) fuel).bind_same fun U _ _ => ?_
    refine (alike_runHandler_bare hstory (hrun U) _ rfl).discarded.bind_same fun V _ _ => ?_
    exact (alike_runHandler_bare hstory (hrun V) _ rfl).discarded

end Exec

end Fabula
