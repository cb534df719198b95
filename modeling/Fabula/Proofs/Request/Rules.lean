import Fabula.Proofs.Machine.Rules
import Fabula.Request.Basic

/-! Reasoning about requests by their parts. Handlers are where a request catches signals, so what is
kept outside handlers may be something else than what is kept inside, and a handler is one part here.
Requests are taken with whatever runs their blocks. -/

namespace Fabula.Exec

def setUpWith (env : Env) (run : Block → Exec Unit) (limit : Nat) : Exec Unit := do
  let elements ← see fun m => initializationOrder.flatMap fun kind => m.state.live kind
  forEach (fun e => do discard (runHandler env run e ⟨.init, []⟩ ∅)) elements
  discard (runHandler env run .world ⟨.start, []⟩ ∅)
  drainQueue env run limit

theorem setUp_eq (env : Env) (fuel : Nat) : setUp env fuel = setUpWith env (runBlock env fuel) fuel :=
  rfl

def commandWith (env : Env) (run : Block → Exec Unit) (limit : Nat) (i : Invocation) :
    Exec Unit := do
  change fun m => { m with queued := m.queued.push i }
  let succeeded ← serveNext env run
  drainQueue env run limit
  discard (runHandler env run .world
    ⟨if succeeded = some true then .afterSuccessfulCommand else .afterFailedCommand, []⟩ ∅)
  discard (runHandler env run .world ⟨.afterEveryCommand, []⟩ ∅)

theorem command_eq (env : Env) (fuel : Nat) (i : Invocation) :
    command env fuel i = commandWith env (runBlock env fuel) fuel i := rfl

variable {env env' : Env} {run run' : Block → Exec Unit} {S : State → Prop}
  {G : ElementRef → Prop} {V : Value → Prop} {R : ExecRelation}

structure RequestRules (env env' : Env) (run run' : Block → Exec Unit) (S : State → Prop)
    (G : ElementRef → Prop) (V : Value → Prop) (R : ExecRelation) : Prop
    extends Basics env env' S R where
  grounds : Grounds env.story S G V
  exhausted : R (Anything : Unit → Prop) (fun _ => .exhausted) fun _ => .exhausted
  runHandler {e : ElementRef} (entry : Entry) {locals : Table Value} : G e → Holds V locals →
    R Anything (Exec.runHandler env run e entry locals) (Exec.runHandler env' run' e entry locals)
  next : R Anything nextInvocation nextInvocation
  enqueue (i : Invocation) : R Anything (change fun m => { m with queued := m.queued.push i })
    (change fun m => { m with queued := m.queued.push i })

namespace RequestRules

variable (h : RequestRules env env' run run' S G V R)

include h

theorem firstOf {α : Type} {items : List α} {f g : α → Exec Bool}
    (hitem : ∀ a ∈ items, R Anything (f a) (g a)) :
    R Anything (Exec.firstOf (items.map f)) (Exec.firstOf (items.map g)) := by
  induction items with
  | nil => exact h.pure .intro
  | cons a items ih =>
    refine h.bind (hitem a List.mem_cons_self) fun succeeded _ => ?_
    cases succeeded with
    | false => exact ih fun b hb => hitem b (List.mem_cons_of_mem a hb)
    | true => exact h.pure .intro

theorem firstOfTwo {x x' y y' : Exec Bool} (hx : R Anything x x') (hy : R Anything y y') :
    R Anything (Exec.firstOf [x, y]) (Exec.firstOf [x', y']) := by
  have hpair : ∀ a ∈ [true, false], R Anything (if a then x else y) (if a then x' else y') := by
    intro a _
    cases a with
    | false => exact hy
    | true => exact hx
  exact h.firstOf hpair

theorem focusChain : R (fun chain => ∀ e ∈ chain, G e) (see fun m => Exec.focusChain m.state)
    (see fun m => Exec.focusChain m.state) := by
  refine h.see Exec.focusChain fun st hst e he => ?_
  simp only [Exec.focusChain, List.mem_append, Option.mem_toList, List.mem_singleton] at he
  rcases he with (he | he) | rfl
  · exact h.grounds.currentRoom hst (eq_ok_of_toOption he)
  · exact (h.grounds.currentPlayer hst (eq_ok_of_toOption he)).1
  · exact h.grounds.world

theorem liveObject (identity : String) :
    R G (Exec.liveObject env identity) (Exec.liveObject env' identity) := by
  unfold Exec.liveObject
  rw [h.story]
  exact h.ask fun _ _ hst he => h.grounds.resolve hst he

theorem forbidder (action : String) : R (fun found => ∀ e, found = some e → G e)
    (see fun m => forbidder? env.story action m.state)
    (see fun m => forbidder? env'.story action m.state) := by
  rw [h.story]
  refine h.see (forbidder? env.story action) fun st hst e he => ?_
  have hmem := List.mem_of_find?_eq_some he
  simp only [List.mem_append, Option.mem_toList] at hmem
  rcases hmem with he | he
  · exact (h.grounds.currentPlayer hst (eq_ok_of_toOption he)).1
  · exact h.grounds.currentRoom hst (eq_ok_of_toOption he)

theorem runBare {e : ElementRef} (he : G e) (entry : Entry) :
    R Anything (Exec.runHandler env run e entry ∅) (Exec.runHandler env' run' e entry ∅) :=
  h.runHandler entry he (holds_empty V)

theorem runOnChain (entry : Entry) {locals : Table Value} (hlocals : Holds V locals) :
    R Anything (Exec.runOnChain env run entry locals) (Exec.runOnChain env' run' entry locals) :=
  h.bind h.focusChain fun _ hchain => h.firstOf fun e he =>
    h.runHandler entry (hchain e he) hlocals

theorem runSpecificOrAny {e : ElementRef} (he : G e) (trigger : Trigger) (action : String) :
    R Anything (Exec.runSpecificOrAny env run e trigger action)
      (Exec.runSpecificOrAny env' run' e trigger action) :=
  h.firstOfTwo (h.runBare he _) (h.runBare he _)

theorem permitted (action : Action) :
    R Anything (Exec.permitted env run action) (Exec.permitted env' run' action) := by
  refine h.bind (h.forbidder _) fun found hfound => ?_
  cases found with
  | none => exact h.pure .intro
  | some e =>
    have hworld := h.grounds.world
    have htold := h.firstOfTwo
      (h.runSpecificOrAny (hfound e rfl) .onForbiddenAction action.identity)
      (h.runSpecificOrAny hworld .onForbiddenAction action.identity)
    exact h.bind (h.tell _ _) fun _ _ => h.bind (h.discard htold) fun _ _ => h.pure .intro

theorem textLocals (action : Action) (words : String) : Holds V (Exec.textLocals action words) := by
  unfold Exec.textLocals
  split
  · exact holds_empty V
  · exact (holds_empty V).insert _ (h.grounds.simple (Value.simple_string words))

theorem handleTarget (action : Action) (target : Target) :
    R Anything (Exec.handleTarget env run action target)
      (Exec.handleTarget env' run' action target) := by
  cases target with
  | none => exact h.runOnChain _ (holds_empty V)
  | text words => exact h.runOnChain _ (h.textLocals action words)
  | mode name => exact h.runOnChain _ (holds_empty V)
  | object identity =>
    refine h.bind (h.liveObject identity) fun object hobject => ?_
    split
    · exact h.pure .intro
    · exact h.runBare hobject _
  | objects first second =>
    refine h.bind (h.liveObject _) fun first hfirst => h.bind (h.liveObject _) fun second _ => ?_
    exact h.firstOfTwo (h.runBare hfirst _) (h.runBare hfirst _)

theorem runUnhandled (action : Action) :
    R Anything (Exec.runUnhandled env run action) (Exec.runUnhandled env' run' action) := by
  refine h.bind (h.tell _ _) fun _ _ => h.bind h.focusChain fun chain hchain => ?_
  exact h.discard (h.firstOf fun e he => h.runSpecificOrAny (hchain e he) _ _)

theorem dispatch (i : Invocation) :
    R Anything (Exec.dispatch env run i) (Exec.dispatch env' run' i) := by
  unfold Exec.dispatch
  rw [h.story]
  cases env.story.action? i.action with
  | none => exact h.fault _
  | some action =>
    dsimp only
    split
    · refine h.bind (h.tell _ _) fun _ _ => h.bind (h.permitted action) fun permitted _ => ?_
      cases permitted with
      | false => exact h.pure .intro
      | true =>
        refine h.bind (h.handleTarget action i.target) fun handled _ => ?_
        cases handled with
        | false => exact h.bind (h.runUnhandled action) fun _ _ => h.pure .intro
        | true => exact h.pure .intro
    · exact h.fault _

theorem serveNext : R Anything (Exec.serveNext env run) (Exec.serveNext env' run') := by
  refine h.bind h.next fun next _ => ?_
  cases next with
  | none => exact h.pure .intro
  | some i => exact h.bind (h.dispatch i) fun _ _ => h.pure .intro

theorem drainQueue (limit : Nat) :
    R Anything (Exec.drainQueue env run limit) (Exec.drainQueue env' run' limit) :=
  h.rounds (h.bind (h.serveNext) fun _ _ => h.pure .intro) h.exhausted limit

theorem setUpWith (limit : Nat) :
    R Anything (Exec.setUpWith env run limit) (Exec.setUpWith env' run' limit) := by
  have hlive : R (fun elements => ∀ e ∈ elements, G e)
      (see fun m => initializationOrder.flatMap fun kind => m.state.live kind)
      (see fun m => initializationOrder.flatMap fun kind => m.state.live kind) := by
    refine h.see (fun st => initializationOrder.flatMap fun kind => st.live kind) ?_
    intro st hst e he
    obtain ⟨kind, -, he⟩ := List.mem_flatMap.mp he
    exact h.grounds.live hst he
  refine h.bind hlive fun elements helements => ?_
  have hinit := h.forEach fun e he => h.discard (h.runBare (helements e he) ⟨.init, []⟩)
  refine h.bind hinit fun _ _ => ?_
  refine h.bind (h.discard (h.runBare h.grounds.world _)) fun _ _ => ?_
  exact h.drainQueue limit

theorem commandWith (limit : Nat) (i : Invocation) :
    R Anything (Exec.commandWith env run limit i) (Exec.commandWith env' run' limit i) := by
  have hworld := h.grounds.world
  refine h.bind (h.enqueue i) fun _ _ => h.bind (h.serveNext) fun succeeded _ => ?_
  refine h.bind (h.drainQueue limit) fun _ _ => ?_
  refine h.bind (h.discard (h.runBare hworld _)) fun _ _ => ?_
  exact h.discard (h.runBare hworld _)

end RequestRules

end Fabula.Exec
