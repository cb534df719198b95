import Fabula.Proofs.Request.Nesting
import Fabula.Proofs.Session.Endings

/-! Dispatching is selecting. What runs for an invocation can be read off the state before anything
runs: the first block that is defined among the candidates of a single list, or a fault. Dispatching
runs that block and nothing else. -/

namespace Fabula

/-- What may be run for an invocation: the block of an element for an entry. -/
structure Candidate where
  element : ElementRef
  entry : Entry
  locals : Table Value := ∅

namespace Candidate

def defined (story : Story) (heap : Heap) (c : Candidate) : Bool :=
  (story.resolveBlock? heap c.element.identity c.entry).isSome

def specificThenAny (trigger : Trigger) (action : String) (e : ElementRef) : List Candidate :=
  [{ element := e, entry := ⟨trigger, [.actionNamed action]⟩ },
   { element := e, entry := ⟨trigger, []⟩ }]

def handlers (story : Story) (st : State) (action : Action) :
    Target → Except Fault (List Candidate)
  | .none => .ok ((Exec.focusChain st).map fun e => ⟨e, .onAction action.identity, ∅⟩)
  | .text words => .ok ((Exec.focusChain st).map fun e =>
      ⟨e, .onAction action.identity, Exec.textLocals action words⟩)
  | .mode name => .ok ((Exec.focusChain st).map fun e =>
      ⟨e, .onModalAction action.identity name, ∅⟩)
  | .object identity =>
    match st.resolve story .object (Text.fold identity) with
    | .error fault => .error fault
    | .ok object =>
      if action.kind = .ditransitive ∧ action.strict then .ok []
      else .ok [⟨object, .onAction action.identity, ∅⟩]
  | .objects first second =>
    let (first, second) := if action.reversed then (second, first) else (first, second)
    match st.resolve story .object (Text.fold first),
      st.resolve story .object (Text.fold second) with
    | .error fault, _ => .error fault
    | .ok _, .error fault => .error fault
    | .ok first, .ok second =>
      .ok [⟨first, .onActionWith action.identity second.identity, ∅⟩,
        ⟨first, .onActionWithOther action.identity, ∅⟩]

def forbidding (action : Action) (e : ElementRef) : List Candidate :=
  [e, ElementRef.world].flatMap (specificThenAny .onForbiddenAction action.identity)

def unhandled (st : State) (action : Action) : List Candidate :=
  (Exec.focusChain st).flatMap (specificThenAny .onUnhandledAction action.identity)

def run (env : Env) (runBlock : Block → Exec Unit) : Option Candidate → Exec Bool
  | none => pure false
  | some c => Exec.runHandler env runBlock c.element c.entry c.locals

end Candidate

/-- What is done about an invocation: there is a fault, or at most one candidate is run, and the
action then counts as handled or not. -/
inductive Selection where
  | faulty (fault : Fault)
  | chosen (candidate : Option Candidate) (handled : Bool)

namespace Selection

def enact (env : Env) (run : Block → Exec Unit) : Selection → Exec Bool
  | .faulty fault => Exec.fault fault
  | .chosen candidate handled => do
    discard (Candidate.run env run candidate)
    return handled

/-- The blocks that are entered at the depth, which is at most one. -/
def entered (heap : Heap) (depth : Nat) : Selection → List Event
  | .chosen (some c) _ =>
    [.enter (.entry c.entry.trigger) depth c.element.identity (c.entry.text heap)]
  | _ => []

end Selection

def selectHandler (story : Story) (st : State) (action : Action) (target : Target) : Selection :=
  match Candidate.handlers story st action target with
  | .error fault => .faulty fault
  | .ok candidates =>
    match candidates.find? (·.defined story st.heap) with
    | some c => .chosen (some c) true
    | none => .chosen ((Candidate.unhandled st action).find? (·.defined story st.heap)) false

def select (story : Story) (st : State) (i : Invocation) : Selection :=
  match story.action? i.action with
  | none => .faulty (.unknownAction i.action)
  | some action =>
    if i.target.fits action.kind then
      match Exec.forbidder? story action.identity st with
      | some e =>
        .chosen ((Candidate.forbidding action e).find? (·.defined story st.heap)) false
      | none => selectHandler story st action i.target
    else .faulty (.badInvocation i.action)

namespace Machine

def Noted (m n : Machine) : Prop :=
  ∃ notes : Array Cue, (∀ c ∈ notes, c.kind.isTrace = true) ∧ n = { m with cues := m.cues ++ notes }

theorem Noted.refl (m : Machine) : m.Noted m := ⟨#[], by simp⟩

theorem Noted.trans {m n k : Machine} (h : m.Noted n) (h' : n.Noted k) : m.Noted k := by
  obtain ⟨notes, hnotes, rfl⟩ := h
  obtain ⟨notes', hnotes', rfl⟩ := h'
  refine ⟨notes ++ notes', fun c hc => ?_, by simp⟩
  rcases Array.mem_append.mp hc with hc | hc
  · exact hnotes c hc
  · exact hnotes' c hc

theorem Noted.state {m n : Machine} (h : m.Noted n) : n.state = m.state := by
  obtain ⟨notes, -, rfl⟩ := h
  rfl

theorem noted_traced (m : Machine) (env : Env) (topic : Topic) (message : Machine → String) :
    m.Noted (m.traced env topic message) := by
  unfold traced
  split
  · exact ⟨#[.saying (.trace topic) (message m)], by simp [Cue.saying, CueKind.isTrace], by simp⟩
  · exact Noted.refl m

end Machine

namespace Exec

variable {env : Env}

theorem runHandler_of_not_defined {c : Candidate} {m : Machine} (run : Block → Exec Unit)
    (h : c.defined env.story m.state.heap = false) :
    runHandler env run c.element c.entry c.locals m = .done false m := by
  rw [Candidate.defined, Option.isSome_eq_false_iff, Option.isNone_iff_eq_none] at h
  simp [runHandler, runEntry_apply, h, handled]

/-- A handler that is defined does not let another one have a try. -/
theorem runHandler_ne_false {c : Candidate} {m : Machine} (run : Block → Exec Unit)
    (h : c.defined env.story m.state.heap = true) (n : Machine) :
    runHandler env run c.element c.entry c.locals m ≠ .done false n := by
  obtain ⟨block, hblock⟩ := Option.isSome_iff_exists.mp h
  simp only [runHandler, runEntry_apply, hblock, bind_apply]
  generalize callBlock env run _ _ block _ = o
  cases o with
  | exhausted => simp [handled]
  | done a k => simp [handled]
  | stopped s k => cases s <;> simp [handled]

theorem bind_of_ne_false {x : Exec Bool} {m : Machine} (h : ∀ n, x m ≠ .done false n)
    {f : Bool → Exec Bool} (hf : f true = pure true) : (x >>= f) m = x m := by
  rw [bind_apply]
  cases hx : x m with
  | exhausted => rfl
  | stopped s n => rfl
  | done ran n =>
    cases ran with
    | false => exact absurd hx (h n)
    | true => exact congrFun hf n

/-- Attempts made one after another come down to the first candidate that is defined. -/
theorem firstOf_candidates (env : Env) (run : Block → Exec Unit) (candidates : List Candidate)
    (m : Machine) :
    firstOf (candidates.map fun c => runHandler env run c.element c.entry c.locals) m =
      Candidate.run env run (candidates.find? (·.defined env.story m.state.heap)) m := by
  induction candidates with
  | nil => rfl
  | cons c rest ih =>
    rw [List.map_cons, firstOf]
    by_cases hc : c.defined env.story m.state.heap = true
    · rw [List.find?_cons_of_pos hc, Candidate.run]
      exact bind_of_ne_false (runHandler_ne_false run hc) rfl
    · -- an attempt without a block leaves the machine as it was, so the heap is still the same
      rw [List.find?_cons_of_neg hc, ← ih, bind_apply,
        runHandler_of_not_defined run (by simpa using hc)]
      rfl

theorem run_find_singleton (run : Block → Exec Unit) (c : Candidate) (m : Machine) :
    Candidate.run env run ([c].find? (·.defined env.story m.state.heap)) m =
      runHandler env run c.element c.entry c.locals m := by
  by_cases hc : c.defined env.story m.state.heap = true
  · simp [hc, Candidate.run]
  · simp only [Bool.not_eq_true] at hc
    simp [hc, runHandler_of_not_defined run hc, Candidate.run]

theorem firstOf_firstOf (xs rest : List (Exec Bool)) :
    firstOf (firstOf xs :: rest) = firstOf (xs ++ rest) := by
  induction xs with
  | nil => rfl
  | cons x xs ih =>
    funext m
    have hrest := congrFun ih
    simp only [firstOf, List.cons_append, bind_apply] at hrest ⊢
    cases x m with
    | exhausted => rfl
    | stopped s n => rfl
    | done ran n =>
      cases ran with
      | false => exact hrest n
      | true => rfl

theorem firstOf_flatMap {α : Type} (f : α → List (Exec Bool)) (items : List α) :
    firstOf (items.map fun a => firstOf (f a)) = firstOf (items.flatMap f) := by
  induction items with
  | nil => rfl
  | cons a items ih =>
    rw [List.map_cons, List.flatMap_cons, ← firstOf_firstOf]
    simp only [firstOf, ih]

theorem firstOf_specificOrAny (env : Env) (run : Block → Exec Unit) (trigger : Trigger)
    (action : String) (elements : List ElementRef) (m : Machine) :
    firstOf (elements.map fun e => runSpecificOrAny env run e trigger action) m =
      Candidate.run env run ((elements.flatMap (Candidate.specificThenAny trigger action)).find?
        (·.defined env.story m.state.heap)) m := by
  rw [← firstOf_candidates, List.map_flatMap, ← firstOf_flatMap]
  rfl

theorem discard_eq (x : Exec Bool) : (discard x : Exec Unit) = x >>= fun _ => pure () := rfl

theorem discard_then (x : Exec Bool) (b : Bool) :
    (do discard x; return b : Exec Bool) = x >>= fun _ => pure b := by
  rw [discard_eq, bind_assoc]
  rfl

theorem enact_chosen (run : Block → Exec Unit) (c : Option Candidate) (handled : Bool) :
    (Selection.chosen c handled).enact env run =
      Candidate.run env run c >>= fun _ => pure handled :=
  discard_then _ handled

theorem discard_eq_enact {run : Block → Exec Unit} {x : Exec Bool} {c : Option Candidate}
    {m : Machine} (h : x m = Candidate.run env run c m) (b : Bool) :
    (do discard x; return b : Exec Bool) m = (Selection.chosen c b).enact env run m := by
  rw [discard_then, enact_chosen, bind_apply, bind_apply, h]

/-- Being forbidden is told to the first who wants to know, after a note. -/
theorem permitted_of_some {action : Action} {m : Machine} {e : ElementRef}
    (h : forbidder? env.story action.identity m.state = some e) :
    ∃ n, m.Noted n ∧ ∀ run, permitted env run action m = (Selection.chosen
      ((Candidate.forbidding action e).find? (·.defined env.story m.state.heap)) false).enact
        env run n := by
  let n := m.traced env .interpreter fun _ => e.text ++ " forbids " ++ action.identity
  have hnoted : m.Noted n := m.noted_traced env _ _
  refine ⟨n, hnoted, fun run => ?_⟩
  have htold := firstOf_specificOrAny env run .onForbiddenAction action.identity
    [e, ElementRef.world] n
  rw [hnoted.state] at htold
  rw [permitted, bind_apply, see_apply]
  simp only [h]
  exact discard_eq_enact htold false

theorem permitted_of_none {action : Action} {m : Machine} (run : Block → Exec Unit)
    (h : forbidder? env.story action.identity m.state = none) :
    permitted env run action m = .done true m := by
  simp [permitted, bind_apply, h]

theorem handleTarget_apply (run : Block → Exec Unit) (action : Action) (target : Target)
    (m : Machine) :
    handleTarget env run action target m =
      match Candidate.handlers env.story m.state action target with
      | .error fault => .stopped (.fatal fault) m
      | .ok candidates =>
        Candidate.run env run (candidates.find? (·.defined env.story m.state.heap)) m := by
  cases target with
  | none | text | mode =>
    simp only [Candidate.handlers, ← firstOf_candidates, List.map_map]
    rfl
  | object identity =>
    simp only [handleTarget, Candidate.handlers, bind_apply, liveObject, ask]
    cases m.state.resolve env.story .object (Text.fold identity) with
    | error fault => rfl
    | ok object =>
      by_cases hstrict : action.kind = .ditransitive ∧ action.strict
      · simp [hstrict, Candidate.run]
      · simp only [hstrict, if_false]
        exact (run_find_singleton run { element := object, entry := _ } m).symm
  | objects first second =>
    simp only [handleTarget, Candidate.handlers, bind_apply, liveObject, ask]
    generalize (if action.reversed then (second, first) else (first, second)) = pair
    obtain ⟨first, second⟩ := pair
    cases m.state.resolve env.story .object (Text.fold first) with
    | error fault => simp
    | ok object =>
      cases hsecond : m.state.resolve env.story .object (Text.fold second) with
      | error fault => simp [hsecond]
      | ok other =>
        simp only [hsecond, ← firstOf_candidates]
        rfl

theorem runUnhandled_apply (env : Env) (action : Action) (m : Machine) :
    ∃ n, m.Noted n ∧ ∀ run, (runUnhandled env run action >>= fun _ => pure false) m =
      (Selection.chosen ((Candidate.unhandled m.state action).find?
        (·.defined env.story m.state.heap)) false).enact env run n := by
  let n := m.traced env .interpreter fun _ => action.identity ++ " was not handled"
  have hnoted : m.Noted n := m.noted_traced env _ _
  refine ⟨n, hnoted, fun run => ?_⟩
  have htold := firstOf_specificOrAny env run .onUnhandledAction action.identity
    (focusChain n.state) n
  rw [← hnoted.state]
  exact discard_eq_enact htold false

/-- A handler is run, or else those are told who want to know of actions that nothing handles. -/
theorem handleTarget_enacts (env : Env) (action : Action) (target : Target) (m : Machine) :
    ∃ n, m.Noted n ∧ ∀ run, (do
      if ← handleTarget env run action target then return true
      else
        runUnhandled env run action
        return false : Exec Bool) m =
      (selectHandler env.story m.state action target).enact env run n := by
  simp only [bind_apply, handleTarget_apply, selectHandler]
  cases Candidate.handlers env.story m.state action target with
  | error fault => exact ⟨m, .refl m, fun _ => rfl⟩
  | ok candidates =>
    cases hfind : candidates.find? (·.defined env.story m.state.heap) with
    | none =>
      obtain ⟨n, hn, hunhandled⟩ := runUnhandled_apply env action m
      simp only [hfind]
      exact ⟨n, hn, hunhandled⟩
    | some c =>
      refine ⟨m, .refl m, fun run => ?_⟩
      have hne := runHandler_ne_false run (List.find?_some hfind)
      have hchosen := bind_of_ne_false hne (f := fun _ => pure true) rfl
      simp only [hfind, enact_chosen, Candidate.run]
      rw [hchosen]
      exact bind_of_ne_false hne rfl

/-- Dispatching does what is selected, after a note or two. -/
theorem dispatch_enacts (env : Env) (i : Invocation) (m : Machine) :
    ∃ n, m.Noted n ∧
      ∀ run, dispatch env run i m = (select env.story m.state i).enact env run n := by
  unfold dispatch select
  cases env.story.action? i.action with
  | none => exact ⟨m, .refl m, fun _ => rfl⟩
  | some action =>
    by_cases hfits : i.target.fits action.kind = true
    case neg =>
      simp only [hfits]
      exact ⟨m, .refl m, fun _ => rfl⟩
    simp only [hfits, if_true]
    have hnoted := m.noted_traced env .interpreter fun _ => "processing " ++ i.inspect
    have htrace : ∀ rest : Exec Bool,
        (do trace env .interpreter fun _ => "processing " ++ i.inspect; rest : Exec Bool) m =
          rest (m.traced env .interpreter fun _ => "processing " ++ i.inspect) := fun _ => rfl
    simp only [htrace]
    -- nothing has run yet, so what is selected now is what was selected from the start
    generalize m.traced env .interpreter (fun _ => "processing " ++ i.inspect) = n at hnoted ⊢
    rw [← hnoted.state]
    cases hforbidder : forbidder? env.story action.identity n.state with
    | some e =>
      obtain ⟨k, hk, hpermitted⟩ := permitted_of_some hforbidder
      refine ⟨k, hnoted.trans hk, fun run => ?_⟩
      rw [bind_apply, hpermitted run, enact_chosen, bind_apply]
      cases Candidate.run env run _ k <;> rfl
    | none =>
      obtain ⟨k, hk, hhandled⟩ := handleTarget_enacts env action i.target n
      refine ⟨k, hnoted.trans hk, fun run => ?_⟩
      rw [bind_apply, permitted_of_none run hforbidder]
      exact hhandled run

theorem defined_of_select {story : Story} {st : State} {i : Invocation} {c : Candidate}
    {handled : Bool} (h : select story st i = .chosen (some c) handled) :
    c.defined story st.heap = true := by
  have hfind : ∀ {candidates : List Candidate} {b : Bool},
      Selection.chosen (candidates.find? (·.defined story st.heap)) b = .chosen (some c) handled →
        c.defined story st.heap = true := by
    intro candidates b hchosen
    exact List.find?_some (Selection.chosen.inj hchosen).1
  unfold select at h
  split at h
  · cases h
  · split at h
    · split at h
      · exact hfind h
      · unfold selectHandler at h
        split at h
        · cases h
        · split at h
          · rename_i hc
            rw [← hc] at h
            exact hfind h
          · exact hfind h
    · cases h

/-- Doing what was selected enters the block of the candidate, and else none at the next depth. -/
theorem enact_entered (hscopes : env.watch.contains .scopes = true) (fuel : Nat)
    {selection : Selection} {m n : Machine}
    (hdefined : ∀ c handled, selection = .chosen (some c) handled →
      c.defined env.story m.state.heap = true)
    (hn : (selection.enact env (runBlock env fuel) m).machine? = some n) :
    (n.events.toList.drop m.events.size).filter (Event.entersAt (m.running.length + 1)) =
      selection.entered m.state.heap (m.running.length + 1) := by
  have hnone : m.events.toList.drop m.events.size = [] := by simp [← Array.length_toList]
  cases selection with
  | faulty fault =>
    cases hn
    simp [hnone, Selection.entered]
  | chosen candidate handled =>
    rw [enact_chosen] at hn
    cases candidate with
    | none =>
      cases hn
      simp [hnone, Selection.entered]
    | some c =>
      obtain ⟨block, hblock⟩ := Option.isSome_iff_exists.mp (hdefined c handled rfl)
      have hran := (ran_runHandler hscopes fuel hblock c.locals).bind_pure (Q := Anything)
        (f := fun _ => handled) fun _ _ => .intro
      exact (hran.of_machine? hn).entered

/-- Dispatching an invocation comes down to a selection made from the state at its start. Whatever
runs blocks, dispatching does what was selected, trace cues apart. And of all the blocks that are
entered in it, the one that was selected is the only one at the depth next to the blocks that were
running already. -/
theorem dispatch_refines_selection (env : Env) (i : Invocation) (m : Machine) :
    (∃ notes : Array Cue, (∀ c ∈ notes, c.kind.isTrace = true) ∧
      ∀ run, dispatch env run i m =
        (select env.story m.state i).enact env run { m with cues := m.cues ++ notes }) ∧
    (env.watch.contains .scopes = true → ∀ fuel n,
      (dispatch env (runBlock env fuel) i m).machine? = some n →
        (n.events.toList.drop m.events.size).filter (Event.entersAt (m.frames.length + 1)) =
          (select env.story m.state i).entered m.state.heap (m.frames.length + 1)) := by
  obtain ⟨_, ⟨notes, hnotes, rfl⟩, henacts⟩ := dispatch_enacts env i m
  refine ⟨⟨notes, hnotes, henacts⟩, fun hscopes fuel n hn => ?_⟩
  rw [henacts] at hn
  have hdefined : ∀ c handled, select env.story m.state i = .chosen (some c) handled →
      c.defined env.story m.state.heap = true := fun _ _ => defined_of_select
  have hentered := enact_entered (m := { m with cues := m.cues ++ notes }) hscopes fuel hdefined hn
  simpa [Machine.running] using hentered

end Exec

namespace Sample

/-- The hero in the cellar, where only the world has something to look at. -/
def inCellar : Machine where
  state :=
    { (cellarSession .empty).state with
      ownership := (Ownership.empty.setPlayer (some "hero")).pushRoom "hero" "cellar" }

def cellarWatch : Env where
  story := onLook cellarStory .empty (Build.say "dark")
  limits := ⟨100, 0⟩
  trace := .none
  watch := .scopes

/-- Here the cellar forbids looking, whatever the hero and the world have to say about it. -/
def darkWatch : Env :=
  let look : Block → Element → Except StoryError Element := fun block e =>
    .ok (e.addBlock .empty (.onAction "look") block)
  let forbid : Element → Except StoryError Element := fun e =>
    (e.addBlock .empty ⟨.onForbiddenAction, []⟩ (Build.say "too dark")).setPermissions
      (.of .forbid ["look"])
  let hero := (cellarWatch.story.editElement "hero" (look (Build.say "yourself"))).2
  { cellarWatch with story := (hero.editElement "cellar" forbid).2 }

/-- Neither the cellar nor the hero has a block for looking, so that of the world is entered. In the
dark it is not, nor is that of the hero, but the one the cellar has for what it forbids. -/
theorem inCellar_looks :
    (∃ n, (Exec.dispatch cellarWatch (Exec.runBlock cellarWatch 9) (.general "look")
        inCellar).machine? = some n ∧
      n.events.toList.filter (Event.entersAt 1) =
        [.enter (.entry .onAction) 1 "world" "ONACTION(look)"]) ∧
    ∃ n, (Exec.dispatch darkWatch (Exec.runBlock darkWatch 9) (.general "look")
        inCellar).machine? = some n ∧
      n.events.toList.filter (Event.entersAt 1) =
        [.enter (.entry .onForbiddenAction) 1 "cellar" "ONFORBIDDENACTION()"] := by
  have hentered : ∀ env : Env, env.watch.contains .scopes = true → ∀ events,
      (Exec.dispatch env (Exec.runBlock env 9) (.general "look") inCellar).machine?.isSome = true →
      (select env.story inCellar.state (.general "look")).entered inCellar.state.heap 1 = events →
      ∃ n, (Exec.dispatch env (Exec.runBlock env 9) (.general "look") inCellar).machine? = some n ∧
        n.events.toList.filter (Event.entersAt 1) = events := by
    intro env hscopes events hends hselected
    obtain ⟨n, hn⟩ := Option.isSome_iff_exists.mp hends
    rw [← hselected]
    exact ⟨n, hn, (Exec.dispatch_refines_selection env (.general "look") inCellar).2 hscopes 9 n hn⟩
  refine ⟨hentered cellarWatch (by decide) _ ?_ ?_, hentered darkWatch (by decide) _ ?_ ?_⟩
  all_goals decide +kernel

end Sample

end Fabula
