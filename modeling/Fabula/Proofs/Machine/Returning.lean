import Fabula.Proofs.Machine.Budget
import Fabula.Proofs.Machine.StackFrame
import Fabula.Proofs.Machine.Unwinding

/-! Where the value of a call comes from. One operation alone gives back a value by itself, and any
other only passes on the signal of a block it runs. So a run that was stopped by giving back a value
can be followed inwards to the operation that did it, along links that let the signal through, and
the value that is pending is the one that this operation took from the stack. A call that comes back
has taken its arguments from the stack, and the value of its function lies in their place. -/

namespace Fabula

variable {α β : Type} {P : α → Prop} {Q : β → Prop}

def Outcome.NoReturn (P : α → Prop) : Outcome α → Prop
  | .done a _ => P a
  | .stopped s _ => s ≠ .giveBack
  | .exhausted => True

theorem Outcome.NoReturn.mono {P' : α → Prop} {o : Outcome α} (h : o.NoReturn P)
    (hP : ∀ a, P a → P' a) : o.NoReturn P' := by
  cases o with
  | exhausted => trivial
  | stopped s n => exact h
  | done a n => exact hP a h

namespace Exec

/-- The computation never gives back a value. The other one does not matter. -/
def NoReturn (P : α → Prop) (x _y : Exec α) : Prop := ∀ m, (x m).NoReturn P

theorem NoReturn.bind {x y : Exec α} {f g : α → Exec β} (hx : NoReturn P x y)
    (hf : ∀ a, P a → NoReturn Q (f a) (g a)) : NoReturn Q (x >>= f) (y >>= g) := by
  intro m
  have h := hx m
  rw [bind_apply]
  cases hxm : x m with
  | exhausted => trivial
  | stopped s n =>
    rw [hxm] at h
    exact h
  | done a n =>
    rw [hxm] at h
    exact hf a h n

theorem noReturn_change (f : Machine → Machine) : NoReturn Anything (change f) (change f) :=
  fun _ => .intro

theorem noReturn_stop {s : Signal} (hs : s ≠ .giveBack) : NoReturn P (stop s) (stop s) :=
  fun _ => hs

theorem noReturn_ask {f : State → Except Fault α} (hf : ∀ st a, True → f st = .ok a → P a) :
    NoReturn P (ask f) (ask f) := by
  intro m
  unfold ask
  split
  · rename_i a ha
    exact hf m.state a .intro ha
  · exact Signal.noConfusion

theorem steps_noReturn (env : Env) : Steps env env Anything Anything Anything NoReturn where
  story := rfl
  grounds := .trivial env.story
  mono hPQ hx m := (hx m).mono hPQ
  pure known _ := known
  bind := NoReturn.bind
  fault _ := noReturn_stop Signal.noConfusion
  see _ hf m := hf m.state .intro
  ask hf := noReturn_ask hf
  trace _ := noReturn_change _
  misuse _ := noReturn_stop Signal.noConfusion
  push _ := noReturn_change _
  pop op m := by
    unfold pop
    split
    · exact Signal.noConfusion
    · exact .intro
  popMany op n m := by
    unfold popMany
    split
    · exact Signal.noConfusion
    · exact fun _ _ => .intro
  emit _ _ := noReturn_change _
  frame op m := by
    unfold frame
    split
    · exact Signal.noConfusion
    · exact ⟨.intro, fun _ _ _ => .intro⟩
  setLocals _ := noReturn_change _
  changeContext identity f _ m := by
    unfold changeContext
    split
    · exact Signal.noConfusion
    · exact .intro
  newList _ _ := .intro
  changeList _ _ := noReturn_change _
  draw _ _ := .intro
  change _ _ := noReturn_change _

theorem noReturn_descend (env : Env) : NoReturn Anything (descend env) (descend env) := by
  intro m
  unfold descend
  split
  · exact Signal.noConfusion
  · exact .intro

theorem noReturn_queueOp (env : Env) (op : Opcode) (o : QueueOp) :
    NoReturn Anything (queueOp env op o) (queueOp env op o) := by
  have h := steps_noReturn env
  have hqueue : ∀ i, NoReturn Anything (queue env i) (queue env i) := fun i =>
    (noReturn_change _).bind fun _ _ => noReturn_change _
  cases o with
  | action => exact h.bind (h.popAction op) fun _ _ => hqueue _
  | withText => exact h.bind (h.popText op) fun _ _ => h.bind (h.popAction op) fun _ _ => hqueue _
  | withObject =>
    exact h.bind (h.popObject op) fun _ _ => h.bind (h.popAction op) fun _ _ => hqueue _
  | withObjects =>
    exact h.bind (h.popObject op) fun _ _ => h.bind (h.popObject op) fun _ _ =>
      h.bind (h.popAction op) fun _ _ => hqueue _

end Exec

namespace Plan

variable {env : Env} {L : Link → Prop} {p : Plan α}

/-- The steps of the plan give back no value, and its links are of a kind. -/
def Silent (L : Link → Prop) (p : Plan α) : Prop :=
  p.Uses (fun x => Exec.NoReturn Anything x x) L

theorem silent_own {x : Exec α} (h : Exec.NoReturn P x x) : (own x).Silent L :=
  uses_own fun m => (h m).mono fun _ _ => .intro

theorem Silent.bind {f : α → Plan β} (hp : p.Silent L) (hf : ∀ a, (f a).Silent L) :
    (p >>= f).Silent L := Uses.bind hp hf

theorem silent_see (f : Machine → α) : (own (Exec.see f)).Silent L :=
  uses_own fun _ => .intro

theorem silent_ask (f : State → Except Fault α) : (own (Exec.ask f)).Silent L :=
  uses_own (Exec.noReturn_ask fun _ _ _ _ => .intro)

theorem silent_change (f : Machine → Machine) : (own (Exec.change f)).Silent L :=
  uses_own (Exec.noReturn_change f)

theorem silent_pure (a : α) : (pure a : Plan α).Silent L := .intro

theorem silent_ite {c : Prop} [Decidable c] {q : Plan α} (hp : p.Silent L) (hq : q.Silent L) :
    (if c then p else q).Silent L := by
  split
  · exact hp
  · exact hq

theorem silent_ifAny (hL : L .part) (part : Option Block) : (ifAny part).Silent L := by
  cases part with
  | none => exact .intro
  | some block => exact ⟨hL, fun _ => .intro⟩

theorem silent_decideCondition (hL : L .condition) (op : Operation) :
    (decideCondition env op).Silent L := by
  have h := Exec.steps_noReturn env
  refine (silent_own (h.required _ _)).bind fun block => ?_
  refine Silent.bind ⟨hL, fun _ => .intro⟩ fun _ => (silent_own (h.pop _)).bind fun v => ?_
  refine (silent_own (h.withHeap _)).bind fun holds => (silent_own (h.tell _ _)).bind fun _ => ?_
  exact silent_pure holds

theorem silent_loopRound (hpart : L .part) (hcondition : L .condition) (hbody : L .body)
    (op : Operation) (step : Option Block) : (loopRound env op step).Silent L := by
  refine (silent_decideCondition hcondition op).bind fun holds => silent_ite ?_ (silent_pure _)
  have hran : (loopBody op.success).Silent L := by
    cases op.success with
    | none => exact .intro
    | some block => exact ⟨hbody, fun _ => .intro⟩
  refine hran.bind fun goesOn => silent_ite ?_ (silent_pure _)
  exact (silent_ifAny hpart step).bind fun _ => silent_pure _

theorem silent_rounds {round : Plan Bool} (h : round.Silent L) (limit : Nat) :
    (rounds round limit).Silent L := by
  induction limit with
  | zero => exact ⟨fun _ => .intro, fun _ => .intro⟩
  | succ limit ih => exact h.bind fun goesOn => silent_ite ih (silent_pure ())

theorem silent_forEach {f : α → Plan Unit} (h : ∀ a, (f a).Silent L) (items : List α) :
    (forEach f items).Silent L := by
  induction items with
  | nil => exact .intro
  | cons a items ih => exact (h a).bind fun _ => ih

theorem silent_callFunction (hL : ∀ f name, L (.function f name)) (op : Opcode) (e : ElementRef)
    (name : String) : (callFunction env op e name).Silent L := by
  have h := Exec.steps_noReturn env
  unfold callFunction
  cases env.story.resolveFunction? e.identity name with
  | none => exact uses_own (h.fault _)
  | some f =>
    refine (silent_own (h.popMany _ _)).bind fun values => ?_
    refine (silent_own (Exec.noReturn_descend env)).bind fun _ => ?_
    refine (silent_own (h.tell _ _)).bind fun _ => ?_
    exact Silent.bind ⟨hL _ _, fun _ => .intro⟩ fun v => silent_own (h.push .intro)

section Entries

variable (hL : ∀ f name, L (.entry f name))

include hL

theorem silent_runEntry (e : ElementRef) (entry : Entry) : (runEntry env e entry).Silent L := by
  have h := Exec.steps_noReturn env
  refine (silent_own (h.withHeap _)).bind fun found => ?_
  cases found with
  | none => exact silent_pure _
  | some block =>
    refine (silent_own (h.withHeap _)).bind fun name => (silent_own (h.tell _ _)).bind fun _ => ?_
    exact Silent.bind ⟨hL _ _, fun _ => .intro⟩ fun _ => silent_pure _

theorem silent_runFocus (e : ElementRef) (trigger : Trigger) : (runFocus env e trigger).Silent L :=
  (silent_runEntry hL e _).bind fun _ => silent_pure ()

theorem silent_unfocus (previous : Option ElementRef) : (unfocus env previous).Silent L := by
  cases previous with
  | none => exact .intro
  | some e => exact silent_runFocus hL e _

theorem silent_setPlayer (player : ElementRef) : (setPlayer env player).Silent L := by
  refine (silent_see _).bind fun previous => silent_ite (silent_pure ()) ?_
  refine (silent_unfocus hL previous).bind fun _ => (silent_change _).bind fun _ => ?_
  exact silent_runFocus hL player _

theorem silent_focusOp (op : Opcode) (o : FocusOp) : (focusOp env op o).Silent L := by
  have h := Exec.steps_noReturn env
  have hchange : ∀ f, (own (Exec.changeOwnership f)).Silent L := fun _ => silent_change _
  cases o with
  | setPlayer => exact (silent_own (h.popPlayer op)).bind fun player => silent_setPlayer hL player
  | pushRoom =>
    refine (silent_own (h.popRoom op)).bind fun room => (silent_ask _).bind fun player => ?_
    exact (hchange _).bind fun _ => silent_runFocus hL room _
  | popRoom =>
    refine (silent_ask _).bind fun player => (silent_ask _).bind fun room => ?_
    exact (silent_runFocus hL room _).bind fun _ => hchange _
  | swapRoom =>
    refine (silent_own (h.popRoom op)).bind fun room => (silent_ask _).bind fun player => ?_
    refine (silent_see _).bind fun previous => (silent_unfocus hL previous).bind fun _ => ?_
    exact (hchange _).bind fun _ => silent_runFocus hL room _
  | playerIs =>
    exact silent_own (h.bind (h.popPlayer op) fun _ _ => h.bind h.ownership fun _ _ =>
      h.pushBoolean _)
  | roomIs =>
    exact silent_own (h.bind (h.popRoom op) fun _ _ => h.bind h.ownership fun _ _ =>
      h.pushBoolean _)
  | noPlayer => exact silent_own (h.bind h.ownership fun _ _ => h.pushBoolean _)
  | noRoom => exact silent_own (h.bind h.ownership fun _ _ => h.pushBoolean _)

theorem silent_browse (op : Opcode) : (browse env op).Silent L := by
  have h := Exec.steps_noReturn env
  refine (silent_own (h.popHolder op)).bind fun holder => ?_
  refine (silent_own h.ownership).bind fun held => ?_
  refine silent_forEach (fun object => ?_) _
  refine (silent_runEntry hL _ _).bind fun ran => silent_ite ?_ (silent_pure ())
  exact silent_runFocus hL _ _

end Entries

theorem silent_controlOp {limit : Nat} {op : Operation} (hpart : L .part)
    (hcondition : L .condition) (o : ControlOp)
    (hbody : o = .whileLoop ∨ o = .forLoop → L .body) :
    (controlOp env limit op o).Silent L := by
  have h := Exec.steps_noReturn env
  have hstop : ∀ {s : Signal}, s ≠ .giveBack →
      Exec.NoReturn (Anything : Unit → Prop) (Exec.stop s) (Exec.stop s) :=
    fun hs => Exec.noReturn_stop hs
  cases o with
  | branch =>
    refine (silent_decideCondition hcondition op).bind fun holds => ?_
    exact silent_ite (silent_ifAny hpart _) (silent_ifAny hpart _)
  | whileLoop =>
    exact silent_rounds (silent_loopRound hpart hcondition (hbody (.inl rfl)) op _) limit
  | forLoop =>
    refine (silent_own (h.required _ _)).bind fun block => ?_
    refine Silent.bind ⟨hpart, fun _ => .intro⟩ fun _ => ?_
    exact silent_rounds (silent_loopRound hpart hcondition (hbody (.inr rfl)) op _) limit
  | quit => exact uses_own fun _ => Signal.noConfusion
  | error => exact silent_own (h.bind (h.popText _) fun _ _ => hstop Signal.noConfusion)
  | leaveLoop | nextRound | endHandler | finish => exact silent_own (hstop Signal.noConfusion)

/-- All operations but one give back no value by themselves. -/
theorem silent_operation (limit : Nat) {op : Operation} (hop : op.opcode ≠ .call .giveBack)
    (hpart : L .part) (hcondition : L .condition)
    (hbody : op.opcode = .control .whileLoop ∨ op.opcode = .control .forLoop → L .body)
    (hentry : ∀ f name, L (.entry f name)) (hfunction : ∀ f name, L (.function f name)) :
    (operation env limit op).Silent L := by
  have h := Exec.steps_noReturn env
  unfold operation
  cases hcode : op.opcode with
  | stack o => exact silent_own (h.stackOp (fun _ _ _ => .intro) o)
  | arithmetic => exact silent_own (h.arithmetic op)
  | control o =>
    refine silent_controlOp hpart hcondition o fun ho => hbody ?_
    rw [hcode]
    exact ho.imp (congrArg _) (congrArg _)
  | call o =>
    cases o with
    | function =>
      refine (silent_own (h.firstName op)).bind fun name => ?_
      exact (silent_own (h.frame _)).bind fun f => silent_callFunction hfunction _ _ name
    | elementFunction =>
      refine (silent_own (h.firstName op)).bind fun name => ?_
      exact (silent_own (h.popElement _)).bind fun e => silent_callFunction hfunction _ e name
    | giveBack => exact absurd hcode hop
  | cue o => exact silent_own (h.cueOp _ o)
  | queue o => exact silent_own (Exec.noReturn_queueOp env _ o)
  | holding o =>
    have hdone : ∀ o, (own (Exec.holdingOp env (.holding o) (pure ()) o)).Silent L := fun o =>
      silent_own (h.holdingOp _ (h.pure .intro) o)
    cases o with
    | browse => exact silent_browse hentry _
    | _ => exact hdone _
  | focus o => exact silent_focusOp hentry _ o
  | list o => exact silent_own (h.listOp _ o)
  | convert o => exact silent_own (h.convertOp _ o)
  | random o => exact silent_own (h.randomOp _ o)

end Plan

theorem Stack.eq_push_of_pop? {s rest : Stack} {v : Value} (h : s.pop? = some (v, rest)) :
    s = rest.push v := by
  obtain ⟨values, height, hheight⟩ := s
  cases values with
  | nil => cases h
  | cons w values =>
    cases h
    exact Stack.eq_of_values rfl

section Runs

variable {env : Env} {fuel : Nat} {block : Block} {m n : Machine}

/-- The run of a block that starts on the machine `m` and ends at the machine `n` gives back the
value: its last operation is one that gives back, executed inside no function that was called in the
block, with the value on top of the stack. -/
def GivesBack (env : Env) (fuel : Nat) (block : Block) (m : Machine) (v : Value) (n : Machine) :
    Prop :=
  ∃ (starts : List Start) (op : Operation) (l : Machine) (rest : Stack),
    Inside env fuel block m starts op l ∧ op.opcode = .call .giveBack ∧
    (∀ start ∈ starts, start.link.catches .giveBack = false) ∧ l.stack = rest.push v ∧
    n.operations = l.operations + 1

/-- The value an operation gives back is the one on top of the stack. -/
theorem perform_giveBack {run : Block → Exec Unit} {limit : Nat} {op : Operation}
    (hop : op.opcode = .call .giveBack)
    (h : Exec.perform env run limit op m = .stopped .giveBack n) :
    ∃ v, ∃ rest : Stack, m.stack = rest.push v ∧ n.pendingReturn = some v ∧
      n.operations = m.operations := by
  simp only [Exec.perform, hop, Exec.callOp, Exec.bind_apply, Exec.pop] at h
  cases hpop : m.stack.pop? with
  | none => simp [hpop] at h
  | some found =>
    simp only [hpop, Exec.trace, Exec.change_apply, Exec.stop_apply] at h
    cases h
    refine ⟨found.1, found.2, Stack.eq_push_of_pop? hpop, rfl, ?_⟩
    exact (Machine.Unwound.traced _ env _ _).operations

/-- A run that is stopped by giving back a value gives back the one that is pending. -/
theorem exists_givesBack (h : Exec.runBlock env fuel block m = .stopped .giveBack n) :
    ∃ v, n.pendingReturn = some v ∧ GivesBack env fuel block m v n := by
  -- by the depth of blocks: the operation that stops the block gives back itself, or runs a block
  -- that does
  induction fuel generalizing block m n with
  | zero => cases h
  | succ fuel ih =>
    obtain ⟨before, op, after, l, rfl, hbefore, hstopped⟩ := exists_of_forEach_stopped h
    rw [Exec.execute_eq, Exec.bind_apply] at hstopped
    rcases Exec.announce_cases env op l with ⟨c, hc, -, hcounted⟩ | ⟨-, -, c, limit, hc⟩
    · rw [hc] at hstopped
      by_cases hop : op.opcode = .call .giveBack
      · obtain ⟨v, rest, hstack, hpending, hoperations⟩ := perform_giveBack hop hstopped
        refine ⟨v, hpending, [], op, l, rest, .here hbefore, hop, ?_, ?_, ?_⟩
        · exact fun start hstart => absurd hstart List.not_mem_nil
        · exact hcounted.stack.symm.trans hstack
        · exact hoperations.trans hcounted.operations
      · have hsilent : (Plan.operation env fuel op).Silent fun _ => True :=
          Plan.silent_operation fuel hop .intro .intro (fun _ => .intro) (fun _ _ => .intro)
            fun _ _ => .intro
        rw [← Plan.exec_operation] at hstopped
        obtain ⟨link, inner, k, rest, hstarts, hout⟩ := Plan.exists_starts
          (fun m n hx hm => absurd rfl (hm ▸ hx m)) hsilent hstopped
        obtain ⟨hcatches, n', hinner, hunwound⟩ := Link.giveBack_of_out hout
        obtain ⟨v, hpending, starts, ret, l', below, hinside, hret, hpasses, htop, hlast⟩ :=
          ih hinner
        refine ⟨v, hunwound.pendingReturn.trans hpending, ⟨link, k⟩ :: starts, ret, l', below,
          .inner hbefore hc hstarts hinside, hret, ?_, htop, hunwound.operations.trans hlast⟩
        intro start hstart
        rcases List.mem_cons.mp hstart with rfl | hstart
        · exact hcatches
        · exact hpasses start hstart
    · rw [hc] at hstopped
      cases hstopped

structure Call where
  element : ElementRef
  function : Function
  values : List Value

def Call.frame (c : Call) : Frame :=
  ⟨c.element, .function, Exec.bindArguments c.function.arguments c.values⟩

/-- The element whose function an operation calls, and the values that are left below its operand.
It is the element of the running frame, with no operand, or the one the value on top refers to. -/
inductive Callee (env : Env) (op : Operation) (m : Machine) : ElementRef → List Value → Prop
  | running {f : Frame} {frames : List Frame} (hop : op.opcode = .call .function)
      (hframes : m.frames = f :: frames) : Callee env op m f.element m.stack.values
  | operand {v : Value} {values : List Value} {e : ElementRef}
      (hop : op.opcode = .call .elementFunction) (hstack : m.stack.values = v :: values)
      (he : m.state.resolveValue env.story v = .ok (some e)) : Callee env op m e values

/-- The operation makes the call, and takes all arguments from the stack down to the base. -/
structure Calls (env : Env) (op : Operation) (m : Machine) (c : Call) (base : Stack) : Prop where
  callee : Callee env op m c.element (c.values.reverse ++ base.values)
  found : ∃ name, op.first.bind Value.variableName? = some name ∧
    env.story.resolveFunction? c.element.identity name = some c.function
  arity : c.values.length = c.function.arguments.length

theorem Callee.height {op : Operation} {e : ElementRef} {values : List Value}
    (h : Callee env op m e values) : m.stack.height =
      values.length + if op.opcode = .call .elementFunction then 1 else 0 := by
  rw [m.stack.height_eq]
  cases h with
  | running hop hframes => simp [hop]
  | operand hop hstack he => simp [hop, hstack]

theorem Calls.height {op : Operation} {c : Call} {base : Stack} (h : Calls env op m c base) :
    m.stack.height = c.function.arguments.length + base.height +
      if op.opcode = .call .elementFunction then 1 else 0 := by
  rw [h.callee.height, List.length_append, List.length_reverse, h.arity, ← base.height_eq]

/-- The body of the function came to its end, and the value is false, or it gave back the value. -/
inductive Yields (env : Env) (fuel : Nat) (block : Block) (m : Machine) (v : Value) : Prop
  | default {n : Machine} (hrun : Exec.runBlock env fuel block m = .done () n)
      (hv : v = .boolean false)
  | returned {n : Machine} (hrun : Exec.runBlock env fuel block m = .stopped .giveBack n)
      (hv : GivesBack env fuel block m v n)

theorem returned_eq_done {o : Outcome Unit} {v : Value}
    (h : Exec.returned (Exec.afterwards (fun m => { m with depth := m.depth - 1 }) o) =
      .done v n) :
    ∃ k, n.stack = k.stack ∧ ((o = .done () k ∧ v = .boolean false) ∨
      (o = .stopped .giveBack k ∧ v = k.pendingReturn.getD (.boolean false))) := by
  cases o with
  | exhausted => cases h
  | done a k =>
    cases h
    exact ⟨k, rfl, .inl ⟨rfl, rfl⟩⟩
  | stopped s k =>
    cases s with
    | giveBack =>
      cases h
      exact ⟨k, rfl, .inr ⟨rfl, rfl⟩⟩
    | _ => cases h

theorem exists_of_callBlock_done {run : Block → Exec Unit} {f : Frame} {name : String}
    (h : Exec.callBlock env run f name block m = .done () n) :
    ∃ k, run block (Exec.openFrame env f name m) = .done () k := by
  unfold Exec.callBlock at h
  cases ho : run block (Exec.openFrame env f name m) with
  | exhausted =>
    rw [ho] at h
    cases h
  | done a k => exact ⟨k, rfl⟩
  | stopped s k =>
    rw [ho] at h
    simp only [Exec.afterwards, Exec.settle] at h
    split at h
    · cases h
    · split at h <;> cases h

/-- The body of a function yields its value and leaves the stack as high as it was. -/
theorem yields_of_returned {c : Call} {v : Value}
    (h : Exec.returned (Exec.afterwards (fun m => { m with depth := m.depth - 1 })
      (Exec.callBlock env (Exec.runBlock env fuel) c.frame c.function.name c.function.block m)) =
        .done v n) :
    Yields env fuel c.function.block (Exec.openFrame env c.frame c.function.name m) v ∧
      n.stack.height = m.stack.height ∧
      ((Exec.callBlock env (Exec.runBlock env fuel) c.frame c.function.name
        c.function.block).ReachesWithin 0 m → n.stack = m.stack) := by
  obtain ⟨k, hstack, hcall⟩ := returned_eq_done h
  have hends : (Exec.callBlock env (Exec.runBlock env fuel) c.frame c.function.name
      c.function.block m).EndsAt k := by
    rcases hcall with ⟨hcall, -⟩ | ⟨hcall, -⟩
    · exact hcall ▸ .done ()
    · exact hcall ▸ .signal .giveBack rfl
  rw [hstack]
  refine ⟨?_, Exec.height_of_settle hends, fun hreach =>
    (Exec.callBlock_leaves_below env fuel _ _ _ m k 0 hreach hends).2.2 rfl⟩
  rcases hcall with ⟨hcall, hv⟩ | ⟨hcall, hv⟩
  · obtain ⟨l, hl⟩ := exists_of_callBlock_done hcall
    exact .default hl hv
  · have hout : (Link.entry c.frame c.function.name).out env m.stack.height
        (Exec.runBlock env fuel c.function.block (Exec.openFrame env c.frame c.function.name m)) =
          .stopped .giveBack k := hcall
    obtain ⟨-, l, hl, hunwound⟩ := Link.giveBack_of_out hout
    obtain ⟨w, hpending, hgives⟩ := exists_givesBack hl
    rw [hunwound.pendingReturn, hpending] at hv
    exact .returned hl (hv ▸ hgives)

theorem popMany_eq_done {op : Opcode} {count : Nat} {values : List Value}
    (h : Exec.popMany op count m = .done values n) :
    values.length = count ∧ m.stack.values = values.reverse ++ n.stack.values ∧
      n = { m with stack := m.stack.drop count } := by
  unfold Exec.popMany at h
  split at h
  · cases h
  · rename_i hheight
    cases h
    rw [m.stack.height_eq] at hheight
    refine ⟨?_, ?_, rfl⟩
    · simp only [Stack.top, List.length_reverse, List.length_take]
      omega
    · simp [Stack.top]

/-- A function that is called and comes back has taken its arguments from the stack, and its value
lies on what was below them. -/
theorem of_callFunction {op : Opcode} {e : ElementRef} {name : String}
    (h : Exec.callFunction env (Exec.runBlock env fuel) op e name m = .done () n) :
    ∃ (c : Call) (k : Machine) (v : Value) (below : Stack), c.element = e ∧
      env.story.resolveFunction? e.identity name = some c.function ∧
      c.values.length = c.function.arguments.length ∧
      m.stack.values = c.values.reverse ++ k.stack.values ∧ k.state = m.state ∧
      k.frames = m.frames ∧ n.stack = below.push v ∧ below.height = k.stack.height ∧
      ((Exec.callBlock env (Exec.runBlock env fuel) c.frame c.function.name
        c.function.block).ReachesWithin 0 k → below = k.stack) ∧
      Yields env fuel c.function.block (Exec.openFrame env c.frame c.function.name k) v := by
  unfold Exec.callFunction at h
  cases hf : env.story.resolveFunction? e.identity name with
  | none =>
    rw [hf] at h
    cases h
  | some f =>
    rw [hf] at h
    obtain ⟨values, k₁, hvalues, h⟩ := Exec.bind_eq_done h
    obtain ⟨v, k₂, hran, hpushed⟩ := Exec.bind_eq_done h
    obtain ⟨_, k₃, hdeep, hran⟩ := Exec.bind_eq_done hran
    obtain ⟨_, k, htraced, hran⟩ := Exec.bind_eq_done hran
    obtain ⟨harity, hstack, hk₁⟩ := popMany_eq_done hvalues
    have hkept : k.stack = k₁.stack ∧ k.state = k₁.state ∧ k.frames = k₁.frames := by
      obtain ⟨cues, hcues⟩ := k₃.traced_eq env .function fun _ =>
        "call " ++ e.text ++ "." ++ f.name ++ "()"
      rw [Exec.trace, Exec.change_apply, hcues] at htraced
      unfold Exec.descend at hdeep
      split at hdeep <;> cases hdeep
      cases htraced
      exact ⟨rfl, rfl, rfl⟩
    obtain ⟨hyields, hheight, hbelow⟩ :=
      yields_of_returned (show Exec.returned (Exec.afterwards _ (Exec.callBlock env _
        (Call.frame ⟨e, f, values⟩) _ _ k)) = _ from hran)
    cases hpushed
    refine ⟨⟨e, f, values⟩, k, v, k₂.stack, rfl, rfl, harity, ?_, ?_, ?_, rfl, hheight, hbelow,
      hyields⟩
    · rw [hstack, hkept.1]
    · rw [hkept.2.1, hk₁]
    · rw [hkept.2.2, hk₁]

theorem firstName_eq_done {op : Operation} {name : String}
    (h : Exec.firstName op m = .done name n) :
    op.first.bind Value.variableName? = some name ∧ n = m := by
  unfold Exec.firstName Exec.firstOperand at h
  cases hv : op.first with
  | none =>
    rw [hv] at h
    cases h
  | some v =>
    rw [hv] at h
    rw [Option.bind_some]
    change Exec.required op.opcode v.variableName? m = _ at h
    cases hname : v.variableName? with
    | none =>
      rw [hname] at h
      cases h
    | some found =>
      rw [hname] at h
      cases h
      exact ⟨rfl, rfl⟩

theorem popElement_eq_done {op : Opcode} {e : ElementRef}
    (h : Exec.popElement env op m = .done e n) :
    ∃ v, m.stack.values = v :: n.stack.values ∧
      m.state.resolveValue env.story v = .ok (some e) ∧ n = { m with stack := n.stack } := by
  obtain ⟨v, k, hpop, h⟩ := Exec.bind_eq_done h
  obtain ⟨found, l, hask, h⟩ := Exec.bind_eq_done h
  unfold Exec.pop at hpop
  cases hstack : m.stack.pop? with
  | none =>
    rw [hstack] at hpop
    cases hpop
  | some top =>
    rw [hstack] at hpop
    cases hpop
    unfold Exec.ask at hask
    split at hask <;> cases hask
    rename_i hfound
    cases found with
    | none => cases h
    | some e' =>
      cases h
      exact ⟨top.1, congrArg Stack.values (Stack.eq_push_of_pop? hstack), hfound, rfl⟩

theorem of_perform_call {run : Block → Exec Unit} {limit : Nat} {op : Operation}
    (hop : op.opcode = .call .function ∨ op.opcode = .call .elementFunction)
    (h : Exec.perform env run limit op m = .done () n) :
    ∃ e name k, Callee env op m e k.stack.values ∧
      op.first.bind Value.variableName? = some name ∧ k = { m with stack := k.stack } ∧
      Exec.callFunction env run op.opcode e name k = .done () n := by
  rcases hop with hop | hop
  · simp only [Exec.perform, hop] at h
    obtain ⟨name, m₁, hfirst, hrest⟩ := Exec.bind_eq_done h
    obtain ⟨hname, rfl⟩ := firstName_eq_done hfirst
    obtain ⟨f, k, hframe, hcall⟩ := Exec.bind_eq_done hrest
    unfold Exec.frame at hframe
    split at hframe <;> cases hframe
    rename_i frames hframes
    exact ⟨f.element, name, m₁, .running hop hframes, hname, rfl, hcall⟩
  · simp only [Exec.perform, hop] at h
    obtain ⟨name, m₁, hfirst, hrest⟩ := Exec.bind_eq_done h
    obtain ⟨hname, rfl⟩ := firstName_eq_done hfirst
    obtain ⟨e, k, hpop, hcall⟩ := Exec.bind_eq_done hrest
    obtain ⟨v, hv, hfound, hk⟩ := popElement_eq_done hpop
    exact ⟨e, name, k, .operand hop hv hfound, hname, hk, hcall⟩

theorem Callee.of_counted {op : Operation} {e : ElementRef} {values : List Value}
    (h : Callee env op n e values) (hstate : n.state = m.state) (hstack : n.stack = m.stack)
    (hframes : n.frames = m.frames) : Callee env op m e values := by
  cases h with
  | running hop hrunning =>
    rw [hstack]
    exact .running hop (hframes ▸ hrunning)
  | operand hop hv he => exact .operand hop (hstack ▸ hv) (hstate ▸ he)

/-- A call that comes back yields one value in the place of what it has taken. -/
theorem of_execute_call {limit : Nat} {op : Operation}
    (hop : op.opcode = .call .function ∨ op.opcode = .call .elementFunction)
    (h : Exec.execute env (Exec.runBlock env fuel) limit op m = .done () n) :
    ∃ (c : Call) (k : Machine) (v : Value) (below : Stack), Calls env op m c k.stack ∧
      k.state = m.state ∧ k.frames = m.frames ∧ n.stack = below.push v ∧
      below.height = k.stack.height ∧
      ((Exec.callBlock env (Exec.runBlock env fuel) c.frame c.function.name
        c.function.block).ReachesWithin 0 k → below = k.stack) ∧
      Yields env fuel c.function.block (Exec.openFrame env c.frame c.function.name k) v := by
  rw [Exec.execute_eq] at h
  obtain ⟨_, m₁, hannounce, hperform⟩ := Exec.bind_eq_done h
  rcases Exec.announce_cases env op m with ⟨m₂, hm₂, hframes, hcounted⟩ | ⟨-, -, m₂, limit, hm₂⟩
  · cases hannounce.symm.trans hm₂
    obtain ⟨e, name, m₃, hcallee, hname, hm₃, hcall⟩ := of_perform_call hop hperform
    obtain ⟨c, k, v, below, rfl, hf, harity, hvalues, hkstate, hkframes, hrest⟩ :=
      of_callFunction hcall
    rw [hm₃] at hkstate hkframes
    refine ⟨c, k, v, below, ⟨?_, ⟨name, hname, hf⟩, harity⟩, hkstate.trans hcounted.state,
      hkframes.trans hframes, hrest⟩
    rw [← hvalues]
    exact hcallee.of_counted hcounted.state hcounted.stack hframes
  · cases hannounce.symm.trans hm₂

end Runs

end Fabula
