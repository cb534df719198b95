import Fabula.Proofs.Machine.Renaming
import Fabula.Proofs.Value.Canonical

/-! Every operation runs alike on machines that differ only in the places of their lists. Operations
are followed step by step: what they take off the stack is alike on both sides, and what they do
with it is the same. Stories hold no lists, so the operands of an operation are the same on both
sides. -/

namespace Fabula.Exec

variable {R : Handle → Handle → Prop}

theorem alike_required {α : Type} (op : Opcode) (part : Option α) :
    RunsAlike R (required op part) (required op part) := by
  cases part with
  | none => exact agree_stop _
  | some a => exact agree_pure_same a

theorem alike_part {α : Type} (op : Opcode) (part : Option α) :
    Agree Machine.Alike (fun _ a b => a = b ∧ part = some a) R (required op part)
      (required op part) := by
  cases part with
  | none => exact agree_stop _
  | some a => exact agree_pure fun _ _ => ⟨rfl, rfl⟩

theorem alike_firstName (op : Operation) : RunsAlike R (firstName op) (firstName op) :=
  (alike_required op.opcode op.first).bind_same fun _ _ _ => alike_required _ _

theorem alike_secondName (op : Operation) : RunsAlike R (secondName op) (secondName op) :=
  (alike_required op.opcode op.second).bind_same fun _ _ _ => alike_required _ _

theorem alike_firstElement (env : Env) (op : Operation) :
    RunsAlike R (firstElement env op) (firstElement env op) :=
  (alike_required op.opcode op.first).bind_same fun _ _ v =>
    (alike_ask fun _ _ _ _ hst => hst.resolveValue_self env.story v).bind_same fun _ _ _ =>
      alike_required _ _

theorem alike_popElement (env : Env) (op : Opcode) :
    RunsAlike R (popElement env op) (popElement env op) := by
  refine (alike_pop op).bind fun S _ v w hv => ?_
  rw [hv.kind_eq]
  refine (alike_ask fun _ _ _ hS hst =>
    hst.resolveValue_eq env.story (hv.mono hS)).bind_same fun _ _ found => ?_
  cases found with
  | none => exact agree_stop _
  | some e => exact agree_pure_same e

theorem alike_popElementOf (env : Env) (op : Opcode) (expected : String)
    (accepts : ElementKind → Bool) :
    RunsAlike R (popElementOf env op expected accepts) (popElementOf env op expected accepts) := by
  refine (alike_popElement env op).bind_same fun _ _ e => ?_
  split
  · exact agree_pure_same e
  · exact agree_stop _

theorem alike_popList (op : Opcode) :
    Agree Machine.Alike (fun R p q => R p q) R (popList op) (popList op) := by
  refine (alike_pop op).bind fun S _ v w hv => ?_
  cases hv with
  | list hr => exact agree_pure fun _ hS => hS _ _ hr
  | scalar hs =>
    cases v with
    | list => cases hs
    | _ => exact agree_stop _

theorem alike_popAction (env : Env) (op : Opcode) :
    RunsAlike R (popAction env op) (popAction env op) := by
  refine (alike_pop op).bind fun S _ v w hv => ?_
  cases hv with
  | list => exact agree_stop _
  | scalar hs =>
    cases v with
    | action identity =>
      cases hstory : env.story.action? identity with
      | none =>
        simp only [hstory]
        exact agree_stop _
      | some a =>
        simp only [hstory]
        exact agree_pure_same _
    | _ => exact agree_stop _

theorem alike_popText (op : Opcode) : RunsAlike R (popText op) (popText op) :=
  (alike_pop op).bind fun _ _ _ _ hv => alike_withHeap fun _ _ _ hS h => h.text_eq (hv.mono hS)

theorem alike_context (env : Env) (identity : String) :
    Agree Machine.Alike Context.Alike R (ask fun st => st.context env.story identity)
      (ask fun st => st.context env.story identity) := by
  intro S m n _ hm
  rcases hm.state.context_cases env.story identity with ⟨c, d, hc, hd, hcd⟩ | ⟨e, hc, hd⟩
  · simp only [ask, hc, hd]
    exact .done le_rfl hcd hm
  · simp only [ask, hc, hd]
    exact .stopped le_rfl hm

theorem alike_variableOf (env : Env) (identity name : String) :
    Agree Machine.Alike Value.Alike R (variableOf env identity name)
      (variableOf env identity name) := by
  refine (alike_context env identity).bind fun S _ c d hcd => agree_pure fun T hT => ?_
  have hv := hcd.bindings (Text.fold name)
  unfold Context.get?
  generalize c.bindings[Text.fold name]? = v at hv
  generalize d.bindings[Text.fold name]? = w at hv
  cases hv with
  | none => exact .scalar rfl
  | some hv => exact hv.mono hT

theorem alike_lookUp (env : Env) {f g : Frame} (h : f.Alike R g) (name : String) :
    Agree Machine.Alike Value.Alike R (lookUp env f name) (lookUp env g name) := by
  have hv := h.locals name
  unfold lookUp
  generalize f.locals[name]? = v at hv
  generalize g.locals[name]? = w at hv
  cases hv with
  | none =>
    rw [h.element]
    exact alike_variableOf env g.element.identity name
  | some hv => exact agree_pure fun _ hS => hv.mono hS

theorem alike_readVariable (env : Env) (op : Opcode) (name : String) :
    Agree Machine.Alike Value.Alike R (readVariable env op name) (readVariable env op name) := by
  refine (alike_frame op).bind fun S _ f g hfg => ?_
  refine (alike_lookUp env hfg name).bind fun T _ v w hv => ?_
  refine (alike_trace env _ fun _ m n hU hm => ?_).bind_same fun U hU _ =>
    agree_pure fun _ hV => hv.mono (hU.trans hV)
  rw [hm.heap.text_eq (hv.mono hU)]

theorem alike_pushValue (env : Env) {op : Operation}
    (h : op.first.all (fun v => !v.isShared) = true) :
    RunsAlike R (pushValue env op) (pushValue env op) := by
  refine (alike_part op.opcode op.first).bind fun S _ v w hvw => ?_
  obtain ⟨rfl, hv⟩ := hvw
  have hs : v.isShared = false := by simpa [hv] using h
  cases v with
  | list => cases hs
  | varName name =>
    exact (alike_readVariable env op.opcode _).bind fun _ _ _ _ hv => alike_push hv
  | _ => exact alike_push (.scalar hs)

theorem alike_trace_text (env : Env) (topic : Topic) (before : String) {v w : Value}
    (hv : v.Alike R w) :
    RunsAlike R (trace env topic fun m => before ++ v.text m.state.heap)
      (trace env topic fun m => before ++ w.text m.state.heap) :=
  alike_trace env topic fun _ _ _ hS hm => by rw [hm.heap.text_eq (hv.mono hS)]

theorem alike_trace_same (env : Env) (topic : Topic) (message : String) :
    RunsAlike R (trace env topic fun _ => message) (trace env topic fun _ => message) :=
  alike_trace env topic fun _ _ _ _ _ => rfl

theorem alike_setVariable (env : Env) (identity name : String) {v w : Value} (hv : v.Alike R w) :
    RunsAlike R (changeContext env identity fun c => c.set name v)
      (changeContext env identity fun c => c.set name w) :=
  alike_changeContext env identity fun _ _ _ hS hc =>
    ⟨hc.element, hc.bindings.insert (hv.mono hS) _⟩

theorem alike_clearVariable (env : Env) (identity name : String) :
    RunsAlike R (changeContext env identity fun c => c.clear name)
      (changeContext env identity fun c => c.clear name) :=
  alike_changeContext env identity fun _ _ _ _ hc => ⟨hc.element, hc.bindings.erase _⟩

theorem alike_popValue (env : Env) (op : Operation) (onlyLocal : Bool) :
    RunsAlike R (popValue env op onlyLocal) (popValue env op onlyLocal) := by
  refine (alike_firstName op).bind_same fun _ _ name => ?_
  refine (alike_pop op.opcode).bind fun S _ v w hv => ?_
  refine (alike_trace_text env _ _ hv).bind_same fun T hT _ => ?_
  refine (alike_frame op.opcode).bind fun U hU f g hfg => ?_
  have hv' : v.Alike U w := hv.mono (hT.trans hU)
  rw [hfg.locals.contains_eq name]
  split
  · exact alike_setLocals (hfg.locals.insert hv' name)
  · rw [hfg.element]
    exact alike_setVariable env _ name hv'

theorem alike_clearValue (env : Env) (op : Operation) :
    RunsAlike R (clearValue env op) (clearValue env op) := by
  refine (alike_firstName op).bind_same fun _ _ name => ?_
  refine (alike_trace_same env _ _).bind_same fun _ _ _ => ?_
  refine (alike_frame op.opcode).bind fun U _ f g hfg => ?_
  rw [hfg.locals.contains_eq name]
  split
  · exact alike_setLocals (hfg.locals.erase name)
  · rw [hfg.element]
    exact alike_clearVariable env _ name

theorem alike_pushElementValue (env : Env) (op : Operation) :
    RunsAlike R (pushElementValue env op) (pushElementValue env op) := by
  refine (alike_firstElement env op).bind_same fun _ _ e => ?_
  refine (alike_secondName op).bind_same fun _ _ name => ?_
  refine (alike_variableOf env e.identity name).bind fun _ _ v w hv => ?_
  exact (alike_trace_text env _ _ hv).bind_same fun _ hS _ => alike_push (hv.mono hS)

theorem alike_popElementValue (env : Env) (op : Operation) :
    RunsAlike R (popElementValue env op) (popElementValue env op) := by
  refine (alike_firstElement env op).bind_same fun _ _ e => ?_
  refine (alike_secondName op).bind_same fun _ _ name => ?_
  refine (alike_pop op.opcode).bind fun _ _ v w hv => ?_
  exact (alike_trace_text env _ _ hv).bind_same fun _ hS _ =>
    alike_setVariable env e.identity name (hv.mono hS)

theorem alike_clearElementValue (env : Env) (op : Operation) :
    RunsAlike R (clearElementValue env op) (clearElementValue env op) :=
  (alike_firstElement env op).bind_same fun _ _ e =>
    (alike_secondName op).bind_same fun _ _ name =>
      (alike_trace_same env _ _).bind_same fun _ _ _ => alike_clearVariable env e.identity name

theorem alike_pushNewList {xs ys : List Value} (h : List.Forall₂ (Value.Alike R) xs ys) :
    RunsAlike R (newList xs >>= push) (newList ys >>= push) :=
  (alike_newList h).bind fun _ _ _ _ hv => alike_push hv

theorem alike_pushInitList (op : Opcode) :
    RunsAlike R (pushInitList op) (pushInitList op) := by
  refine (alike_pop op).bind fun S _ v w hv => ?_
  rw [Value.index?, Value.index?, hv.toInteger_eq]
  split
  · exact (alike_withHeap fun _ _ _ hT h => h.text_eq (hv.mono hT)).bind_same fun _ _ _ =>
      agree_stop _
  · exact (alike_popMany op _).bind fun _ _ _ _ h => alike_pushNewList h

theorem alike_stackOp (env : Env) {op : Operation}
    (h : op.first.all (fun v => !v.isShared) = true) (o : StackOp) :
    RunsAlike R (stackOp env op o) (stackOp env op o) := by
  cases o with
  | noop => exact agree_pure_same _
  | pop => exact (alike_pop op.opcode).discarded
  | pushValue => exact alike_pushValue env h
  | popValue => exact alike_popValue env op false
  | popLocalValue => exact alike_popValue env op true
  | clearValue => exact alike_clearValue env op
  | pushElementValue => exact alike_pushElementValue env op
  | popElementValue => exact alike_popElementValue env op
  | clearElementValue => exact alike_clearElementValue env op
  | pushThis =>
    refine (alike_frame op.opcode).bind fun _ _ f g hfg => ?_
    rw [hfg.element]
    exact alike_push_scalar (Value.simple_element g.element).single
  | pushNewList => exact alike_pushNewList .nil
  | pushInitList => exact alike_pushInitList op.opcode

theorem alike_operator (op : Operation) : RunsAlike R (operator op) (operator op) := by
  refine (alike_required op.opcode op.first).bind_same fun _ _ v => ?_
  cases v with
  | integer i => exact alike_required _ _
  | _ => exact agree_stop _

theorem alike_arithmetic (op : Operation) : RunsAlike R (arithmetic op) (arithmetic op) := by
  refine (alike_operator op).bind_same fun _ _ o => ?_
  split
  · refine (alike_pop op.opcode).bind fun S _ b b' hb => ?_
    refine (alike_pop op.opcode).bind fun T hT a a' ha => ?_
    refine (alike_withHeap (A := Value.Alike) fun U x y hU h => ?_).bind fun _ _ _ _ hv =>
      alike_push hv
    rw [h.applyBinary_eq o (ha.mono hU) (hb.mono (hT.trans hU))]
    exact .scalar (o.simple_applyBinary y a' b').single
  · refine (alike_pop op.opcode).bind fun S _ a a' ha => ?_
    refine (alike_withHeap (A := Value.Alike) fun U x y hU h => ?_).bind fun _ _ _ _ hv =>
      alike_push hv
    rw [h.applyUnary_eq o (ha.mono hU)]
    exact .scalar (o.simple_applyUnary y a').single

theorem forall₂_insertIdx {α β : Type} {P : α → β → Prop} {a : α} {b : β} (hab : P a b) (i : Nat)
    {xs : List α} {ys : List β} (h : List.Forall₂ P xs ys) :
    List.Forall₂ P (xs.insertIdx i a) (ys.insertIdx i b) := by
  induction i generalizing xs ys with
  | zero => exact .cons hab h
  | succ i ih =>
    cases h with
    | nil => exact .nil
    | cons hxy h => exact .cons hxy (ih h)

theorem forall₂_eraseIdx {α β : Type} {P : α → β → Prop} (i : Nat) {xs : List α} {ys : List β}
    (h : List.Forall₂ P xs ys) : List.Forall₂ P (xs.eraseIdx i) (ys.eraseIdx i) := by
  rw [List.eraseIdx_eq_take_drop_succ, List.eraseIdx_eq_take_drop_succ]
  exact List.rel_append (List.forall₂_take i h) (List.forall₂_drop (i + 1) h)

theorem forall₂_set {α β : Type} {P : α → β → Prop} {a : α} {b : β} (hab : P a b) (i : Nat)
    {xs : List α} {ys : List β} (h : List.Forall₂ P xs ys) :
    List.Forall₂ P (xs.set i a) (ys.set i b) := by
  rw [List.set_eq_take_append_cons_drop, List.set_eq_take_append_cons_drop, h.length_eq]
  split
  · exact List.rel_append (List.forall₂_take i h) (.cons hab (List.forall₂_drop (i + 1) h))
  · exact h

theorem toList_insertIdxIfInBounds {α : Type} (xs : Array α) (i : Nat) (a : α) :
    (xs.insertIdxIfInBounds i a).toList = xs.toList.insertIdx i a := by
  unfold Array.insertIdxIfInBounds
  split
  · exact Array.toList_insertIdx _
  · rw [List.insertIdx_of_length_lt]
    simpa using ‹¬ i ≤ xs.size›

theorem findIdx?_eq_toList {α : Type} (xs : Array α) (f : α → Bool) :
    xs.findIdx? f = xs.toList.findIdx? f := by
  obtain ⟨xs⟩ := xs
  exact List.findIdx?_toArray f xs

theorem findIdx?_eq_of_forall₂ {α β : Type} {P : α → β → Prop} {f : α → Bool} {g : β → Bool}
    (hfg : ∀ a b, P a b → f a = g b) {xs : List α} {ys : List β} (h : List.Forall₂ P xs ys) :
    xs.findIdx? f = ys.findIdx? g := by
  induction h with
  | nil => rfl
  | cons hab _ ih => rw [List.findIdx?_cons, List.findIdx?_cons, hfg _ _ hab, ih]

def PlacesAlike (R : Handle → Handle → Prop) (p q : Option Nat × Handle) : Prop :=
  p.1 = q.1 ∧ R p.2 q.2

theorem alike_popPlace (op : Opcode) :
    Agree Machine.Alike PlacesAlike R (popPlace op) (popPlace op) := by
  refine (alike_pop op).bind fun _ _ v w hv => ?_
  refine (alike_popList op).bind fun _ _ p q hr => agree_pure fun _ hS => ⟨?_, hS _ _ hr⟩
  simp only [Value.index?, hv.toInteger_eq]

theorem alike_popSought (op : Opcode) :
    Agree Machine.Alike PlacesAlike R (popSought op) (popSought op) := by
  refine (alike_pop op).bind fun _ _ v w hv => ?_
  refine (alike_popList op).bind fun _ hS p q hr => ?_
  refine (alike_withHeap fun _ a b hT h => ?_).bind_same fun _ hU _ =>
    agree_pure fun _ hV => ⟨rfl, (hU.trans hV) _ _ hr⟩
  have hv' := hv.mono (hS.trans hT)
  rw [findIdx?_eq_toList (a.cell p), findIdx?_eq_toList (b.cell q)]
  exact findIdx?_eq_of_forall₂ (fun _ _ hi => h.equals_eq hi hv') (h.items (hT _ _ hr))

theorem alike_itemAt {p q : Option Nat × Handle} (h : PlacesAlike R p q) :
    Agree Machine.Alike
      (fun S => Option.Rel fun x y : Nat × Value => x.1 = y.1 ∧ x.2.Alike S y.2) R
      (withHeap fun heap => itemAt? heap p.2 p.1) (withHeap fun heap => itemAt? heap q.2 q.1) := by
  refine alike_withHeap fun S a b hS hab => ?_
  obtain ⟨place, p⟩ := p
  obtain ⟨_, q⟩ := q
  obtain ⟨rfl, hr⟩ := h
  cases place with
  | none => exact .none
  | some i =>
    have hitems := hab.items (hS _ _ hr)
    simp only [itemAt?, ← Array.getElem?_toList]
    by_cases hi : i < (a.items p).length
    · have hi' : i < (b.items q).length := hitems.length_eq ▸ hi
      have hv := (List.forall₂_iff_get.mp hitems).2 i hi hi'
      simp only [Heap.items, List.get_eq_getElem] at hi hi' hv
      rw [List.getElem?_eq_getElem hi, List.getElem?_eq_getElem hi']
      exact .some ⟨rfl, hv⟩
    · have hi' : ¬ i < (b.items q).length := hitems.length_eq ▸ hi
      simp only [Heap.items, Nat.not_lt] at hi hi'
      rw [List.getElem?_eq_none hi, List.getElem?_eq_none hi']
      exact .none

theorem alike_eraseAt {p q : Handle} (hr : R p q) (i : Nat) :
    RunsAlike R (changeList p fun cell => cell.eraseIdxIfInBounds i)
      (changeList q fun cell => cell.eraseIdxIfInBounds i) := by
  refine alike_changeList hr fun S xs ys _ h => ?_
  rw [Array.toList_eraseIdxIfInBounds, Array.toList_eraseIdxIfInBounds]
  exact forall₂_eraseIdx i h

theorem alike_listAdd (op : Opcode) : RunsAlike R (listOp op .add) (listOp op .add) := by
  refine (alike_pop op).bind fun _ _ v w hv => ?_
  refine (alike_popList op).bind fun S hS p q hr => ?_
  refine (alike_changeList hr fun T xs ys hT h => ?_).bind_same fun _ _ _ => alike_push_scalar rfl
  rw [Array.toList_push, Array.toList_push]
  exact List.rel_append h (.cons (hv.mono (hS.trans hT)) .nil)

theorem alike_listAddAt (op : Opcode) : RunsAlike R (listOp op .addAt) (listOp op .addAt) := by
  refine (alike_pop op).bind fun _ _ place place' hplace => ?_
  refine (alike_pop op).bind fun _ _ v w hv => ?_
  refine (alike_popList op).bind fun S hS p q hr => ?_
  rw [Value.index?, Value.index?, hplace.toInteger_eq]
  split
  · refine (alike_withHeap fun _ a b hT h => ?_).bind_same fun T hT size => ?_
    · rw [← Array.length_toList, ← Array.length_toList]
      exact h.length_eq (hT _ _ hr)
    · split
      · refine (alike_changeList (hT _ _ hr) fun U xs ys hU h => ?_).bind_same fun _ _ _ =>
          alike_push_scalar rfl
        rw [toList_insertIdxIfInBounds, toList_insertIdxIfInBounds]
        exact forall₂_insertIdx (hv.mono (hS.trans (hT.trans hU))) _ h
      · exact alike_push_scalar rfl
  · exact alike_push_scalar rfl

theorem alike_listGet (op : Opcode) : RunsAlike R (listOp op .get) (listOp op .get) := by
  refine (alike_popPlace op).bind fun _ _ p q hpq => ?_
  refine (alike_itemAt hpq).bind fun _ _ x y hxy => ?_
  cases hxy with
  | none => exact alike_push_scalar rfl
  | some h => exact alike_push h.2

theorem alike_listRemoveAt (op : Opcode) :
    RunsAlike R (listOp op .removeAt) (listOp op .removeAt) := by
  refine (alike_popPlace op).bind fun _ _ p q hpq => ?_
  refine (alike_itemAt hpq).bind fun _ hS x y hxy => ?_
  cases hxy with
  | none => exact alike_push_scalar rfl
  | @some x y h =>
    obtain ⟨i, v⟩ := x
    obtain ⟨_, w⟩ := y
    obtain ⟨rfl, hv⟩ := h
    exact (alike_eraseAt (hS _ _ hpq.2) _).bind_same fun _ hT _ => alike_push (hv.mono hT)

theorem alike_listSet (op : Opcode) : RunsAlike R (listOp op .set) (listOp op .set) := by
  refine (alike_pop op).bind fun _ _ v w hv => ?_
  refine (alike_popPlace op).bind fun _ hS p q hpq => ?_
  refine (alike_itemAt hpq).bind fun _ hT x y hxy => ?_
  cases hxy with
  | none => exact alike_push_scalar rfl
  | @some x y h =>
    obtain ⟨i, _⟩ := x
    obtain ⟨_, _⟩ := y
    obtain ⟨rfl, _⟩ := h
    refine (alike_changeList (hT _ _ hpq.2) fun U xs ys hU h => ?_).bind_same fun _ _ _ =>
      alike_push_scalar rfl
    rw [Array.toList_setIfInBounds, Array.toList_setIfInBounds]
    exact forall₂_set (hv.mono (hS.trans (hT.trans hU))) _ h

theorem alike_listOp (op : Opcode) (o : ListOp) : RunsAlike R (listOp op o) (listOp op o) := by
  cases o with
  | add => exact alike_listAdd op
  | addAt => exact alike_listAddAt op
  | get => exact alike_listGet op
  | removeAt => exact alike_listRemoveAt op
  | set => exact alike_listSet op
  | remove =>
    refine (alike_popSought op).bind fun _ _ p q hpq => ?_
    obtain ⟨found, p⟩ := p
    obtain ⟨_, q⟩ := q
    obtain ⟨rfl, hr⟩ := hpq
    cases found with
    | none => exact alike_push_scalar rfl
    | some i => exact (alike_eraseAt hr i).bind_same fun _ _ _ => alike_push_scalar rfl
  | indexOf =>
    refine (alike_popSought op).bind fun _ _ p q hpq => ?_
    obtain ⟨found, p⟩ := p
    obtain ⟨_, q⟩ := q
    obtain ⟨rfl, _⟩ := hpq
    cases found with
    | none => exact alike_push_scalar rfl
    | some i => exact alike_push_scalar rfl
  | contains =>
    refine (alike_popSought op).bind fun _ _ p q hpq => ?_
    obtain ⟨found, p⟩ := p
    obtain ⟨_, q⟩ := q
    obtain ⟨rfl, _⟩ := hpq
    exact alike_push_scalar rfl

theorem alike_identityOf (env : Env) (op : Opcode) {v w : Value} (hv : v.Alike R w) :
    RunsAlike R (identityOf env op v) (identityOf env op w) := by
  have hresolved : RunsAlike R (ask fun st => st.resolveValue env.story v)
      (ask fun st => st.resolveValue env.story w) :=
    alike_ask fun _ _ _ hS hst => hst.resolveValue_eq env.story (hv.mono hS)
  cases hv with
  | list =>
    refine hresolved.bind_same fun _ _ found => ?_
    cases found with
    | none => exact agree_stop _
    | some e => exact agree_pure_same _
  | scalar hs =>
    cases v with
    | action identity => exact agree_pure_same identity
    | list => cases hs
    | _ =>
      refine hresolved.bind_same fun _ _ found => ?_
      cases found with
      | none => exact agree_stop _
      | some e => exact agree_pure_same _

theorem alike_pushText (op : Opcode) (f : String → String) :
    RunsAlike R (popText op >>= fun s => push (.string (f s)))
      (popText op >>= fun s => push (.string (f s))) :=
  (alike_popText op).bind_same fun _ _ _ => alike_push_scalar rfl

theorem alike_convertOp (env : Env) (op : Opcode) (o : ConvertOp) :
    RunsAlike R (convertOp env op o) (convertOp env op o) := by
  cases o with
  | length =>
    exact (alike_pop op).bind fun _ _ v w hv =>
      (alike_withHeap fun _ _ _ hS h => h.valueLength_eq (hv.mono hS)).bind_same fun _ _ _ =>
        alike_push_scalar rfl
  | upper => exact alike_pushText op Text.uppercase
  | lower => exact alike_pushText op Text.lowercase
  | trim => exact alike_pushText op Text.trim
  | substring =>
    refine (alike_pop op).bind fun _ _ finish finish' hfinish => ?_
    refine (alike_pop op).bind fun _ _ start start' hstart => ?_
    rw [hfinish.toInteger_eq, hstart.toInteger_eq]
    exact alike_pushText op fun s => substring s start'.toInteger.toInt finish'.toInteger.toInt
  | asBoolean =>
    exact (alike_pop op).bind fun _ _ v w hv =>
      (alike_withHeap fun _ _ _ hS h => h.truth_eq (hv.mono hS)).bind_same fun _ _ _ =>
        alike_push_scalar rfl
  | asInteger =>
    refine (alike_pop op).bind fun _ _ v w hv => ?_
    rw [hv.toInteger_eq]
    exact alike_push_scalar rfl
  | asFloat =>
    refine (alike_pop op).bind fun _ _ v w hv => ?_
    rw [hv.toFloat_eq]
    exact alike_push_scalar rfl
  | asString => exact alike_pushText op id
  | identity =>
    exact (alike_pop op).bind fun _ _ v w hv =>
      (alike_identityOf env op hv).bind_same fun _ _ _ => alike_push_scalar rfl

theorem alike_randomOp (op : Opcode) (o : RandomOp) :
    RunsAlike R (randomOp op o) (randomOp op o) := by
  cases o with
  | integer =>
    refine (alike_pop op).bind fun _ _ v w hv => ?_
    rw [hv.toInteger_eq]
    exact (alike_draw _).bind_same fun _ _ _ => alike_push_scalar rfl
  | float =>
    refine (alike_pop op).bind fun _ _ v w hv => ?_
    rw [hv.toFloat_eq]
    exact (alike_draw _).bind_same fun _ _ _ => alike_push_scalar rfl
  | normal =>
    refine (alike_pop op).bind fun _ _ v w hv => ?_
    refine (alike_pop op).bind fun _ _ v' w' hv' => ?_
    rw [hv.toFloat_eq, hv'.toFloat_eq]
    exact (alike_draw _).bind_same fun _ _ _ =>
      (alike_draw _).bind_same fun _ _ _ => alike_push_scalar rfl

theorem alike_say (op : Opcode) (kind : CueKind) (lineEnd : String) :
    RunsAlike R (say op kind lineEnd) (say op kind lineEnd) :=
  (alike_popText op).bind_same fun _ _ _ => alike_emit _

theorem alike_cueOp (op : Opcode) (o : CueOp) : RunsAlike R (cueOp op o) (cueOp op o) := by
  cases o with
  | pause => exact alike_emit _
  | wait =>
    refine (alike_pop op).bind fun _ _ v w hv => ?_
    rw [hv.toInteger_eq]
    exact alike_emit _
  | _ => exact alike_say op _ _

theorem alike_queueOp (env : Env) (op : Opcode) (o : QueueOp) :
    RunsAlike R (queueOp env op o) (queueOp env op o) := by
  have hobject : ∀ S : Handle → Handle → Prop, RunsAlike S (popObject env op) (popObject env op) :=
    fun _ => alike_popElementOf env op _ _
  cases o with
  | action => exact (alike_popAction env op).bind_same fun _ _ _ => alike_queue env _
  | withText =>
    exact (alike_popText op).bind_same fun _ _ _ =>
      (alike_popAction env op).bind_same fun _ _ _ => alike_queue env _
  | withObject =>
    exact (hobject R).bind_same fun _ _ _ =>
      (alike_popAction env op).bind_same fun _ _ _ => alike_queue env _
  | withObjects =>
    exact (hobject R).bind_same fun S _ _ => (hobject S).bind_same fun _ _ _ =>
      (alike_popAction env op).bind_same fun _ _ _ => alike_queue env _

theorem alike_popWord (env : Env) (op : Opcode) :
    RunsAlike R (popWord env op) (popWord env op) :=
  (alike_popText op).bind_same fun _ _ _ =>
    (alike_popElementOf env op _ _).bind_same fun _ _ _ => agree_pure_same _

theorem alike_changeWord (env : Env) (op : Opcode) (f : Ownership → String → String → Ownership) :
    RunsAlike R (changeWord env op f) (changeWord env op f) :=
  (alike_popWord env op).bind_same fun _ _ _ => alike_changeOwnership _

theorem alike_askWord (env : Env) (op : Opcode) (f : Ownership → String → String → Bool) :
    RunsAlike R (askWord env op f) (askWord env op f) :=
  (alike_popWord env op).bind_same fun _ _ _ =>
    alike_ownership.bind_same fun _ _ _ => alike_push_scalar rfl

theorem alike_holdingOp (env : Env) (op : Opcode) {browse : Exec Unit}
    (h : RunsAlike R browse browse) (o : HoldingOp) :
    RunsAlike R (holdingOp env op browse o) (holdingOp env op browse o) := by
  have hobject : ∀ S : Handle → Handle → Prop, RunsAlike S (popObject env op) (popObject env op) :=
    fun _ => alike_popElementOf env op _ _
  have hholder : ∀ S : Handle → Handle → Prop, RunsAlike S (popHolder env op) (popHolder env op) :=
    fun _ => alike_popElementOf env op _ _
  cases o with
  | give =>
    exact (hobject R).bind_same fun S _ _ => (hholder S).bind_same fun _ _ _ =>
      alike_changeOwnership _
  | remove => exact (hobject R).bind_same fun _ _ _ => alike_changeOwnership _
  | moveAll =>
    exact (hholder R).bind_same fun S _ _ => (hholder S).bind_same fun _ _ _ =>
      alike_changeOwnership _
  | has =>
    exact (hobject R).bind_same fun S _ _ => (hholder S).bind_same fun _ _ _ =>
      alike_ownership.bind_same fun _ _ _ => alike_push_scalar rfl
  | hasNoOwner =>
    exact (hobject R).bind_same fun _ _ _ =>
      alike_ownership.bind_same fun _ _ _ => alike_push_scalar rfl
  | count =>
    exact (hholder R).bind_same fun _ _ _ =>
      alike_ownership.bind_same fun _ _ _ => alike_push_scalar rfl
  | addName | removeName | addTag | removeTag => exact alike_changeWord env op _
  | hasName | hasTag => exact alike_askWord env op _
  | browse => exact h

end Fabula.Exec
