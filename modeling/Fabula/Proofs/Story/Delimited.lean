import Fabula.Proofs.Bytes.Delimited
import Fabula.Proofs.Story.Bodies

/-! The parts of a story are delimited: where the bytes of a constant, a block, a function or an
action end is told by those bytes, so that no two of them begin alike. The parts need not be such as
a reader would accept. -/

namespace Fabula

namespace ValueKind

theorem tag_injective {k l : ValueKind} (h : k.tag = l.tag) : k = l := by
  have hk := ofTag?_tag k
  rw [h, ofTag?_tag l] at hk
  exact (Option.some.inj hk).symm

theorem ofElement_injective {k l : ElementKind} (h : ofElement k = ofElement l) : k = l := by
  cases k <;> cases l <;> first | rfl | cases h

end ValueKind

theorem Slot.mem_all (slot : Slot) : slot ∈ Slot.all := by
  cases slot <;> simp [Slot.all]

namespace Bytes

theorem delimited_constant {v : Value} (hv : v.isShared = false) :
    Delimited constant (fun w => w.isShared = false) v := by
  intro w rest rest' hw h
  obtain ⟨htag, h⟩ := List.cons.inj h
  have hkind := ValueKind.tag_injective htag
  cases v with
  | list => cases hv
  | boolean b =>
    cases w with
    | boolean c => exact (delimited_flag b .intro h).imp (congrArg Value.boolean) id
    | element k => cases k <;> cases hkind
    | _ => cases hkind
  | integer i =>
    cases w with
    | integer j => exact (delimited_integer i .intro h).imp (congrArg Value.integer) id
    | element k => cases k <;> cases hkind
    | _ => cases hkind
  | float x =>
    cases w with
    | float y => exact (delimited_float x .intro h).imp (congrArg Value.float) id
    | element k => cases k <;> cases hkind
    | _ => cases hkind
  | string s =>
    cases w with
    | string t => exact (delimited_text s .intro h).imp (congrArg Value.string) id
    | element k => cases k <;> cases hkind
    | _ => cases hkind
  | element k s =>
    cases w with
    | element l t =>
      obtain rfl := ValueKind.ofElement_injective hkind
      exact (delimited_text s .intro h).imp (congrArg (Value.element k)) id
    | _ => cases k <;> cases hkind
  | action s =>
    cases w with
    | action t => exact (delimited_text s .intro h).imp (congrArg Value.action) id
    | element k => cases k <;> cases hkind
    | _ => cases hkind
  | varName s =>
    cases w with
    | varName t => exact (delimited_text s .intro h).imp (congrArg Value.varName) id
    | element k => cases k <;> cases hkind
    | _ => cases hkind

theorem delimited_entry {e : Entry} (he : e.listFree = true) :
    Delimited entry (fun f => f.listFree = true) e := by
  intro f rest rest' hf h
  simp only [Entry.listFree, List.all_eq_true, Bool.not_eq_true'] at he hf
  obtain ⟨htag, h⟩ := List.cons.inj h
  obtain ⟨hvalues, hrest⟩ := delimited_counted (fun v hv => delimited_constant (he v hv)) hf h
  refine ⟨?_, hrest⟩
  obtain ⟨trigger, values⟩ := e
  rw [Entry.mk.injEq]
  exact ⟨Trigger.tag_injective htag, hvalues⟩

/-- An operand that may be missing, where it is known that both are there or both are missing. -/
theorem operand_delimited {v w : Option Value} (hv : v.all (fun v => !v.isShared) = true)
    (hw : w.all (fun v => !v.isShared) = true) (hsome : v.isSome = w.isSome) {rest rest' : Bytes}
    (h : operand v ++ rest = operand w ++ rest') : v = w ∧ rest = rest' := by
  cases v with
  | none =>
    obtain rfl := Option.isNone_iff_eq_none.mp (by simpa using hsome.symm)
    exact ⟨rfl, h⟩
  | some v =>
    obtain ⟨w, rfl⟩ := Option.isSome_iff_exists.mp hsome.symm
    exact (delimited_constant (by simpa using hv) (by simpa using hw) h).imp (congrArg some) id

theorem slots_delimited {op op' : Operation} (hsome : op.mask = op'.mask)
    (hblock : ∀ slot b, op.block? slot = some b →
      Delimited block (fun c => operationsListFree c = true) b)
    (hfree : op'.listFree = true) (slots : List Slot) : ∀ {rest rest' : Bytes},
    (slots.flatMap fun slot => innerBlock (op.block? slot)) ++ rest =
      (slots.flatMap fun slot => innerBlock (op'.block? slot)) ++ rest' →
    (∀ slot ∈ slots, op.block? slot = op'.block? slot) ∧ rest = rest' := by
  induction slots with
  | nil => exact fun h => ⟨by simp, h⟩
  | cons slot slots ih =>
    intro rest rest' h
    simp only [List.flatMap_cons, List.append_assoc] at h
    have hboth : (op.block? slot).isSome = (op'.block? slot).isSome := by
      rw [← op.inMask_mask, ← op'.inMask_mask, hsome]
    have hfirst : op.block? slot = op'.block? slot ∧
        (slots.flatMap fun slot => innerBlock (op.block? slot)) ++ rest =
          (slots.flatMap fun slot => innerBlock (op'.block? slot)) ++ rest' := by
      cases hb : op.block? slot with
      | none =>
        rw [hb] at hboth h
        have hnone : op'.block? slot = none := by simpa using hboth.symm
        rw [hnone] at h ⊢
        exact ⟨rfl, h⟩
      | some b =>
        rw [hb] at hboth h
        obtain ⟨c, hc⟩ := Option.isSome_iff_exists.mp hboth.symm
        rw [hc, innerBlock_some, innerBlock_some] at h
        rw [hc]
        exact (hblock slot b hb (Operation.block_of_listFree hfree slot hc) h).imp
          (congrArg some) id
    obtain ⟨hslots, hrest⟩ := ih hfirst.2
    refine ⟨fun other ho => ?_, hrest⟩
    rcases List.mem_cons.mp ho with rfl | ho
    · exact hfirst.1
    · exact hslots other ho

/-- An operation is delimited if its blocks are: its flags tell which parts it has. -/
theorem delimited_operation {op : Operation} (hop : op.listFree = true)
    (hblock : ∀ slot b, op.block? slot = some b →
      Delimited block (fun c => operationsListFree c = true) b) :
    Delimited operation (fun op' => op'.listFree = true) op := by
  intro op' rest rest' hop' h
  simp only [operation_eq, List.cons_append, List.nil_append, List.append_assoc,
    List.cons.injEq] at h
  obtain ⟨hopcode, hflags, hmask, h⟩ := h
  have hfirst : op.first.isSome = op'.first.isSome := by
    rw [← op.first_flag, ← op'.first_flag, hflags]
  have hsecond : op.second.isSome = op'.second.isSome := by
    rw [← op.second_flag, ← op'.second_flag, hflags]
  obtain ⟨hfirst, h⟩ := operand_delimited (Operation.first_of_listFree hop)
    (Operation.first_of_listFree hop') hfirst h
  obtain ⟨hsecond, h⟩ := operand_delimited (Operation.second_of_listFree hop)
    (Operation.second_of_listFree hop') hsecond h
  obtain ⟨hslots, hrest⟩ := slots_delimited hmask hblock hop' Slot.all h
  refine ⟨?_, hrest⟩
  have hopcode := Opcode.byte_injective hopcode
  have hslots := fun slot => hslots slot (Slot.mem_all slot)
  obtain ⟨opcode, first, second, init, condition, step, success, failure⟩ := op
  obtain ⟨opcode', first', second', init', condition', step', success', failure'⟩ := op'
  simp only [Operation.mk.injEq]
  exact ⟨hopcode, hfirst, hsecond, hslots .init, hslots .condition, hslots .step, hslots .success,
    hslots .failure⟩

theorem delimited_block {b : Block} (hb : operationsListFree b = true) :
    Delimited block (fun c => operationsListFree c = true) b := by
  -- the levels of blocks inside one another are the measure, for there is none on both blocks
  have hlevels : ∀ (levels : Nat) (b : Block), operationsNesting b < levels →
      operationsListFree b = true → Delimited block (fun c => operationsListFree c = true) b := by
    intro levels
    induction levels with
    | zero => exact fun _ h => absurd h (Nat.not_lt_zero _)
    | succ levels ih =>
      intro b hlevel hb c rest rest' hc h
      rw [block_eq_counted, block_eq_counted] at h
      refine delimited_counted (fun op hop => ?_) (operationsListFree_iff.mp hc) h
      have hfree := operationsListFree_iff.mp hb op hop
      refine delimited_operation hfree fun slot inner hinner => ?_
      have hdeep := op.nesting_lt_of_block? hinner
      have hop' := op.nesting_le_of_mem hop
      exact ih inner (by omega) (Operation.block_of_listFree hfree slot hinner)
  exact hlevels _ b (Nat.lt_succ_self _) hb

theorem delimited_function {f : Function} (hf : operationsListFree f.block = true) :
    Delimited function (fun g => operationsListFree g.block = true) f := by
  intro g rest rest' hg h
  simp only [function, List.append_assoc] at h
  obtain ⟨hname, h⟩ := delimited_text f.name .intro h
  obtain ⟨harguments, h⟩ := delimited_texts f.arguments .intro h
  obtain ⟨hblock, hrest⟩ := delimited_block hf hg h
  refine ⟨?_, hrest⟩
  obtain ⟨name, arguments, block⟩ := f
  rw [Function.mk.injEq]
  exact ⟨hname, harguments, hblock⟩

theorem permissionMode_injective {m n : PermissionMode}
    (h : permissionMode m = permissionMode n) : m = n := by
  cases m <;> cases n <;> first | rfl | cases h

theorem delimited_permissions (t : Option PermissionTable) : Delimited permissions Anything t := by
  intro u rest rest' _ h
  cases t with
  | none =>
    cases u with
    | none => exact ⟨rfl, (List.cons.inj h).2⟩
    | some u => cases (List.cons.inj h).1
  | some t =>
    cases u with
    | none => cases (List.cons.inj h).1
    | some u =>
      obtain ⟨hmode, h⟩ := List.cons.inj (List.cons.inj h).2
      obtain ⟨hactions, hrest⟩ := delimited_words t.actions .intro h
      refine ⟨congrArg some ?_, hrest⟩
      obtain ⟨mode, actions⟩ := t
      rw [PermissionTable.mk.injEq]
      exact ⟨permissionMode_injective hmode, hactions⟩

theorem delimited_action (a : Action) : Delimited action Anything a := by
  intro b rest rest' _ h
  simp only [action, List.append_assoc] at h
  obtain ⟨hidentity, h⟩ := delimited_text a.identity .intro h
  obtain ⟨hkind, h⟩ := List.cons.inj h
  obtain ⟨hstrict, h⟩ := delimited_flag a.strict .intro h
  obtain ⟨hreversed, h⟩ := delimited_flag a.reversed .intro h
  obtain ⟨hnames, h⟩ := delimited_words a.names .intro h
  obtain ⟨hextra, hrest⟩ := delimited_texts a.extra .intro h
  have hkind : a.kind = b.kind := by
    have ha := ActionKind.ofTag?_tag a.kind
    rw [hkind, ActionKind.ofTag?_tag b.kind] at ha
    exact (Option.some.inj ha).symm
  refine ⟨?_, hrest⟩
  obtain ⟨identity, kind, strict, reversed, names, extra⟩ := a
  rw [Action.mk.injEq]
  exact ⟨hidentity, hkind, hstrict, hreversed, hnames, hextra⟩

end Bytes

end Fabula
