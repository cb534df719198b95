import Fabula.Proofs.Story.Made

/-! The constants of a story: the operands of its operations and the values in the entries of its
blocks. Files hold only canonical constants and no lists. A story that remembers its digest has no
list constants either, wherever it comes from, so that no other story is ever played. -/

namespace Fabula

def Block.Constants (P : Value → Prop) (block : Block) : Prop :=
  ∀ v ∈ operationsConstants block, P v

mutual

theorem Operation.listFree_iff : ∀ op : Operation,
    op.listFree = true ↔ ∀ v ∈ op.constants, v.isShared = false
  | ⟨_, first, second, init, condition, step, success, failure⟩ => by
    simp only [Operation.listFree, Operation.constants, Bool.and_eq_true, List.forall_mem_append,
      innerListFree_iff init, innerListFree_iff condition, innerListFree_iff step,
      innerListFree_iff success, innerListFree_iff failure]
    cases first <;> cases second <;> simp

theorem Block.listFree_iff : ∀ block : List Operation,
    operationsListFree block = true ↔ ∀ v ∈ operationsConstants block, v.isShared = false
  | [] => by simp [operationsListFree, operationsConstants]
  | op :: rest => by
    simp only [operationsListFree, operationsConstants, Bool.and_eq_true, List.forall_mem_append,
      Operation.listFree_iff op, Block.listFree_iff rest]

theorem innerListFree_iff : ∀ inner : Option (List Operation),
    innerListFree inner = true ↔ ∀ v ∈ innerConstants inner, v.isShared = false
  | none => by simp [innerListFree, innerConstants]
  | some block => by
    simp only [innerListFree, innerConstants, Block.listFree_iff block]

end

theorem Operation.constants_withBlock {op : Operation} {slot : Slot} {block : Block}
    {P : Value → Prop} (hop : ∀ v ∈ op.constants, P v) (hblock : block.Constants P) :
    ∀ v ∈ (op.withBlock slot block).constants, P v := by
  obtain ⟨_, first, second, init, condition, step, success, failure⟩ := op
  unfold Block.Constants at hblock
  simp only [Operation.constants, List.forall_mem_append] at hop
  cases slot <;>
    simp only [Operation.withBlock, Operation.constants, innerConstants, List.forall_mem_append] <;>
    tauto

namespace Element

structure Constants (P : Value → Prop) (e : Element) : Prop where
  blocks : ∀ item ∈ e.blocks, (∀ v ∈ item.1.values, P v) ∧ item.2.Constants P
  functions : Holds (fun f => f.block.Constants P) e.functions

def Edit.Brings (P : Value → Prop) : Edit → Prop
  | block _ entry ops => (∀ v ∈ entry.values, P v) ∧ ops.Constants P
  | function f => f.block.Constants P
  | archetype _ | permissions _ | name _ | tag _ => True

variable {P : Value → Prop} {e e' : Element}

theorem constants_putBlock {heap : Heap} {entry : Entry} {block : Block}
    {blocks : List (Entry × Block)} (hentry : ∀ v ∈ entry.values, P v) (hblock : block.Constants P)
    (h : ∀ item ∈ blocks, (∀ v ∈ item.1.values, P v) ∧ item.2.Constants P) :
    ∀ item ∈ putBlock heap entry block blocks,
      (∀ v ∈ item.1.values, P v) ∧ item.2.Constants P := by
  induction blocks with
  | nil =>
    intro item hi
    obtain rfl := List.mem_singleton.mp hi
    exact ⟨hentry, hblock⟩
  | cons first rest ih =>
    obtain ⟨hfirst, hrest⟩ := List.forall_mem_cons.mp h
    unfold putBlock
    split
    · exact List.forall_mem_cons.mpr ⟨⟨hfirst.1, hblock⟩, hrest⟩
    · exact List.forall_mem_cons.mpr ⟨hfirst, ih hrest⟩

theorem Constants.apply (h : e.Constants P) (edit : Edit) (hedit : edit.Brings P)
    (made : edit.apply e = .ok e') : e'.Constants P := by
  cases edit with
  | block heap entry ops =>
    obtain rfl := Except.ok.inj made
    exact ⟨constants_putBlock hedit.1 hedit.2 h.blocks, h.functions⟩
  | function f =>
    obtain rfl := Except.ok.inj made
    exact ⟨h.blocks, h.functions.insert f.name hedit⟩
  | archetype marked =>
    simp only [Edit.apply, setArchetype] at made
    split at made
    · cases made
    · split at made
      · cases made
      · obtain rfl := Except.ok.inj made
        exact ⟨h.blocks, h.functions⟩
  | permissions | name | tag =>
    simp only [Edit.apply, setPermissions, addName, addTag] at made
    split at made
    · obtain rfl := Except.ok.inj made
      exact ⟨h.blocks, h.functions⟩
    · cases made

theorem constants_world : Element.world.Constants P :=
  ⟨fun _ hi => absurd hi List.not_mem_nil, holds_empty _⟩

theorem constants_create {kind : ElementKind} {identity : String}
    (made : Element.create kind identity = .ok e) : e.Constants P := by
  unfold Element.create at made
  split at made
  · cases made
  · split at made
    · cases made
    · obtain rfl := Except.ok.inj made
      exact ⟨fun _ hi => absurd hi List.not_mem_nil, holds_empty _⟩

theorem constants_iff : e.Constants P ↔
    (∀ item ∈ e.blocks, (∀ v ∈ item.1.values, P v) ∧ ∀ v ∈ operationsConstants item.2, P v) ∧
      ∀ f ∈ e.functions.values, ∀ v ∈ operationsConstants f.block, P v := by
  refine ⟨fun h => ⟨h.blocks, fun f hf => ?_⟩, fun h => ⟨h.1, fun name f hf => ?_⟩⟩
  · obtain ⟨name, hf⟩ := mem_values.mp hf
    exact h.functions name f hf
  · exact h.2 f (mem_values.mpr ⟨name, hf⟩)

instance [DecidablePred P] : Decidable (e.Constants P) := decidable_of_iff _ constants_iff.symm

theorem listFree_iff : e.listFree = true ↔ e.Constants fun v => v.isShared = false := by
  simp only [constants_iff, listFree, Bool.and_eq_true, List.all_eq_true, Entry.listFree,
    Block.listFree_iff, Bool.not_eq_true']

end Element

namespace Story

theorem eq_of_addAction {s t : Story} {a : Action} (made : s.addAction a = .ok t) :
    t = { s with actions := s.actions.insert a.identity a, knownDigest := none } := by
  unfold Story.addAction at made
  split at made
  · cases made
  · exact (Except.ok.inj made).symm

theorem eq_of_addElement {s t : Story} {e : Element} (made : s.addElement e = .ok t) :
    t = s.putElement e := by
  unfold Story.addElement at made
  split at made
  · cases made
  · split at made
    · cases made
    · split at made
      · cases made
      · exact (Except.ok.inj made).symm

/-- A parent that is set already is left, and otherwise it is put on the child. -/
theorem eq_of_linkParent {s t : Story} {child parent : String}
    (made : s.linkParent child parent = .ok t) :
    t = s ∨ ∃ c, s.element? (Text.fold child) = some c ∧ t = { s with
      elements := s.elements.insert (Text.fold child) { c with parent := some (Text.fold parent) }
      knownDigest := none } := by
  unfold Story.linkParent at made
  simp only at made
  split at made
  · cases made
  · cases made
  · rename_i c p hc hp
    split at made
    · cases made
    · split at made
      · cases made
      · split at made
        · split at made
          · exact .inl (Except.ok.inj made).symm
          · cases made
        · split at made
          · cases made
          · exact .inr ⟨c, hc, (Except.ok.inj made).symm⟩

structure Constants (P : Value → Prop) (s : Story) : Prop where
  world : s.world.Constants P
  elements : Holds (Element.Constants P) s.elements

variable {P : Value → Prop} {s t : Story}

theorem constants_iff :
    s.Constants P ↔ s.world.Constants P ∧ ∀ e ∈ s.elements.values, e.Constants P := by
  refine ⟨fun h => ⟨h.world, fun e he => ?_⟩, fun h => ⟨h.1, fun key e he => ?_⟩⟩
  · obtain ⟨key, he⟩ := mem_values.mp he
    exact h.elements key e he
  · exact h.2 e (mem_values.mpr ⟨key, he⟩)

instance [DecidablePred P] : Decidable (s.Constants P) := decidable_of_iff _ constants_iff.symm

theorem listFree_iff : s.listFree = true ↔ s.Constants fun v => v.isShared = false := by
  simp only [constants_iff, listFree, Bool.and_eq_true, List.all_eq_true, Element.listFree_iff]

namespace Constants

theorem mono {Q : Value → Prop} (h : s.Constants P) (hPQ : ∀ v, P v → Q v) : s.Constants Q := by
  have helement : ∀ e : Element, e.Constants P → e.Constants Q := fun e he =>
    ⟨fun item hi => ⟨fun v hv => hPQ v ((he.blocks item hi).1 v hv),
        fun v hv => hPQ v ((he.blocks item hi).2 v hv)⟩,
      fun name f hf v hv => hPQ v (he.functions name f hf v hv)⟩
  exact ⟨helement _ h.world, fun key e he => helement e (h.elements key e he)⟩

theorem element? (h : s.Constants P) {identity : String} {e : Element}
    (he : s.element? identity = some e) : e.Constants P := by
  unfold Story.element? at he
  split at he
  · obtain rfl := Option.some.inj he
    exact h.world
  · exact h.elements _ e he

theorem lineage (h : s.Constants P) (identity : String) :
    ∀ e ∈ s.lineage identity, e.Constants P :=
  forall_mem_lineage h.world (fun he => h.elements _ _ he) identity

theorem resolveBlock? (h : s.Constants P) {heap : Heap} {identity : String} {entry : Entry}
    {block : Block} (hb : s.resolveBlock? heap identity entry = some block) :
    block.Constants P := by
  obtain ⟨e, he, hblock⟩ := List.exists_of_findSome?_eq_some hb
  obtain ⟨item, hfound, rfl⟩ := Option.map_eq_some_iff.mp hblock
  exact ((h.lineage identity e he).blocks item (List.mem_of_find?_eq_some hfound)).2

theorem resolveFunction? (h : s.Constants P) {identity name : String} {f : Function}
    (hf : s.resolveFunction? identity name = some f) : f.block.Constants P := by
  obtain ⟨e, he, hfunction⟩ := List.exists_of_findSome?_eq_some hf
  exact (h.lineage identity e he).functions _ f hfunction

theorem addAction (h : s.Constants P) {a : Action} (made : s.addAction a = .ok t) :
    t.Constants P := by
  rw [eq_of_addAction made]
  exact ⟨h.world, h.elements⟩

theorem addElement (h : s.Constants P) {e : Element} (he : e.Constants P)
    (made : s.addElement e = .ok t) : t.Constants P := by
  rw [eq_of_addElement made]
  exact ⟨h.world, h.elements.insert _ he⟩

theorem linkParent (h : s.Constants P) {child parent : String}
    (made : s.linkParent child parent = .ok t) : t.Constants P := by
  rcases eq_of_linkParent made with rfl | ⟨c, hc, rfl⟩
  · exact h
  · have hchild := h.element? hc
    exact ⟨h.world, h.elements.insert _ ⟨hchild.blocks, hchild.functions⟩⟩

end Constants

end Story

namespace Reader

theorem yields_entryLiteral : Yields entry fun e => ∀ v ∈ e.values, v.Literal :=
  yields_after fun _ => yields_constant.items.bind fun _ h => yields_pure h

theorem yields_operand (there : Bool) :
    Yields (operand there) fun v => ∀ w ∈ v.toList, w.Literal := by
  cases there with
  | false => exact yields_pure fun w hw => absurd hw List.not_mem_nil
  | true =>
    refine yields_constant.bind fun v hv => yields_pure fun w hw => ?_
    obtain rfl := List.mem_singleton.mp hw
    exact hv

theorem yields_operation {block : Reader Block}
    (hblock : Yields block (Block.Constants Value.Literal)) :
    Yields (operation block) fun op => ∀ v ∈ op.constants, v.Literal := by
  refine yields_after fun opcode => yields_after fun _ => yields_after fun mask => ?_
  refine (yields_operand _).bind fun first hfirst => ?_
  refine (yields_operand _).bind fun second hsecond => ?_
  refine Yields.foldlM ?_ fun op slot hop => ?_
  · simp only [Operation.constants, innerConstants, List.append_nil]
    exact List.forall_mem_append.mpr ⟨hfirst, hsecond⟩
  · split
    · exact hblock.bind fun b hb => yields_pure (Operation.constants_withBlock hop hb)
    · exact yields_pure hop

theorem constants_of_operations {P : Value → Prop} {block : Block}
    (h : ∀ op ∈ block, ∀ v ∈ op.constants, P v) : block.Constants P := by
  induction block with
  | nil => exact fun v hv => absurd hv List.not_mem_nil
  | cons op block ih =>
    obtain ⟨hop, hblock⟩ := List.forall_mem_cons.mp h
    unfold Block.Constants
    rw [operationsConstants, List.forall_mem_append]
    exact ⟨hop, ih hblock⟩

theorem yields_nestedBlock (levels : Nat) :
    Yields (nestedBlock levels) (Block.Constants Value.Literal) := by
  induction levels with
  | zero => exact yields_fail _
  | succ levels ih => exact (yields_operation ih).items.mono fun _ h => constants_of_operations h

theorem yields_block : Yields block (Block.Constants Value.Literal) :=
  yields_nestedBlock _

theorem yields_function : Yields function fun f => f.block.Constants Value.Literal :=
  yields_after fun _ => yields_after fun _ => yields_block.bind fun _ h => yields_pure h

theorem yields_literalBody {e : Element} (he : e.Constants Value.Literal) :
    Yields (elementBody e) (Element.Constants Value.Literal) := by
  have hblock : ∀ e : Element, e.Constants Value.Literal → Yields (do
      let entry ← entry
      return e.addBlock Heap.empty entry (← block)) (Element.Constants Value.Literal) :=
    fun e he => yields_entryLiteral.bind fun entry hentry => yields_block.bind fun ops hops =>
      yields_pure (he.apply (.block .empty entry ops) ⟨hentry, hops⟩ rfl)
  have hfunction : ∀ e : Element, e.Constants Value.Literal →
      Yields (do return e.addFunction (← function)) (Element.Constants Value.Literal) :=
    fun e he => yields_function.bind fun f hf =>
      yields_pure (he.apply (.function f) hf rfl)
  have hname : ∀ e : Element, e.Constants Value.Literal →
      Yields (do ofStory (e.addName (← text))) (Element.Constants Value.Literal) :=
    fun e he => yields_after fun word => yields_ofStory fun e' made =>
      he.apply (.name word) trivial made
  have htag : ∀ e : Element, e.Constants Value.Literal →
      Yields (do ofStory (e.addTag (← text))) (Element.Constants Value.Literal) :=
    fun e he => yields_after fun word => yields_ofStory fun e' made =>
      he.apply (.tag word) trivial made
  have harchetype : Yields (archetype e) (Element.Constants Value.Literal) := by
    refine yields_after fun marked => ?_
    cases marked with
    | false => exact yields_pure he
    | true => exact yields_ofStory fun e' made => he.apply (.archetype true) trivial made
  have hpermissions : ∀ e : Element, e.Constants Value.Literal →
      Yields (restrictions e) (Element.Constants Value.Literal) := by
    refine fun e he => yields_after fun table => ?_
    cases table with
    | none => exact yields_pure he
    | some table =>
      exact yields_ofStory fun e' made => he.apply (.permissions table) trivial made
  refine harchetype.bind fun e he => (Yields.counted he hblock).bind fun e he => ?_
  refine (Yields.counted he hfunction).bind fun e he => (hpermissions e he).bind fun e he => ?_
  exact (Yields.counted he hname).bind fun e he => Yields.counted he htag

theorem yields_literalPayload (header : Table String) :
    Yields (payload header) (Story.Constants Value.Literal) := by
  have haction : ∀ s : Story, s.Constants Value.Literal →
      Yields (do ofStory (s.addAction (← action))) (Story.Constants Value.Literal) :=
    fun s hs => yields_after fun a => yields_ofStory fun t made => hs.addAction made
  have helement : ∀ (kind : ElementKind) (s : Story), s.Constants Value.Literal →
      Yields (do ofStory (Story.addElement s (← element kind)))
        (Story.Constants Value.Literal) := by
    intro kind s hs
    have hbody : Yields (element kind) (Element.Constants Value.Literal) :=
      yields_after fun identity => Yields.bind
        (yields_ofStory fun e made => Element.constants_create made)
          fun e he => yields_literalBody he
    exact hbody.bind fun e he => yields_ofStory fun t made => hs.addElement he made
  have hparent : ∀ (kind : ElementKind) (s : Story), s.Constants Value.Literal →
      Yields (parent kind s) (Story.Constants Value.Literal) := by
    refine fun kind s hs => yields_after fun child => yields_after fun parent => ?_
    split
    · exact yields_ofStory fun t made => hs.linkParent made
    · exact yields_fail _
  refine (yields_literalBody Element.constants_world).bind fun world hworld => ?_
  have hbare : Story.Constants Value.Literal { header := header, world := world } :=
    ⟨hworld, holds_empty _⟩
  refine (Yields.counted hbare haction).bind fun s hs => ?_
  refine Yields.bind (Yields.foldlM hs fun s kind hs => ?_) fun s hs => ?_
  · exact Yields.counted hs (helement kind)
  · exact Yields.foldlM hs fun s kind hs => Yields.counted hs (hparent kind)

end Reader

namespace Story

/-- All constants in a story file are canonical, and none is a list. -/
theorem constants_of_decode {bytes : Bytes} {s : Story} (h : decode bytes = .ok s) :
    s.Constants Value.Literal := by
  unfold decode at h
  split at h
  · cases h
  · split at h
    · cases h
    · split at h
      · cases h
      · rename_i t ht
        obtain rfl := Except.ok.inj h
        have ht := (Reader.yields_literalPayload _).complete ht
        exact ⟨ht.world, ht.elements⟩

theorem listFree_of_decode {bytes : Bytes} {s : Story} (h : decode bytes = .ok s) :
    s.listFree = true :=
  listFree_iff.mpr ((constants_of_decode h).mono fun _ hv => hv.single)

theorem knownDigest_of_decode {bytes : Bytes} {s : Story} (h : decode bytes = .ok s) :
    ∃ payload, s.knownDigest = some (Digest.of payload) := by
  unfold decode at h
  split at h
  · cases h
  · rename_i header digest payload _
    split at h
    · cases h
    · rename_i hdigest
      split at h
      · cases h
      · obtain rfl := Except.ok.inj h
        exact ⟨payload, congrArg some (not_not.mp hdigest).symm⟩

/-- A story that was made anew or read from a file, with whatever was done to it since. -/
inductive Obtained : Story → Prop
  | empty : Obtained .empty
  | decoded {bytes : Bytes} {s : Story} (read : decode bytes = .ok s) : Obtained s
  | setHeader {s : Story} (before : Obtained s) (key value : String) :
      Obtained (s.setHeader key value)
  | addAction {s t : Story} (before : Obtained s) (a : Action) (made : s.addAction a = .ok t) :
      Obtained t
  | addElement {s t : Story} (before : Obtained s) (e : Element) (made : s.addElement e = .ok t) :
      Obtained t
  | editWorld {s : Story} (before : Obtained s) (edit : Element → Except StoryError Element) :
      Obtained (s.editWorld edit).2
  | editElement {s : Story} (before : Obtained s) (identity : String)
      (edit : Element → Except StoryError Element) : Obtained (s.editElement identity edit).2
  | linkParent {s t : Story} (before : Obtained s) {child parent : String}
      (made : s.linkParent child parent = .ok t) : Obtained t
  | digest {s : Story} (before : Obtained s) : Obtained s.digest.2

theorem Built.obtained {s : Story} (h : s.Built) : s.Obtained := by
  induction h with
  | empty => exact .empty
  | setHeader _ key value ih => exact ih.setHeader key value
  | addAction _ _ made ih => exact ih.addAction _ made
  | addElement _ _ made ih => exact ih.addElement _ made
  | editWorld _ edit ih => exact ih.editWorld edit.apply
  | editElement _ identity edit ih => exact ih.editElement identity edit.apply
  | linkParent _ made ih => exact ih.linkParent made
  | digest _ ih => exact ih.digest

/-- Editing makes a story forget its digest, so one that remembers it has no list constants. -/
theorem Obtained.listFree {s : Story} (h : s.Obtained) (hd : s.knownDigest ≠ none) :
    s.listFree = true := by
  induction h with
  | empty => exact absurd rfl hd
  | decoded read => exact listFree_of_decode read
  | setHeader _ key value ih => exact ih hd
  | addAction _ a made =>
    rw [eq_of_addAction made] at hd
    exact absurd rfl hd
  | addElement _ e made =>
    rw [eq_of_addElement made] at hd
    exact absurd rfl hd
  | editWorld _ edit =>
    refine absurd ?_ hd
    simp only [Story.editWorld]
    split <;> rfl
  | editElement _ identity edit =>
    refine absurd ?_ hd
    simp only [Story.editElement]
    split
    · rfl
    · split <;> rfl
  | linkParent _ made ih =>
    rcases eq_of_linkParent made with rfl | ⟨c, _, rfl⟩
    · exact ih hd
    · exact absurd rfl hd
  | @digest s _ ih =>
    unfold Story.digest at hd ⊢
    split
    · rename_i d hk
      exact ih (by rw [hk]; exact Option.some_ne_none d)
    · rename_i hk
      split
      · rename_i payload hp
        exact (payload?_eq_ok hp).1
      · rename_i e hp
        simp only [hk, hp] at hd
        exact absurd rfl hd

theorem digest_snd (s : Story) : s.digest.2 = { s with knownDigest := s.digest.2.knownDigest } := by
  unfold Story.digest
  split
  · rfl
  · split <;> rfl

theorem Obtained.listFree_of_digest {s : Story} (h : s.Obtained) {d : Digest}
    (hd : s.digest.1 = .ok d) : s.listFree = true := by
  unfold Story.digest at hd
  split at hd
  · rename_i known hk
    exact h.listFree (by rw [hk]; exact Option.some_ne_none known)
  · split at hd
    · rename_i payload hp
      exact (payload?_eq_ok hp).1
    · cases hd

end Story

end Fabula
