import Fabula.Proofs.Bytes.Refuses
import Fabula.Proofs.Story.Operands

/-! How deep blocks may stand inside one another in a file. A story is written whatever its depth,
and the reader refuses it at the first block that is too deep: what stands before that block is read
back as it was written. -/

namespace Fabula

open Reader (Refuses)

/-- A value as its constructors make it: what it names is folded, and zero has no sign. -/
inductive Value.Built : Value → Prop
  | boolean (b : Bool) : Built (.boolean b)
  | integer (i : Int64) : Built (.integer i)
  | real (x : Float) : Built (.real x)
  | string (s : String) : Built (.string s)
  | list (handle : Handle) : Built (.list handle)
  | reference (kind : ElementKind) (identity : String) : Built (.reference kind identity)
  | action (identity : String) : Built (.actionNamed identity)
  | varName (name : String) : Built (.variableNamed name)

theorem Value.Built.canonical {v : Value} (h : v.Built) : v.Canonical := by
  cases h with
  | boolean | integer | string | list => trivial
  | real x => exact (simple_real x).canonical
  | reference kind identity => exact (simple_element ⟨kind, identity⟩).canonical
  | action identity | varName identity => exact Text.fold_fold identity

namespace Operation

variable {op : Operation} {n : Nat}

theorem exists_block_of_lt_nesting (h : n < op.nesting) :
    ∃ slot b, op.block? slot = some b ∧ n ≤ operationsNesting b := by
  have hinner : ∀ inner : Option (List Operation), n < innerNesting inner →
      ∃ b, inner = some b ∧ n ≤ operationsNesting b := by
    intro inner hn
    cases inner with
    | none => exact absurd hn (Nat.not_lt_zero _)
    | some b => exact ⟨b, rfl, Nat.le_of_lt_succ hn⟩
  obtain ⟨_, _, _, init, condition, step, success, failure⟩ := op
  simp only [Operation.nesting, lt_max_iff] at h
  rcases h with h | h | h | h | h
  · exact ⟨.init, hinner init h⟩
  · exact ⟨.condition, hinner condition h⟩
  · exact ⟨.step, hinner step h⟩
  · exact ⟨.success, hinner success h⟩
  · exact ⟨.failure, hinner failure h⟩

theorem exists_mem_of_lt_nesting {block : Block} (h : n < operationsNesting block) :
    ∃ op ∈ block, n < op.nesting := by
  induction block with
  | nil => exact absurd h (Nat.not_lt_zero _)
  | cons op rest ih =>
    rcases lt_max_iff.mp h with h | h
    · exact ⟨op, List.mem_cons_self, h⟩
    · obtain ⟨other, ho, hn⟩ := ih h
      exact ⟨other, List.mem_cons_of_mem _ ho, hn⟩

end Operation

namespace Reader

variable {op : Operation} {error : DecodeError}

theorem refuses_operation {block : Reader Block} (bad : Block → Prop)
    (hc : ∀ v ∈ op.constants, v.Canonical) (hl : op.listFree = true)
    (htakes : ∀ slot b, op.block? slot = some b → ¬bad b → Takes block (Bytes.block b) b)
    (hrefuses : ∀ slot b, op.block? slot = some b → bad b → Refuses block (Bytes.block b) error)
    (hbad : ∃ slot b, op.block? slot = some b ∧ bad b) :
    Refuses (operation block) (Bytes.operation op) error := by
  rw [Bytes.operation_eq]
  refine (Takes.tagged (Opcode.ofByte?_byte op.opcode)).refuses ?_
  refine (takes_bits op.operandFlags_bits).refuses ((takes_bits op.mask_bits).refuses ?_)
  rw [op.first_flag, op.second_flag]
  refine (takes_first hc hl).refuses ((takes_second hc hl).refuses ?_)
  refine refuses_foldlM_reach (fun slot => ∃ b, op.block? slot = some b ∧ bad b)
    (fun before => before.foldl (fun acc slot => acc.withBlockOf op slot) op.bare) ?_ ?_ ?_
  · intro before slot after _ hgood
    rw [List.foldl_append]
    exact takes_slot (fun b hb => htakes slot b hb fun h => hgood ⟨b, hb, h⟩) _
  · rintro before slot after - ⟨b, hb, h⟩
    rw [op.inMask_mask, hb, Bytes.innerBlock_some]
    exact (hrefuses slot b hb h).bind
  · obtain ⟨slot, h⟩ := hbad
    exact ⟨slot, by cases slot <;> decide, h⟩

/-- A block is refused if the bound is not above its depth. -/
theorem refuses_nestedBlock (levels : Nat) : ∀ block : Block, levels ≤ operationsNesting block →
    (∀ v ∈ operationsConstants block, v.Canonical) → operationsListFree block = true →
    Refuses (nestedBlock levels) (Bytes.block block) .nestingTooDeep := by
  induction levels with
  | zero => exact fun block _ _ _ => (refuses_fail .nestingTooDeep).append (Bytes.block block)
  | succ levels ih =>
    intro block hn hc hl
    rw [Bytes.block_eq_counted]
    have hconstants : ∀ op ∈ block, ∀ v ∈ op.constants, v.Canonical := fun op hop v hv =>
      hc v (op.constants_of_mem hop hv)
    have hfree := operationsListFree_iff.mp hl
    have hinner : ∀ op ∈ block, ∀ slot b, op.block? slot = some b →
        b.Constants Value.Canonical ∧ operationsListFree b = true := fun op hop slot b hb =>
      ⟨fun v hv => hconstants op hop v (op.constants_of_block? hb hv),
        Operation.block_of_listFree (hfree op hop) slot hb⟩
    refine refuses_items (fun op => levels < op.nesting) (fun op _ => Bytes.operation_ne_nil op)
      ?_ ?_ (Operation.exists_mem_of_lt_nesting hn)
    · intro op hop hgood
      refine takes_operation (hconstants op hop) (hfree op hop) fun slot b hb => ?_
      obtain ⟨hcb, hlb⟩ := hinner op hop slot b hb
      have hdeep := op.nesting_lt_of_block? hb
      exact takes_nestedBlock levels b (by omega) hcb hlb
    · intro op hop hbad
      refine refuses_operation (fun b => levels ≤ operationsNesting b) (hconstants op hop)
        (hfree op hop) ?_ ?_ (Operation.exists_block_of_lt_nesting hbad)
      · intro slot b hb hgood
        obtain ⟨hcb, hlb⟩ := hinner op hop slot b hb
        exact takes_nestedBlock levels b (Nat.lt_of_not_le hgood) hcb hlb
      · intro slot b hb hdeep
        obtain ⟨hcb, hlb⟩ := hinner op hop slot b hb
        exact ih b hdeep hcb hlb

theorem refuses_block {b : Block} (hn : maxNesting < operationsNesting b)
    (hc : b.Constants Value.Canonical) (hl : operationsListFree b = true) :
    Refuses block (Bytes.block b) .nestingTooDeep :=
  refuses_nestedBlock (maxNesting + 1) b hn hc hl

end Reader

namespace Element

structure Shallow (e : Element) : Prop where
  blocks : ∀ item ∈ e.blocks, operationsNesting item.2 ≤ maxNesting
  functions : ∀ f ∈ e.functions.values, operationsNesting f.block ≤ maxNesting

instance (e : Element) : Decidable e.Shallow :=
  decidable_of_iff ((∀ item ∈ e.blocks, operationsNesting item.2 ≤ maxNesting) ∧
      ∀ f ∈ e.functions.values, operationsNesting f.block ≤ maxNesting)
    ⟨fun h => ⟨h.1, h.2⟩, fun h => ⟨h.blocks, h.functions⟩⟩

variable {e : Element}

theorem Constants.functions_values {P : Value → Prop} (h : e.Constants P) :
    ∀ f ∈ e.functions.values, f.block.Constants P := (constants_iff.mp h).2

theorem Constants.storable (hc : e.Constants Value.Canonical) (hs : e.Shallow) : e.Storable where
  entries item hi := (hc.blocks item hi).1
  blocks item hi := ⟨hs.blocks item hi, (hc.blocks item hi).2⟩
  functions f hf := ⟨hs.functions f hf, hc.functions_values f hf⟩

end Element

namespace Reader

variable {e : Element}

theorem refuses_blocks (e : Element) {blocks : List (Entry × Block)} (he : e.blocks = [])
    (hkeys : blocks.Pairwise KeysDiffer)
    (hc : ∀ item ∈ blocks, (∀ v ∈ item.1.values, v.Canonical) ∧ item.2.Constants Value.Canonical)
    (hl : ∀ item ∈ blocks, item.1.listFree = true ∧ operationsListFree item.2 = true)
    (hdeep : ∃ item ∈ blocks, maxNesting < operationsNesting item.2) :
    Refuses (counted (fun e => do
        let entry ← entry
        return e.addBlock Heap.empty entry (← block)) e)
      (Bytes.counted (fun item => Bytes.entry item.1 ++ Bytes.block item.2) blocks)
      .nestingTooDeep := by
  have hstart : e = { e with blocks := [] } := by rw [← he]
  rw [hstart]
  refine refuses_counted_reach (fun item => maxNesting < operationsNesting item.2)
    (fun before : List (Entry × Block) => ({ e with blocks := before } : Element))
    (fun item _ => by simp [Bytes.entry]) ?_ ?_ hdeep
  · intro before item after hi hgood
    have hitem : item ∈ blocks := hi ▸ List.mem_append_right _ List.mem_cons_self
    exact takes_addBlock e (hi ▸ hkeys)
      (fun other ho => (hl other (hi ▸ List.mem_append_left _ ho)).1) (hc item hitem).1
      ⟨Nat.le_of_not_lt hgood, (hc item hitem).2⟩ (hl item hitem)
  · intro before item after hi hbad
    have hitem : item ∈ blocks := hi ▸ List.mem_append_right _ List.mem_cons_self
    refine (takes_entry (hc item hitem).1 (hl item hitem).1).refuses ?_
    exact (refuses_block hbad (hc item hitem).2 (hl item hitem).2).bind

theorem refuses_functions (e : Element) {functions : List Function} (he : e.functions = ∅)
    (hc : ∀ f ∈ functions, f.block.Constants Value.Canonical)
    (hl : ∀ f ∈ functions, operationsListFree f.block = true)
    (hdeep : ∃ f ∈ functions, maxNesting < operationsNesting f.block) :
    Refuses (counted (fun e => do return Element.addFunction e (← function)) e)
      (Bytes.counted Bytes.function functions) .nestingTooDeep := by
  rw [← Element.withFunctions_nil he]
  refine refuses_counted_reach (fun f : Function => maxNesting < operationsNesting f.block)
    e.withFunctions (fun f _ => Bytes.function_ne_nil f) ?_ ?_ hdeep
  · intro before f after hi hgood
    have hf : f ∈ functions := hi ▸ List.mem_append_right _ List.mem_cons_self
    rw [Element.withFunctions_append]
    exact (takes_function ⟨Nat.le_of_not_lt hgood, hc f hf⟩ (hl f hf)).map _
  · intro before f after hi hbad
    have hf : f ∈ functions := hi ▸ List.mem_append_right _ List.mem_cons_self
    rw [Bytes.function, List.append_assoc]
    refine Refuses.bind ((takes_text f.name).refuses ((takes_texts f.arguments).refuses ?_))
    exact (refuses_block hbad (hc f hf) (hl f hf)).bind

theorem refuses_elementBody (hs : e.Sound) (hc : e.Constants Value.Canonical)
    (hl : e.listFree = true) (hdeep : ¬e.Shallow) :
    Refuses (elementBody e.bare) (Bytes.elementBody e) .nestingTooDeep := by
  simp only [Element.listFree, Bool.and_eq_true, List.all_eq_true] at hl
  have hmem : ∀ item ∈ Element.sorted e.blocks, item ∈ e.blocks := fun _ hi =>
    (Element.sorted_perm e.blocks).mem_iff.mp hi
  have hkeys : (Element.sorted e.blocks).Pairwise KeysDiffer :=
    (Element.sorted_perm e.blocks).symm.pairwise hs.blocks KeysDiffer.symm
  simp only [Bytes.elementBody, Element.sortedBlocks_eq, Bytes.counted_map, List.append_assoc]
  refine (takes_archetype e.bare rfl hs.archetype).refuses ?_
  by_cases hblocks : ∀ item ∈ e.blocks, operationsNesting item.2 ≤ maxNesting
  · have hfunctions : ∃ f ∈ e.functions.values, maxNesting < operationsNesting f.block := by
      by_contra hno
      exact hdeep ⟨hblocks, fun f hf => Nat.le_of_not_lt fun h => hno ⟨f, hf, h⟩⟩
    refine (takes_blocks _ rfl hkeys (fun i hi => (hc.blocks i (hmem i hi)).1)
      (fun i hi => ⟨hblocks i (hmem i hi), (hc.blocks i (hmem i hi)).2⟩)
      fun i hi => hl.1 i (hmem i hi)).refuses ?_
    exact ((refuses_functions _ rfl hc.functions_values hl.2 hfunctions).append _).bind
  · have hdeepest : ∃ item ∈ Element.sorted e.blocks, maxNesting < operationsNesting item.2 := by
      push Not at hblocks
      obtain ⟨item, hi, hn⟩ := hblocks
      exact ⟨item, (Element.sorted_perm e.blocks).mem_iff.mpr hi, hn⟩
    exact ((refuses_blocks _ rfl hkeys (fun i hi => hc.blocks i (hmem i hi))
      (fun i hi => hl.1 i (hmem i hi)) hdeepest).append _).bind

theorem refuses_element (hs : e.Sound) (hk : e.kind ≠ .world)
    (hchecked : checkIdentity e.identity = .ok ()) (hc : e.Constants Value.Canonical)
    (hl : e.listFree = true) (hdeep : ¬e.Shallow) :
    Refuses (element e.kind) (Bytes.element e) .nestingTooDeep := by
  refine (takes_text e.identity).refuses ?_
  rw [hs.create_identity hk hchecked]
  exact (takes_ofStory e.bare).refuses (refuses_elementBody hs hc hl hdeep)

variable {σ ι κ : Type} {error : DecodeError}

theorem refuses_groups {step : κ → σ → Reader σ} {write : ι → Bytes} {group : κ → List ι}
    (kinds : List κ) (bad : ι → Prop) (reach : List ι → σ) (hw : ∀ i, write i ≠ [])
    (htakes : ∀ before kind i after, kinds.flatMap group = before ++ i :: after →
      i ∈ group kind → ¬bad i → Takes (step kind (reach before)) (write i) (reach (before ++ [i])))
    (hrefuses : ∀ before kind i, i ∈ group kind → bad i →
      Refuses (step kind (reach before)) (write i) error)
    (hbad : ∃ i ∈ kinds.flatMap group, bad i) :
    Refuses (kinds.foldlM (fun s kind => counted (step kind) s) (reach []))
      (kinds.flatMap fun kind => Bytes.counted write (group kind)) error := by
  have hstep : ∀ before kind after, kinds = before ++ kind :: after →
      ∀ items i rest, group kind = items ++ i :: rest → ¬bad i →
      Takes (step kind (reach (before.flatMap group ++ items))) (write i)
        (reach (before.flatMap group ++ (items ++ [i]))) := by
    intro before kind after hk items i rest hi hgood
    rw [← List.append_assoc]
    refine htakes _ kind i (rest ++ after.flatMap group) ?_ ?_ hgood
    · simp [hk, hi]
    · exact hi ▸ List.mem_append_right _ List.mem_cons_self
  refine refuses_foldlM_reach (fun kind => ∃ i ∈ group kind, bad i)
    (fun before : List κ => reach (before.flatMap group)) ?_ ?_ ?_
  · intro before kind after hk hgood
    have hgroup := takes_counted_reach (fun items => reach (before.flatMap group ++ items))
      (fun i _ => hw i) fun items i rest hi => hstep before kind after hk items i rest hi
        fun h => hgood ⟨i, hi ▸ List.mem_append_right _ List.mem_cons_self, h⟩
    rw [List.append_nil] at hgroup
    rw [List.flatMap_append, List.flatMap_singleton]
    exact hgroup
  · intro before kind after hk hdeep
    have hgroup := refuses_counted_reach bad (fun items => reach (before.flatMap group ++ items))
      (fun i _ => hw i) (hstep before kind after hk)
      (fun items i rest hi h => hrefuses _ kind i
        (hi ▸ List.mem_append_right _ List.mem_cons_self) h) hdeep
    rwa [List.append_nil] at hgroup
  · obtain ⟨i, hi, h⟩ := hbad
    obtain ⟨kind, hk, hi⟩ := List.mem_flatMap.mp hi
    exact ⟨kind, hk, i, hi, h⟩

end Reader

namespace Story

structure Shallow (s : Story) : Prop where
  world : s.world.Shallow
  element : ∀ e ∈ s.elements.values, e.Shallow

instance (s : Story) : Decidable s.Shallow :=
  decidable_of_iff (s.world.Shallow ∧ ∀ e ∈ s.elements.values, e.Shallow)
    ⟨fun h => ⟨h.1, h.2⟩, fun h => ⟨h.world, h.element⟩⟩

variable {s : Story}

theorem Constants.elements_values {P : Value → Prop} (h : s.Constants P) :
    ∀ e ∈ s.elements.values, e.Constants P := (constants_iff.mp h).2

theorem Constants.storable (hc : s.Constants Value.Canonical)
    (ha : ∀ a ∈ s.actions.values, checkIdentity a.identity = .ok ()) (hs : s.Shallow) :
    s.Storable where
  world := hc.world.storable hs.world
  element e he := (hc.elements_values e he).storable (hs.element e he)
  action := ha

end Story

namespace Reader

variable {s : Story}

theorem refuses_action {a : Action} {error : StoryError}
    (h : checkIdentity a.identity = .error error) :
    Refuses action (Bytes.action a) (.malformed error) := by
  simp only [Bytes.action, List.append_assoc]
  refine (takes_text a.identity).refuses ?_
  refine (Takes.tagged (ActionKind.ofTag?_tag a.kind)).refuses ?_
  rw [Action.create, h]
  exact ((refuses_fail (.malformed error)).append _).bind

theorem refuses_elements (h : s.Sound) (hc : s.Constants Value.Canonical) (hl : s.listFree = true)
    (hdeep : ∃ e ∈ s.elements.values, ¬e.Shallow) :
    Refuses (Story.fileKinds.foldlM (fun s kind =>
        counted (fun s => do ofStory (Story.addElement s (← element kind))) s) (s.withElements []))
      (Story.fileKinds.flatMap fun kind => Bytes.counted Bytes.element (s.elementsOf kind))
      .nestingTooDeep := by
  refine refuses_groups Story.fileKinds (fun e => ¬e.Shallow) s.withElements
    (fun e => by simp [Bytes.element, Bytes.text_ne_nil]) ?_ ?_ ?_
  · intro before kind e after he hk hshallow
    exact takes_addElement h hl he hk ((hc.elements_values e (List.mem_of_mem_filter hk)).storable
      (not_not.mp hshallow))
  · intro before kind e hk hd
    have hmem := List.mem_of_mem_filter hk
    obtain ⟨hkey, rfl⟩ := (Story.mem_elementsOf h.orderly.identity).mp hk
    rw [Story.listFree, Bool.and_eq_true, List.all_eq_true] at hl
    exact (refuses_element (h.element hkey) (h.orderly.kind hkey) (h.checked hkey)
      (hc.elements_values e hmem) (hl.2 e hmem) hd).bind
  · obtain ⟨e, he, hd⟩ := hdeep
    obtain ⟨key, hkey⟩ := mem_values.mp he
    refine ⟨e, (Story.mem_inFile h.orderly).mpr ?_, hd⟩
    rwa [h.orderly.identity hkey]

/-- The payload of a story with a block that is too deep is refused for that. -/
theorem refuses_payload (h : s.Sound) (hc : s.Constants Value.Canonical)
    (ha : ∀ a ∈ s.actions.values, checkIdentity a.identity = .ok ()) (hl : s.listFree = true)
    (hdeep : ¬s.Shallow) : Refuses (payload s.header) s.payload .nestingTooDeep := by
  have hworldFree : s.world.listFree = true := (Bool.and_eq_true_iff.mp hl).1
  simp only [Story.payload, List.append_assoc]
  by_cases hworld : s.world.Shallow
  · have helements : ∃ e ∈ s.elements.values, ¬e.Shallow := by
      by_contra hno
      exact hdeep ⟨hworld, fun e he => not_not.mp fun hd => hno ⟨e, he, hd⟩⟩
    have hbody := takes_elementBody h.world (hc.world.storable hworld) hworldFree
    rw [h.bare_world, Element.unlinked_of_parent h.world_parent] at hbody
    refine hbody.refuses ((takes_actions h ha _).refuses ?_)
    exact ((refuses_elements h hc hl helements).append _).bind
  · have hbody := refuses_elementBody h.world hc.world hworldFree hworld
    rw [h.bare_world] at hbody
    exact (hbody.append _).bind

end Reader

namespace Story

variable {s : Story}

theorem decode_file_deep (h : s.Sound) (hc : s.Constants Value.Canonical)
    (ha : ∀ a ∈ s.actions.values, checkIdentity a.identity = .ok ()) (hl : s.listFree = true)
    (hdeep : ¬s.Shallow) (hlength : (file s.header s.payload).length < 0x10000000000000000) :
    decode (file s.header s.payload) = .error .nestingTooDeep := by
  rw [decode_file_eq h.header hlength, (Reader.refuses_payload h hc ha hl hdeep).complete
    (length_payload_lt hlength)]

/-- A story that was built, with values from their constructors, is refused by the reader of its own
file for one reason only, that blocks stand too deep inside one another. The actions have identities
that are good in their folded spelling too. -/
theorem refused_only_for_depth {bytes : Bytes} (hb : s.Built) (hc : s.Constants Value.Built)
    (ha : ∀ a ∈ s.actions.values, checkIdentity a.identity = .ok ()) (he : s.encode = .ok bytes)
    (hlength : bytes.length < 0x10000000000000000) :
    decode bytes = if s.Shallow then .ok s.stored else .error .nestingTooDeep := by
  have hcanonical : s.Constants Value.Canonical := hc.mono fun _ hv => hv.canonical
  obtain ⟨hl, rfl⟩ := encode_eq_ok he
  split
  · rename_i hshallow
    exact decode_file hb.sound (hcanonical.storable ha hshallow) hl hlength
  · rename_i hdeep
    exact decode_file_deep hb.sound hcanonical ha hl hdeep hlength

end Story

namespace Sample

def tower : Nat → Block
  | 0 => []
  | floors + 1 => Build.ifThen [] (tower floors)

def towering (floors : Nat) : Story :=
  (Story.empty.editWorld (Element.Edit.block .empty ⟨.start, []⟩ (tower floors)).apply).2

theorem nesting_tower (floors : Nat) : operationsNesting (tower floors) = floors := by
  induction floors with
  | zero => rfl
  | succ floors ih =>
    simp [tower, Build.ifThen, operationsNesting, Operation.nesting, innerNesting, ih]

theorem constants_tower (floors : Nat) : operationsConstants (tower floors) = [] := by
  induction floors with
  | zero => rfl
  | succ floors ih =>
    simp [tower, Build.ifThen, operationsConstants, Operation.constants, innerConstants, ih]

theorem towering_built (floors : Nat) : (towering floors).Built := .editWorld .empty _

theorem towering_constants (P : Value → Prop) (floors : Nat) : (towering floors).Constants P := by
  refine ⟨⟨fun item hi => ?_, holds_empty _⟩, holds_empty _⟩
  obtain rfl : item = (⟨.start, []⟩, tower floors) := List.mem_singleton.mp hi
  refine ⟨fun v hv => absurd hv List.not_mem_nil, fun v hv => ?_⟩
  rw [constants_tower] at hv
  exact absurd hv List.not_mem_nil

theorem towering_encode (floors : Nat) : (towering floors).encode =
    .ok (Story.file (towering floors).header (towering floors).payload) :=
  Story.encode_of_listFree (Story.listFree_iff.mpr (towering_constants _ floors))

theorem towering_actions (floors : Nat) :
    ∀ a ∈ (towering floors).actions.values, checkIdentity a.identity = .ok () := by
  intro a ha
  obtain ⟨key, hkey⟩ := mem_values.mp ha
  cases hkey

theorem towering_shallow_iff {floors : Nat} : (towering floors).Shallow ↔ floors ≤ maxNesting := by
  constructor
  · intro h
    rw [← nesting_tower floors]
    exact h.world.blocks (⟨.start, []⟩, tower floors) List.mem_cons_self
  · intro h
    refine ⟨⟨fun item hi => ?_, fun f hf => ?_⟩, fun e he => ?_⟩
    · obtain rfl : item = (⟨.start, []⟩, tower floors) := List.mem_singleton.mp hi
      rwa [nesting_tower]
    · obtain ⟨name, hname⟩ := mem_values.mp hf
      cases hname
    · obtain ⟨key, hkey⟩ := mem_values.mp he
      cases hkey

theorem length_block_tower (floors : Nat) :
    (Bytes.block (tower floors)).length = 5 * floors + 1 := by
  induction floors with
  | zero => rfl
  | succ floors ih =>
    have hzero : (Bytes.natural 0).length = 1 := rfl
    have hone : (Bytes.natural 1).length = 1 := rfl
    rw [Bytes.block, List.length_append] at ih
    simp only [tower, Build.ifThen, Bytes.block, Bytes.operations, Bytes.operation, Bytes.operand,
      Bytes.innerBlock, List.length_append, List.length_cons, List.length_nil, hzero, hone]
    omega

theorem length_towering {floors : Nat} (h : floors ≤ 1000) :
    (Story.file (towering floors).header (towering floors).payload).length <
      0x10000000000000000 := by
  have hblocks : (Bytes.counted (fun item => Bytes.entry item.1 ++ Bytes.block item.2)
      (towering floors).world.blocks).length = 5 * floors + 4 := by
    show (Bytes.natural 1 ++
      (Bytes.entry ⟨.start, []⟩ ++ Bytes.block (tower floors) ++ [])).length = _
    simp only [List.length_append, length_block_tower]
    show 1 + (2 + (5 * floors + 1) + 0) = _
    omega
  have hworld : (Bytes.elementBody (towering floors).world).length = 5 * floors + 9 := by
    rw [Element.length_elementBody]
    simp only [List.length_append, hblocks]
    show 1 + (5 * floors + 4) + 1 + 1 + 1 + 1 = _
    omega
  have hpayload : (towering floors).payload.length = 5 * floors + 18 := by
    simp only [Story.payload, List.length_append, hworld]
    rfl
  have hhead : (Story.fileMagic ++
      Bytes.counted (fun item => Bytes.text item.1 ++ Bytes.text item.2)
        (towering floors).header.toList ++ [Story.fileVersion]).length = 6 := rfl
  have hcount := Bytes.length_natural_le (towering floors).payload.length
  rw [Story.file]
  simp only [List.length_append] at hhead
  simp only [List.length_append, Digest.length_of, Digest.size, hpayload] at hcount ⊢
  omega

/-- A tower of the greatest depth is read back, and one with a floor more is refused. -/
theorem towering_depth :
    (∃ bytes, (towering maxNesting).encode = .ok bytes ∧
      Story.decode bytes = .ok (towering maxNesting).stored) ∧
    ∃ bytes, (towering (maxNesting + 1)).encode = .ok bytes ∧
      Story.decode bytes = .error .nestingTooDeep := by
  refine ⟨⟨_, towering_encode _, ?_⟩, _, towering_encode _, ?_⟩
  · rw [Story.refused_only_for_depth (towering_built _) (towering_constants _ _)
      (towering_actions _) (towering_encode _) (length_towering (by decide)),
      if_pos (towering_shallow_iff.mpr le_rfl)]
  · rw [Story.refused_only_for_depth (towering_built _) (towering_constants _ _)
      (towering_actions _) (towering_encode _) (length_towering (by decide)),
      if_neg fun h => absurd (towering_shallow_iff.mp h) (Nat.not_succ_le_self _)]

/-- The action named by the dotted capital I, which is folded into a letter and a mark. -/
def dotted : Action := { identity := Text.fold "İ", kind := .general }

def dottedStory : Story := { actions := (∅ : Table Action).insert dotted.identity dotted }

theorem wellFormedIdentity_cons (c : Char) (rest : List Char) :
    wellFormedIdentity (String.ofList (c :: rest)) = ((Text.isLetter c || c == '_') &&
      rest.all fun c => Text.isLetter c || Text.isNumeral c || c == '_') := by
  simp [wellFormedIdentity]

theorem checkIdentity_dotted : checkIdentity "İ" = .ok () := by
  have hletter : Text.isLetter 'İ' = true := by
    unfold Text.isLetter Text.wideLetters
    rw [Text.CodeSet.mem_ofLines]
    repeat rw [Text.numbersOfLines_cons]
    decide +kernel
  have hword : wellFormedIdentity "İ" = true := by
    rw [wellFormedIdentity_cons, hletter]
    rfl
  have hfree : reservedIdentities.contains (Text.fold "İ") = false := by decide +kernel
  rw [checkIdentity, hword, hfree]
  rfl

/-- The mark is neither a letter nor a numeral. -/
theorem checkIdentity_fold_dotted :
    checkIdentity (Text.fold "İ") = .error (.badIdentity (Text.fold "İ")) := by
  have hletter : Text.isLetter '\u0307' = false := by
    unfold Text.isLetter Text.wideLetters
    rw [Text.CodeSet.mem_ofLines]
    repeat rw [Text.numbersOfLines_cons]
    decide +kernel
  have hnumeral : Text.isNumeral '\u0307' = false := by
    unfold Text.isNumeral Text.wideNumerals
    rw [Text.CodeSet.mem_ofLines]
    repeat rw [Text.numbersOfLines_cons]
    decide +kernel
  have hfold : Text.fold "İ" = String.ofList ['i', '\u0307'] := by decide +kernel
  have hword : wellFormedIdentity (Text.fold "İ") = false := by
    rw [hfold, wellFormedIdentity_cons, List.all_cons, hletter, hnumeral]
    rfl
  rw [checkIdentity, hword]
  rfl

theorem dottedStory_built : dottedStory.Built := by
  have hcreate : Action.create "İ" .general = .ok dotted := by
    rw [Action.create, checkIdentity_dotted, dotted]
  have hadd : Story.empty.addAction dotted = .ok dottedStory := by
    simp [Story.addAction, Story.empty, dottedStory]
  exact .addAction .empty (.create hcreate) hadd

theorem dottedStory_constants (P : Value → Prop) : dottedStory.Constants P :=
  ⟨Element.constants_world, holds_empty _⟩

theorem length_dottedStory :
    (Story.file dottedStory.header dottedStory.payload).length < 0x10000000000000000 := by
  simp only [Story.file, Story.payload, List.length_append, Digest.length_of,
    Element.length_elementBody]
  decide +kernel

theorem dottedStory_decode : Story.decode (Story.file dottedStory.header dottedStory.payload) =
    .error (.malformed (.badIdentity (Text.fold "İ"))) := by
  have hactions : ∀ a ∈ dottedStory.actions.values, a = dotted := by
    intro a ha
    obtain ⟨key, hkey⟩ := mem_values.mp ha
    rw [dottedStory, Std.ExtTreeMap.getElem?_insert] at hkey
    split at hkey
    · exact (Option.some.inj hkey).symm
    · cases hkey
  have hbad : Reader.Refuses Reader.action (Bytes.action dotted)
      (.malformed (.badIdentity (Text.fold "İ"))) := by
    apply Reader.refuses_action
    rw [dotted]
    exact checkIdentity_fold_dotted
  have hdotted : dotted ∈ dottedStory.actions.values := by
    refine mem_values.mpr ⟨dotted.identity, ?_⟩
    rw [dottedStory, Std.ExtTreeMap.getElem?_insert_self]
  have hrefuses : Reader.Refuses (Reader.payload dottedStory.header) dottedStory.payload
      (.malformed (.badIdentity (Text.fold "İ"))) := by
    simp only [Story.payload, List.append_assoc]
    refine Reader.takes_bareWorld.refuses (Refuses.bind (Refuses.append ?_ _))
    refine Reader.refuses_counted_reach (fun _ => True) (fun _ => _)
      (fun a _ => by simp [Bytes.action, Bytes.text_ne_nil]) (by simp) ?_ ?_
    · intro before a after hi _
      obtain rfl := hactions a (hi ▸ List.mem_append_right _ List.mem_cons_self)
      exact hbad.bind
    · exact ⟨dotted, hdotted, trivial⟩
  rw [Story.decode_file_eq dottedStory_built.sound.header length_dottedStory,
    hrefuses.complete (Story.length_payload_lt length_dottedStory)]

/-- Two stories that are written and then refused: one with blocks that stand too deep, and one with
an action whose identity is good only as it was spelled. -/
theorem written_and_refused :
    ((towering (maxNesting + 1)).Built ∧ (towering (maxNesting + 1)).Constants Value.Built ∧
      ∃ bytes, (towering (maxNesting + 1)).encode = .ok bytes ∧
        Story.decode bytes = .error .nestingTooDeep) ∧
    dottedStory.Built ∧ dottedStory.Constants Value.Built ∧
      ∃ bytes, dottedStory.encode = .ok bytes ∧
        Story.decode bytes = .error (.malformed (.badIdentity (Text.fold "İ"))) := by
  have hdeep : ¬(towering (maxNesting + 1)).Shallow := fun h =>
    absurd (towering_shallow_iff.mp h) (Nat.not_succ_le_self _)
  refine ⟨⟨towering_built _, towering_constants _ _, _, towering_encode _, ?_⟩,
    dottedStory_built, dottedStory_constants _, _, ?_, dottedStory_decode⟩
  · exact Story.decode_file_deep (towering_built _).sound (towering_constants _ _)
      (towering_actions _) (Story.listFree_iff.mpr (towering_constants _ _)) hdeep
      (length_towering (by decide))
  · exact Story.encode_of_listFree (Story.listFree_iff.mpr (dottedStory_constants _))

end Sample

end Fabula
