import Fabula.Proofs.Story.Blocks
import Fabula.Proofs.Story.Building

/-! Elements and actions are read back as they were written, but for the order of the blocks of an
element. In a file they stand in the order of the bytes of their entries, and that is how they are
read. -/

namespace Fabula

namespace Value

theorem sameScalar_comm (v w : Value) : sameScalar v w = sameScalar w v := by
  cases v <;> cases w <;> first
    | rfl
    | exact BEq.comm
    | exact congrArg₂ and BEq.comm BEq.comm

theorem equals_of_scalar (heap : Heap) {v w : Value} (hv : v.isShared = false) :
    equals heap v w = sameScalar v w := by
  cases v with
  | list => cases hv
  | _ => cases w <;> rfl

theorem allPairs_comm {f : Value → Value → Bool} {vs ws : List Value}
    (h : ∀ v ∈ vs, ∀ w ∈ ws, f v w = f w v) : allPairs f vs ws = allPairs f ws vs := by
  induction vs generalizing ws with
  | nil => cases ws <;> rfl
  | cons v vs ih =>
    cases ws with
    | nil => rfl
    | cons w ws =>
      rw [allPairs, allPairs, h v List.mem_cons_self w List.mem_cons_self, ih]
      exact fun a ha b hb => h a (List.mem_cons_of_mem _ ha) b (List.mem_cons_of_mem _ hb)

end Value

theorem Entry.same_comm (heap : Heap) {a b : Entry} (ha : a.listFree = true)
    (hb : b.listFree = true) : a.same heap b = b.same heap a := by
  simp only [Entry.listFree, List.all_eq_true, Bool.not_eq_true'] at ha hb
  unfold Entry.same
  rw [Bool.beq_comm, Value.allPairs_comm]
  intro v hv w hw
  rw [Value.equals_of_scalar heap (ha v hv), Value.equals_of_scalar heap (hb w hw),
    Value.sameScalar_comm]

theorem KeysDiffer.symm {x y : Entry × Block} (h : KeysDiffer x y) : KeysDiffer y x :=
  fun hy hx => (Entry.same_comm .empty hy hx).trans (h hx hy)

namespace Element

/-- The blocks in the order of the bytes of their entries. -/
def sorted (blocks : List (Entry × Block)) : List (Entry × Block) :=
  blocks.mergeSort fun a b => decide (Bytes.entry a.1 ≤ Bytes.entry b.1)

theorem sorted_perm (blocks : List (Entry × Block)) : (sorted blocks).Perm blocks :=
  List.mergeSort_perm blocks _

def stored (e : Element) : Element := { e with blocks := sorted e.blocks }

/-- The element as a file has it, before its parent is linked. -/
def unlinked (e : Element) : Element := { e.stored with parent := none }

@[simp] theorem unlinked_kind (e : Element) : e.unlinked.kind = e.kind := rfl

@[simp] theorem unlinked_identity (e : Element) : e.unlinked.identity = e.identity := rfl

@[simp] theorem unlinked_parent (e : Element) : e.unlinked.parent = none := rfl

theorem unlinked_of_parent {e : Element} (h : e.parent = none) : e.unlinked = e.stored := by
  rw [unlinked, ← h]
  rfl

theorem unlinked_link {e : Element} {parent : String} (h : e.parent = some parent) :
    { e.unlinked with parent := some parent } = e.stored := by
  rw [← h]
  rfl

theorem sortedBlocks_eq (blocks : List (Entry × Block)) :
    Bytes.sortedBlocks blocks = (sorted blocks).map fun item => (Bytes.entry item.1, item.2) := by
  rw [Bytes.sortedBlocks, sorted, List.map_mergeSort]
  exact fun _ _ _ _ => rfl

theorem pairwise_sorted (blocks : List (Entry × Block)) : (sorted blocks).Pairwise fun a b =>
    decide (Bytes.entry a.1 ≤ Bytes.entry b.1) = true := by
  refine List.pairwise_mergeSort ?_ ?_ blocks
  · intro a b c hab hbc
    exact decide_eq_true (List.le_trans (of_decide_eq_true hab) (of_decide_eq_true hbc))
  · intro a b
    rcases List.le_total (Bytes.entry a.1) (Bytes.entry b.1) with h | h
    · simp [h]
    · simp [h]

theorem sortedBlocks_sorted (blocks : List (Entry × Block)) :
    Bytes.sortedBlocks (sorted blocks) = Bytes.sortedBlocks blocks := by
  have hsorted : sorted (sorted blocks) = sorted blocks :=
    List.mergeSort_of_pairwise (pairwise_sorted blocks)
  rw [sortedBlocks_eq, sortedBlocks_eq, hsorted]

theorem elementBody_stored (e : Element) : Bytes.elementBody e.stored = Bytes.elementBody e := by
  simp only [Bytes.elementBody, stored, sortedBlocks_sorted]

theorem putBlock_new {heap : Heap} {entry : Entry} (block : Block) {blocks : List (Entry × Block)}
    (h : ∀ item ∈ blocks, item.1.same heap entry = false) :
    putBlock heap entry block blocks = blocks ++ [(entry, block)] := by
  induction blocks with
  | nil => rfl
  | cons item blocks ih =>
    rw [putBlock, h item List.mem_cons_self, if_neg Bool.false_ne_true,
      ih fun other ho => h other (List.mem_cons_of_mem _ ho), List.cons_append]

/-- What is asked of the parts of an element for a file: the values of its entries are canonical,
and its blocks can be stored. -/
structure Storable (e : Element) : Prop where
  entries : ∀ item ∈ e.blocks, ∀ v ∈ item.1.values, v.Canonical
  blocks : ∀ item ∈ e.blocks, item.2.Storable
  functions : ∀ f ∈ e.functions.values, f.block.Storable

instance (e : Element) : Decidable e.Storable :=
  decidable_of_iff ((∀ item ∈ e.blocks, ∀ v ∈ item.1.values, v.Canonical) ∧
      (∀ item ∈ e.blocks, item.2.Storable) ∧ ∀ f ∈ e.functions.values, f.block.Storable)
    ⟨fun h => ⟨h.1, h.2.1, h.2.2⟩, fun h => ⟨h.entries, h.blocks, h.functions⟩⟩

def bare (e : Element) : Element := { kind := e.kind, identity := e.identity }

theorem Sound.create_identity {e : Element} (hs : e.Sound) (hk : e.kind ≠ .world)
    (hc : checkIdentity e.identity = .ok ()) : Element.create e.kind e.identity = .ok e.bare := by
  rw [Element.create, if_neg hk, hc, hs.folded]
  rfl

def withFunctions (e : Element) (functions : List Function) : Element :=
  { e with functions := functions.foldl (fun t f => t.insert f.name f) ∅ }

theorem withFunctions_append (e : Element) (before : List Function) (f : Function) :
    e.withFunctions (before ++ [f]) = (e.withFunctions before).addFunction f := by
  rw [withFunctions, List.foldl_append]
  rfl

theorem withFunctions_nil {e : Element} (he : e.functions = ∅) : e.withFunctions [] = e := by
  rw [withFunctions, List.foldl_nil, ← he]

end Element

theorem Bytes.counted_map {α β : Type} (write : β → Bytes) (f : α → β) (items : List α) :
    counted write (items.map f) = counted (fun a => write (f a)) items := by
  simp [counted, List.flatMap_map]

theorem Bytes.function_ne_nil (f : Function) : function f ≠ [] := by
  simp [function, text_ne_nil]

namespace Reader

variable {e : Element}

theorem takes_ofStory {α : Type} (a : α) : Takes (ofStory (.ok a)) [] a := takes_pure a

theorem takes_entry {entry : Entry} (h : ∀ v ∈ entry.values, v.Canonical)
    (hl : entry.listFree = true) : Takes Reader.entry (Bytes.entry entry) entry := by
  simp only [Entry.listFree, List.all_eq_true, Bool.not_eq_true'] at hl
  have hvalues : Takes (items constant) (Bytes.counted Bytes.constant entry.values) entry.values :=
    takes_items (fun _ _ => List.cons_ne_nil _ _) fun v hv => takes_constant (h v hv) (hl v hv)
  exact (Takes.tagged (Trigger.ofTag?_tag entry.trigger)).bind (hvalues.map fun values =>
    (⟨entry.trigger, values⟩ : Entry))

theorem takes_texts (words : List String) : Takes (items text) (Bytes.texts words) words :=
  takes_items (fun w _ => Bytes.text_ne_nil w) fun w _ => takes_text w

theorem takes_function {f : Function} (h : f.block.Storable)
    (hl : operationsListFree f.block = true) : Takes function (Bytes.function f) f := by
  rw [Bytes.function, List.append_assoc]
  refine (takes_text f.name).bind ((takes_texts f.arguments).bind ?_)
  exact (takes_block h hl).map (Function.mk f.name f.arguments)

theorem takes_archetype (e : Element) {marked : Bool} (hm : e.archetype = false)
    (hk : e.kind = .world → marked = false) :
    Takes (archetype e) (Bytes.flag marked) { e with archetype := marked } := by
  refine (takes_flag marked).bind_nil ?_
  cases marked with
  | false =>
    have hsame : { e with archetype := false } = e := by rw [← hm]
    rw [hsame]
    exact takes_pure e
  | true =>
    have hset : e.setArchetype true = .ok { e with archetype := true } := by
      rw [Element.setArchetype, if_neg fun h => Bool.noConfusion (hk h), hm]
      rfl
    rw [if_pos rfl, hset]
    exact takes_ofStory _

theorem takes_addBlock (e : Element) {before after : List (Entry × Block)} {item : Entry × Block}
    (hkeys : (before ++ item :: after).Pairwise KeysDiffer)
    (hlb : ∀ other ∈ before, other.1.listFree = true)
    (hentry : ∀ v ∈ item.1.values, v.Canonical) (hblock : item.2.Storable)
    (hl : item.1.listFree = true ∧ operationsListFree item.2 = true) :
    Takes (do
        let entry ← entry
        return Element.addBlock { e with blocks := before } Heap.empty entry (← block))
      (Bytes.entry item.1 ++ Bytes.block item.2) { e with blocks := before ++ [item] } := by
  have hput : Element.putBlock .empty item.1 item.2 before = before ++ [item] := by
    refine Element.putBlock_new item.2 fun other ho => ?_
    exact (List.pairwise_append.mp hkeys).2.2 other ho item List.mem_cons_self (hlb other ho) hl.1
  have hadd := (takes_block hblock hl.2).map fun b =>
    Element.addBlock { e with blocks := before } .empty item.1 b
  rw [Element.addBlock, hput] at hadd
  exact (takes_entry hentry hl.1).bind hadd

theorem takes_blocks (e : Element) {blocks : List (Entry × Block)} (he : e.blocks = [])
    (hkeys : blocks.Pairwise KeysDiffer)
    (hentries : ∀ item ∈ blocks, ∀ v ∈ item.1.values, v.Canonical)
    (hblocks : ∀ item ∈ blocks, item.2.Storable)
    (hl : ∀ item ∈ blocks, item.1.listFree = true ∧ operationsListFree item.2 = true) :
    Takes (counted (fun e => do
        let entry ← entry
        return e.addBlock Heap.empty entry (← block)) e)
      (Bytes.counted (fun item => Bytes.entry item.1 ++ Bytes.block item.2) blocks)
      { e with blocks := blocks } := by
  have hstart : e = { e with blocks := [] } := by rw [← he]
  rw [hstart]
  refine takes_counted_reach
    (fun before : List (Entry × Block) => ({ e with blocks := before } : Element))
    (fun item _ => by simp [Bytes.entry]) fun before item after hi => ?_
  have hitem : item ∈ blocks := hi ▸ List.mem_append_right _ List.mem_cons_self
  exact takes_addBlock e (hi ▸ hkeys)
    (fun other ho => (hl other (hi ▸ List.mem_append_left _ ho)).1) (hentries item hitem)
    (hblocks item hitem) (hl item hitem)

theorem takes_functions (e : Element) {functions : Table Function} (he : e.functions = ∅)
    (hn : ∀ {name : String} {f : Function}, functions[name]? = some f → f.name = name)
    (h : ∀ f ∈ functions.values, f.block.Storable)
    (hl : ∀ f ∈ functions.values, operationsListFree f.block = true) :
    Takes (counted (fun e => do return Element.addFunction e (← function)) e)
      (Bytes.counted Bytes.function functions.values) { e with functions := functions } := by
  have hall : Takes (counted (fun e => do return Element.addFunction e (← function))
      (e.withFunctions [])) (Bytes.counted Bytes.function functions.values)
      (e.withFunctions functions.values) := by
    refine takes_counted_reach e.withFunctions (fun f _ => Bytes.function_ne_nil f)
      fun before f after hi => ?_
    have hf : f ∈ functions.values := hi ▸ List.mem_append_right _ List.mem_cons_self
    rw [Element.withFunctions_append]
    exact (takes_function (h f hf) (hl f hf)).map _
  rwa [Element.withFunctions_nil he, Element.withFunctions,
    foldl_insert_values Function.name hn] at hall

theorem takes_words {σ : Type} {give : σ → String → Reader σ} (put : Words → σ) {words : Words}
    (h : ∀ set, ∀ w ∈ words, Takes (give (put set) w) [] (put (set.insert w))) :
    Takes (counted (fun s => do give s (← text)) (put ∅)) (Bytes.words words) (put words) := by
  have hall : Takes (counted (fun s => do give s (← text)) (put ∅)) (Bytes.words words)
      (put (words.toList.foldl (fun set w => set.insert w) ∅)) := by
    refine takes_counted_reach
      (fun before : List String => put (before.foldl (fun set w => set.insert w) ∅))
      (fun w _ => Bytes.text_ne_nil w) fun before w after hi => (takes_text w).bind_nil ?_
    have hm : w ∈ words := Std.ExtTreeSet.mem_toList.mp
      (hi ▸ List.mem_append_right _ List.mem_cons_self)
    rw [List.foldl_append]
    exact h _ w hm
  rwa [foldl_insert_words] at hall

theorem kind_of_mem {words : Words} {w : String} (hk : e.kind ≠ .object → words = ∅)
    (hw : w ∈ words) : e.kind = .object := by
  by_contra h
  rw [hk h] at hw
  exact Std.ExtTreeSet.not_mem_empty hw

theorem takes_permissions (t : Option PermissionTable) :
    Takes permissions (Bytes.permissions t) t := by
  cases t with
  | none =>
    refine Takes.bind_nil (Takes.tagged rfl) ?_
    exact takes_pure none
  | some t =>
    have hmode : Takes permissionMode [Bytes.permissionMode t.mode] t.mode := by
      cases t.mode <;> exact Takes.tagged rfl
    have hthere : Takes (tagged "permission flag" fun tag =>
        if tag = 0 then some false else if tag = 1 then some true else none) [1] true :=
      Takes.tagged rfl
    have hwords : Takes (counted (fun (set : Words) => do return set.insert (← text)) ∅)
        (Bytes.words t.actions) t.actions :=
      takes_words (fun set => set) fun set w _ => takes_pure (set.insert w)
    refine hthere.bind (hmode.bind ?_)
    exact hwords.map fun set => some (PermissionTable.mk t.mode set)

theorem takes_restrictions (e : Element) {t : Option PermissionTable} (he : e.permissions = none)
    (hk : t ≠ none → e.kind = .player ∨ e.kind = .room) :
    Takes (restrictions e) (Bytes.permissions t) { e with permissions := t } := by
  refine (takes_permissions t).bind_nil ?_
  cases t with
  | none =>
    have hsame : { e with permissions := none } = e := by rw [← he]
    rw [hsame]
    exact takes_pure e
  | some t =>
    have hset : e.setPermissions t = .ok { e with permissions := some t } :=
      if_pos (hk (Option.some_ne_none t))
    simp only [hset]
    exact takes_ofStory _

theorem takes_names (e : Element) {words : Words} (he : e.names = ∅)
    (hk : e.kind ≠ .object → words = ∅) (hw : ∀ w ∈ words, Text.fold w = w) :
    Takes (counted (fun e => do ofStory (Element.addName e (← text))) e) (Bytes.words words)
      { e with names := words } := by
  have hstart : e = { e with names := ∅ } := by rw [← he]
  rw [hstart]
  refine takes_words (fun set => ({ e with names := set } : Element)) fun set w hm => ?_
  rw [Element.addName, hw w hm, if_pos (kind_of_mem hk hm)]
  exact takes_ofStory _

theorem takes_tags (e : Element) {words : Words} (he : e.tags = ∅)
    (hk : e.kind ≠ .object → words = ∅) (hw : ∀ w ∈ words, Text.fold w = w) :
    Takes (counted (fun e => do ofStory (Element.addTag e (← text))) e) (Bytes.words words)
      { e with tags := words } := by
  have hstart : e = { e with tags := ∅ } := by rw [← he]
  rw [hstart]
  refine takes_words (fun set => ({ e with tags := set } : Element)) fun set w hm => ?_
  rw [Element.addTag, hw w hm, if_pos (kind_of_mem hk hm)]
  exact takes_ofStory _

/-- The element as it is read: its parent is linked later. -/
theorem takes_elementBody (hs : e.Sound) (h : e.Storable) (hl : e.listFree = true) :
    Takes (elementBody e.bare) (Bytes.elementBody e) e.unlinked := by
  simp only [Element.listFree, Bool.and_eq_true, List.all_eq_true] at hl
  have hmem : ∀ item ∈ Element.sorted e.blocks, item ∈ e.blocks := fun _ hi =>
    (Element.sorted_perm e.blocks).mem_iff.mp hi
  have hkeys : (Element.sorted e.blocks).Pairwise KeysDiffer :=
    (Element.sorted_perm e.blocks).symm.pairwise hs.blocks KeysDiffer.symm
  simp only [Bytes.elementBody, Element.sortedBlocks_eq, Bytes.counted_map, List.append_assoc]
  refine (takes_archetype e.bare rfl hs.archetype).bind ?_
  refine (takes_blocks _ rfl hkeys (fun i hi => h.entries i (hmem i hi))
    (fun i hi => h.blocks i (hmem i hi)) fun i hi => hl.1 i (hmem i hi)).bind ?_
  refine (takes_functions _ rfl hs.functions h.functions hl.2).bind ?_
  refine (takes_restrictions _ rfl (by exact hs.permissions)).bind ?_
  refine (takes_names _ rfl (by exact fun hk => (hs.described hk).1) hs.names).bind ?_
  exact takes_tags _ rfl (by exact fun hk => (hs.described hk).2) hs.tags

theorem takes_element (hs : e.Sound) (hk : e.kind ≠ .world)
    (hc : checkIdentity e.identity = .ok ()) (h : e.Storable) (hl : e.listFree = true) :
    Takes (element e.kind) (Bytes.element e) e.unlinked := by
  have hbody : Takes (ofStory (Element.create e.kind e.identity) >>= elementBody)
      ([] ++ Bytes.elementBody e) e.unlinked := by
    rw [hs.create_identity hk hc]
    exact (takes_ofStory e.bare).bind (takes_elementBody hs h hl)
  exact (takes_text e.identity).bind hbody

theorem takes_action {a : Action} (hs : a.Sound) (hc : checkIdentity a.identity = .ok ()) :
    Takes action (Bytes.action a) a := by
  have hnames : Takes (counted (fun a => do return Action.withName a (← text))
      { a with names := ∅, extra := [] }) (Bytes.words a.names) { a with extra := [] } := by
    refine takes_words (fun set => { a with names := set, extra := [] }) fun set w hw => ?_
    rw [Action.withName, hs.names w hw]
    exact takes_pure _
  have hextra : Takes (counted (fun a => do return Action.withExtra a (← text))
      { a with extra := [] }) (Bytes.texts a.extra) a := by
    refine takes_counted_reach (fun before : List String => ({ a with extra := before } : Action))
      (fun w _ => Bytes.text_ne_nil w) fun before w after hi => (takes_text w).bind_nil ?_
    have hw := hs.extra w (hi ▸ List.mem_append_right _ List.mem_cons_self)
    rw [Action.withExtra, hw]
    exact takes_pure _
  have hcreate : Takes (ofStory (Action.create a.identity a.kind)) []
      { identity := a.identity, kind := a.kind } := by
    rw [Action.create, hc, hs.folded]
    exact takes_ofStory _
  simp only [Bytes.action, List.append_assoc]
  refine (takes_text a.identity).bind ((Takes.tagged (ActionKind.ofTag?_tag a.kind)).bind ?_)
  refine hcreate.bind ((takes_flag a.strict).bind ((takes_flag a.reversed).bind ?_))
  exact hnames.bind hextra

end Reader

end Fabula
