import Mathlib.Data.List.Pairwise
import Fabula.Proofs.Story.Delimited
import Fabula.Proofs.Story.Forest
import Fabula.Proofs.Story.Made

/-! The payload of a story is its content and nothing else. Stories of the same content have the
same payload, in whatever order they were built: tables stand in the order of their names and blocks
in that of the bytes of their entries. And stories with the same payload have the same content, even
where the payload is too long or too deep to be read: all parts are delimited. -/

namespace Fabula

namespace Number

/-- Only NaN differs from itself. -/
theorem beq_self {x : Float} (h : x.isNaN = false) : (x == x) = true := by
  show (x.toModel.unpack.compare x.toModel.unpack == some .eq) = true
  have hnan : x.toModel.unpack.isNaN = false := h
  generalize x.toModel.unpack = u at hnan ⊢
  cases u with
  | notANumber => cases hnan
  | infinity s => cases s <;> rfl
  | zero s => rfl
  | finite s m e hm => cases s <;> simp [Float.Model.UnpackedFloat.compare]

end Number

theorem Value.sameScalar_self {v : Value} (hv : v.isShared = false) (hnan : v.isNaN = false) :
    v.sameScalar v = true := by
  cases v with
  | list => cases hv
  | float x => exact Number.beq_self hnan
  | _ => simp [sameScalar]

theorem Entry.same_self {e : Entry} (he : e.listFree = true)
    (hnan : ∀ v ∈ e.values, v.isNaN = false) : e.same .empty e = true := by
  simp only [listFree, List.all_eq_true, Bool.not_eq_true'] at he
  have hpairs : ∀ vs : List Value, (∀ v ∈ vs, v.isShared = false) → (∀ v ∈ vs, v.isNaN = false) →
      Value.allPairs (Value.equals .empty) vs vs = true := by
    intro vs hshared hnan
    induction vs with
    | nil => rfl
    | cons v vs ih =>
      rw [Value.allPairs, Value.equals_of_scalar _ (hshared v List.mem_cons_self),
        Value.sameScalar_self (hshared v List.mem_cons_self) (hnan v List.mem_cons_self),
        ih (fun w hw => hshared w (List.mem_cons_of_mem v hw))
          fun w hw => hnan w (List.mem_cons_of_mem v hw)]
      rfl
  simp [same, hpairs e.values he hnan]

namespace Element

/-- What stands under a key has that key, and no key stands twice. -/
structure Keyed (e : Element) : Prop where
  blocks : e.blocks.Pairwise KeysDiffer
  functions : ∀ {name : String} {f : Function}, e.functions[name]? = some f → f.name = name

theorem Sound.keyed {e : Element} (h : e.Sound) : e.Keyed := ⟨h.blocks, h.functions⟩

def NaNFree (e : Element) : Prop := ∀ item ∈ e.blocks, ∀ v ∈ item.1.values, v.isNaN = false

instance (e : Element) : Decidable e.NaNFree :=
  inferInstanceAs (Decidable (∀ item ∈ e.blocks, ∀ v ∈ item.1.values, v.isNaN = false))

variable {e f : Element}

/-- Blocks of the same entry bytes are the same one. -/
theorem eq_of_entry_bytes (h : e.Keyed) (hd : e.NaNFree) (hl : e.listFree = true)
    {a b : Entry × Block} (ha : a ∈ e.blocks) (hb : b ∈ e.blocks)
    (hbytes : Bytes.entry a.1 = Bytes.entry b.1) : a = b := by
  simp only [listFree, Bool.and_eq_true, List.all_eq_true] at hl
  have hfree : a.1.listFree = true ∧ b.1.listFree = true := ⟨(hl.1 a ha).1, (hl.1 b hb).1⟩
  have hentry : a.1 = b.1 :=
    (Bytes.delimited_entry hfree.1 hfree.2 (congrArg (· ++ []) hbytes)).1
  by_contra hne
  have : Std.Symm KeysDiffer := ⟨fun _ _ => KeysDiffer.symm⟩
  have hdiffer := h.blocks.forall ha hb hne hfree.1 hfree.2
  rw [← hentry, Entry.same_self hfree.1 (hd a ha)] at hdiffer
  cases hdiffer

/-- The order in which blocks were put does not matter to the order in a file. -/
theorem sorted_eq_of_perm (h : f.Keyed) (hd : f.NaNFree) (hl : f.listFree = true)
    {blocks : List (Entry × Block)} (hperm : blocks.Perm f.blocks) :
    sorted blocks = sorted f.blocks := by
  have hmem : ∀ a ∈ sorted f.blocks, a ∈ f.blocks := fun _ => (sorted_perm f.blocks).mem_iff.mp
  have hmem' : ∀ a ∈ sorted blocks, a ∈ f.blocks :=
    fun _ => ((sorted_perm blocks).trans hperm).mem_iff.mp
  have hunique : ∀ a b, a ∈ sorted blocks → b ∈ sorted f.blocks →
      decide (Bytes.entry a.1 ≤ Bytes.entry b.1) = true →
      decide (Bytes.entry b.1 ≤ Bytes.entry a.1) = true → a = b := by
    intro a b ha hb hab hba
    refine eq_of_entry_bytes h hd hl (hmem' a ha) (hmem b hb) ?_
    exact List.le_antisymm (of_decide_eq_true hab) (of_decide_eq_true hba)
  refine List.Perm.eq_of_pairwise hunique (pairwise_sorted blocks) (pairwise_sorted f.blocks) ?_
  exact ((sorted_perm blocks).trans hperm).trans (sorted_perm f.blocks).symm

theorem Alike.stored_eq (hef : e.Alike f) (h : f.Keyed) (hd : f.NaNFree)
    (hl : f.listFree = true) : e.stored = f.stored := by
  have hblocks := sorted_eq_of_perm h hd hl hef.blocks
  obtain ⟨hkind, hidentity, harchetype, hparent, -, hfunctions, hpermissions, hnames, htags⟩ := hef
  cases e
  simp_all [stored]

theorem alike_of_stored_eq (h : e.stored = f.stored) : e.Alike f := by
  rw [stored, stored, Element.mk.injEq] at h
  obtain ⟨hkind, hidentity, harchetype, hparent, hblocks, hfunctions, hpermissions, hnames,
    htags⟩ := h
  have hperm : e.blocks.Perm f.blocks :=
    ((sorted_perm e.blocks).symm.trans (.of_eq hblocks)).trans (sorted_perm f.blocks)
  exact ⟨hkind, hidentity, harchetype, hparent, hperm, hfunctions, hpermissions, hnames, htags⟩

/-- An element as a file has it among those of its kind, before its parent is told. -/
structure Grouped (kind : ElementKind) (e : Element) : Prop where
  keyed : e.Keyed
  listFree : e.listFree = true
  kind : e.kind = kind
  parent : e.parent = none
  stored : e.stored = e

theorem Grouped.unlinked (h : e.Keyed) (hl : e.listFree = true) : e.unlinked.Grouped e.kind where
  keyed := ⟨(sorted_perm e.blocks).symm.pairwise h.blocks KeysDiffer.symm, h.functions⟩
  listFree := e.listFree_stored.trans hl
  kind := rfl
  parent := rfl
  stored := Ordered.stored (pairwise_sorted e.blocks)

end Element

namespace Bytes

variable {e f : Element}

theorem delimited_item {item : Entry × Block}
    (h : item.1.listFree = true ∧ operationsListFree item.2 = true) :
    Delimited (fun item => entry item.1 ++ block item.2)
      (fun item => item.1.listFree = true ∧ operationsListFree item.2 = true) item := by
  intro other rest rest' hother hbytes
  rw [List.append_assoc, List.append_assoc] at hbytes
  obtain ⟨hentry, hbytes⟩ := delimited_entry h.1 hother.1 hbytes
  obtain ⟨hblock, hrest⟩ := delimited_block h.2 hother.2 hbytes
  exact ⟨Prod.ext hentry hblock, hrest⟩

/-- The body of an element tells all of it but its kind, identity and parent, and the order in which
its blocks were put. -/
theorem elementBody_delimited (he : e.Keyed) (hf : f.Keyed) (hel : e.listFree = true)
    (hfl : f.listFree = true) {rest rest' : Bytes}
    (h : elementBody e ++ rest = elementBody f ++ rest') :
    e.stored = { f.stored with kind := e.kind, identity := e.identity, parent := e.parent } ∧
      rest = rest' := by
  simp only [Element.listFree, Bool.and_eq_true, List.all_eq_true] at hel hfl
  have hblocks : ∀ e : Element, (∀ item ∈ e.blocks, item.1.listFree = true ∧
      operationsListFree item.2 = true) → ∀ item ∈ Element.sorted e.blocks,
      item.1.listFree = true ∧ operationsListFree item.2 = true :=
    fun e h item hi => h item ((Element.sorted_perm e.blocks).mem_iff.mp hi)
  simp only [elementBody, Element.sortedBlocks_eq, counted_map, List.append_assoc] at h
  obtain ⟨harchetype, h⟩ := delimited_flag e.archetype .intro h
  obtain ⟨hblocks, h⟩ := delimited_counted (fun item hi => delimited_item (hblocks e hel.1 item hi))
    (hblocks f hfl.1) h
  obtain ⟨hvalues, h⟩ := delimited_counted (fun g hg => delimited_function (hel.2 g hg)) hfl.2 h
  obtain ⟨hpermissions, h⟩ := delimited_permissions e.permissions .intro h
  obtain ⟨hnames, h⟩ := delimited_words e.names .intro h
  obtain ⟨htags, hrest⟩ := delimited_words e.tags .intro h
  have hfunctions : e.functions = f.functions := by
    rw [← foldl_insert_values Function.name he.functions, hvalues,
      foldl_insert_values Function.name hf.functions]
  refine ⟨?_, hrest⟩
  cases e
  simp_all [Element.stored]

theorem element_unlinked (e : Element) : element e.unlinked = element e := by
  rw [element, element, ← Element.elementBody_stored e]
  rfl

theorem counted_elementsOf (s : Story) (kind : ElementKind) :
    counted element (s.elementsOf kind) =
      counted element ((s.elementsOf kind).map Element.unlinked) := by
  simp only [counted_map, element_unlinked]

theorem delimited_element {kind : ElementKind} (he : e.Grouped kind) :
    Delimited element (Element.Grouped kind) e := by
  intro f rest rest' hf h
  rw [element, element, List.append_assoc, List.append_assoc] at h
  obtain ⟨hidentity, h⟩ := delimited_text e.identity .intro h
  obtain ⟨hbody, hrest⟩ := elementBody_delimited he.keyed hf.keyed he.listFree hf.listFree h
  rw [he.stored, hf.stored, hidentity, he.kind, he.parent, ← hf.kind, ← hf.parent] at hbody
  exact ⟨hbody, hrest⟩

theorem delimited_link (link : String × String) :
    Delimited (fun link => text link.1 ++ text link.2) Anything link := by
  intro other rest rest' _ h
  rw [List.append_assoc, List.append_assoc] at h
  obtain ⟨hchild, h⟩ := delimited_text link.1 .intro h
  obtain ⟨hparent, hrest⟩ := delimited_text link.2 .intro h
  exact ⟨Prod.ext hchild hparent, hrest⟩

theorem groups_delimited {α κ : Type} {write : α → Bytes} {P : κ → α → Prop}
    {group group' : κ → List α} (hgroup : ∀ k, ∀ a ∈ group k, Delimited write (P k) a)
    (hgroup' : ∀ k, ∀ b ∈ group' k, P k b) (kinds : List κ) : ∀ {rest rest' : Bytes},
    (kinds.flatMap fun k => counted write (group k)) ++ rest =
      (kinds.flatMap fun k => counted write (group' k)) ++ rest' →
    (∀ k ∈ kinds, group k = group' k) ∧ rest = rest' := by
  induction kinds with
  | nil => exact fun h => ⟨by simp, h⟩
  | cons k kinds ih =>
    intro rest rest' h
    simp only [List.flatMap_cons, List.append_assoc] at h
    obtain ⟨hfirst, h⟩ := delimited_counted (hgroup k) (hgroup' k) h
    obtain ⟨hothers, hrest⟩ := ih h
    refine ⟨fun other ho => ?_, hrest⟩
    rcases List.mem_cons.mp ho with rfl | ho
    · exact hfirst
    · exact hothers other ho

end Bytes

namespace Story

/-- What stands under a key has that key, and the world is the one element of its kind. -/
structure Keyed (s : Story) : Prop where
  world : s.world.Keyed
  world_kind : s.world.kind = .world
  world_identity : s.world.identity = worldIdentity
  world_parent : s.world.parent = none
  action : ∀ {key : String} {a : Action}, s.actions[key]? = some a → a.identity = key
  identity : ∀ {key : String} {e : Element}, s.elements[key]? = some e → e.identity = key
  kind : ∀ {key : String} {e : Element}, s.elements[key]? = some e → e.kind ≠ .world
  element : ∀ {key : String} {e : Element}, s.elements[key]? = some e → e.Keyed

theorem Sound.keyed {s : Story} (h : s.Sound) : s.Keyed where
  world := h.world.keyed
  world_kind := h.world_kind
  world_identity := h.world_identity
  world_parent := h.world_parent
  action := h.action_identity
  identity := h.orderly.identity
  kind := h.orderly.kind
  element he := (h.element he).keyed

theorem Made.keyed {s : Story} (h : s.Made) : s.Keyed := by
  have hkeyed := h.sound.keyed
  exact ⟨hkeyed.world, hkeyed.world_kind, hkeyed.world_identity, hkeyed.world_parent,
    hkeyed.action, hkeyed.identity, hkeyed.kind, hkeyed.element⟩

structure NaNFree (s : Story) : Prop where
  world : s.world.NaNFree
  element : ∀ e ∈ s.elements.values, e.NaNFree

instance (s : Story) : Decidable s.NaNFree :=
  decidable_of_iff (s.world.NaNFree ∧ ∀ e ∈ s.elements.values, e.NaNFree)
    ⟨fun h => ⟨h.1, h.2⟩, fun h => ⟨h.world, h.element⟩⟩

/-- The stories have the same world, actions and elements. The order in which blocks were put and
the headers do not matter. -/
structure SameContent (s t : Story) : Prop where
  world : s.world.Alike t.world
  actions : s.actions = t.actions
  elements : TablesAlike Element.Alike s.elements t.elements

variable {s t : Story}

theorem element_listFree (hl : s.listFree = true) {key : String} {e : Element}
    (he : s.elements[key]? = some e) : e.listFree = true := by
  simp only [listFree, Bool.and_eq_true, List.all_eq_true] at hl
  exact hl.2 e (mem_values.mpr ⟨key, he⟩)

theorem world_listFree (hl : s.listFree = true) : s.world.listFree = true := by
  simp only [listFree, Bool.and_eq_true] at hl
  exact hl.1

theorem SameContent.payload_eq (h : s.SameContent t) (ht : t.Keyed) (hd : t.NaNFree)
    (hl : t.listFree = true) : s.payload = t.payload := by
  have hworld := h.world.stored_eq ht.world hd.world (world_listFree hl)
  have helements : s.stored.elements = t.stored.elements := by
    apply Std.ExtTreeMap.ext_getElem?
    intro key
    rw [stored, stored, Std.ExtTreeMap.getElem?_map, Std.ExtTreeMap.getElem?_map]
    have hkey := h.elements key
    cases he : s.elements[key]? with
    | none =>
      rw [he] at hkey
      cases hf : t.elements[key]? with
      | none => rfl
      | some f =>
        rw [hf] at hkey
        cases hkey
    | some e =>
      obtain ⟨f, hf, halike⟩ := h.elements.entry he
      have hnan : f.NaNFree := hd.element f (mem_values.mpr ⟨key, hf⟩)
      rw [hf, Option.map_some, Option.map_some,
        halike.stored_eq (ht.element hf) hnan (element_listFree hl hf)]
  rw [← payload_stored, ← payload_stored (s := t)]
  simp only [payload, elementsOf, helements]
  simp only [stored, hworld, h.actions]

/-- An element is found again, but for its parent, in a story whose groups look the same. -/
theorem exists_unlinked (hs : s.Keyed) (ht : t.Keyed)
    (hgroups : ∀ kind ∈ fileKinds,
      (s.elementsOf kind).map Element.unlinked = (t.elementsOf kind).map Element.unlinked)
    {key : String} {e : Element} (he : s.elements[key]? = some e) :
    ∃ f, t.elements[key]? = some f ∧ e.unlinked = f.unlinked := by
  have hidentity := hs.identity he
  have hgroup : e ∈ s.elementsOf e.kind := (mem_elementsOf hs.identity).mpr ⟨hidentity ▸ he, rfl⟩
  have hmem : e.unlinked ∈ (t.elementsOf e.kind).map Element.unlinked :=
    hgroups e.kind (mem_fileKinds (hs.kind he)) ▸ List.mem_map_of_mem hgroup
  obtain ⟨f, hf, hsame⟩ := List.mem_map.mp hmem
  have hkey : f.identity = key := (congrArg Element.identity hsame).trans hidentity
  exact ⟨f, hkey ▸ ((mem_elementsOf ht.identity).mp hf).1, hsame.symm⟩

theorem mem_links_elementsOf (h : s.Keyed) {key : String} {e : Element}
    (he : s.elements[key]? = some e) {parent : String} :
    (key, parent) ∈ links (s.elementsOf e.kind) ↔ e.parent = some parent := by
  have hidentity := h.identity he
  rw [mem_links]
  constructor
  · rintro ⟨f, hf, hkey, hp⟩
    have hfound := ((mem_elementsOf h.identity).mp hf).1
    rw [hkey, he] at hfound
    rwa [Option.some.inj hfound]
  · intro hp
    exact ⟨e, (mem_elementsOf h.identity).mpr ⟨hidentity ▸ he, rfl⟩, hidentity, hp⟩

theorem tablesAlike_of_groups (hs : s.Keyed) (ht : t.Keyed)
    (hgroups : ∀ kind ∈ fileKinds,
      (s.elementsOf kind).map Element.unlinked = (t.elementsOf kind).map Element.unlinked)
    (hlinks : ∀ kind ∈ fileKinds, links (s.elementsOf kind) = links (t.elementsOf kind)) :
    TablesAlike Element.Alike s.elements t.elements := by
  intro key
  cases hkey : s.elements[key]? with
  | none =>
    cases hkey' : t.elements[key]? with
    | none => exact .none
    | some f =>
      obtain ⟨e, he, -⟩ := exists_unlinked ht hs (fun kind hk => (hgroups kind hk).symm) hkey'
      rw [hkey] at he
      cases he
  | some e =>
    obtain ⟨f, hf, hsame⟩ := exists_unlinked hs ht hgroups hkey
    have hkind : e.unlinked.kind = f.unlinked.kind := congrArg Element.kind hsame
    rw [Element.unlinked_kind, Element.unlinked_kind] at hkind
    have hparent : e.parent = f.parent := by
      ext parent
      rw [← mem_links_elementsOf hs hkey, hlinks e.kind (mem_fileKinds (hs.kind hkey)), hkind,
        mem_links_elementsOf ht hf]
    rw [hf]
    refine .some (Element.alike_of_stored_eq ?_)
    calc e.stored = { e.unlinked with parent := e.parent } := rfl
      _ = { f.unlinked with parent := f.parent } := by rw [hsame, hparent]
      _ = f.stored := rfl

theorem grouped_of_mem (h : s.Keyed) (hl : s.listFree = true) (kind : ElementKind) :
    ∀ e ∈ (s.elementsOf kind).map Element.unlinked, e.Grouped kind := by
  intro e he
  obtain ⟨e, hmem, rfl⟩ := List.mem_map.mp he
  obtain ⟨hfound, rfl⟩ := (mem_elementsOf h.identity).mp hmem
  exact .unlinked (h.element hfound) (element_listFree hl hfound)

theorem SameContent.of_payload_eq (hs : s.Keyed) (ht : t.Keyed) (hsl : s.listFree = true)
    (htl : t.listFree = true) (h : s.payload = t.payload) : s.SameContent t := by
  -- The parts of the payload are told apart one after another, from the first byte on.
  have hbytes := congrArg (· ++ []) h
  simp only [payload, Bytes.counted_elementsOf, List.append_assoc] at hbytes
  obtain ⟨hworld, hbytes⟩ := Bytes.elementBody_delimited hs.world ht.world (world_listFree hsl)
    (world_listFree htl) hbytes
  obtain ⟨hvalues, hbytes⟩ := Bytes.delimited_counted (fun a _ => Bytes.delimited_action a)
    (fun _ _ => .intro) hbytes
  obtain ⟨hgroups, hbytes⟩ := Bytes.groups_delimited
    (fun kind e he => Bytes.delimited_element (grouped_of_mem hs hsl kind e he))
    (grouped_of_mem ht htl) fileKinds hbytes
  obtain ⟨hlinks, -⟩ := Bytes.groups_delimited (P := fun _ => Anything)
    (fun _ link _ => Bytes.delimited_link link) (fun _ _ _ => .intro) fileKinds hbytes
  refine ⟨Element.alike_of_stored_eq ?_, ?_, tablesAlike_of_groups hs ht hgroups hlinks⟩
  · calc s.world.stored = _ := hworld
      _ = t.world.stored := by
        rw [hs.world_kind, hs.world_identity, hs.world_parent, ← ht.world_kind,
          ← ht.world_identity, ← ht.world_parent]
        rfl
  · rw [← foldl_insert_values Action.identity hs.action, hvalues,
      foldl_insert_values Action.identity ht.action]

/-- However two stories were made, they are written in the same bytes if and only if they have the
same content. Keys of blocks are compared bit for bit; only a NaN among them, which is not the same
key as itself, leaves a choice to the order in which blocks were put. -/
theorem payload_eq_iff_sameContent (hs : s.Made) (ht : t.Made) (hd : t.NaNFree) {b c : Bytes}
    (hb : s.payload? = .ok b) (hc : t.payload? = .ok c) : b = c ↔ s.SameContent t := by
  obtain ⟨hsl, rfl⟩ := payload?_eq_ok hb
  obtain ⟨htl, rfl⟩ := payload?_eq_ok hc
  constructor
  · exact SameContent.of_payload_eq hs.keyed ht.keyed hsl htl
  · exact fun h => h.payload_eq ht.keyed hd htl

end Story

namespace Sample

/-- A world with two blocks and with rooms, each put in the order given. -/
def lodge (title : String) (first second : Entry × Block) (rooms : List Story.Call) : Story :=
  let s := Story.empty.setHeader "Title" title
  let s := (s.editWorld (Element.Edit.block .empty first.1 first.2).apply).2
  let s := (s.editWorld (Element.Edit.block .empty second.1 second.2).apply).2
  s.performAll rooms

theorem lodge_made (title : String) (first second : Entry × Block) (rooms : List Story.Call) :
    (lodge title first second rooms).Made :=
  .built _ ((((Story.Built.empty.setHeader _ _).editWorld _).editWorld _).performAll rooms)

theorem bareHall_built : (bareRoom "hall").Built := bareRoom_built (by decide +kernel)

theorem bareAttic_built : (bareRoom "attic").Built := bareRoom_built (by decide +kernel)

def hallCall : Story.Call := .add (bareRoom "hall") bareHall_built

def atticCall : Story.Call := .add (bareRoom "attic") bareAttic_built

def greeting : Entry × Block := (⟨.start, []⟩, Build.call "shine")

def numbered (x : Float) : Entry × Block := (⟨.onFocus, [.float x]⟩, Build.push (.boolean true))

def hallLodge (zero : Float) : Story :=
  lodge "Spring" greeting (numbered zero) [hallCall, atticCall]

def atticLodge : Story := lodge "Autumn" (numbered 0.0) greeting [atticCall, hallCall]

theorem hallLodge_sameContent : (hallLodge 0.0).SameContent atticLodge := by
  refine ⟨⟨rfl, rfl, rfl, rfl, .swap _ _ _, rfl, rfl, rfl, rfl⟩, rfl, fun key => ?_⟩
  have hhall : (hallLodge 0.0).elements =
      ((∅ : Table Element).insert "hall" (bareRoom "hall")).insert "attic" (bareRoom "attic") := rfl
  have hattic : atticLodge.elements =
      ((∅ : Table Element).insert "attic" (bareRoom "attic")).insert "hall" (bareRoom "hall") := rfl
  have hkey : (hallLodge 0.0).elements[key]? = atticLodge.elements[key]? := by
    simp only [hhall, hattic, Std.ExtTreeMap.getElem?_insert, Std.compare_eq_iff_eq]
    grind
  rw [hkey]
  cases atticLodge.elements[key]? with
  | none => exact .none
  | some e => exact .some (Element.alike_of_stored_eq rfl)

theorem not_sameContent_hallLodge : ¬(hallLodge (-0.0)).SameContent atticLodge := by
  intro h
  have hblocks : atticLodge.world.blocks = [numbered 0.0, greeting] := rfl
  have hnegative : numbered (-0.0) ∈ (hallLodge (-0.0)).world.blocks := .tail _ (.head _)
  have hmem := h.world.blocks.mem_iff.mp hnegative
  have hbits : ∀ item ∈ atticLodge.world.blocks, item.1 ≠ (numbered (-0.0)).1 := by
    rw [hblocks]
    decide +kernel
  exact hbits _ hmem rfl

/-- The two lodges are written in the same bytes, though they were put together in different orders
under different titles. A zero of the other sign is told apart. -/
theorem lodge_payload : ∃ b c d, (hallLodge 0.0).payload? = .ok b ∧ atticLodge.payload? = .ok c ∧
    (hallLodge (-0.0)).payload? = .ok d ∧ b = c ∧ d ≠ c := by
  have hfree : ∀ {s : Story}, s.listFree = true → s.payload? = .ok s.payload := fun h => by
    rw [Story.payload?, h]
    rfl
  have hb := @hfree (hallLodge 0.0) (by decide +kernel)
  have hc := @hfree atticLodge (by decide +kernel)
  have hd := @hfree (hallLodge (-0.0)) (by decide +kernel)
  have hnan : atticLodge.NaNFree := by decide +kernel
  refine ⟨_, _, _, hb, hc, hd, ?_, ?_⟩
  · exact (Story.payload_eq_iff_sameContent (lodge_made ..) (lodge_made ..) hnan hb hc).mpr
      hallLodge_sameContent
  · exact fun h => not_sameContent_hallLodge
      ((Story.payload_eq_iff_sameContent (lodge_made ..) (lodge_made ..) hnan hd hc).mp h)

end Sample

end Fabula
