import Mathlib.Data.List.Nodup
import Fabula.Block.Builder
import Fabula.Proofs.Story.Wording
import Fabula.Request.Profile

/-! What labels by the defining element tell. A block is found by its key and labelled by the text
of the key. So the label names the element whose block runs, unless a nearer element has an entry
that is only written like it. -/

namespace Fabula

def Element.Writes (e : Element) (heap : Heap) (name : String) : Prop :=
  ∃ item ∈ e.blocks, item.1.text heap = name

theorem Element.exists_same {e : Element} {heap : Heap} {entry : Entry} {block : Block}
    (h : e.block? heap entry = some block) : ∃ item ∈ e.blocks, item.1.same heap entry = true := by
  obtain ⟨item, hitem, -⟩ := Option.map_eq_some_iff.mp h
  exact ⟨item, List.mem_of_find?_eq_some hitem, by simpa using List.find?_some hitem⟩

theorem Element.same_of_block?_eq_none {e : Element} {heap : Heap} {entry : Entry}
    (h : e.block? heap entry = none) {item : Entry × Block} (hitem : item ∈ e.blocks) :
    item.1.same heap entry = false := by
  rw [block?, Option.map_eq_none_iff, List.find?_eq_none] at h
  simpa using h item hitem

/-- The block for an entry is the own one of `e`, and the nearer elements of the lineage have
none. -/
structure Story.Supplies (s : Story) (heap : Heap) (identity : String) (entry : Entry)
    (block : Block) (nearer : List Element) (e : Element) : Prop where
  standing : ∃ farther, s.lineage identity = nearer ++ e :: farther
  own : e.block? heap entry = some block
  passed : ∀ a ∈ nearer, a.block? heap entry = none

namespace Story.Supplies

variable {s : Story} {heap : Heap} {identity : String} {entry : Entry} {block : Block}
  {nearer : List Element} {e : Element}

theorem of_resolveBlock? (h : s.resolveBlock? heap identity entry = some block) :
    ∃ nearer e, s.Supplies heap identity entry block nearer e := by
  obtain ⟨nearer, e, farther, hsplit, hown, hpassed⟩ := List.findSome?_eq_some_iff.mp h
  exact ⟨nearer, e, ⟨farther, hsplit⟩, hown, hpassed⟩

variable (h : s.Supplies heap identity entry block nearer e)
include h

/-- The key that was found is written like the entry that was asked for. -/
theorem writes (hexact : ∀ v ∈ entry.values, v.isExact = true) :
    e.Writes heap (entry.text heap) := by
  obtain ⟨item, hitem, hsame⟩ := Element.exists_same h.own
  exact ⟨item, hitem, congrArg (Entry.text heap) (Entry.eq_of_same_exact hexact hsame)⟩

/-- A nearer element whose keys are of the usual forms has none that is only written like the
entry. -/
theorem not_writes (hentry : entry.Usual) (hkeys : ∀ a ∈ nearer, ∀ item ∈ a.blocks, item.1.Usual) :
    ∀ a ∈ nearer, ¬a.Writes heap (entry.text heap) := by
  rintro a ha ⟨item, hitem, htext⟩
  have hsame := Element.same_of_block?_eq_none (h.passed a ha) hitem
  obtain rfl := (hkeys a ha item hitem).eq_of_text hentry htext
  rw [hentry.same_self] at hsame
  cases hsame

end Story.Supplies

namespace Labelling

theorem entryLabel_injective {a b name : String} (h : entryLabel a name = entryLabel b name) :
    a = b := by
  simpa [entryLabel] using h

theorem entryOwner?_eq_some {s : Story} {heap : Heap} {identity name : String} {e : Element} :
    entryOwner? s heap identity name = some e ↔ e.Writes heap name ∧ ∃ nearer farther,
      s.lineage identity = nearer ++ e :: farther ∧ ∀ a ∈ nearer, ¬a.Writes heap name := by
  rw [entryOwner?, List.find?_eq_some_iff_append]
  simp [Element.Writes]

theorem entry?_symbols (s : Story) (heap : Heap) (identity name : String) :
    (symbols.entry? s heap identity name).1 =
      (entryOwner? s heap identity name).map fun e => entryLabel e.identity name := by
  cases h : entryOwner? s heap identity name <;> simp [symbols, entry?, remember, h]

/-- A new labelling names an element of a lineage without repetition exactly if it is the first to
have an entry that is written so. -/
theorem entry?_symbols_eq_some {s : Story} {identity : String}
    (hacyclic : ((s.lineage identity).map Element.identity).Nodup)
    {nearer farther : List Element} {e : Element}
    (hsplit : s.lineage identity = nearer ++ e :: farther) (heap : Heap) (name : String) :
    (symbols.entry? s heap identity name).1 = some (entryLabel e.identity name) ↔
      e.Writes heap name ∧ ∀ a ∈ nearer, ¬a.Writes heap name := by
  rw [entry?_symbols, Option.map_eq_some_iff]
  constructor
  · rintro ⟨owner, howner, hlabel⟩
    obtain ⟨hwrites, before, after, hsplit', hbefore⟩ := entryOwner?_eq_some.mp howner
    have hmem : e ∈ s.lineage identity := by simp [hsplit]
    have hmem' : owner ∈ s.lineage identity := by simp [hsplit']
    -- A label tells no more than an identity, but identities do not repeat in the lineage.
    obtain rfl : owner = e :=
      List.inj_on_of_nodup_map hacyclic hmem' hmem (entryLabel_injective hlabel)
    have hnodup : (nearer ++ owner :: farther).Nodup := hsplit ▸ hacyclic.of_map
    have hnearer : owner ∉ nearer := fun hm =>
      List.disjoint_of_nodup_append hnodup hm List.mem_cons_self
    have hfarther : owner ∉ farther := (List.nodup_cons.mp hnodup.of_append_right).1
    obtain ⟨rfl, -⟩ := (List.append_cons_inj_of_notMem hnearer hfarther).mp
      (hsplit.symm.trans hsplit')
    exact ⟨hwrites, hbefore⟩
  · rintro ⟨hwrites, hnearer⟩
    exact ⟨e, entryOwner?_eq_some.mpr ⟨hwrites, nearer, farther, hsplit, hnearer⟩, rfl⟩

/-- The label of an entry's block and the element whose block runs. In a lineage without repetition
the label names that element exactly if its own key is written like the entry and no nearer element
has a key written so. The first only fails for entries with lists or floats, which can be the same
key and be written in two ways; both hold if the entry and the keys of the nearer elements are of
the usual forms. -/
theorem label_names_supplier {s : Story} {heap : Heap} {identity : String} {entry : Entry}
    {block : Block} (hacyclic : ((s.lineage identity).map Element.identity).Nodup)
    (h : s.resolveBlock? heap identity entry = some block) :
    ∃ nearer e, s.Supplies heap identity entry block nearer e ∧
      ((symbols.entry? s heap identity (entry.text heap)).1 =
          some (entryLabel e.identity (entry.text heap)) ↔
        e.Writes heap (entry.text heap) ∧ ∀ a ∈ nearer, ¬a.Writes heap (entry.text heap)) ∧
      ((∀ v ∈ entry.values, v.isExact = true) → e.Writes heap (entry.text heap)) ∧
      (entry.Usual → (∀ a ∈ nearer, ∀ item ∈ a.blocks, item.1.Usual) →
        (symbols.entry? s heap identity (entry.text heap)).1 =
          some (entryLabel e.identity (entry.text heap))) := by
  obtain ⟨nearer, e, hsupplies⟩ := Story.Supplies.of_resolveBlock? h
  obtain ⟨farther, hsplit⟩ := hsupplies.standing
  have hlabel := entry?_symbols_eq_some hacyclic hsplit heap (entry.text heap)
  refine ⟨nearer, e, hsupplies, hlabel, hsupplies.writes, fun hentry hkeys => ?_⟩
  refine hlabel.mpr ⟨hsupplies.writes hentry.isExact, ?_⟩
  exact hsupplies.not_writes hentry hkeys

end Labelling

namespace Sample

/-- The hero with blocks of their own, who descends from the person. -/
def heir (blocks : List (Entry × Block)) : Element :=
  { kind := .player, identity := "hero", parent := some "person", blocks := blocks }

def person (blocks : List (Entry × Block)) : Element :=
  { kind := .player, identity := "person", archetype := true, blocks := blocks }

def family (own inherited : List (Entry × Block)) : Story where
  elements := ((∅ : Table Element).insert "person" (person inherited)).insert "hero" (heir own)

theorem lineage_family (own inherited : List (Entry × Block)) :
    (family own inherited).lineage "hero" = [heir own, person inherited] := by
  have hfold : Text.fold "hero" = "hero" := by decide +kernel
  have hhero : (family own inherited).element? "hero" = some (heir own) := by
    rw [Story.element?, hfold, if_neg (by decide), family, Std.ExtTreeMap.getElem?_insert_self]
  have hparent : (family own inherited).parent? (heir own) = some (person inherited) := by
    show (((∅ : Table Element).insert "person" (person inherited)).insert "hero"
      (heir own))["person"]? = _
    rw [Std.ExtTreeMap.getElem?_insert, if_neg (by decide +kernel),
      Std.ExtTreeMap.getElem?_insert_self]
  have hsize : (family own inherited).elements.size = 2 := by
    simp [family, Std.ExtTreeMap.size_insert]
  have hnone : (family own inherited).parent? (person inherited) = none := rfl
  simp only [Story.lineage, hhero, hsize, Story.ancestry, hparent, hnone]

theorem nodup_lineage_family (own inherited : List (Entry × Block)) :
    (((family own inherited).lineage "hero").map Element.identity).Nodup := by
  have hne : "hero" ≠ "person" := by decide
  simp [lineage_family, heir, person, hne]

def looking : Entry := ⟨.onAction, [.action "look"]⟩

/-- Written like looking, but nobody ever asks for it. -/
def lookalike : Entry := ⟨.onAction, [.string "look"]⟩

def hello : Block := Build.push (.string "hi") ++ Build.plain (.cue .text)

def plainFamily : Story := family [] [(looking, hello)]

def doubledFamily : Story := family [(lookalike, [])] [(looking, hello)]

theorem supplies_family {own inherited : List (Entry × Block)} {heap : Heap} {entry : Entry}
    {block : Block} {nearer : List Element} {e : Element}
    (h : (family own inherited).Supplies heap "hero" entry block nearer e)
    (hown : (heir own).block? heap entry = none) :
    nearer = [heir own] ∧ e = person inherited := by
  obtain ⟨farther, hsplit⟩ := h.standing
  rw [lineage_family] at hsplit
  cases nearer with
  | nil =>
    obtain ⟨rfl, -⟩ := List.cons.inj hsplit
    cases hown.symm.trans h.own
  | cons a nearer =>
    obtain ⟨rfl, htail⟩ := List.cons.inj hsplit
    cases nearer with
    | nil => exact ⟨rfl, (List.cons.inj htail).1.symm⟩
    | cons => simp at htail

/-- The person's block runs in both stories. The label names the person in the first and the hero in
the second. -/
theorem lookalike_takes_label :
    plainFamily.resolveBlock? .empty "hero" looking = some hello ∧
    (Labelling.symbols.entry? plainFamily .empty "hero" (looking.text .empty)).1 =
      some "entry:person:ONACTION(look)" ∧
    doubledFamily.resolveBlock? .empty "hero" looking = some hello ∧
    (Labelling.symbols.entry? doubledFamily .empty "hero" (looking.text .empty)).1 =
      some "entry:hero:ONACTION(look)" ∧
    ∃ nearer, doubledFamily.Supplies .empty "hero" looking hello nearer
      (person [(looking, hello)]) := by
  have hplain : plainFamily.resolveBlock? .empty "hero" looking = some hello := by
    rw [Story.resolveBlock?, plainFamily, lineage_family]
    rfl
  have hdoubled : doubledFamily.resolveBlock? .empty "hero" looking = some hello := by
    rw [Story.resolveBlock?, doubledFamily, lineage_family]
    rfl
  have hlabel : (Labelling.symbols.entry? doubledFamily .empty "hero" (looking.text .empty)).1 =
      some "entry:hero:ONACTION(look)" := by
    rw [Labelling.entry?_symbols, Labelling.entryOwner?, doubledFamily, lineage_family]
    rfl
  obtain ⟨nearer, e, hsupplies, -, -, husual⟩ :=
    Labelling.label_names_supplier (nodup_lineage_family _ _) hplain
  obtain ⟨nearer', e', hsupplies', -⟩ :=
    Labelling.label_names_supplier (nodup_lineage_family _ _) hdoubled
  obtain ⟨rfl, rfl⟩ := supplies_family hsupplies rfl
  obtain ⟨rfl, rfl⟩ := supplies_family hsupplies' rfl
  refine ⟨hplain, husual (.action _ ⟨by decide, by decide⟩) ?_, hdoubled, hlabel, _, hsupplies'⟩
  simp [heir]

end Sample

end Fabula
