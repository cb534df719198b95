import Fabula.Proofs.Story.Lineage

/-! Stories as they are built: from the empty story, by adding fresh elements and actions, editing
elements and linking parents. However a story is built, every part of it is in order: what stands
under a name has that name, names are folded, no entry stands twice in an element, parents are there
and of the same kind, and no element is its own ancestor. -/

namespace Fabula

/-- The entries are different keys. Entries with lists are left out: no such story can be stored. -/
def KeysDiffer (x y : Entry × Block) : Prop :=
  x.1.listFree = true → y.1.listFree = true → x.1.same .empty y.1 = false

namespace Element

inductive Edit where
  | archetype (marked : Bool)
  | block (heap : Heap) (entry : Entry) (ops : Block)
  | function (f : Function)
  | permissions (t : PermissionTable)
  | name (word : String)
  | tag (word : String)

def Edit.apply : Edit → Element → Except StoryError Element
  | .archetype marked, e => e.setArchetype marked
  | .block heap entry ops, e => .ok (e.addBlock heap entry ops)
  | .function f, e => .ok (e.addFunction f)
  | .permissions t, e => e.setPermissions t
  | .name word, e => e.addName word
  | .tag word, e => e.addTag word

inductive Built : Element → Prop
  | create {kind : ElementKind} {identity : String} {e : Element}
      (made : Element.create kind identity = .ok e) : Built e
  | edit {e e' : Element} (before : Built e) (edit : Edit) (made : edit.apply e = .ok e') : Built e'

structure Sound (e : Element) : Prop where
  folded : Text.fold e.identity = e.identity
  archetype : e.kind = .world → e.archetype = false
  blocks : e.blocks.Pairwise KeysDiffer
  functions : ∀ {name : String} {f : Function}, e.functions[name]? = some f → f.name = name
  permissions : e.permissions ≠ none → e.kind = .player ∨ e.kind = .room
  described : e.kind ≠ .object → e.names = ∅ ∧ e.tags = ∅
  names : ∀ word ∈ e.names, Text.fold word = word
  tags : ∀ word ∈ e.tags, Text.fold word = word

theorem exists_key_of_mem_putBlock {heap : Heap} {entry : Entry} {block : Block}
    {blocks : List (Entry × Block)} {item : Entry × Block}
    (h : item ∈ putBlock heap entry block blocks) :
    item.1 = entry ∨ ∃ other ∈ blocks, other.1 = item.1 := by
  induction blocks with
  | nil =>
    obtain rfl := List.mem_singleton.mp h
    exact .inl rfl
  | cons first rest ih =>
    unfold putBlock at h
    split at h
    · rcases List.mem_cons.mp h with rfl | h
      · exact .inr ⟨first, List.mem_cons_self, rfl⟩
      · exact .inr ⟨item, List.mem_cons_of_mem _ h, rfl⟩
    · rcases List.mem_cons.mp h with rfl | h
      · exact .inr ⟨first, List.mem_cons_self, rfl⟩
      · rcases ih h with h | ⟨other, ho, hk⟩
        · exact .inl h
        · exact .inr ⟨other, List.mem_cons_of_mem _ ho, hk⟩

theorem pairwise_putBlock (heap : Heap) (entry : Entry) (block : Block)
    {blocks : List (Entry × Block)} (h : blocks.Pairwise KeysDiffer) :
    (putBlock heap entry block blocks).Pairwise KeysDiffer := by
  induction blocks with
  | nil => exact List.pairwise_singleton _ _
  | cons first rest ih =>
    obtain ⟨hfirst, hrest⟩ := List.pairwise_cons.mp h
    unfold putBlock
    split
    · exact List.pairwise_cons.mpr ⟨fun item hi => hfirst item hi, hrest⟩
    · rename_i hdiffer
      refine List.pairwise_cons.mpr ⟨fun item hi => ?_, ih hrest⟩
      rcases exists_key_of_mem_putBlock hi with hk | ⟨other, ho, hk⟩
      · intro hl hl'
        rw [hk] at hl' ⊢
        rw [Entry.same_eq (Heap.mirrors_nothing .empty heap) hl hl']
        exact Bool.eq_false_iff.mpr hdiffer
      · have hd := hfirst other ho
        unfold KeysDiffer at hd ⊢
        rwa [hk] at hd

theorem Sound.create {kind : ElementKind} {identity : String} {e : Element}
    (h : Element.create kind identity = .ok e) :
    e.Sound ∧ e.kind ≠ .world ∧ e.parent = none := by
  unfold Element.create at h
  split at h
  · cases h
  · rename_i hk
    split at h
    · cases h
    · obtain rfl := Except.ok.inj h
      refine ⟨⟨Text.fold_fold identity, fun _ => rfl, .nil, ?_, ?_, fun _ => ⟨rfl, rfl⟩, ?_, ?_⟩,
        hk, rfl⟩
      · intro name f hf
        simp at hf
      · exact fun hp => absurd rfl hp
      · intro word hw
        simp at hw
      · intro word hw
        simp at hw

theorem Edit.apply_keeps {edit : Edit} {e e' : Element} (h : edit.apply e = .ok e') :
    e'.kind = e.kind ∧ e'.identity = e.identity ∧ e'.parent = e.parent := by
  cases edit with
  | archetype archetype =>
    simp only [apply, setArchetype] at h
    split at h
    · cases h
    · split at h
      · cases h
      · obtain rfl := Except.ok.inj h
        exact ⟨rfl, rfl, rfl⟩
  | block | function =>
    obtain rfl := Except.ok.inj h
    exact ⟨rfl, rfl, rfl⟩
  | permissions t =>
    simp only [apply, setPermissions] at h
    split at h
    · obtain rfl := Except.ok.inj h
      exact ⟨rfl, rfl, rfl⟩
    · cases h
  | name | tag =>
    simp only [apply, addName, addTag] at h
    split at h
    · obtain rfl := Except.ok.inj h
      exact ⟨rfl, rfl, rfl⟩
    · cases h

theorem folded_insert {words : Words} (h : ∀ word ∈ words, Text.fold word = word) (new : String) :
    ∀ word ∈ words.insert (Text.fold new), Text.fold word = word := by
  intro word hw
  rcases Std.ExtTreeSet.mem_insert.mp hw with he | hw
  · rw [← Std.compare_eq_iff_eq.mp he, Text.fold_fold]
  · exact h word hw

theorem Sound.apply {e e' : Element} (hs : e.Sound) {edit : Edit} (h : edit.apply e = .ok e') :
    e'.Sound := by
  cases edit with
  | archetype archetype =>
    simp only [Edit.apply, setArchetype] at h
    split at h
    · cases h
    · rename_i hk
      split at h
      · cases h
      · obtain rfl := Except.ok.inj h
        exact { hs with archetype := fun hw => absurd hw hk }
  | block heap entry block =>
    obtain rfl := Except.ok.inj h
    exact { hs with blocks := pairwise_putBlock heap entry block hs.blocks }
  | function f =>
    obtain rfl := Except.ok.inj h
    refine { hs with functions := fun {name f'} hf => ?_ }
    simp only [addFunction, Std.ExtTreeMap.getElem?_insert] at hf
    split at hf
    · rename_i hn
      obtain rfl := Option.some.inj hf
      exact Std.compare_eq_iff_eq.mp hn
    · exact hs.functions hf
  | permissions t =>
    simp only [Edit.apply, setPermissions] at h
    split at h
    · rename_i hk
      obtain rfl := Except.ok.inj h
      exact { hs with permissions := fun _ => hk }
    · cases h
  | name new =>
    simp only [Edit.apply, addName] at h
    split at h
    · rename_i hk
      obtain rfl := Except.ok.inj h
      exact { hs with
        described := fun hno => absurd hk hno
        names := folded_insert hs.names new }
    · cases h
  | tag new =>
    simp only [Edit.apply, addTag] at h
    split at h
    · rename_i hk
      obtain rfl := Except.ok.inj h
      exact { hs with
        described := fun hno => absurd hk hno
        tags := folded_insert hs.tags new }
    · cases h

theorem Built.sound {e : Element} (h : e.Built) : e.Sound ∧ e.kind ≠ .world ∧ e.parent = none := by
  induction h with
  | create made => exact Sound.create made
  | edit _ edit made ih =>
    obtain ⟨hkind, _, hparent⟩ := Edit.apply_keeps made
    exact ⟨ih.1.apply made, hkind ▸ ih.2.1, hparent ▸ ih.2.2⟩

end Element

namespace Action

/-- An action made anew, with names, extra strings and the marks that are set freely. -/
inductive Built : Action → Prop
  | create {identity : String} {kind : ActionKind} {a : Action}
      (made : Action.create identity kind = .ok a) : Built a
  | withName {a : Action} (before : Built a) (name : String) : Built (a.withName name)
  | withExtra {a : Action} (before : Built a) (extra : String) : Built (a.withExtra extra)
  | marked {a : Action} (before : Built a) (strict reversed : Bool) :
      Built { a with strict := strict, reversed := reversed }

structure Sound (a : Action) : Prop where
  folded : Text.fold a.identity = a.identity
  names : ∀ word ∈ a.names, Text.fold word = word
  extra : ∀ word ∈ a.extra, Text.fold word = word

theorem Built.sound {a : Action} (h : a.Built) : a.Sound := by
  induction h with
  | create made =>
    unfold Action.create at made
    split at made
    · cases made
    · obtain rfl := Except.ok.inj made
      refine ⟨Text.fold_fold _, ?_, ?_⟩
      · intro word hw
        simp at hw
      · intro word hw
        cases hw
  | withName _ name ih => exact { ih with names := Element.folded_insert ih.names name }
  | withExtra _ extra ih =>
    refine { ih with extra := fun word hw => ?_ }
    rcases List.mem_append.mp hw with hw | hw
    · exact ih.extra word hw
    · rw [List.mem_singleton.mp hw, Text.fold_fold]
  | marked _ _ _ ih => exact ⟨ih.folded, ih.names, ih.extra⟩

end Action

namespace Story

/-- A story made from the empty one with fresh elements and actions. -/
inductive Built : Story → Prop
  | empty : Built .empty
  | setHeader {s : Story} (before : Built s) (key value : String) : Built (s.setHeader key value)
  | addAction {s t : Story} (before : Built s) {a : Action} (fresh : a.Built)
      (made : s.addAction a = .ok t) : Built t
  | addElement {s t : Story} (before : Built s) {e : Element} (fresh : e.Built)
      (made : s.addElement e = .ok t) : Built t
  | editWorld {s : Story} (before : Built s) (edit : Element.Edit) :
      Built (s.editWorld edit.apply).2
  | editElement {s : Story} (before : Built s) (identity : String) (edit : Element.Edit) :
      Built (s.editElement identity edit.apply).2
  | linkParent {s t : Story} (before : Built s) {child parent : String}
      (made : s.linkParent child parent = .ok t) : Built t
  | digest {s : Story} (before : Built s) : Built s.digest.2

structure Sound (s : Story) : Prop where
  orderly : s.Orderly
  header : ∀ {key value : String}, s.header[key]? = some value → Text.fold key = key
  world : s.world.Sound
  world_kind : s.world.kind = .world
  world_identity : s.world.identity = worldIdentity
  world_parent : s.world.parent = none
  action_identity : ∀ {key : String} {a : Action}, s.actions[key]? = some a → a.identity = key
  action : ∀ {key : String} {a : Action}, s.actions[key]? = some a → a.Sound
  element : ∀ {key : String} {e : Element}, s.elements[key]? = some e → e.Sound
  checked : ∀ {key : String} {e : Element}, s.elements[key]? = some e → checkIdentity key = .ok ()
  parent : ∀ {key parent : String} {e : Element}, s.elements[key]? = some e →
    e.parent = some parent → ∃ p, s.elements[parent]? = some p ∧ p.kind = e.kind
  acyclic : s.Acyclic

theorem ne_worldIdentity_of_checked {identity : String} (h : checkIdentity identity = .ok ()) :
    identity ≠ worldIdentity := by
  rintro rfl
  have hw : checkIdentity worldIdentity ≠ .ok () := by decide +kernel
  exact hw h

def putElement (s : Story) (e : Element) : Story :=
  { s with elements := s.elements.insert e.identity e, knownDigest := none }

theorem putElement_get (s : Story) (e : Element) {key : String} {e' : Element}
    (h : (s.putElement e).elements[key]? = some e') :
    key = e.identity ∧ e' = e ∨ s.elements[key]? = some e' := by
  rw [putElement, Std.ExtTreeMap.getElem?_insert] at h
  split at h
  · rename_i hk
    exact .inl ⟨(Std.compare_eq_iff_eq.mp hk).symm, (Option.some.inj h).symm⟩
  · exact .inr h

theorem putElement_descends {s : Story} {e : Element} {x y : String}
    (h : (s.putElement e).Descends x y) :
    x = e.identity ∧ e.parent = some y ∨ s.Descends x y := by
  obtain ⟨e', he, hp⟩ := h
  rcases s.putElement_get e he with ⟨rfl, rfl⟩ | he
  · exact .inl ⟨rfl, hp⟩
  · exact .inr ⟨e', he, hp⟩

/-- An element in order may take the place of one of its kind, or a place that is free. -/
theorem Sound.putElement {s : Story} (h : s.Sound) {e : Element} (he : e.Sound)
    (hkind : e.kind ≠ .world) (hchecked : checkIdentity e.identity = .ok ())
    (hold : ∀ old, s.elements[e.identity]? = some old → old.kind = e.kind)
    (hparent : ∀ parent, e.parent = some parent →
      ∃ p, s.elements[parent]? = some p ∧ p.kind = e.kind)
    (hacyclic : (s.putElement e).Acyclic) : (s.putElement e).Sound where
  orderly :=
    { identity := fun {key e'} hk => by
        rcases s.putElement_get e hk with ⟨rfl, rfl⟩ | hk
        · rfl
        · exact h.orderly.identity hk
      folded := fun {key e'} hk => by
        rcases s.putElement_get e hk with ⟨rfl, rfl⟩ | hk
        · exact he.folded
        · exact h.orderly.folded hk
      kind := fun {key e'} hk => by
        rcases s.putElement_get e hk with ⟨rfl, rfl⟩ | hk
        · exact hkind
        · exact h.orderly.kind hk
      no_world := by
        rw [Story.putElement, Std.ExtTreeMap.getElem?_insert, if_neg, h.orderly.no_world]
        exact fun hw => ne_worldIdentity_of_checked hchecked (Std.compare_eq_iff_eq.mp hw)
      digest := fun hd => by cases hd }
  header := h.header
  world := h.world
  world_kind := h.world_kind
  world_identity := h.world_identity
  world_parent := h.world_parent
  action_identity := h.action_identity
  action := h.action
  element := fun {key e'} hk => by
    rcases s.putElement_get e hk with ⟨rfl, rfl⟩ | hk
    · exact he
    · exact h.element hk
  checked := fun {key e'} hk => by
    rcases s.putElement_get e hk with ⟨rfl, rfl⟩ | hk
    · exact hchecked
    · exact h.checked hk
  parent := fun {key parent e'} hk hp => by
    have hfound : ∃ p, s.elements[parent]? = some p ∧ p.kind = e'.kind := by
      rcases s.putElement_get e hk with ⟨rfl, rfl⟩ | hk
      · exact hparent parent hp
      · exact h.parent hk hp
    obtain ⟨p, hp, hpk⟩ := hfound
    rw [Story.putElement, Std.ExtTreeMap.getElem?_insert]
    split
    · rename_i hi
      obtain rfl := Std.compare_eq_iff_eq.mp hi
      exact ⟨e, rfl, (hold p hp).symm.trans hpk⟩
    · exact ⟨p, hp, hpk⟩
  acyclic := hacyclic

theorem Orderly.of_elements {s t : Story} (h : s.Orderly) (he : t.elements = s.elements)
    (hd : t.knownDigest = none) : t.Orderly := by
  refine ⟨⟨?_, ?_, ?_, ?_⟩, ?_⟩
  · rw [he]
    exact h.identity
  · rw [he]
    exact h.folded
  · rw [he]
    exact h.kind
  · rw [he]
    exact h.no_world
  · intro d hd'
    rw [hd] at hd'
    cases hd'

theorem Sound.forget {s : Story} (h : s.Sound) : Sound { s with knownDigest := none } :=
  { h with orderly := h.orderly.of_elements rfl rfl }

theorem sound_empty : Sound .empty where
  orderly :=
    ⟨⟨fun h => by simp [empty] at h, fun h => by simp [empty] at h, fun h => by simp [empty] at h,
      by simp [empty]⟩, fun h => by cases h⟩
  header h := by simp [empty] at h
  world :=
    ⟨fold_worldIdentity, fun _ => rfl, .nil, fun h => by simp [empty, Element.world] at h,
      fun h => absurd rfl h, fun _ => ⟨rfl, rfl⟩, fun _ h => by simp [empty, Element.world] at h,
      fun _ h => by simp [empty, Element.world] at h⟩
  world_kind := rfl
  world_identity := rfl
  world_parent := rfl
  action_identity h := by simp [empty] at h
  action h := by simp [empty] at h
  element h := by simp [empty] at h
  checked h := by simp [empty] at h
  parent h := by simp [empty] at h
  acyclic := by
    intro identity hc
    obtain ⟨_, ⟨e, he, _⟩, _⟩ := Relation.TransGen.head'_iff.mp hc
    simp [empty] at he

theorem Sound.setHeader {s : Story} (h : s.Sound) (key value : String) :
    (s.setHeader key value).Sound :=
  { h with
    orderly :=
      ⟨⟨h.orderly.identity, h.orderly.folded, h.orderly.kind, h.orderly.no_world⟩, h.orderly.digest⟩
    header := fun {k v} hk => by
      rw [Story.setHeader, Std.ExtTreeMap.getElem?_insert] at hk
      split at hk
      · rename_i he
        rw [← Std.compare_eq_iff_eq.mp he, Text.fold_fold]
      · exact h.header hk }

theorem Sound.addAction {s t : Story} (h : s.Sound) {a : Action} (ha : a.Sound)
    (made : s.addAction a = .ok t) : t.Sound := by
  unfold Story.addAction at made
  split at made
  · cases made
  · obtain rfl := Except.ok.inj made
    have hget : ∀ {key : String} {a' : Action}, (s.actions.insert a.identity a)[key]? = some a' →
        key = a.identity ∧ a' = a ∨ s.actions[key]? = some a' := by
      intro key a' hk
      rw [Std.ExtTreeMap.getElem?_insert] at hk
      split at hk
      · rename_i he
        exact .inl ⟨(Std.compare_eq_iff_eq.mp he).symm, (Option.some.inj hk).symm⟩
      · exact .inr hk
    refine { h with
      orderly := h.orderly.of_elements rfl rfl
      action_identity := fun hk => ?_
      action := fun hk => ?_ }
    · rcases hget hk with ⟨rfl, rfl⟩ | hk
      · rfl
      · exact h.action_identity hk
    · rcases hget hk with ⟨rfl, rfl⟩ | hk
      · exact ha
      · exact h.action hk

theorem Sound.addElement {s t : Story} (h : s.Sound) {e : Element} (he : e.Sound)
    (hparent : e.parent = none) (made : s.addElement e = .ok t) : t.Sound := by
  unfold Story.addElement at made
  split at made
  · cases made
  · rename_i hkind
    split at made
    · cases made
    · rename_i hchecked
      split at made
      · cases made
      · rename_i hfree
        obtain rfl := Except.ok.inj made
        refine h.putElement he hkind hchecked ?_ ?_ (h.acyclic.mono fun x y hxy => ?_)
        · intro old hold
          rw [Std.ExtTreeMap.contains_eq_isSome_getElem?, hold] at hfree
          exact absurd rfl hfree
        · intro parent hp
          rw [hparent] at hp
          cases hp
        · rcases putElement_descends hxy with ⟨_, hp⟩ | hxy
          · rw [hparent] at hp
            cases hp
          · exact hxy

theorem Sound.editWorld {s : Story} (h : s.Sound) (edit : Element.Edit) :
    (s.editWorld edit.apply).2.Sound := by
  unfold Story.editWorld
  simp only
  split
  · rename_i e made
    obtain ⟨hkind, hidentity, hparent⟩ := Element.Edit.apply_keeps made
    exact { h with
      orderly := h.orderly.of_elements rfl rfl
      world := h.world.apply made
      world_kind := hkind.trans h.world_kind
      world_identity := hidentity.trans h.world_identity
      world_parent := hparent.trans h.world_parent }
  · exact h.forget

theorem Sound.editElement {s : Story} (h : s.Sound) (identity : String) (edit : Element.Edit) :
    (s.editElement identity edit.apply).2.Sound := by
  unfold Story.editElement
  simp only
  split
  · exact h.forget
  · rename_i e he
    split
    · rename_i e' made
      obtain ⟨hkind, hidentity, hparent⟩ := Element.Edit.apply_keeps made
      have hkey : e'.identity = Text.fold identity := hidentity.trans (h.orderly.identity he)
      rw [← hkey] at he ⊢
      refine h.putElement ((h.element he).apply made) (hkind ▸ h.orderly.kind he)
        (h.checked he) ?_ ?_ (h.acyclic.mono fun x y hxy => ?_)
      · intro old hold
        rw [he] at hold
        rw [← Option.some.inj hold, hkind]
      · intro parent hp
        rw [hkind]
        exact h.parent he (hparent ▸ hp)
      · rcases putElement_descends hxy with ⟨rfl, hp⟩ | hxy
        · exact ⟨e, he, hparent ▸ hp⟩
        · exact hxy
    · exact h.forget

theorem Sound.element?_of_kind {s : Story} (h : s.Sound) {identity : String} {e : Element}
    (he : s.element? identity = some e) (hk : e.kind ≠ .world) :
    s.elements[Text.fold identity]? = some e := by
  unfold element? at he
  split at he
  · obtain rfl := Option.some.inj he
    exact absurd h.world_kind hk
  · exact he

/-- The check made before a parent is set is enough to keep all elements from being their own
ancestors. -/
theorem Sound.acyclic_link {s : Story} (h : s.Sound) {c p : Element}
    (hp : s.elements[p.identity]? = some p)
    (hcheck : ((s.lineage p.identity).any fun e => e.identity = c.identity) = false) :
    (s.putElement { c with parent := some p.identity }).Acyclic := by
  have hno : ¬ Relation.ReflTransGen s.Descends p.identity c.identity := by
    intro hr
    obtain ⟨a, ha, hi⟩ := mem_ancestry_of_reaches h.orderly h.acyclic
      (fun x y ⟨e, he, hy⟩ => (h.parent he hy).imp fun _ hq => hq.1) hp hr
    rw [lineage_eq h.orderly hp] at hcheck
    exact absurd (List.any_eq_true.mpr ⟨a, ha, decide_eq_true hi⟩) (Bool.eq_false_iff.mp hcheck)
  intro identity hc
  refine not_transGen_insert h.acyclic hno identity (Relation.TransGen.mono ?_ _ _ hc)
  intro x y hxy
  rcases putElement_descends hxy with ⟨hx, hy⟩ | hxy
  · exact .inr ⟨hx, (Option.some.inj hy).symm⟩
  · exact .inl hxy

theorem Sound.linkParent {s t : Story} (h : s.Sound) {child parent : String}
    (made : s.linkParent child parent = .ok t) : t.Sound := by
  unfold Story.linkParent at made
  simp only at made
  split at made
  · cases made
  · cases made
  · rename_i c p hc hp
    split at made
    · cases made
    · rename_i hkind
      split at made
      · cases made
      · rename_i hsame
        have hc' := h.element?_of_kind hc fun hw => hkind (.inl hw)
        have hp' := h.element?_of_kind hp fun hw => hkind (.inr hw)
        rw [Text.fold_fold] at hc' hp'
        have hci := h.orderly.identity hc'
        have hpi := h.orderly.identity hp'
        split at made
        · split at made
          · obtain rfl := Except.ok.inj made
            exact h
          · cases made
        · split at made
          · cases made
          · rename_i hcheck
            obtain rfl := Except.ok.inj made
            rw [← hci, ← hpi] at hcheck ⊢
            rw [← hci] at hc'
            rw [← hpi] at hp'
            have hs := h.element hc'
            have hk : c.kind ≠ .world := h.orderly.kind hc'
            refine h.putElement (e := { c with parent := some p.identity })
              ⟨hs.folded, hs.archetype, hs.blocks, hs.functions, hs.permissions, hs.described,
                hs.names, hs.tags⟩ hk (h.checked hc') ?_ ?_
              (h.acyclic_link hp' (Bool.eq_false_iff.mpr hcheck))
            · intro old hold
              rw [hc'] at hold
              rw [← Option.some.inj hold]
            · intro q hq
              obtain rfl := Option.some.inj hq
              exact ⟨p, hp', (not_ne_iff.mp hsame).symm⟩

theorem Sound.digest {s : Story} (h : s.Sound) : s.digest.2.Sound := by
  have ho := h.orderly.after_digest.1
  unfold Story.digest at ho ⊢
  cases hk : s.knownDigest with
  | some d => exact h
  | none =>
    rw [hk] at ho
    cases hp : s.payload? with
    | error e => exact h
    | ok payload =>
      rw [hp] at ho
      exact { h with orderly := ho }

/-- However a story is built, it is in order. -/
theorem Built.sound {s : Story} (h : s.Built) : s.Sound := by
  induction h with
  | empty => exact sound_empty
  | setHeader _ key value ih => exact ih.setHeader key value
  | addAction _ fresh made ih => exact ih.addAction fresh.sound made
  | addElement _ fresh made ih => exact ih.addElement fresh.sound.1 fresh.sound.2.2 made
  | editWorld _ edit ih => exact ih.editWorld edit
  | editElement _ identity edit ih => exact ih.editElement identity edit
  | linkParent _ made ih => exact ih.linkParent made
  | digest _ ih => exact ih.digest

end Story

end Fabula
