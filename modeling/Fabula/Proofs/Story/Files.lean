import Fabula.Proofs.Session.Correspondence
import Fabula.Proofs.Story.Bodies

/-! A story file gives the story back. The elements are read without their parents, kind by kind,
and then the parents are linked one after another. No link is refused: the story read so far knows
no other descent than the story that was written, so a link that closed a cycle would have closed
one there. -/

namespace Fabula

open Relation

namespace Reader

variable {σ ι κ : Type}

/-- Items read in counted groups, where `reach` is the state that the items read so far led to. -/
theorem takes_groups {step : κ → σ → Reader σ} {write : ι → Bytes} {group : κ → List ι}
    (kinds : List κ) (reach : List ι → σ) (hw : ∀ i, write i ≠ [])
    (h : ∀ before kind i after, kinds.flatMap group = before ++ i :: after → i ∈ group kind →
      Takes (step kind (reach before)) (write i) (reach (before ++ [i]))) :
    Takes (kinds.foldlM (fun s kind => counted (step kind) s) (reach []))
      (kinds.flatMap fun kind => Bytes.counted write (group kind))
      (reach (kinds.flatMap group)) := by
  refine takes_foldlM_reach (fun before : List κ => reach (before.flatMap group)) ?_
  intro before kind after hk
  have hgroup : Takes (counted (step kind) (reach (before.flatMap group ++ [])))
      (Bytes.counted write (group kind)) (reach (before.flatMap group ++ group kind)) := by
    refine takes_counted_reach (fun items => reach (before.flatMap group ++ items))
      (fun i _ => hw i) fun items i rest hi => ?_
    rw [← List.append_assoc]
    refine h _ kind i (rest ++ after.flatMap group) ?_ ?_
    · simp [hk, hi]
    · exact hi ▸ List.mem_append_right _ List.mem_cons_self
  rw [List.append_nil] at hgroup
  rw [List.flatMap_append, List.flatMap_singleton]
  exact hgroup

end Reader

namespace Element

/-- The same element, but for the order of its blocks. -/
structure Alike (e f : Element) : Prop where
  kind : e.kind = f.kind
  identity : e.identity = f.identity
  archetype : e.archetype = f.archetype
  parent : e.parent = f.parent
  blocks : e.blocks.Perm f.blocks
  functions : e.functions = f.functions
  permissions : e.permissions = f.permissions
  names : e.names = f.names
  tags : e.tags = f.tags

theorem alike_stored (e : Element) : e.Alike e.stored :=
  ⟨rfl, rfl, rfl, rfl, (sorted_perm e.blocks).symm, rfl, rfl, rfl, rfl⟩

def Ordered (e : Element) : Prop :=
  e.blocks.Pairwise fun a b => decide (Bytes.entry a.1 ≤ Bytes.entry b.1) = true

instance (e : Element) : Decidable e.Ordered :=
  inferInstanceAs (Decidable (e.blocks.Pairwise _))

theorem Ordered.stored {e : Element} (h : e.Ordered) : e.stored = e := by
  rw [Element.stored, sorted, List.mergeSort_of_pairwise h]

/-- The order of the blocks has no part in the length of an element. -/
theorem length_elementBody (e : Element) : (Bytes.elementBody e).length =
    (Bytes.flag e.archetype ++
      Bytes.counted (fun item => Bytes.entry item.1 ++ Bytes.block item.2) e.blocks ++
      Bytes.counted Bytes.function e.functions.values ++
      Bytes.permissions e.permissions ++ Bytes.words e.names ++ Bytes.words e.tags).length := by
  have hblocks := ((sorted_perm e.blocks).flatMap_right fun item =>
    Bytes.entry item.1 ++ Bytes.block item.2).length_eq
  simp only [Bytes.elementBody, sortedBlocks_eq, Bytes.counted_map, List.length_append]
  simp only [Bytes.counted, List.length_append, hblocks, (sorted_perm e.blocks).length_eq]

theorem listFree_stored (e : Element) : e.stored.listFree = e.listFree := by
  rw [listFree, listFree, stored, (sorted_perm e.blocks).all_eq]

end Element

namespace Story

variable {s : Story}

structure Storable (s : Story) : Prop where
  world : s.world.Storable
  element : ∀ e ∈ s.elements.values, e.Storable
  action : ∀ a ∈ s.actions.values, checkIdentity a.identity = .ok ()

instance (s : Story) : Decidable s.Storable :=
  decidable_of_iff (s.world.Storable ∧ (∀ e ∈ s.elements.values, e.Storable) ∧
      ∀ a ∈ s.actions.values, checkIdentity a.identity = .ok ())
    ⟨fun h => ⟨h.1, h.2.1, h.2.2⟩, fun h => ⟨h.world, h.element, h.action⟩⟩

def inFile (s : Story) : List Element := fileKinds.flatMap s.elementsOf

/-- The children among some elements, with their parents. -/
def links (elements : List Element) : List (String × String) :=
  elements.filterMap fun e => e.parent.map fun parent => (e.identity, parent)

/-- The story as a file has it, with the parents of the given children only. -/
def withLinks (s : Story) (children : List String) : Story :=
  { s with
    world := s.world.stored
    elements := s.elements.map fun key e => if key ∈ children then e.stored else e.unlinked
    knownDigest := none }

theorem Sound.bare_world (h : s.Sound) : s.world.bare = Element.world := by
  rw [Element.bare, h.world_kind, h.world_identity]
  rfl

theorem mem_elementsOf
    (h : ∀ {key : String} {e : Element}, s.elements[key]? = some e → e.identity = key)
    {kind : ElementKind} {e : Element} :
    e ∈ s.elementsOf kind ↔ s.elements[e.identity]? = some e ∧ e.kind = kind := by
  simp only [elementsOf, List.mem_filter, mem_values, decide_eq_true_eq]
  constructor
  · rintro ⟨⟨key, hk⟩, hkind⟩
    exact ⟨by rwa [h hk], hkind⟩
  · rintro ⟨hk, hkind⟩
    exact ⟨⟨e.identity, hk⟩, hkind⟩

theorem mem_inFile (h : s.Orderly) {e : Element} :
    e ∈ s.inFile ↔ s.elements[e.identity]? = some e := by
  simp only [inFile, List.mem_flatMap, mem_elementsOf h.identity]
  constructor
  · exact fun ⟨_, _, hk, _⟩ => hk
  · exact fun hk => ⟨e.kind, mem_fileKinds (h.kind hk), hk, rfl⟩

theorem pairwise_inFile (h : s.Orderly) :
    s.inFile.Pairwise fun e f => e.identity ≠ f.identity := by
  have hkinds : fileKinds.Pairwise (· ≠ ·) := by decide
  refine List.pairwise_flatMap.mpr ⟨fun kind _ => ?_, hkinds.imp ?_⟩
  · exact (pairwise_values Element.identity h.identity).filter _
  intro k l hkl e he f hf hef
  obtain ⟨hek, rfl⟩ := (mem_elementsOf h.identity).mp he
  obtain ⟨hfk, rfl⟩ := (mem_elementsOf h.identity).mp hf
  rw [hef, hfk] at hek
  exact hkl (congrArg Element.kind (Option.some.inj hek).symm)

def withElements (s : Story) (elements : List Element) : Story :=
  { s with
    world := s.world.stored
    elements := elements.foldl (fun t e => t.insert e.identity e.unlinked) ∅
    knownDigest := none }

theorem withElements_inFile (h : s.Orderly) : s.withElements s.inFile = s.withLinks [] := by
  have helements : s.inFile.foldl (fun t e => t.insert e.identity e.unlinked) (∅ : Table Element) =
      s.elements.map fun key e => if key ∈ ([] : List String) then e.stored else e.unlinked := by
    apply Std.ExtTreeMap.ext_getElem?
    intro key
    simp only [List.not_mem_nil, if_false, Std.ExtTreeMap.getElem?_map]
    rcases getElem?_foldl_insert Element.identity Element.unlinked s.inFile ∅ key with
      ⟨e, he, rfl, hget⟩ | ⟨hno, hget⟩
    · rw [hget, (mem_inFile h).mp he]
      rfl
    · rw [hget]
      cases hk : s.elements[key]? with
      | none => simp
      | some e =>
        have hi := h.identity hk
        exact absurd hi (hno e ((mem_inFile h).mpr (hi ▸ hk)))
  rw [withElements, withLinks, helements]

theorem addElement_withElements (h : s.Sound) {before after : List Element} {e : Element}
    (he : s.inFile = before ++ e :: after) :
    (s.withElements before).addElement e.unlinked = .ok (s.withElements (before ++ [e])) := by
  have hkey : s.elements[e.identity]? = some e :=
    (mem_inFile h.orderly).mp (he ▸ List.mem_append_right _ List.mem_cons_self)
  have hfree : (s.withElements before).elements.contains e.identity = false := by
    refine contains_foldl_insert Element.identity Element.unlinked fun other ho => ?_
    have hdiffer := pairwise_inFile h.orderly
    rw [he] at hdiffer
    exact (List.pairwise_append.mp hdiffer).2.2 other ho e List.mem_cons_self
  unfold addElement
  rw [Element.unlinked_kind, if_neg (h.orderly.kind hkey), Element.unlinked_identity,
    h.checked hkey, hfree]
  simp only [withElements, List.foldl_append]
  rfl

theorem withLinks_get (children : List String) {key : String} {e : Element}
    (h : s.elements[key]? = some e) :
    (s.withLinks children).elements[key]? =
      some (if key ∈ children then e.stored else e.unlinked) := by
  rw [withLinks, Std.ExtTreeMap.getElem?_map, h]
  rfl

theorem of_withLinks_get {children : List String} {key : String} {e : Element}
    (h : (s.withLinks children).elements[key]? = some e) :
    ∃ e', s.elements[key]? = some e' ∧ e.identity = e'.identity ∧ e.kind = e'.kind ∧
      (e.parent = e'.parent ∨ e.parent = none) := by
  rw [withLinks, Std.ExtTreeMap.getElem?_map] at h
  obtain ⟨e', he, rfl⟩ := Option.map_eq_some_iff.mp h
  refine ⟨e', he, ?_⟩
  split
  · exact ⟨rfl, rfl, .inl rfl⟩
  · exact ⟨rfl, rfl, .inr rfl⟩

theorem Orderly.withLinks (h : s.Orderly) (children : List String) :
    (s.withLinks children).Orderly where
  identity hk := by
    obtain ⟨e', he, hi, _⟩ := of_withLinks_get hk
    exact hi.trans (h.identity he)
  folded hk := by
    obtain ⟨e', he, _⟩ := of_withLinks_get hk
    exact h.folded he
  kind hk := by
    obtain ⟨e', he, _, hkind, _⟩ := of_withLinks_get hk
    exact hkind ▸ h.kind he
  no_world := by
    rw [Story.withLinks, Std.ExtTreeMap.getElem?_map, h.no_world]
    rfl
  digest hd := by cases hd

theorem descends_of_withLinks {children : List String} {x y : String}
    (h : (s.withLinks children).Descends x y) : s.Descends x y := by
  obtain ⟨e, he, hp⟩ := h
  obtain ⟨e', he', _, _, hparent | hparent⟩ := of_withLinks_get he
  · exact ⟨e', he', hparent ▸ hp⟩
  · rw [hparent] at hp
    cases hp

theorem element?_withLinks (h : s.Sound) (children : List String) {key : String} {e : Element}
    (he : s.elements[key]? = some e) :
    (s.withLinks children).element? key =
      some (if key ∈ children then e.stored else e.unlinked) := by
  rw [element?, h.orderly.folded he, if_neg (ne_worldIdentity_of_checked (h.checked he)),
    withLinks_get children he]

/-- A child that is linked is no ancestor of its parent. -/
theorem not_ancestor_of_parent (h : s.Sound) (children : List String) {child parent : String}
    (hc : s.Descends child parent) :
    (((s.withLinks children).lineage parent).any fun e => e.identity = child) = false := by
  rw [List.any_eq_false]
  intro a ha hi
  obtain ⟨e, he, hp⟩ := hc
  obtain ⟨p, hparent, _⟩ := h.parent he hp
  have ho := h.orderly.withLinks children
  obtain ⟨q, hfound⟩ : ∃ q, (s.withLinks children).elements[parent]? = some q :=
    ⟨_, withLinks_get children hparent⟩
  have hpi := ho.identity hfound
  rw [lineage_eq ho hfound] at ha
  rw [← hpi] at hfound
  have hr := (reaches_of_mem_ancestry ho _ hfound ha).2
  rw [hpi, of_decide_eq_true hi] at hr
  exact h.acyclic child (TransGen.head' ⟨e, he, hp⟩
    (ReflTransGen.mono (fun _ _ hxy => descends_of_withLinks hxy) _ _ hr))

theorem insert_withLinks (children : List String) {e : Element}
    (he : s.elements[e.identity]? = some e) :
    (s.withLinks children).elements.insert e.identity e.stored =
      (s.withLinks (children ++ [e.identity])).elements := by
  apply Std.ExtTreeMap.ext_getElem?
  intro key
  rw [Std.ExtTreeMap.getElem?_insert]
  by_cases hk : e.identity = key
  · rw [if_pos (Std.compare_eq_iff_eq.mpr hk), ← hk, withLinks_get _ he, if_pos]
    exact List.mem_append_right _ List.mem_cons_self
  · have hmem : key ∈ children ++ [e.identity] ↔ key ∈ children := by
      simp [Ne.symm hk]
    rw [if_neg fun h => hk (Std.compare_eq_iff_eq.mp h)]
    simp only [withLinks, Std.ExtTreeMap.getElem?_map, hmem]

/-- A link of the story is never refused. -/
theorem linkParent_withLinks (h : s.Sound) {children : List String} {e : Element} {parent : String}
    (he : s.elements[e.identity]? = some e) (hp : e.parent = some parent)
    (hnew : e.identity ∉ children) :
    (s.withLinks children).linkParent e.identity parent =
      .ok (s.withLinks (children ++ [e.identity])) := by
  obtain ⟨p, hparent, hkind⟩ := h.parent he hp
  have hchild : (s.withLinks children).element? e.identity = some e.unlinked := by
    rw [element?_withLinks h children he, if_neg hnew]
  obtain ⟨q, hq, hqk⟩ : ∃ q, (s.withLinks children).element? parent = some q ∧
      q.kind = e.unlinked.kind := by
    refine ⟨_, element?_withLinks h children hparent, ?_⟩
    split <;> exact hkind
  have hworld : e.unlinked.kind ≠ .world := show e.kind ≠ .world from h.orderly.kind he
  unfold linkParent
  simp only [h.orderly.folded he, h.orderly.folded hparent, hchild, hq]
  rw [hqk, if_neg (not_or.mpr ⟨hworld, hworld⟩), if_neg (not_not.mpr rfl)]
  simp only [Element.unlinked_parent, not_ancestor_of_parent h children ⟨e, he, hp⟩]
  rw [Element.unlinked_link hp, insert_withLinks children he]
  rfl

theorem mem_links {elements : List Element} {child parent : String} :
    (child, parent) ∈ links elements ↔
      ∃ e ∈ elements, e.identity = child ∧ e.parent = some parent := by
  simp [links, and_comm]

theorem pairwise_links (h : s.Orderly) : (links s.inFile).Pairwise fun a b => a.1 ≠ b.1 := by
  refine List.Pairwise.filterMap _ ?_ (pairwise_inFile h)
  intro e f hef a ha b hb
  obtain ⟨_, _, rfl⟩ := Option.map_eq_some_iff.mp ha
  obtain ⟨_, _, rfl⟩ := Option.map_eq_some_iff.mp hb
  exact hef

def stored (s : Story) : Story :=
  { s with
    world := s.world.stored
    elements := s.elements.map fun _ e => e.stored
    knownDigest := some (Digest.of s.payload) }

/-- A file has a story with all blocks in order as it is. -/
theorem stored_of_ordered (hworld : s.world.Ordered)
    (helements : ∀ e ∈ s.elements.values, e.Ordered) :
    s.stored = { s with knownDigest := some (Digest.of s.payload) } := by
  have hsame : s.elements.map (fun _ e => e.stored) = s.elements := by
    refine Std.ExtTreeMap.ext_getElem? fun key => ?_
    rw [Std.ExtTreeMap.getElem?_map]
    cases hk : s.elements[key]? with
    | none => rfl
    | some e => rw [Option.map_some, (helements e (mem_values.mpr ⟨key, hk⟩)).stored]
  rw [stored, hworld.stored, hsame]

theorem withLinks_all (h : s.Orderly) :
    s.withLinks ((links s.inFile).map Prod.fst) = { s.stored with knownDigest := none } := by
  have helements : (s.withLinks ((links s.inFile).map Prod.fst)).elements = s.stored.elements := by
    apply Std.ExtTreeMap.ext_getElem?
    intro key
    simp only [withLinks, stored, Std.ExtTreeMap.getElem?_map]
    refine Option.map_congr fun e he => ?_
    split
    · rfl
    · rename_i hno
      cases hp : e.parent with
      | none => rw [Element.unlinked_of_parent hp]
      | some parent =>
        have hi := h.identity he
        refine absurd (List.mem_map.mpr ⟨(key, parent), mem_links.mpr ⟨e, ?_, hi, hp⟩, rfl⟩) hno
        exact (mem_inFile h).mpr (hi ▸ he)
  exact congrArg (fun elements => ({ s with
    world := s.world.stored, elements := elements, knownDigest := none } : Story)) helements

end Story

namespace Reader

variable {s : Story}

theorem takes_bareWorld :
    Takes (elementBody Element.world) (Bytes.elementBody Element.world) Element.world := by
  have hread := takes_elementBody Story.Built.empty.sound.world (by decide) rfl
  rwa [show Story.empty.world.unlinked = Element.world from
    (Element.unlinked_of_parent rfl).trans (Element.Ordered.stored (by decide))] at hread

theorem takes_addElement (h : s.Sound) (hl : s.listFree = true) {before after : List Element}
    {kind : ElementKind} {e : Element} (he : s.inFile = before ++ e :: after)
    (hk : e ∈ s.elementsOf kind) (ht : e.Storable) :
    Takes (do ofStory (Story.addElement (s.withElements before) (← element kind)))
      (Bytes.element e) (s.withElements (before ++ [e])) := by
  obtain ⟨hkey, rfl⟩ := (Story.mem_elementsOf h.orderly.identity).mp hk
  rw [Story.listFree, Bool.and_eq_true, List.all_eq_true] at hl
  have hmem : e ∈ s.elements.values := mem_values.mpr ⟨_, hkey⟩
  have hread := takes_element (h.element hkey) (h.orderly.kind hkey) (h.checked hkey) ht
    (hl.2 e hmem)
  refine hread.bind_nil ?_
  rw [Story.addElement_withElements h he]
  exact takes_ofStory _

theorem takes_parent (h : s.Sound) {before after : List (String × String)} {kind : ElementKind}
    {link : String × String} (hall : Story.links s.inFile = before ++ link :: after)
    (hk : link ∈ Story.links (s.elementsOf kind)) :
    Takes (parent kind (s.withLinks (before.map Prod.fst)))
      (Bytes.text link.1 ++ Bytes.text link.2)
      (s.withLinks ((before ++ [link]).map Prod.fst)) := by
  obtain ⟨child, parent⟩ := link
  obtain ⟨e, he, rfl, hp⟩ := Story.mem_links.mp hk
  obtain ⟨hkey, rfl⟩ := (Story.mem_elementsOf h.orderly.identity).mp he
  have hnew : e.identity ∉ before.map Prod.fst := by
    intro hmem
    obtain ⟨other, ho, hi⟩ := List.mem_map.mp hmem
    have hdiffer := Story.pairwise_links h.orderly
    rw [hall] at hdiffer
    exact (List.pairwise_append.mp hdiffer).2.2 other ho _ List.mem_cons_self hi
  refine (takes_text e.identity).bind ((takes_text parent).bind_nil ?_)
  rw [Story.element?_withLinks h _ hkey, if_neg hnew, if_pos (by simp),
    Story.linkParent_withLinks h hkey hp hnew, List.map_append]
  exact takes_ofStory _

theorem takes_actions (h : s.Sound)
    (hc : ∀ a ∈ s.actions.values, checkIdentity a.identity = .ok ()) (world : Element) :
    Takes (counted (fun s => do ofStory (Story.addAction s (← action)))
        ({ header := s.header, world := world } : Story))
      (Bytes.counted Bytes.action s.actions.values)
      { header := s.header, world := world, actions := s.actions } := by
  have hall : Takes (counted (fun s => do ofStory (Story.addAction s (← action)))
        ({ header := s.header, world := world } : Story))
      (Bytes.counted Bytes.action s.actions.values)
      { header := s.header, world := world,
        actions := s.actions.values.foldl (fun t a => t.insert a.identity a) ∅ } := by
    refine takes_counted_reach (fun before : List Action => ({
        header := s.header, world := world
        actions := before.foldl (fun t a => t.insert a.identity a) ∅ } : Story))
      (fun a _ => by simp [Bytes.action, Bytes.text_ne_nil]) fun before a after hi => ?_
    have hmem : a ∈ s.actions.values := hi ▸ List.mem_append_right before List.mem_cons_self
    obtain ⟨key, hkey⟩ := mem_values.mp hmem
    refine (takes_action (h.action hkey) (hc a hmem)).bind_nil ?_
    have hdiffer := pairwise_values Action.identity h.action_identity
    rw [hi] at hdiffer
    have hfree := contains_foldl_insert Action.identity (fun a => a) fun other ho =>
      (List.pairwise_append.mp hdiffer).2.2 other ho a List.mem_cons_self
    rw [Story.addAction, hfree, List.foldl_append]
    exact takes_ofStory _
  rwa [foldl_insert_values Action.identity h.action_identity] at hall

theorem takes_payload (h : s.Sound) (ht : s.Storable) (hl : s.listFree = true) :
    Takes (payload s.header) s.payload { s.stored with knownDigest := none } := by
  have hworld : s.world.listFree = true := (Bool.and_eq_true_iff.mp hl).1
  have hbody := takes_elementBody h.world ht.world hworld
  rw [h.bare_world, Element.unlinked_of_parent h.world_parent] at hbody
  have helements : Takes (Story.fileKinds.foldlM (fun s kind =>
      counted (fun s => do ofStory (Story.addElement s (← element kind))) s) (s.withElements []))
      (Story.fileKinds.flatMap fun kind => Bytes.counted Bytes.element (s.elementsOf kind))
      (s.withElements s.inFile) :=
    takes_groups Story.fileKinds s.withElements
      (fun e => by simp [Bytes.element, Bytes.text_ne_nil])
      fun before kind e after he hk => takes_addElement h hl he hk
        (ht.element e (List.mem_of_mem_filter hk))
  have hparents : Takes (Story.fileKinds.foldlM (fun s kind => counted (parent kind) s)
      (s.withLinks [])) (Story.fileKinds.flatMap fun kind => Bytes.parents (s.elementsOf kind))
      (s.withLinks ((Story.links s.inFile).map Prod.fst)) := by
    have hlinks : Story.fileKinds.flatMap (fun kind => Story.links (s.elementsOf kind)) =
        Story.links s.inFile := List.filterMap_flatMap.symm
    rw [← hlinks]
    refine takes_groups Story.fileKinds (fun before => s.withLinks (before.map Prod.fst))
      (fun link => by simp [Bytes.text_ne_nil]) fun before kind link after hi hk => ?_
    exact takes_parent h (hlinks ▸ hi) hk
  rw [Story.withLinks_all h.orderly] at hparents
  rw [Story.withElements_inFile h.orderly] at helements
  simp only [Story.payload, List.append_assoc]
  exact hbody.bind ((takes_actions h ht.action _).bind (helements.bind hparents))

theorem takes_header {header : Table String}
    (h : ∀ {key value : String}, header[key]? = some value → Text.fold key = key) :
    Takes (counted (fun (header : Table String) => do
        let key ← text
        return header.insert (Text.fold key) (← text)) ∅)
      (Bytes.counted (fun item => Bytes.text item.1 ++ Bytes.text item.2) header.toList)
      header := by
  have hall : Takes (counted (fun (header : Table String) => do
        let key ← text
        return header.insert (Text.fold key) (← text)) ∅)
      (Bytes.counted (fun item => Bytes.text item.1 ++ Bytes.text item.2) header.toList)
      (header.toList.foldl (fun t item => t.insert item.1 item.2) ∅) := by
    refine takes_counted (fun item _ => by simp [Bytes.text_ne_nil]) fun before item after hi => ?_
    have hkey : Text.fold item.1 = item.1 :=
      h (Std.ExtTreeMap.mem_toList_iff_getElem?_eq_some.mp
        (hi ▸ List.mem_append_right before List.mem_cons_self))
    refine (takes_text item.1).bind ?_
    rw [hkey]
    exact (takes_text item.2).map _
  rwa [foldl_insert_toList] at hall

theorem takes_storyFile {header : Table String}
    (h : ∀ {key value : String}, header[key]? = some value → Text.fold key = key)
    (payload : Bytes) :
    Takes storyFile (Story.file header payload) (header, Digest.of payload, payload) := by
  simp only [Story.file, List.append_assoc]
  refine (takes_magic Story.fileMagic).bind ((takes_header h).bind ?_)
  refine (takes_byte Story.fileVersion).bind ?_
  rw [if_neg (not_not.mpr rfl)]
  refine (takes_digest (Digest.length_of payload)).bind ?_
  exact Takes.bind_natural (Nat.le_refl _) ((takes_take payload).map fun bytes =>
    (header, Digest.of payload, bytes))

end Reader

namespace Story

variable {s : Story}

theorem values_stored : s.stored.elements.values = s.elements.values.map Element.stored := by
  rw [values_eq_map_toList, values_eq_map_toList, stored, Std.ExtTreeMap.toList_map]
  simp

theorem elementsOf_stored (kind : ElementKind) :
    s.stored.elementsOf kind = (s.elementsOf kind).map Element.stored := by
  rw [elementsOf, elementsOf, values_stored, List.filter_map]
  rfl

theorem payload_stored : s.stored.payload = s.payload := by
  have helement : ∀ e : Element, Bytes.element e.stored = Bytes.element e := fun e => by
    rw [Bytes.element, Bytes.element, Element.elementBody_stored]
    rfl
  have hparents : ∀ elements : List Element,
      Bytes.parents (elements.map Element.stored) = Bytes.parents elements := fun elements => by
    simp only [Bytes.parents, List.filterMap_map]
    rfl
  simp only [payload, elementsOf_stored, Bytes.counted_map, helement, hparents]
  rw [stored, Element.elementBody_stored]

theorem listFree_stored : s.stored.listFree = s.listFree := by
  rw [listFree, listFree, values_stored, List.all_map]
  simp only [stored, Element.listFree_stored, Function.comp_def]

theorem payload?_eq_ok {bytes : Bytes} (h : s.payload? = .ok bytes) :
    s.listFree = true ∧ bytes = s.payload := by
  unfold payload? at h
  split at h
  · rename_i hl
    exact ⟨hl, (Except.ok.inj h).symm⟩
  · cases h

theorem encode_eq_ok {bytes : Bytes} (h : s.encode = .ok bytes) :
    s.listFree = true ∧ bytes = file s.header s.payload := by
  unfold encode payload? at h
  by_cases hl : s.listFree = true
  · rw [if_pos hl] at h
    exact ⟨hl, (Except.ok.inj h).symm⟩
  · rw [if_neg hl] at h
    cases h

theorem encode_of_listFree (hl : s.listFree = true) :
    s.encode = .ok (file s.header s.payload) := by
  rw [encode, payload?, hl]
  rfl

theorem length_payload_lt {header : Table String} {payload : Bytes}
    (h : (file header payload).length < 0x10000000000000000) :
    payload.length < 0x10000000000000000 := by
  simp only [file, List.length_append] at h
  omega

/-- Of a file with the digest of its payload, the payload decides. -/
theorem decode_file_eq {header : Table String} {payload : Bytes}
    (h : ∀ {key value : String}, header[key]? = some value → Text.fold key = key)
    (hlength : (file header payload).length < 0x10000000000000000) :
    decode (file header payload) = match (Reader.payload header).complete payload with
      | .error e => .error e
      | .ok s => .ok { s with knownDigest := some (Digest.of payload) } := by
  rw [decode, (Reader.takes_storyFile h payload).complete hlength]
  exact if_neg (not_not_intro rfl)

theorem decode_file (h : s.Sound) (ht : s.Storable) (hl : s.listFree = true)
    (hlength : (file s.header s.payload).length < 0x10000000000000000) :
    decode (file s.header s.payload) = .ok s.stored := by
  rw [decode_file_eq h.header hlength,
    (Reader.takes_payload h ht hl).complete (length_payload_lt hlength)]
  rfl

theorem digest_eq (h : s.Orderly) (hl : s.listFree = true) :
    s.digest.1 = .ok (Digest.of s.payload) := by
  unfold digest
  cases hk : s.knownDigest with
  | some d => rw [h.digest hk]
  | none => simp only [payload?, hl, if_true]

/-- A story that was built and written is read back as it was: the same header, world, actions and
elements, with the same digest and, when written again, the same bytes. Counts in a file are numbers
of sixty-four bits, hence the bound on its length. -/
theorem decode_encode {bytes : Bytes} (hb : s.Built) (ht : s.Storable)
    (he : s.encode = .ok bytes) (hlength : bytes.length < 0x10000000000000000) :
    ∃ t, decode bytes = .ok t ∧ t.header = s.header ∧ s.world.Alike t.world ∧
      t.actions = s.actions ∧ TablesAlike Element.Alike s.elements t.elements ∧
      t.digest.1 = s.digest.1 ∧ t.encode = .ok bytes := by
  have h := hb.sound
  obtain ⟨hl, rfl⟩ := encode_eq_ok he
  refine ⟨s.stored, decode_file h ht hl hlength, rfl, s.world.alike_stored, rfl, ?_, ?_, ?_⟩
  · intro key
    rw [stored, Std.ExtTreeMap.getElem?_map]
    cases s.elements[key]? with
    | none => exact .none
    | some e => exact .some e.alike_stored
  · exact (digest_eq h.orderly hl).symm
  · rw [encode, payload?, listFree_stored, hl, payload_stored]
    rfl

end Story

namespace Sample

/-- A story with parts of every kind: a cellar that descends from a chamber, a hero who may not sing
and a lamp that can be lit. -/
def manor : Except StoryError Story := do
  let s := Story.empty.setHeader "Title" "The Manor"
  let light ← Action.create "light" .transitive
  let s ← s.addAction ((light.withName "Light up").withExtra "With")
  let chamber ← (← Element.create .room "chamber").setArchetype true
  let s ← s.addElement chamber
  let s ← s.addElement (← Element.create .room "Cellar")
  let s ← s.linkParent "cellar" "chamber"
  let hero ← (← Element.create .player "hero").setPermissions (.of .forbid ["sing"])
  let s ← s.addElement hero
  let lamp ← (← (← Element.create .object "lamp").addName "Old Lamp").addTag "brass"
  let s ← s.addElement lamp
  let s := (s.editElement "lamp" (Element.Edit.block .empty (.onAction "light")
    (Build.whileLoop (Build.push (.boolean false)) (Build.push (.real 0.5)))).apply).2
  let s := (s.editElement "hero" (Element.Edit.function (.of "Shine" ["On"]
    (Build.push (.object "lamp")))).apply).2
  let s := (s.editWorld (Element.Edit.block .empty ⟨.start, []⟩ (Build.call "shine")).apply).2
  return (s.editWorld (Element.Edit.block .empty ⟨.init, []⟩ []).apply).2

def manorStory : Story := manor.toOption.getD .empty

theorem manor_eq_ok : manor = .ok manorStory := by
  have h : manor.toOption.isSome = true := by decide +kernel
  unfold manorStory
  revert h
  cases manor with
  | ok s => exact fun _ => rfl
  | error e => exact fun h => by cases h

theorem of_bind_eq_ok {α β ε : Type} {x : Except ε α} {f : α → Except ε β} {b : β}
    (h : (x >>= f) = .ok b) : ∃ a, x = .ok a ∧ f a = .ok b := by
  cases x with
  | ok a => exact ⟨a, rfl, h⟩
  | error e => cases h

theorem manorStory_built : manorStory.Built := by
  have h := manor_eq_ok
  unfold manor at h
  obtain ⟨light, hlight, h⟩ := of_bind_eq_ok h
  obtain ⟨s₁, h₁, h⟩ := of_bind_eq_ok h
  obtain ⟨bare, hbare, h⟩ := of_bind_eq_ok h
  obtain ⟨chamber, hchamber, h⟩ := of_bind_eq_ok h
  obtain ⟨s₂, h₂, h⟩ := of_bind_eq_ok h
  obtain ⟨cellar, hcellar, h⟩ := of_bind_eq_ok h
  obtain ⟨s₃, h₃, h⟩ := of_bind_eq_ok h
  obtain ⟨s₄, h₄, h⟩ := of_bind_eq_ok h
  obtain ⟨free, hfree, h⟩ := of_bind_eq_ok h
  obtain ⟨hero, hhero, h⟩ := of_bind_eq_ok h
  obtain ⟨s₅, h₅, h⟩ := of_bind_eq_ok h
  obtain ⟨plain, hplain, h⟩ := of_bind_eq_ok h
  obtain ⟨named, hnamed, h⟩ := of_bind_eq_ok h
  obtain ⟨lamp, hlamp, h⟩ := of_bind_eq_ok h
  obtain ⟨s₆, h₆, h⟩ := of_bind_eq_ok h
  rw [← Except.ok.inj h]
  have b₁ : s₁.Built := .addAction (.setHeader .empty _ _)
    (.withExtra (.withName (.create hlight) _) _) h₁
  have b₂ : s₂.Built := b₁.addElement (.edit (.create hbare) (.archetype true) hchamber) h₂
  have b₄ : s₄.Built := (b₂.addElement (.create hcellar) h₃).linkParent h₄
  have b₅ : s₅.Built := b₄.addElement (.edit (.create hfree) (.permissions _) hhero) h₅
  have b₆ : s₆.Built := b₅.addElement
    (.edit (.edit (.create hplain) (.name _) hnamed) (.tag _) hlamp) h₆
  exact (((b₆.editElement _ _).editElement _ _).editWorld _).editWorld _

theorem decode_manor : ∃ bytes t, manorStory.encode = .ok bytes ∧ Story.decode bytes = .ok t ∧
    t.header = manorStory.header ∧ manorStory.world.Alike t.world ∧
    t.actions = manorStory.actions ∧ TablesAlike Element.Alike manorStory.elements t.elements ∧
    t.digest.1 = manorStory.digest.1 ∧ t.encode = .ok bytes := by
  have hl : manorStory.listFree = true := by decide +kernel
  have he : manorStory.encode = .ok (Story.file manorStory.header manorStory.payload) := by
    rw [Story.encode, Story.payload?, hl]
    rfl
  have hlength :
      (Story.file manorStory.header manorStory.payload).length < 0x10000000000000000 := by
    simp only [Story.file, Story.payload, List.length_append, Digest.length_of,
      Element.length_elementBody manorStory.world]
    decide +kernel
  obtain ⟨t, ht⟩ := Story.decode_encode manorStory_built (by decide +kernel) he hlength
  exact ⟨_, t, he, ht⟩

end Sample

end Fabula
