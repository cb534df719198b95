import Fabula.Proofs.Table
import Fabula.Proofs.Value.Renaming

/-! Stories without list constants, the only ones that have a digest and can be played. What is
found on an element or its ancestors has no list constants either, and which block is found for an
entry does not depend on the places of lists. -/

namespace Fabula

theorem findSome?_congr {α β : Type} {f g : α → Option β} {items : List α}
    (h : ∀ a ∈ items, f a = g a) : items.findSome? f = items.findSome? g := by
  induction items with
  | nil => rfl
  | cons a items ih =>
    rw [List.findSome?_cons, List.findSome?_cons, h a List.mem_cons_self,
      ih fun b hb => h b (List.mem_cons_of_mem a hb)]

theorem find?_congr {α : Type} {f g : α → Bool} {items : List α} (h : ∀ a ∈ items, f a = g a) :
    items.find? f = items.find? g := by
  rw [List.find?_eq_findSome?_guard, List.find?_eq_findSome?_guard]
  refine findSome?_congr fun a ha => ?_
  rw [Option.guard, Option.guard, h a ha]

theorem operationsListFree_iff {block : Block} :
    operationsListFree block = true ↔ ∀ op ∈ block, op.listFree = true := by
  induction block with
  | nil => simp [operationsListFree]
  | cons op block ih => simp [operationsListFree, ih]

namespace Operation

variable {op : Operation}

theorem first_of_listFree (h : op.listFree = true) :
    op.first.all (fun v => !v.isShared) = true := by
  cases op
  simp only [listFree, Bool.and_eq_true] at h
  exact h.1.1.1.1.1.1

theorem block_of_listFree (h : op.listFree = true) (slot : Slot) {block : Block}
    (hb : op.block? slot = some block) : operationsListFree block = true := by
  cases op
  simp only [listFree, Bool.and_eq_true] at h
  obtain ⟨⟨⟨⟨⟨_, hinit⟩, hcondition⟩, hstep⟩, hsuccess⟩, hfailure⟩ := h
  cases slot <;> obtain rfl := hb <;> assumption

end Operation

namespace Story

variable {s : Story}

theorem forall_mem_ancestry {P : Element → Prop}
    (helements : ∀ {key : String} {e : Element}, s.elements[key]? = some e → P e)
    (generations : Nat) {e : Element} (he : P e) : ∀ a ∈ s.ancestry generations e, P a := by
  induction generations generalizing e with
  | zero =>
    intro a ha
    obtain rfl := List.mem_singleton.mp ha
    exact he
  | succ generations ih =>
    intro a ha
    unfold ancestry at ha
    cases hp : s.parent? e with
    | none =>
      rw [hp] at ha
      obtain rfl := List.mem_singleton.mp ha
      exact he
    | some parent =>
      rw [hp] at ha
      have hparent : P parent := by
        unfold parent? at hp
        split at hp
        · cases hp
        · exact helements hp
      rcases List.mem_cons.mp ha with rfl | ha
      · exact he
      · exact ih hparent a ha

theorem forall_mem_lineage {P : Element → Prop} (hworld : P s.world)
    (helements : ∀ {key : String} {e : Element}, s.elements[key]? = some e → P e)
    (identity : String) : ∀ a ∈ s.lineage identity, P a := by
  intro a ha
  unfold lineage at ha
  cases he : s.element? identity with
  | none =>
    rw [he] at ha
    cases ha
  | some e =>
    rw [he] at ha
    refine forall_mem_ancestry helements _ ?_ a ha
    unfold element? at he
    split at he
    · obtain rfl := Option.some.inj he
      exact hworld
    · exact helements he

theorem listFree_of_mem_lineage (h : s.listFree = true) (identity : String) :
    ∀ e ∈ s.lineage identity, e.listFree = true := by
  simp only [listFree, Bool.and_eq_true, List.all_eq_true] at h
  exact forall_mem_lineage h.1 (fun he => h.2 _ (mem_values.mpr ⟨_, he⟩)) identity

end Story

namespace Element

variable {e : Element}

theorem block_listFree (h : e.listFree = true) {heap : Heap} {entry : Entry} {block : Block}
    (hb : e.block? heap entry = some block) : operationsListFree block = true := by
  simp only [listFree, Bool.and_eq_true, List.all_eq_true] at h
  obtain ⟨item, hfound, rfl⟩ := Option.map_eq_some_iff.mp hb
  exact (h.1 item (List.mem_of_find?_eq_some hfound)).2

theorem function_listFree (h : e.listFree = true) {name : String} {f : Function}
    (hf : e.function? name = some f) : operationsListFree f.block = true := by
  simp only [listFree, Bool.and_eq_true, List.all_eq_true] at h
  exact h.2 f (mem_values.mpr ⟨name, hf⟩)

theorem block?_eq {R : Handle → Handle → Prop} {a b : Heap} (hab : a.Mirrors R b)
    (h : e.listFree = true) {entry : Entry} (hentry : entry.listFree = true) :
    e.block? a entry = e.block? b entry := by
  simp only [listFree, Bool.and_eq_true, List.all_eq_true] at h
  unfold block?
  rw [find?_congr fun item hitem => Entry.same_eq hab (h.1 item hitem).1 hentry]

end Element

namespace Story

variable {s : Story}

theorem resolveBlock?_listFree (h : s.listFree = true) {heap : Heap} {identity : String}
    {entry : Entry} {block : Block} (hb : s.resolveBlock? heap identity entry = some block) :
    operationsListFree block = true := by
  obtain ⟨e, he, hblock⟩ := List.exists_of_findSome?_eq_some hb
  exact Element.block_listFree (listFree_of_mem_lineage h identity e he) hblock

theorem resolveFunction?_listFree (h : s.listFree = true) {identity name : String} {f : Function}
    (hf : s.resolveFunction? identity name = some f) : operationsListFree f.block = true := by
  obtain ⟨e, he, hfunction⟩ := List.exists_of_findSome?_eq_some hf
  exact Element.function_listFree (listFree_of_mem_lineage h identity e he) hfunction

theorem resolveBlock?_eq {R : Handle → Handle → Prop} {a b : Heap} (hab : a.Mirrors R b)
    (h : s.listFree = true) (identity : String) {entry : Entry} (hentry : entry.listFree = true) :
    s.resolveBlock? a identity entry = s.resolveBlock? b identity entry :=
  findSome?_congr fun e he =>
    Element.block?_eq hab (listFree_of_mem_lineage h identity e he) hentry

end Story

end Fabula
