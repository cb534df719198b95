import Fabula.Element.Kind

/-! Tables and sets of words as the lists of their entries: putting the entries into an empty table
one by one gives the table back. A table that never keeps its default is known by what it gives. -/

namespace Fabula

open Std

theorem foldl_insert_toList {α : Type} (t : Table α) :
    t.toList.foldl (fun u item => u.insert item.1 item.2) (∅ : Table α) = t := by
  rw [← ExtTreeMap.ofList_eq_foldl]
  apply ExtTreeMap.ext_getElem?
  intro k
  cases h : t[k]? with
  | none =>
    have hk : (t.toList.map Prod.fst).contains k = false := by
      rw [ExtTreeMap.map_fst_toList_eq_keys]
      simpa using h
    exact ExtTreeMap.getElem?_ofList_of_contains_eq_false hk
  | some v =>
    exact ExtTreeMap.getElem?_ofList_of_mem ReflCmp.compare_self
      ExtTreeMap.distinct_keys_toList (ExtTreeMap.mem_toList_iff_getElem?_eq_some.mpr h)

theorem values_eq_map_toList {α : Type} (t : Table α) : t.values = t.toList.map Prod.snd := by
  have hv : t.values = t.foldr (fun _ v l => v :: l) [] := by
    obtain ⟨⟨t⟩⟩ := t
    rfl
  rw [hv, ExtTreeMap.foldr_eq_foldr_toList]
  induction t.toList with
  | nil => rfl
  | cons item items ih => simp [ih]

theorem mem_values {α : Type} {t : Table α} {v : α} :
    v ∈ t.values ↔ ∃ key : String, t[key]? = some v := by
  simp [values_eq_map_toList, ExtTreeMap.mem_toList_iff_getElem?_eq_some]

theorem forall_of_toList {α : Type} {t : Table α} (P : String → α → Prop)
    (h : ∀ item ∈ t.toList, P item.1 item.2) {key : String} {v : α} (hv : t[key]? = some v) :
    P key v :=
  h (key, v) (ExtTreeMap.mem_toList_iff_getElem?_eq_some.mpr hv)

abbrev Anything {α : Type} : α → Prop := fun _ => True

def Holds {α : Type} (V : α → Prop) (t : Table α) : Prop :=
  ∀ (key : String) (v : α), t[key]? = some v → V v

theorem holds_empty {α : Type} (V : α → Prop) : Holds V ∅ := by
  intro key v hv
  simp at hv

theorem Holds.insert {α : Type} {V : α → Prop} {t : Table α} (h : Holds V t) (key : String) {v : α}
    (hv : V v) : Holds V (t.insert key v) := by
  intro k w hw
  rw [ExtTreeMap.getElem?_insert] at hw
  split at hw
  · cases hw
    exact hv
  · exact h k w hw

theorem Holds.erase {α : Type} {V : α → Prop} {t : Table α} (h : Holds V t) (key : String) :
    Holds V (t.erase key) := by
  intro k w hw
  rw [ExtTreeMap.getElem?_erase] at hw
  split at hw
  · cases hw
  · exact h k w hw

/-- Entries put into a table one by one: a key has one of its entries, or what it had before. -/
theorem getElem?_foldl_insert {α ι : Type} (key : ι → String) (entry : ι → α) (items : List ι)
    (t : Table α) (k : String) :
    (∃ i ∈ items, key i = k ∧
        (items.foldl (fun t i => t.insert (key i) (entry i)) t)[k]? = some (entry i)) ∨
      (∀ i ∈ items, key i ≠ k) ∧
        (items.foldl (fun t i => t.insert (key i) (entry i)) t)[k]? = t[k]? := by
  induction items generalizing t with
  | nil => exact .inr ⟨by simp, rfl⟩
  | cons item items ih =>
    rcases ih (t.insert (key item) (entry item)) with ⟨i, hi, hk, he⟩ | ⟨hno, he⟩
    · exact .inl ⟨i, List.mem_cons_of_mem _ hi, hk, he⟩
    · rw [ExtTreeMap.getElem?_insert] at he
      by_cases hk : key item = k
      · refine .inl ⟨item, List.mem_cons_self, hk, ?_⟩
        simpa [hk] using he
      · refine .inr ⟨?_, by simpa [hk] using he⟩
        intro i hi
        rcases List.mem_cons.mp hi with rfl | hi
        · exact hk
        · exact hno i hi

theorem contains_foldl_insert {α ι : Type} (key : ι → String) (entry : ι → α) {items : List ι}
    {k : String} (h : ∀ i ∈ items, key i ≠ k) :
    (items.foldl (fun t i => t.insert (key i) (entry i)) (∅ : Table α)).contains k = false := by
  rw [ExtTreeMap.contains_eq_isSome_getElem?]
  rcases getElem?_foldl_insert key entry items ∅ k with ⟨i, hi, hk, _⟩ | ⟨_, hget⟩
  · exact absurd hk (h i hi)
  · rw [hget]
    simp

theorem pairwise_values {α : Type} (key : α → String) {t : Table α}
    (h : ∀ {k : String} {a : α}, t[k]? = some a → key a = k) :
    t.values.Pairwise fun a b => key a ≠ key b := by
  rw [values_eq_map_toList, List.pairwise_map]
  refine List.Pairwise.imp_of_mem ?_ ExtTreeMap.distinct_keys_toList
  intro a b ha hb hab
  rw [h (ExtTreeMap.mem_toList_iff_getElem?_eq_some.mp ha),
    h (ExtTreeMap.mem_toList_iff_getElem?_eq_some.mp hb)]
  exact fun he => hab (Std.compare_eq_iff_eq.mpr he)

/-- The entries of a table that know their own keys, put into an empty table one by one. -/
theorem foldl_insert_values {α : Type} (key : α → String) {t : Table α}
    (h : ∀ {k : String} {a : α}, t[k]? = some a → key a = k) :
    t.values.foldl (fun u a => u.insert (key a) a) (∅ : Table α) = t := by
  have hkeys : ∀ (items : List (String × α)) (u : Table α), (∀ item ∈ items, key item.2 = item.1) →
      (items.map Prod.snd).foldl (fun u a => u.insert (key a) a) u =
        items.foldl (fun u item => u.insert item.1 item.2) u := by
    intro items
    induction items with
    | nil => exact fun _ _ => rfl
    | cons item items ih =>
      intro u hu
      rw [List.map_cons, List.foldl_cons, List.foldl_cons, hu item List.mem_cons_self]
      exact ih _ fun other ho => hu other (List.mem_cons_of_mem _ ho)
  rw [values_eq_map_toList, hkeys t.toList ∅ ?_, foldl_insert_toList]
  exact fun item hi => h (ExtTreeMap.mem_toList_iff_getElem?_eq_some.mp hi)

theorem foldl_insert_words (w : Words) :
    w.toList.foldl (fun set word => set.insert word) (∅ : Words) = w := by
  rw [← ExtTreeSet.insertMany_list_eq_foldl]
  apply ExtTreeSet.ext_mem
  intro k
  simp

/-- Tables that give the same entries are the same if neither keeps an entry of the default. -/
theorem eq_of_getD_eq {κ α : Type} [Ord κ] [TransOrd κ] [LawfulEqOrd κ] {t u : ExtTreeMap κ α}
    {d : α} (ht : ∀ k : κ, t[k]? ≠ some d) (hu : ∀ k : κ, u[k]? ≠ some d)
    (h : ∀ k : κ, t[k]?.getD d = u[k]?.getD d) : t = u := by
  apply ExtTreeMap.ext_getElem?
  intro k
  have htk := ht k
  have huk := hu k
  have hk := h k
  generalize t[k]? = a at htk hk ⊢
  generalize u[k]? = b at huk hk ⊢
  cases a with
  | none =>
    cases b with
    | none => rfl
    | some w => exact absurd (congrArg some hk.symm) huk
  | some v =>
    cases b with
    | none => exact absurd (congrArg some hk) htk
    | some w => exact congrArg some hk

end Fabula
