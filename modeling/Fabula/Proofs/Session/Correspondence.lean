import Mathlib.Data.List.Forall2
import Mathlib.Data.Option.Basic
import Fabula.Proofs.Table
import Fabula.Session.Basic

/-! When two states differ in nothing but the places of their lists. Lists that correspond have
corresponding items, each list corresponds to at most one other, and variables hold corresponding
values. Only lists that variables reach matter, and between these the correspondence is a
bijection. -/

namespace Fabula

inductive Value.Alike (R : Handle → Handle → Prop) : Value → Value → Prop
  | list {h k : Handle} (related : R h k) : Alike R (.list h) (.list k)
  | scalar {v : Value} (single : v.isShared = false) : Alike R v v

theorem Value.Alike.mono {R S : Handle → Handle → Prop} (hRS : ∀ h k, R h k → S h k) {v w : Value}
    (h : Alike R v w) : Alike S v w := by
  cases h with
  | list related => exact .list (hRS _ _ related)
  | scalar single => exact .scalar single

theorem Value.Alike.flip {R : Handle → Handle → Prop} {v w : Value} (h : Alike R v w) :
    Alike (flip R) w v := by
  cases h with
  | list related => exact .list related
  | scalar single => exact .scalar single

def TablesAlike {α β : Type} (P : α → β → Prop) (t : Table α) (u : Table β) : Prop :=
  ∀ key : String, Option.Rel P t[key]? u[key]?

theorem TablesAlike.imp {α β : Type} {P Q : α → β → Prop} {t : Table α} {u : Table β}
    (h : TablesAlike P t u)
    (hPQ : ∀ (key : String) (a : α) (b : β), t[key]? = some a → P a b → Q a b) :
    TablesAlike Q t u := by
  intro key
  have hk := h key
  have hq := hPQ key
  generalize t[key]? = a at hk hq ⊢
  generalize u[key]? = b at hk ⊢
  cases hk with
  | some hr => exact .some (hq _ _ rfl hr)
  | none => exact .none

theorem TablesAlike.mono {α β : Type} {P Q : α → β → Prop} (hPQ : ∀ a b, P a b → Q a b)
    {t : Table α} {u : Table β} (h : TablesAlike P t u) : TablesAlike Q t u :=
  h.imp fun _ a b _ => hPQ a b

theorem TablesAlike.flip {α β : Type} {P : α → β → Prop} {t : Table α} {u : Table β}
    (h : TablesAlike P t u) : TablesAlike (flip P) u t := by
  intro key
  have hk := h key
  generalize t[key]? = a at hk ⊢
  generalize u[key]? = b at hk ⊢
  cases hk with
  | some hr => exact .some hr
  | none => exact .none

theorem TablesAlike.entry {α β : Type} {P : α → β → Prop} {t : Table α} {u : Table β}
    (h : TablesAlike P t u) {key : String} {a : α} (ha : t[key]? = some a) :
    ∃ b, u[key]? = some b ∧ P a b := by
  have hk := h key
  rw [ha] at hk
  generalize u[key]? = b at hk ⊢
  cases hk with
  | some hr => exact ⟨_, rfl, hr⟩

theorem TablesAlike.contains_eq {α β : Type} {P : α → β → Prop} {t : Table α} {u : Table β}
    (h : TablesAlike P t u) (key : String) : t.contains key = u.contains key := by
  have hk := h key
  rw [Std.ExtTreeMap.contains_eq_isSome_getElem?, Std.ExtTreeMap.contains_eq_isSome_getElem?]
  generalize t[key]? = a at hk ⊢
  generalize u[key]? = b at hk ⊢
  cases hk with
  | some => rfl
  | none => rfl

theorem TablesAlike.empty {α β : Type} {P : α → β → Prop} :
    TablesAlike P (∅ : Table α) (∅ : Table β) := by
  intro key
  simp only [Std.ExtTreeMap.getElem?_empty]
  exact .none

theorem TablesAlike.insert {α β : Type} {P : α → β → Prop} {t : Table α} {u : Table β}
    (h : TablesAlike P t u) {a : α} {b : β} (hab : P a b) (key : String) :
    TablesAlike P (t.insert key a) (u.insert key b) := by
  intro k
  simp only [Std.ExtTreeMap.getElem?_insert]
  split
  · exact .some hab
  · exact h k

theorem TablesAlike.erase {α β : Type} {P : α → β → Prop} {t : Table α} {u : Table β}
    (h : TablesAlike P t u) (key : String) : TablesAlike P (t.erase key) (u.erase key) := by
  intro k
  simp only [Std.ExtTreeMap.getElem?_erase]
  split
  · exact .none
  · exact h k

theorem TablesAlike.keys_eq {α β : Type} {P : α → β → Prop} {t : Table α} {u : Table β}
    (h : TablesAlike P t u) : t.keys = u.keys := by
  have hbare : t.map (fun _ _ => ()) = u.map (fun _ _ => ()) := by
    apply Std.ExtTreeMap.ext_getElem?
    intro key
    have hk := h key
    rw [Std.ExtTreeMap.getElem?_map, Std.ExtTreeMap.getElem?_map]
    generalize t[key]? = a at hk ⊢
    generalize u[key]? = b at hk ⊢
    cases hk with
    | some => rfl
    | none => rfl
  have hkeys := congrArg Std.ExtTreeMap.keys hbare
  rwa [Std.ExtTreeMap.keys_map, Std.ExtTreeMap.keys_map] at hkeys

theorem TablesAlike.toList {α β : Type} {P : α → β → Prop} {t : Table α} {u : Table β}
    (h : TablesAlike P t u) :
    List.Forall₂ (fun x y => x.1 = y.1 ∧ P x.2 y.2) t.toList u.toList := by
  have hkeys : t.toList.map Prod.fst = u.toList.map Prod.fst := by
    rw [Std.ExtTreeMap.map_fst_toList_eq_keys, Std.ExtTreeMap.map_fst_toList_eq_keys, h.keys_eq]
  refine List.forall₂_iff_get.mpr ⟨by simpa using congrArg List.length hkeys, fun i hi hj => ?_⟩
  have hkey : (t.toList.get ⟨i, hi⟩).1 = (u.toList.get ⟨i, hj⟩).1 := by
    have hget := congrArg (fun keys => keys[i]?) hkeys
    simp only [List.getElem?_map, List.getElem?_eq_getElem hi, List.getElem?_eq_getElem hj,
      Option.map_some] at hget
    exact Option.some.inj hget
  refine ⟨hkey, ?_⟩
  have ht := Std.ExtTreeMap.mem_toList_iff_getElem?_eq_some.mp (List.get_mem t.toList ⟨i, hi⟩)
  have hu := Std.ExtTreeMap.mem_toList_iff_getElem?_eq_some.mp (List.get_mem u.toList ⟨i, hj⟩)
  obtain ⟨b, hb, hab⟩ := h.entry ht
  rw [hkey, hu] at hb
  exact Option.some.inj hb ▸ hab

theorem TablesAlike.values {α β : Type} {P : α → β → Prop} {t : Table α} {u : Table β}
    (h : TablesAlike P t u) : List.Forall₂ P t.values u.values := by
  rw [values_eq_map_toList, values_eq_map_toList]
  refine List.forall₂_map_left_iff.mpr (List.forall₂_map_right_iff.mpr ?_)
  exact h.toList.imp fun _ _ hxy => hxy.2

structure Context.Alike (R : Handle → Handle → Prop) (c d : Context) : Prop where
  element : c.element = d.element
  bindings : TablesAlike (Value.Alike R) c.bindings d.bindings

/-- The relation pairs lists of two heaps one to one, items included. -/
structure Heap.Mirrors (R : Handle → Handle → Prop) (a b : Heap) : Prop where
  right_unique : ∀ {h k k' : Handle}, R h k → R h k' → k = k'
  left_unique : ∀ {h h' k : Handle}, R h k → R h' k → h = h'
  inside : ∀ {h k : Handle}, R h k → h < a.size ∧ k < b.size
  items : ∀ {h k : Handle}, R h k → List.Forall₂ (Value.Alike R) (a.items h) (b.items k)

structure State.Mirrors (R : Handle → Handle → Prop) (s t : State) : Prop where
  heap : s.heap.Mirrors R t.heap
  contexts : TablesAlike (Context.Alike R) s.contexts t.contexts

namespace State

/-- A list that the variables lead to, directly or through other lists. -/
inductive Reaches (st : State) : Handle → Prop
  | held {identity name : String} {c : Context} {h : Handle}
      (found : st.contexts[identity]? = some c) (bound : c.bindings[name]? = some (.list h)) :
      Reaches st h
  | inside {h k : Handle} (reached : Reaches st h) (item : .list k ∈ st.heap.items h) :
      Reaches st k

/-- The relation is a bijection between the lists that two states reach. Corresponding lists have
corresponding items, and every variable holds corresponding values. -/
structure Correspond (R : Handle → Handle → Prop) (s t : State) : Prop extends Mirrors R s t where
  reached : ∀ {h k : Handle}, R h k → s.Reaches h ∧ t.Reaches k
  left_total : ∀ {h : Handle}, s.Reaches h → ∃ k, R h k
  right_total : ∀ {k : Handle}, t.Reaches k → ∃ h, R h k

/-- The states differ in nothing that variables reach but the places of lists. -/
def Isomorphic (s t : State) : Prop := ∃ R : Handle → Handle → Prop, Correspond R s t

end State

theorem exists_alike_of_mem {R : Handle → Handle → Prop} {as bs : List Value}
    (h : List.Forall₂ (Value.Alike R) as bs) {a : Handle} (ha : .list a ∈ as) :
    ∃ b, .list b ∈ bs ∧ R a b := by
  induction h with
  | nil => cases ha
  | cons hv _ ih =>
    rcases List.mem_cons.mp ha with he | ht
    · subst he
      cases hv with
      | list related => exact ⟨_, List.mem_cons_self, related⟩
      | scalar single => cases single
    · obtain ⟨b, hb, hr⟩ := ih ht
      exact ⟨b, List.mem_cons_of_mem _ hb, hr⟩

theorem Value.Alike.restrict {R : Handle → Handle → Prop} {P : Handle → Prop} {v w : Value}
    (h : Alike R v w) (hP : ∀ a, v = .list a → P a) :
    Alike (fun a b => R a b ∧ P a) v w := by
  cases h with
  | list related => exact .list ⟨related, hP _ rfl⟩
  | scalar single => exact .scalar single

theorem forall₂_restrict {R : Handle → Handle → Prop} {P : Handle → Prop} {as bs : List Value}
    (h : List.Forall₂ (Value.Alike R) as bs) (hP : ∀ a, .list a ∈ as → P a) :
    List.Forall₂ (Value.Alike fun a b => R a b ∧ P a) as bs := by
  induction h with
  | nil => exact .nil
  | cons hv _ ih =>
    refine .cons (hv.restrict ?_) (ih fun a ha => hP a (List.mem_cons_of_mem _ ha))
    rintro a rfl
    exact hP a List.mem_cons_self

theorem Heap.Mirrors.flip {R : Handle → Handle → Prop} {a b : Heap} (h : a.Mirrors R b) :
    b.Mirrors (flip R) a where
  right_unique := h.left_unique
  left_unique := h.right_unique
  inside hr := (h.inside hr).symm
  items hr := (h.items hr).flip.imp fun _ _ hv => hv.flip

namespace State.Mirrors

variable {R : Handle → Handle → Prop} {s t : State}

theorem flip (h : Mirrors R s t) : Mirrors (flip R) t s where
  heap := h.heap.flip
  contexts := h.contexts.flip.imp fun _ _ _ _ hc =>
    ⟨hc.element.symm, hc.bindings.flip.imp fun _ _ _ _ hv => hv.flip⟩

theorem partner_of_reaches (h : Mirrors R s t) {a : Handle} (ha : s.Reaches a) :
    ∃ b, R a b ∧ t.Reaches b := by
  induction ha with
  | held found bound =>
    obtain ⟨d, hd, hcd⟩ := h.contexts.entry found
    obtain ⟨w, hw, hvw⟩ := hcd.bindings.entry bound
    cases hvw with
    | list related => exact ⟨_, related, .held hd hw⟩
    | scalar single => cases single
  | inside _ item ih =>
    obtain ⟨b, hr, hb⟩ := ih
    obtain ⟨c, hc, hrc⟩ := exists_alike_of_mem (h.heap.items hr) item
    exact ⟨c, hrc, .inside hb hc⟩

theorem reaches_iff (h : Mirrors R s t) {a b : Handle} (hr : R a b) :
    s.Reaches a ↔ t.Reaches b := by
  constructor
  · intro ha
    obtain ⟨b', hr', hb'⟩ := h.partner_of_reaches ha
    exact h.heap.right_unique hr' hr ▸ hb'
  · intro hb
    obtain ⟨a', hr', ha'⟩ := h.flip.partner_of_reaches hb
    exact h.heap.left_unique hr' hr ▸ ha'

/-- Cut down to the lists that are reached, the relation is a bijection. -/
theorem correspond (h : Mirrors R s t) : Correspond (fun a b => R a b ∧ s.Reaches a) s t where
  heap :=
    { right_unique := fun hr hr' => h.heap.right_unique hr.1 hr'.1
      left_unique := fun hr hr' => h.heap.left_unique hr.1 hr'.1
      inside := fun hr => h.heap.inside hr.1
      items := fun hr => forall₂_restrict (h.heap.items hr.1) fun _ ha => .inside hr.2 ha }
  contexts := h.contexts.imp fun _ _ _ hc hcd =>
    ⟨hcd.element, hcd.bindings.imp fun _ _ _ hv hvw => hvw.restrict (by
      rintro a rfl
      exact .held hc hv)⟩
  reached hr := ⟨hr.2, (h.reaches_iff hr.1).mp hr.2⟩
  left_total ha := by
    obtain ⟨b, hr, -⟩ := h.partner_of_reaches ha
    exact ⟨b, hr, ha⟩
  right_total hb := by
    obtain ⟨a, hr, ha⟩ := h.flip.partner_of_reaches hb
    exact ⟨a, hr, ha⟩

end State.Mirrors

end Fabula
