import Mathlib.Logic.Relation
import Fabula.Proofs.Session.Cast
import Fabula.Proofs.Value.Renaming

/-! Lineage. As long as no element is its own ancestor, the lineage of an element holds all its
ancestors: the bound on its length is the number of elements, and no element stands in it twice. So
the check that is made before a parent is set keeps every element from becoming its own ancestor. -/

namespace Fabula

open Relation

/-- One more edge closes no cycle unless there was a way back along it. -/
theorem not_transGen_insert {α : Type} {r : α → α → Prop} {c p : α} (hr : ∀ x, ¬ TransGen r x x)
    (hp : ¬ ReflTransGen r p c) (x : α) :
    ¬ TransGen (fun a b => r a b ∨ a = c ∧ b = p) x x := by
  have hsplit : ∀ {y}, TransGen (fun a b => r a b ∨ a = c ∧ b = p) x y →
      TransGen r x y ∨ ReflTransGen r x c ∧ ReflTransGen r p y := by
    intro y h
    induction h with
    | single h =>
      rcases h with h | ⟨rfl, rfl⟩
      · exact .inl (.single h)
      · exact .inr ⟨.refl, .refl⟩
    | tail _ h ih =>
      rcases ih with ih | ⟨hx, hy⟩
      · rcases h with h | ⟨rfl, rfl⟩
        · exact .inl (ih.tail h)
        · exact .inr ⟨ih.to_reflTransGen, .refl⟩
      · rcases h with h | ⟨rfl, rfl⟩
        · exact .inr ⟨hx, hy.tail h⟩
        · exact absurd hy hp
  intro h
  rcases hsplit h with h | ⟨hx, hy⟩
  · exact hr x h
  · exact hp (hy.trans hx)

namespace Story

def Descends (s : Story) (child parent : String) : Prop :=
  ∃ e, s.elements[child]? = some e ∧ e.parent = some parent

def Acyclic (s : Story) : Prop := ∀ identity, ¬ TransGen s.Descends identity identity

theorem Acyclic.mono {s t : Story} (h : s.Acyclic)
    (hts : ∀ x y, t.Descends x y → s.Descends x y) : t.Acyclic :=
  fun identity hc => h identity (TransGen.mono hts _ _ hc)

variable {s : Story}

theorem parent?_eq_some (h : s.Orderly) {e p : Element} (hp : s.parent? e = some p) :
    e.parent = some p.identity ∧ s.elements[p.identity]? = some p := by
  unfold parent? at hp
  split at hp
  · cases hp
  · rename_i parent he
    have hi := h.identity hp
    exact ⟨by rw [hi, he], by rw [hi, hp]⟩

theorem reaches_of_mem_ancestry (h : s.Orderly) (generations : Nat) {e a : Element}
    (he : s.elements[e.identity]? = some e) (ha : a ∈ s.ancestry generations e) :
    s.elements[a.identity]? = some a ∧ ReflTransGen s.Descends e.identity a.identity := by
  induction generations generalizing e with
  | zero =>
    obtain rfl := List.mem_singleton.mp ha
    exact ⟨he, .refl⟩
  | succ generations ih =>
    unfold ancestry at ha
    cases hp : s.parent? e with
    | none =>
      rw [hp] at ha
      obtain rfl := List.mem_singleton.mp ha
      exact ⟨he, .refl⟩
    | some p =>
      rw [hp] at ha
      obtain ⟨hparent, hp'⟩ := parent?_eq_some h hp
      rcases List.mem_cons.mp ha with rfl | ha
      · exact ⟨he, .refl⟩
      · obtain ⟨ha', hr⟩ := ih hp' ha
        exact ⟨ha', hr.head ⟨e, he, hparent⟩⟩

theorem nodup_ancestry (h : s.Orderly) (hc : s.Acyclic) (generations : Nat) {e : Element}
    (he : s.elements[e.identity]? = some e) :
    ((s.ancestry generations e).map Element.identity).Nodup := by
  induction generations generalizing e with
  | zero => simp [ancestry]
  | succ generations ih =>
    unfold ancestry
    cases hp : s.parent? e with
    | none => simp
    | some p =>
      obtain ⟨hparent, hp'⟩ := parent?_eq_some h hp
      refine List.nodup_cons.mpr ⟨?_, ih hp'⟩
      intro hmem
      obtain ⟨a, ha, hi⟩ := List.mem_map.mp hmem
      have hr := (reaches_of_mem_ancestry h generations hp' ha).2
      rw [hi] at hr
      exact hc _ (TransGen.head' ⟨e, he, hparent⟩ hr)

theorem mem_ancestry_self (generations : Nat) (e : Element) : e ∈ s.ancestry generations e := by
  cases generations with
  | zero => exact List.mem_singleton.mpr rfl
  | succ generations =>
    unfold ancestry
    split
    · exact List.mem_singleton.mpr rfl
    · exact List.mem_cons_self

/-- An ancestry that ended before its bound holds the parents of all its members. -/
theorem ancestry_closed (generations : Nat) {e : Element}
    (hl : (s.ancestry generations e).length ≤ generations) :
    ∀ a ∈ s.ancestry generations e, ∀ p, s.parent? a = some p → p ∈ s.ancestry generations e := by
  induction generations generalizing e with
  | zero => simp [ancestry] at hl
  | succ generations ih =>
    intro a ha p hp
    unfold ancestry at ha hl ⊢
    cases he : s.parent? e with
    | none =>
      rw [he] at ha
      obtain rfl := List.mem_singleton.mp ha
      rw [he] at hp
      cases hp
    | some q =>
      rw [he] at ha hl
      have hl' : (s.ancestry generations q).length ≤ generations := by
        simpa using hl
      rcases List.mem_cons.mp ha with rfl | ha
      · rw [he] at hp
        obtain rfl := Option.some.inj hp
        exact List.mem_cons_of_mem _ (mem_ancestry_self generations _)
      · exact List.mem_cons_of_mem _ (ih hl' a ha p hp)

theorem length_ancestry_le (h : s.Orderly) (hc : s.Acyclic) (generations : Nat) {e : Element}
    (he : s.elements[e.identity]? = some e) :
    (s.ancestry generations e).length ≤ s.elements.size := by
  have hkeys : (s.ancestry generations e).map Element.identity ⊆ s.elements.keys := by
    intro identity hmem
    obtain ⟨a, ha, rfl⟩ := List.mem_map.mp hmem
    have hfound := (reaches_of_mem_ancestry h generations he ha).1
    rw [Std.ExtTreeMap.mem_keys, Std.ExtTreeMap.mem_iff_isSome_getElem?, hfound]
    rfl
  have hle := (List.subperm_of_subset (nodup_ancestry h hc generations he) hkeys).length_le
  rwa [List.length_map, Std.ExtTreeMap.length_keys] at hle

theorem mem_ancestry_of_reaches (h : s.Orderly) (hc : s.Acyclic)
    (hknown : ∀ x y, s.Descends x y → ∃ p, s.elements[y]? = some p) {e : Element}
    (he : s.elements[e.identity]? = some e) {identity : String}
    (hr : ReflTransGen s.Descends e.identity identity) :
    ∃ a ∈ s.ancestry s.elements.size e, a.identity = identity := by
  have hl := length_ancestry_le h hc s.elements.size he
  induction hr with
  | refl => exact ⟨e, mem_ancestry_self _ e, rfl⟩
  | @tail x y _ hxy ih =>
    obtain ⟨a, ha, hx⟩ := ih
    obtain ⟨p, hp⟩ := hknown x y hxy
    obtain ⟨a', hfound, hparent⟩ := hxy
    have ha' := (reaches_of_mem_ancestry h _ he ha).1
    rw [hx, hfound] at ha'
    obtain rfl := Option.some.inj ha'
    refine ⟨p, ancestry_closed _ hl a' ha p ?_, h.identity hp⟩
    rw [parent?, hparent]
    exact hp

theorem lineage_eq (h : s.Orderly) {identity : String} {e : Element}
    (he : s.elements[identity]? = some e) : s.lineage identity = s.ancestry s.elements.size e := by
  have hw : identity ≠ worldIdentity := by
    rintro rfl
    rw [h.no_world] at he
    cases he
  rw [lineage, element?, h.folded he, if_neg hw, he]

end Story

end Fabula
