import Mathlib.Data.List.Basic
import Fabula.Story.Element

/-! Entries as text. Entries that are the same key are written alike if there are no lists and no
floats among their values. Not all entries that are written alike are the same key, because the text
of a value does not tell its kind; but those of the usual forms are. -/

namespace Fabula

/-- Text is cut in one way only before the first place of a character. -/
theorem eq_of_append_cons {x x' y y' : List Char} {c : Char} (hx : c ∉ x) (hx' : c ∉ x')
    (h : x ++ c :: y = x' ++ c :: y') : x = x' ∧ y = y' := by
  induction x generalizing x' with
  | nil =>
    cases x' with
    | nil => exact ⟨rfl, (List.cons.inj h).2⟩
    | cons d x' => exact absurd ((List.cons.inj h).1 ▸ List.mem_cons_self) hx'
  | cons d x ih =>
    cases x' with
    | nil => exact absurd ((List.cons.inj h).1 ▸ List.mem_cons_self) hx
    | cons d' x' =>
      obtain ⟨rfl, htail⟩ := List.cons.inj h
      obtain ⟨rfl, hy⟩ := ih (List.not_mem_of_not_mem_cons hx) (List.not_mem_of_not_mem_cons hx')
        htail
      exact ⟨rfl, hy⟩

namespace Value

def isExact : Value → Bool
  | list _ | float _ => false
  | _ => true

theorem eq_of_equals_exact {heap : Heap} {v w : Value} (hw : w.isExact = true)
    (h : equals heap v w = true) : v = w := by
  -- Only two lists are compared by their items.
  have hscalar : equals heap v w = sameScalar v w := by
    cases w with
    | list => cases hw
    | _ => cases v <;> rfl
  rw [hscalar] at h
  cases w with
  | list | float => cases hw
  | _ => cases v <;> simp_all [sameScalar]

theorem eq_of_allPairs_exact {heap : Heap} {vs ws : List Value} (hws : ∀ w ∈ ws, w.isExact = true)
    (h : allPairs (equals heap) vs ws = true) : vs = ws := by
  induction vs generalizing ws with
  | nil =>
    cases ws with
    | nil => rfl
    | cons => cases h
  | cons v vs ih =>
    cases ws with
    | nil => cases h
    | cons w ws =>
      rw [allPairs, Bool.and_eq_true] at h
      obtain ⟨hw, hws⟩ := List.forall_mem_cons.mp hws
      rw [eq_of_equals_exact hw h.1, ih hws h.2]

end Value

namespace Trigger

theorem paren_notMem_name (t : Trigger) : '(' ∉ t.name.toList := by
  cases t <;> decide

theorem ofName?_name (t : Trigger) : ofName? t.name = some t := by
  cases t <;> decide

theorem name_injective {t u : Trigger} (h : t.name = u.name) : t = u := by
  have ht := ofName?_name t
  rw [h, ofName?_name u] at ht
  exact (Option.some.inj ht).symm

end Trigger

namespace Entry

/-- An entry without lists and floats is the same key as no other. -/
theorem eq_of_same_exact {heap : Heap} {a b : Entry} (hb : ∀ v ∈ b.values, v.isExact = true)
    (h : a.same heap b = true) : a = b := by
  obtain ⟨trigger, values⟩ := a
  obtain ⟨trigger', values'⟩ := b
  simp only [same, Bool.and_eq_true, beq_iff_eq] at h
  obtain ⟨rfl, hvalues⟩ := h
  rw [Value.eq_of_allPairs_exact hb hvalues]

def inner (heap : Heap) (e : Entry) : String :=
  String.intercalate ", " (e.values.map (Value.text heap))

theorem text_eq_iff {heap : Heap} {a b : Entry} :
    a.text heap = b.text heap ↔ a.trigger = b.trigger ∧ a.inner heap = b.inner heap := by
  have htext : ∀ e : Entry, (e.text heap).toList =
      e.trigger.name.toList ++ '(' :: ((e.inner heap).toList ++ [')']) := by
    intro e
    simp [text, inner]
  constructor
  · intro h
    have hlist := congrArg String.toList h
    rw [htext, htext] at hlist
    obtain ⟨hname, hrest⟩ := eq_of_append_cons (Trigger.paren_notMem_name _)
      (Trigger.paren_notMem_name _) hlist
    exact ⟨Trigger.name_injective (String.toList_inj.mp hname),
      String.toList_inj.mp (List.append_cancel_right hrest)⟩
  · rintro ⟨htrigger, hinner⟩
    rw [← String.toList_inj, htext, htext, htrigger, hinner]

/-- Text that a comma after it ends. -/
def Word (text : String) : Prop := text ≠ "" ∧ ',' ∉ text.toList

/-- The forms of entries that requests ask for: a trigger alone, a trigger for an action, an action
with another object, and an action in a mode. -/
inductive Usual : Entry → Prop
  | bare (t : Trigger) : Usual ⟨t, []⟩
  | action (t : Trigger) {a : String} (word : Word a) : Usual ⟨t, [.action a]⟩
  | target {a : String} (word : Word a) (object : String) :
      Usual ⟨.onActionWith, [.action a, .element .object object]⟩
  | mode {a : String} (word : Word a) (mode : String) :
      Usual ⟨.onModalAction, [.action a, .string mode]⟩

theorem Usual.isExact {e : Entry} (h : e.Usual) : ∀ v ∈ e.values, v.isExact = true := by
  cases h <;> simp [Value.isExact]

theorem Usual.same_self {heap : Heap} {e : Entry} (h : e.Usual) : e.same heap e = true := by
  cases h <;> simp [same, Value.allPairs, Value.equals, Value.equalInside, Value.sameScalar]

theorem Word.eq_of_pair {a b x y : String} (ha : Word a) (hb : Word b)
    (h : a ++ ", " ++ x = b ++ ", " ++ y) : a = b ∧ x = y := by
  have hlist := congrArg String.toList h
  simp only [String.toList_append, List.append_assoc] at hlist
  obtain ⟨hab, hxy⟩ := eq_of_append_cons ha.2 hb.2 hlist
  exact ⟨String.toList_inj.mp hab, String.toList_inj.mp (List.cons.inj hxy).2⟩

theorem ne_pair {a b x : String} (ha : ',' ∉ a.toList) : a ≠ b ++ ", " ++ x := by
  rintro rfl
  exact ha (by simp)

theorem empty_ne_pair {b x : String} : "" ≠ b ++ ", " ++ x := ne_pair (by simp)

theorem Usual.eq_of_text {heap : Heap} {a b : Entry} (ha : a.Usual) (hb : b.Usual)
    (h : a.text heap = b.text heap) : a = b := by
  obtain ⟨htrigger, hinner⟩ := text_eq_iff.mp h
  cases ha with
  | bare t =>
    obtain rfl : t = b.trigger := htrigger
    cases hb with
    | bare => rfl
    | action _ hb => exact absurd hinner.symm hb.1
    | target | mode => exact absurd hinner empty_ne_pair
  | action t ha =>
    obtain rfl : t = b.trigger := htrigger
    cases hb with
    | bare => exact absurd hinner ha.1
    | action => exact congrArg (fun a => Entry.mk _ [Value.action a]) hinner
    | target | mode => exact absurd hinner (ne_pair ha.2)
  | target ha object =>
    cases hb with
    | bare => exact absurd hinner.symm empty_ne_pair
    | action _ hb => exact absurd hinner.symm (ne_pair hb.2)
    | target hb =>
      obtain ⟨rfl, rfl⟩ := ha.eq_of_pair hb hinner
      rfl
    | mode => cases htrigger
  | mode ha mode =>
    cases hb with
    | bare => exact absurd hinner.symm empty_ne_pair
    | action _ hb => exact absurd hinner.symm (ne_pair hb.2)
    | target => cases htrigger
    | mode hb =>
      obtain ⟨rfl, rfl⟩ := ha.eq_of_pair hb hinner
      rfl

/-- The text of a value does not tell its kind. -/
example : (Entry.mk .onAction [.action "look"]).text .empty =
    (Entry.mk .onAction [.string "look"]).text .empty := rfl

end Entry

end Fabula
