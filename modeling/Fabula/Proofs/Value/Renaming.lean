import Mathlib.Data.List.Nodup
import Mathlib.Data.List.ProdSigma
import Mathlib.Data.List.Perm.Subperm
import Fabula.Operator
import Fabula.Proofs.Session.Correspondence
import Fabula.Story.Encode

/-! What values show of themselves does not depend on where their lists are. Printing and comparing
lists keep track of the lists they are inside of, and two heaps that mirror each other lead them
along the same paths. The bounds on these paths differ with the sizes of the heaps, but neither is
ever reached, since no list is entered twice on a path. -/

namespace Fabula

theorem map_eq_of_forall₂ {α β γ : Type} {P : α → β → Prop} {f : α → γ} {g : β → γ} {xs : List α}
    {ys : List β} (h : List.Forall₂ P xs ys) (hf : ∀ x y, P x y → f x = g y) :
    xs.map f = ys.map g := by
  induction h with
  | nil => rfl
  | cons hxy _ ih => rw [List.map_cons, List.map_cons, hf _ _ hxy, ih]

theorem length_le_of_nodup {n : Nat} {xs : List Nat} (hn : xs.Nodup) (hx : ∀ x ∈ xs, x < n) :
    xs.length ≤ n := by
  have hsub : xs ⊆ List.range n := fun x hm => List.mem_range.mpr (hx x hm)
  simpa using (List.subperm_of_subset hn hsub).length_le

theorem length_pairs_le_of_nodup {n : Nat} {xs : List (Nat × Nat)} (hn : xs.Nodup)
    (hx : ∀ x ∈ xs, x.1 < n ∧ x.2 < n) : xs.length ≤ n * n := by
  have hsub : xs ⊆ List.range n ×ˢ List.range n := fun x hm =>
    List.mem_product.mpr ⟨List.mem_range.mpr (hx x hm).1, List.mem_range.mpr (hx x hm).2⟩
  simpa [List.length_product] using (List.subperm_of_subset hn hsub).length_le

namespace Value

variable {R : Handle → Handle → Prop} {v v' w w' : Value}

theorem Alike.kind_eq (h : Alike R v w) : v.kind = w.kind := by cases h <;> rfl

theorem Alike.isLiteral_eq (h : Alike R v w) : v.isLiteral = w.isLiteral := by cases h <;> rfl

theorem Alike.isString_eq (h : Alike R v w) : v.isString = w.isString := by cases h <;> rfl

theorem Alike.isNaN_eq (h : Alike R v w) : v.isNaN = w.isNaN := by cases h <;> rfl

theorem Alike.toInteger_eq (h : Alike R v w) : v.toInteger = w.toInteger := by cases h <;> rfl

theorem Alike.toFloat_eq (h : Alike R v w) : v.toFloat = w.toFloat := by cases h <;> rfl

/-- What treats all lists alike gives the same for values that are alike. -/
theorem Alike.apply_eq {α : Type} {f : Value → Value → α}
    (hl : ∀ h k w, f (.list h) w = f (.list k) w) (hr : ∀ h k v, f v (.list h) = f v (.list k))
    (hv : Alike R v v') (hw : Alike R w w') : f v w = f v' w' := by
  have h₁ : f v w = f v' w := by
    cases hv with
    | list => exact hl _ _ w
    | scalar => rfl
  have h₂ : f v' w = f v' w' := by
    cases hw with
    | list => exact hr _ _ v'
    | scalar => rfl
  exact h₁.trans h₂

end Value

namespace Heap.Mirrors

variable {R : Handle → Handle → Prop} {a b : Heap}

theorem length_eq (h : a.Mirrors R b) {p q : Handle} (hr : R p q) :
    (a.items p).length = (b.items q).length := (h.items hr).length_eq

theorem eq_iff_eq (h : a.Mirrors R b) {p q p' q' : Handle} (hr : R p q) (hr' : R p' q') :
    p = p' ↔ q = q' := by
  constructor
  · rintro rfl
    exact h.right_unique hr hr'
  · rintro rfl
    exact h.left_unique hr hr'

theorem mem_iff_mem (h : a.Mirrors R b) {ps qs : List Handle} (hl : List.Forall₂ R ps qs)
    {p q : Handle} (hr : R p q) : p ∈ ps ↔ q ∈ qs := by
  induction hl with
  | nil => simp
  | cons hr' _ ih => rw [List.mem_cons, List.mem_cons, h.eq_iff_eq hr hr', ih]

theorem inside_of_forall₂ (h : a.Mirrors R b) {ps qs : List Handle} (hl : List.Forall₂ R ps qs) :
    (∀ p ∈ ps, p < a.size) ∧ ∀ q ∈ qs, q < b.size := by
  induction hl with
  | nil => simp
  | cons hr _ ih =>
    simp only [List.forall_mem_cons]
    exact ⟨⟨(h.inside hr).1, ih.1⟩, (h.inside hr).2, ih.2⟩

theorem printInside_eq (h : a.Mirrors R b) (style : Value.Style) (m : Nat) :
    ∀ (n : Nat) {ps qs : List Handle} {v w : Value}, List.Forall₂ R ps qs → ps.Nodup → qs.Nodup →
      a.size + 2 ≤ m + ps.length → b.size + 2 ≤ n + qs.length → v.Alike R w →
      Value.printInside style a m ps v = Value.printInside style b n qs w := by
  induction m with
  | zero =>
    intro n ps qs v w hl hp _ hm _ _
    have hle := length_le_of_nodup hp (h.inside_of_forall₂ hl).1
    omega
  | succ m ih =>
    intro n ps qs v w hl hp hq hm hn hv
    have hle := length_le_of_nodup hq (h.inside_of_forall₂ hl).2
    obtain ⟨n, rfl⟩ : ∃ n', n = n' + 1 := ⟨n - 1, by omega⟩
    cases hv with
    | list hr =>
      rename_i p q
      have hc : ps.contains p = qs.contains q := by
        simp only [List.contains_eq_mem, h.mem_iff_mem hl hr]
      simp only [Value.printInside, hc]
      by_cases hopen : qs.contains q = true
      · rw [if_pos hopen, if_pos hopen]
      · rw [if_neg hopen, if_neg hopen]
        have hq' : q ∉ qs := by simpa using hopen
        have hp' : p ∉ ps := fun hmem => hq' ((h.mem_iff_mem hl hr).mp hmem)
        have hitems := map_eq_of_forall₂ (h.items hr) fun v w hv =>
          ih n (.cons hr hl) (List.nodup_cons.mpr ⟨hp', hp⟩) (List.nodup_cons.mpr ⟨hq', hq⟩)
            (by simp only [List.length_cons]; omega) (by simp only [List.length_cons]; omega) hv
        rw [hitems]
    | scalar hs =>
      cases v with
      | list => cases hs
      | _ => rfl

theorem print_eq (h : a.Mirrors R b) (style : Value.Style) {v w : Value} (hv : v.Alike R w) :
    v.print style a = w.print style b :=
  h.printInside_eq style _ _ .nil .nil .nil (by simp) (by simp) hv

theorem text_eq (h : a.Mirrors R b) {v w : Value} (hv : v.Alike R w) : v.text a = w.text b :=
  h.print_eq _ hv

def Both (R : Handle → Handle → Prop) (p q : Handle × Handle) : Prop := R p.1 q.1 ∧ R p.2 q.2

theorem pair_mem_iff_mem (h : a.Mirrors R b) {ps qs : List (Handle × Handle)}
    (hl : List.Forall₂ (Both R) ps qs) {p q : Handle × Handle} (hr : Both R p q) :
    p ∈ ps ↔ q ∈ qs := by
  induction hl with
  | nil => simp
  | cons hr' _ ih =>
    rw [List.mem_cons, List.mem_cons, Prod.ext_iff, Prod.ext_iff, h.eq_iff_eq hr.1 hr'.1,
      h.eq_iff_eq hr.2 hr'.2, ih]

theorem pairs_inside_of_forall₂ (h : a.Mirrors R b) {ps qs : List (Handle × Handle)}
    (hl : List.Forall₂ (Both R) ps qs) :
    (∀ p ∈ ps, p.1 < a.size ∧ p.2 < a.size) ∧ ∀ q ∈ qs, q.1 < b.size ∧ q.2 < b.size := by
  induction hl with
  | nil => simp
  | cons hr _ ih =>
    have h₁ := h.inside hr.1
    have h₂ := h.inside hr.2
    simp only [List.forall_mem_cons]
    exact ⟨⟨⟨h₁.1, h₂.1⟩, ih.1⟩, ⟨h₁.2, h₂.2⟩, ih.2⟩

theorem allPairs_eq {f g : Value → Value → Bool} {vs vs' ws ws' : List Value}
    (hv : List.Forall₂ (Value.Alike R) vs vs') (hw : List.Forall₂ (Value.Alike R) ws ws')
    (hf : ∀ v v' w w', v.Alike R v' → w.Alike R w' → f v w = g v' w') :
    Value.allPairs f vs ws = Value.allPairs g vs' ws' := by
  induction hv generalizing ws ws' with
  | nil =>
    cases hw with
    | nil => rfl
    | cons => rfl
  | cons hvv _ ih =>
    cases hw with
    | nil => rfl
    | cons hww hws => rw [Value.allPairs, Value.allPairs, hf _ _ _ _ hvv hww, ih hws]

theorem equalInside_eq (h : a.Mirrors R b) (m : Nat) :
    ∀ (n : Nat) {ps qs : List (Handle × Handle)} {v v' w w' : Value},
      List.Forall₂ (Both R) ps qs → ps.Nodup → qs.Nodup →
      a.size * a.size + 2 ≤ m + ps.length → b.size * b.size + 2 ≤ n + qs.length →
      v.Alike R v' → w.Alike R w' →
      Value.equalInside a m ps v w = Value.equalInside b n qs v' w' := by
  induction m with
  | zero =>
    intro n ps qs v v' w w' hl hp _ hm _ _ _
    have hle := length_pairs_le_of_nodup hp (h.pairs_inside_of_forall₂ hl).1
    omega
  | succ m ih =>
    intro n ps qs v v' w w' hl hp hq hm hn hv hw
    have hle := length_pairs_le_of_nodup hq (h.pairs_inside_of_forall₂ hl).2
    obtain ⟨n, rfl⟩ : ∃ n', n = n' + 1 := ⟨n - 1, by omega⟩
    cases hv with
    | scalar hs =>
      cases v with
      | list => cases hs
      | _ =>
        cases hw with
        | list => rfl
        | scalar => rfl
    | list hr =>
      cases hw with
      | scalar hs =>
        cases w with
        | list => cases hs
        | _ => rfl
      | list hr' =>
        rename_i p q p' q'
        have hboth : Both R (p, p') (q, q') := ⟨hr, hr'⟩
        have hmem := h.pair_mem_iff_mem hl hboth
        have hc : ps.contains (p, p') = qs.contains (q, q') := by
          simp only [List.contains_eq_mem, hmem]
        simp only [Value.equalInside, hc, size_cell, h.length_eq hr, h.length_eq hr']
        by_cases hopen : qs.contains (q, q') = true
        · rw [if_pos hopen, if_pos hopen]
        · rw [if_neg hopen, if_neg hopen]
          have hq' : (q, q') ∉ qs := by simpa using hopen
          have hp' : (p, p') ∉ ps := fun hm => hq' (hmem.mp hm)
          congr 1
          exact allPairs_eq (h.items hr) (h.items hr') fun v v' w w' hv hw =>
            ih n (.cons hboth hl) (List.nodup_cons.mpr ⟨hp', hp⟩) (List.nodup_cons.mpr ⟨hq', hq⟩)
              (by simp only [List.length_cons]; omega)
              (by simp only [List.length_cons]; omega) hv hw

theorem equals_eq (h : a.Mirrors R b) {v v' w w' : Value} (hv : v.Alike R v') (hw : w.Alike R w') :
    v.equals a w = v'.equals b w' :=
  h.equalInside_eq _ _ .nil .nil .nil (by simp) (by simp) hv hw

theorem truth_eq (h : a.Mirrors R b) {v w : Value} (hv : v.Alike R w) :
    v.truth a = w.truth b := by
  cases hv with
  | list hr =>
    have hlen := h.length_eq hr
    rw [Value.truth, Value.truth, Bool.not_inj_iff, Bool.eq_iff_iff,
      Array.isEmpty_iff_size_eq_zero, Array.isEmpty_iff_size_eq_zero, size_cell, size_cell, hlen]
  | scalar hs =>
    cases v with
    | list => cases hs
    | _ => rfl

theorem valueLength_eq (h : a.Mirrors R b) {v w : Value} (hv : v.Alike R w) :
    v.length a = w.length b := by
  cases hv with
  | list hr => exact h.length_eq hr
  | scalar hs =>
    cases v with
    | list => cases hs
    | _ => rfl

theorem comparable_eq {v v' w w' : Value} (hv : v.Alike R v') (hw : w.Alike R w') :
    Value.comparable v w = Value.comparable v' w' := by
  simp only [Value.comparable, hv.isLiteral_eq, hw.isLiteral_eq, hv.isNaN_eq, hw.isNaN_eq]

theorem looselyEquals_eq (h : a.Mirrors R b) {v v' w w' : Value} (hv : v.Alike R v')
    (hw : w.Alike R w') : v.looselyEquals a w = v'.looselyEquals b w' := by
  simp only [Value.looselyEquals, comparable_eq hv hw, h.equals_eq hv hw, hv.isString_eq,
    hw.isString_eq, h.text_eq hv, h.text_eq hw, hv.toFloat_eq, hw.toFloat_eq]

theorem order?_eq (h : a.Mirrors R b) {v v' w w' : Value} (hv : v.Alike R v')
    (hw : w.Alike R w') : v.order? a w = v'.order? b w' := by
  simp only [Value.order?, comparable_eq hv hw, hv.isString_eq, hw.isString_eq, h.text_eq hv,
    h.text_eq hw, hv.toFloat_eq, hw.toFloat_eq]

theorem applyUnary_eq (h : a.Mirrors R b) (op : Operator) {v w : Value} (hv : v.Alike R w) :
    op.applyUnary a v = op.applyUnary b w := by
  have htruth := h.truth_eq hv
  cases hv with
  | list => cases op <;> rfl
  | scalar =>
    cases op with
    | logicalNot => simp only [Operator.applyUnary, Value.logicalNot, htruth]
    | _ => rfl

theorem applyBinary_eq (h : a.Mirrors R b) (op : Operator) {v v' w w' : Value}
    (hv : v.Alike R v') (hw : w.Alike R w') :
    op.applyBinary a v w = op.applyBinary b v' w' := by
  cases op with
  | absolute | negate | logicalNot | complement => rfl
  | add =>
    have hsum : Value.arithmetic (· || ·) (· + ·) (· + ·) v w =
        Value.arithmetic (· || ·) (· + ·) (· + ·) v' w' := by
      refine hv.apply_eq ?_ ?_ hw
      · intro p q w
        cases w <;> rfl
      · intro p q v
        cases v <;> rfl
    simp only [Operator.applyBinary, Value.add, hv.isString_eq, hw.isString_eq, h.text_eq hv,
      h.text_eq hw, hsum]
  | logicalAnd | logicalOr | logicalXor =>
    simp only [Operator.applyBinary, Value.logical, hv.isLiteral_eq, hw.isLiteral_eq,
      h.truth_eq hv, h.truth_eq hw]
  | equal | notEqual => simp only [Operator.applyBinary, h.looselyEquals_eq hv hw]
  | strictEqual | strictNotEqual => simp only [Operator.applyBinary, h.equals_eq hv hw]
  | less | lessOrEqual | greater | greaterOrEqual =>
    simp only [Operator.applyBinary, Value.ordered, h.order?_eq hv hw]
  | shiftLeft | shiftRight | shiftRightPadded =>
    simp only [Operator.applyBinary, Value.shift, hv.isLiteral_eq, hw.isLiteral_eq,
      hv.toInteger_eq, hw.toInteger_eq]
  | subtract | multiply | divide | modulo | power | bitAnd | bitOr | bitXor =>
    refine hv.apply_eq ?_ ?_ hw
    · intro p q w
      cases w <;> rfl
    · intro p q v
      cases v <;> rfl

end Heap.Mirrors

theorem Value.alike_of_listFree {R : Handle → Handle → Prop} {vs : List Value}
    (h : vs.all (fun v => !v.isShared) = true) : List.Forall₂ (Value.Alike R) vs vs := by
  induction vs with
  | nil => exact .nil
  | cons v vs ih =>
    simp only [List.all_cons, Bool.and_eq_true, Bool.not_eq_true'] at h
    exact .cons (.scalar h.1) (ih h.2)

/-- Heaps mirror each other as long as no list is looked at. -/
theorem Heap.mirrors_nothing (a b : Heap) : a.Mirrors (fun _ _ => False) b where
  right_unique h := h.elim
  left_unique h := h.elim
  inside h := h.elim
  items h := h.elim

namespace Entry

variable {R : Handle → Handle → Prop} {a b : Heap}

theorem same_eq (h : a.Mirrors R b) {e f : Entry} (he : e.listFree) (hf : f.listFree) :
    e.same a f = e.same b f := by
  unfold same
  rw [Heap.Mirrors.allPairs_eq (Value.alike_of_listFree (R := R) he)
    (Value.alike_of_listFree hf) fun _ _ _ _ hv hw => h.equals_eq hv hw]

theorem text_eq (h : a.Mirrors R b) {e : Entry} (he : e.listFree) : e.text a = e.text b := by
  unfold text
  rw [map_eq_of_forall₂ (Value.alike_of_listFree (R := R) he) fun _ _ hv => h.text_eq hv]

end Entry

end Fabula
