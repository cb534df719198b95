import Fabula.Proofs.Number.Order
import Fabula.Proofs.Value.Renaming

/-! Strict equality is bisimilarity. A comparison takes a pair of lists to be equal where it meets
the pair again inside itself, and forgets about it afterwards. Such a comparison ends, because no
pair is open twice, and it never errs: what it finds equal on the strength of the open pairs is
bisimilar up to these, and lists whose items are bisimilar up to the pair of the lists itself are
bisimilar. -/

namespace Fabula.Value

/-- Values that agree where `R` says which items of lists do. Scalars agree if they have the same
kind and equal payload, floats if they are equal as numbers. Lists agree if they have the same
length and related items, place by place. -/
inductive Matches (heap : Heap) (R : Value → Value → Prop) : Value → Value → Prop
  | lists {h k : Handle} (items : List.Forall₂ R (heap.items h) (heap.items k)) :
      Matches heap R (.list h) (.list k)
  | floats {x y : Float} (equal : (x == y) = true) : Matches heap R (.float x) (.float y)
  | scalars {v : Value} (single : v.isShared = false) (kind : v.kind ≠ .float) : Matches heap R v v

/-- Related by some relation, and so by the greatest one, under which related values match. -/
def Bisimilar (heap : Heap) (a b : Value) : Prop :=
  ∃ R : Value → Value → Prop, (∀ x y, R x y → Matches heap R x y) ∧ R a b

variable {heap : Heap} {R S : Value → Value → Prop} {a b c : Value}

theorem Matches.mono (h : Matches heap R a b) (hRS : ∀ x y, R x y → S x y) :
    Matches heap S a b := by
  cases h with
  | lists items => exact .lists (items.imp hRS)
  | floats equal => exact .floats equal
  | scalars single kind => exact .scalars single kind

theorem Matches.symm (h : Matches heap R a b) : Matches heap (flip R) b a := by
  cases h with
  | lists items => exact .lists items.flip
  | floats equal => exact .floats (BEq.comm.trans equal)
  | scalars single kind => exact .scalars single kind

theorem forall₂_comp {as bs cs : List Value} (h : List.Forall₂ R as bs)
    (h' : List.Forall₂ S bs cs) : List.Forall₂ (Relation.Comp R S) as cs := by
  induction h generalizing cs with
  | nil =>
    cases h' with
    | nil => exact .nil
  | cons hab _ ih =>
    cases h' with
    | cons hbc h' => exact .cons ⟨_, hab, hbc⟩ (ih h')

theorem Matches.trans (h : Matches heap R a b) (h' : Matches heap S b c) :
    Matches heap (Relation.Comp R S) a c := by
  cases h with
  | lists items =>
    cases h' with
    | lists items' => exact .lists (forall₂_comp items items')
    | scalars single => cases single
  | floats equal =>
    cases h' with
    | floats equal' => exact .floats (BEq.trans equal equal')
    | scalars _ kind => exact absurd rfl kind
  | scalars single kind =>
    cases h' with
    | lists => cases single
    | floats => exact absurd rfl kind
    | scalars => exact .scalars single kind

theorem matches_of_sameScalar (h : sameScalar a b = true) : Matches heap R a b := by
  -- no values of different kinds are the same, and no lists
  cases a <;> cases b <;> try cases h
  case float.float => exact .floats h
  case element.element kind identity kind' identity' =>
    obtain ⟨rfl, rfl⟩ : kind = kind' ∧ identity = identity' := by simpa [sameScalar] using h
    exact .scalars rfl (by cases kind <;> nofun)
  all_goals
    obtain rfl := beq_iff_eq.mp h
    exact .scalars rfl nofun

theorem sameScalar_of_matches (hab : a.isShared = false ∨ b.isShared = false)
    (h : Matches heap R a b) : sameScalar a b = true := by
  cases h with
  | lists => cases hab <;> contradiction
  | floats equal => exact equal
  | scalars single kind =>
    cases a with
    | list => cases single
    | float => exact absurd rfl kind
    | _ => simp [sameScalar]

namespace Bisimilar

theorem of_relation (hR : ∀ x y, R x y → Matches heap R x y) (h : R a b) : Bisimilar heap a b :=
  ⟨R, hR, h⟩

theorem step (h : Bisimilar heap a b) : Matches heap (Bisimilar heap) a b := by
  obtain ⟨R, hR, hab⟩ := h
  exact (hR a b hab).mono fun x y hxy => ⟨R, hR, hxy⟩

theorem of_matches (h : Matches heap (Bisimilar heap) a b) : Bisimilar heap a b :=
  ⟨Matches heap (Bisimilar heap), fun _ _ hxy => hxy.mono fun _ _ h => h.step, h⟩

theorem symm (h : Bisimilar heap a b) : Bisimilar heap b a :=
  ⟨flip (Bisimilar heap), fun _ _ hxy => hxy.step.symm, h⟩

theorem trans (h : Bisimilar heap a b) (h' : Bisimilar heap b c) : Bisimilar heap a c := by
  refine ⟨Relation.Comp (Bisimilar heap) (Bisimilar heap), ?_, b, h, h'⟩
  rintro x z ⟨y, hxy, hyz⟩
  exact hxy.step.trans hyz.step

end Bisimilar

/-- A whole comparison of two values inside the pairs of lists `openPairs`, with its result. Items
are compared in order up to the first that differ. There is one for every comparison that ends,
however long that takes. -/
inductive Compares (heap : Heap) : List (Handle × Handle) → Value → Value → Bool → Prop
  | scalars {openPairs : List (Handle × Handle)} {a b : Value}
      (single : a.isShared = false ∨ b.isShared = false) :
      Compares heap openPairs a b (sameScalar a b)
  | met {openPairs : List (Handle × Handle)} {h k : Handle} (known : (h, k) ∈ openPairs) :
      Compares heap openPairs (.list h) (.list k) true
  | lengths {openPairs : List (Handle × Handle)} {h k : Handle} (new : (h, k) ∉ openPairs)
      (differ : (heap.items h).length ≠ (heap.items k).length) :
      Compares heap openPairs (.list h) (.list k) false
  | equal {openPairs : List (Handle × Handle)} {h k : Handle} (new : (h, k) ∉ openPairs)
      (length : (heap.items h).length = (heap.items k).length)
      (items : ∀ p ∈ (heap.items h).zip (heap.items k),
        Compares heap ((h, k) :: openPairs) p.1 p.2 true) :
      Compares heap openPairs (.list h) (.list k) true
  | unequal {openPairs : List (Handle × Handle)} {h k : Handle} {p : Value × Value}
      {before after : List (Value × Value)} (new : (h, k) ∉ openPairs)
      (length : (heap.items h).length = (heap.items k).length)
      (items : (heap.items h).zip (heap.items k) = before ++ p :: after)
      (same : ∀ q ∈ before, Compares heap ((h, k) :: openPairs) q.1 q.2 true)
      (differ : Compares heap ((h, k) :: openPairs) p.1 p.2 false) :
      Compares heap openPairs (.list h) (.list k) false

variable {openPairs : List (Handle × Handle)} {r : Bool}

def BisimilarUpTo (heap : Heap) (openPairs : List (Handle × Handle)) (a b : Value) : Prop :=
  ∃ R : Value → Value → Prop, (∀ x y, R x y →
    (∃ h k, (h, k) ∈ openPairs ∧ x = .list h ∧ y = .list k) ∨ Matches heap R x y) ∧ R a b

theorem BisimilarUpTo.bisimilar (h : BisimilarUpTo heap [] a b) : Bisimilar heap a b := by
  obtain ⟨R, hR, hab⟩ := h
  refine ⟨R, fun x y hxy => (hR x y hxy).resolve_left ?_, hab⟩
  rintro ⟨h, k, hmem, -⟩
  cases hmem

/-- A pair of lists may be forgotten once the items have been compared: where the items are
bisimilar up to the pair, unfolding the pair leads to the items again. -/
theorem BisimilarUpTo.close {h k : Handle}
    (items : List.Forall₂ (BisimilarUpTo heap ((h, k) :: openPairs)) (heap.items h)
      (heap.items k)) :
    BisimilarUpTo heap openPairs (.list h) (.list k) := by
  let R : Value → Value → Prop := fun x y =>
    (x = .list h ∧ y = .list k) ∨ BisimilarUpTo heap ((h, k) :: openPairs) x y
  have hpair : Matches heap R (.list h) (.list k) := .lists (items.imp fun _ _ hxy => .inr hxy)
  refine ⟨R, ?_, .inl ⟨rfl, rfl⟩⟩
  rintro x y (⟨rfl, rfl⟩ | ⟨S, hS, hxy⟩)
  · exact .inr hpair
  · rcases hS x y hxy with ⟨h', k', hmem, rfl, rfl⟩ | hm
    · rcases List.mem_cons.mp hmem with he | hmem
      · cases he
        exact .inr hpair
      · exact .inl ⟨h', k', hmem, rfl, rfl⟩
    · exact .inr (hm.mono fun _ _ h => .inr ⟨S, hS, h⟩)

theorem Compares.sound (h : Compares heap openPairs a b r) (hr : r = true) :
    BisimilarUpTo heap openPairs a b := by
  induction h with
  | scalars =>
    refine ⟨Matches heap fun _ _ => False, fun x y hxy => .inr ?_, matches_of_sameScalar hr⟩
    exact hxy.mono fun _ _ h => h.elim
  | @met _ h k known =>
    refine ⟨fun x y => x = .list h ∧ y = .list k, fun x y hxy => ?_, rfl, rfl⟩
    exact .inl ⟨h, k, known, hxy⟩
  | lengths => cases hr
  | equal _ length _ ih =>
    exact .close (List.forall₂_iff_zip.mpr ⟨length, fun hp => ih _ hp rfl⟩)
  | unequal => cases hr

theorem Compares.complete (h : Compares heap openPairs a b r) (hab : Bisimilar heap a b) :
    r = true := by
  induction h with
  | scalars single => exact sameScalar_of_matches single hab.step
  | met => rfl
  | lengths _ differ =>
    cases hab.step with
    | lists items => exact absurd items.length_eq differ
    | scalars single => cases single
  | equal => rfl
  | @unequal _ _ _ p _ _ _ _ hzip _ _ _ ih =>
    refine ih ?_
    cases hab.step with
    | lists items => exact List.forall₂_zip items (by simp [hzip])
    | scalars single => cases single

theorem allPairs_eq_all {eq : Value → Value → Bool} {as bs : List Value}
    (h : as.length = bs.length) :
    allPairs eq as bs = (as.zip bs).all fun p => eq p.1 p.2 := by
  induction as generalizing bs with
  | nil =>
    cases bs with
    | nil => rfl
    | cons b bs => cases h
  | cons a as ih =>
    cases bs with
    | nil => cases h
    | cons b bs => rw [allPairs, ih (Nat.succ.inj h), List.zip_cons_cons, List.all_cons]

theorem exists_first_of_all_eq_false {α : Type} {f : α → Bool} {xs : List α}
    (h : xs.all f = false) :
    ∃ before x after, xs = before ++ x :: after ∧ (∀ y ∈ before, f y = true) ∧ f x = false := by
  induction xs with
  | nil => cases h
  | cons x xs ih =>
    cases hx : f x with
    | false => exact ⟨[], x, xs, rfl, by simp, hx⟩
    | true =>
      rw [List.all_cons, hx, Bool.true_and] at h
      obtain ⟨before, y, after, rfl, hbefore, hy⟩ := ih h
      exact ⟨x :: before, y, after, rfl, by simpa [hx] using hbefore, hy⟩

theorem inside_of_mem_items {h : Handle} {v : Value} (hv : v ∈ heap.items h) : h < heap.size := by
  by_contra hn
  rw [Heap.items, Heap.cell, Array.getElem?_eq_none (Nat.not_lt.mp hn)] at hv
  cases hv

/-- The pairs that are open differ from one another and are pairs of lists in the heap, so that
there is always another level left, and the comparison comes to its end. -/
theorem compares_equalInside (depth : Nat) :
    ∀ {openPairs : List (Handle × Handle)} (a b : Value), openPairs.Nodup →
      (∀ p ∈ openPairs, p.1 < heap.size ∧ p.2 < heap.size) →
      heap.size * heap.size < depth + openPairs.length →
      Compares heap openPairs a b (equalInside heap depth openPairs a b) := by
  induction depth with
  | zero =>
    intro openPairs a b hnodup hinside hdepth
    have hle := length_pairs_le_of_nodup hnodup hinside
    omega
  | succ depth ih =>
    intro openPairs a b hnodup hinside hdepth
    cases a with
    | list h =>
      cases b with
      | list k =>
        unfold equalInside
        by_cases hopen : openPairs.contains (h, k) = true
        · rw [if_pos hopen]
          exact .met (by simpa using hopen)
        · have hnew : (h, k) ∉ openPairs := by simpa using hopen
          rw [if_neg hopen, Heap.size_cell, Heap.size_cell]
          by_cases hlength : (heap.items h).length = (heap.items k).length
          · rw [if_neg (not_not.mpr hlength), allPairs_eq_all hlength]
            -- lists that have items to compare are in the heap
            have hitem : ∀ p ∈ (heap.items h).zip (heap.items k),
                Compares heap ((h, k) :: openPairs) p.1 p.2
                  (equalInside heap depth ((h, k) :: openPairs) p.1 p.2) := by
              intro p hp
              have hmem := List.of_mem_zip hp
              refine ih p.1 p.2 (List.nodup_cons.mpr ⟨hnew, hnodup⟩)
                (List.forall_mem_cons.mpr ⟨?_, hinside⟩) (by simp only [List.length_cons]; omega)
              exact ⟨inside_of_mem_items hmem.1, inside_of_mem_items hmem.2⟩
            cases hall : ((heap.items h).zip (heap.items k)).all fun p =>
                equalInside heap depth ((h, k) :: openPairs) p.1 p.2 with
            | true =>
              refine .equal hnew hlength fun p hp => ?_
              have hsame := List.all_eq_true.mp hall p hp
              exact hsame ▸ hitem p hp
            | false =>
              obtain ⟨before, p, after, hzip, hbefore, hp⟩ := exists_first_of_all_eq_false hall
              refine .unequal hnew hlength hzip (fun q hq => ?_) ?_
              · exact hbefore q hq ▸ hitem q (by simp [hzip, hq])
              · exact hp ▸ hitem p (by simp [hzip])
          · rw [if_pos hlength]
            exact .lengths hnew hlength
      | _ => exact .scalars (.inr rfl)
    | _ => exact .scalars (.inl rfl)

theorem compares_equals (heap : Heap) (a b : Value) : Compares heap [] a b (equals heap a b) :=
  compares_equalInside _ a b .nil (by simp) (by simp)

theorem equals_iff_bisimilar {a b : Value} : equals heap a b = true ↔ Bisimilar heap a b :=
  ⟨fun h => ((compares_equals heap a b).sound h).bisimilar, (compares_equals heap a b).complete⟩

/-- Strict equality is bisimilarity, with any sharing and any cycles. A comparison ends, and its
result is that of `equals`. To be found equal is the greatest relation under which related values
match: no relation under which they do holds of more, and it holds of all values that match under
it. So it is symmetric and transitive, and it never holds of NaN. -/
theorem equals_greatest (heap : Heap) :
    (∀ a b r, Compares heap [] a b r ↔ r = equals heap a b) ∧
    IsGreatest {R : Value → Value → Prop | ∀ a b, R a b → Matches heap R a b}
      (fun a b => equals heap a b = true) ∧
    (∀ a b, equals heap a b = true ↔ Matches heap (fun a b => equals heap a b = true) a b) ∧
    (∀ a b, equals heap a b = equals heap b a) ∧
    (∀ a b c, equals heap a b = true → equals heap b c = true → equals heap a c = true) ∧
    ∀ (x : Float) (b : Value), x.isNaN = true →
      equals heap (.float x) b = false ∧ equals heap b (.float x) = false := by
  have hsame : (fun a b => equals heap a b = true) = Bisimilar heap := by
    funext a b
    exact propext equals_iff_bisimilar
  have hsymm : ∀ a b, equals heap a b = equals heap b a := fun a b => by
    rw [Bool.eq_iff_iff, equals_iff_bisimilar, equals_iff_bisimilar]
    exact ⟨Bisimilar.symm, Bisimilar.symm⟩
  refine ⟨fun a b r => ⟨fun h => ?_, fun h => h ▸ compares_equals heap a b⟩, ?_, fun a b => ?_,
    hsymm, fun a b c => ?_, fun x b hx => ?_⟩
  · rw [Bool.eq_iff_iff, equals_iff_bisimilar]
    exact ⟨fun hr => (h.sound hr).bisimilar, h.complete⟩
  · rw [hsame]
    exact ⟨fun a b => Bisimilar.step, fun R hR a b hab => .of_relation hR hab⟩
  · rw [hsame, equals_iff_bisimilar]
    exact ⟨Bisimilar.step, Bisimilar.of_matches⟩
  · simp only [equals_iff_bisimilar]
    exact Bisimilar.trans
  · have hnan : equals heap (.float x) b = false := by
      rw [Bool.eq_false_iff, Ne, equals_iff_bisimilar]
      intro h
      cases h.step with
      | floats equal => simp [Number.beq_of_isNaN hx] at equal
      | scalars _ kind => exact kind rfl
    exact ⟨hnan, hsymm b _ ▸ hnan⟩

end Fabula.Value

namespace Fabula.Sample

open Value (equals)

/-- A list that contains itself, two that contain each other, and one with NaN beside itself. -/
def loops : Heap :=
  ⟨#[#[.integer 1, .list 0], #[.integer 1, .list 2], #[.integer 1, .list 1],
    #[.notANumber, .list 3]]⟩

/-- Loops of different lengths with the same items all the way round are equal, and a loop with a
NaN is not equal to itself. -/
theorem loops_compared :
    equals loops (.list 1) (.list 0) = true ∧ equals loops (.list 0) (.list 2) = true ∧
    equals loops (.list 1) (.list 2) = true ∧
    Number.nan.isNaN = true ∧ equals loops .notANumber .notANumber = false ∧
    equals loops (.list 3) (.list 3) = false := by
  obtain ⟨-, -, -, -, htrans, hnan⟩ := Value.equals_greatest loops
  have h : equals loops (.list 1) (.list 0) = true := by decide +kernel
  have h' : equals loops (.list 0) (.list 2) = true := by decide +kernel
  have hx : Number.nan.isNaN = true := by decide +kernel
  exact ⟨h, h', htrans _ _ _ h h', hx, (hnan _ _ hx).1, by decide +kernel⟩

end Fabula.Sample
