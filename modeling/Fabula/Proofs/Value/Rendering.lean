import Fabula.Proofs.Value.Bisimilarity
import Fabula.Value.Printing

/-! What printed values look like. A list inside itself is left out where it is met again, and only
there: a list that merely stands in several places is printed in full in each of them. Printing
ends, because the lists that are open differ from one another. -/

namespace Fabula.Value

/-- A value as it is printed, with `again` for a list that is left out. -/
inductive Rendering where
  | scalar (v : Value)
  | items (inner : List Rendering)
  | again

/-- What stands at one place of a printed value: a scalar, a list with so many items, or the mark
for a list that is left out. -/
inductive Mark where
  | scalar (v : Value)
  | items (length : Nat)
  | again
deriving DecidableEq

namespace Rendering

def text (style : Style) : Rendering → String
  | scalar v => style.scalar v
  | items inner =>
    style.beforeList ++ bracketed (inner.map fun r => r.text style) ++ style.afterList
  | again => style.beforeList ++ "[...]" ++ style.afterList

def mark : Rendering → Mark
  | scalar v => .scalar v
  | items inner => .items inner.length
  | again => .again

def mark? : Rendering → List Nat → Option Mark
  | r, [] => some r.mark
  | items inner, i :: path => inner[i]?.bind fun r => r.mark? path
  | _, _ :: _ => none

end Rendering

/-- A value in one of the places where it stands, with the lists around it, the innermost first. -/
structure Occurrence where
  around : List Handle
  value : Value

def occurrence? (heap : Heap) : List Handle → Value → List Nat → Option Occurrence
  | around, v, [] => some ⟨around, v⟩
  | around, list h, i :: path =>
    (heap.items h)[i]?.bind fun v => occurrence? heap (h :: around) v path
  | _, _, _ :: _ => none

namespace Occurrence

/-- No list stands around itself, so that printing goes all the way in. -/
def visible (o : Occurrence) : Bool := o.around.Nodup

/-- How the occurrence is to be printed: a list is left out if it is one of the lists around it. -/
def mark (heap : Heap) (o : Occurrence) : Mark :=
  match o.value with
  | list h => if h ∈ o.around then .again else .items (heap.items h).length
  | v => .scalar v

end Occurrence

inductive Reaches (heap : Heap) : Value → Handle → Prop
  | self {h : Handle} : Reaches heap (.list h) h
  | item {h k : Handle} {v : Value} (there : v ∈ heap.items h) (inside : Reaches heap v k) :
      Reaches heap (.list h) k

def Acyclic (heap : Heap) (v : Value) : Prop :=
  ∀ h, Reaches heap v h → ∀ w ∈ heap.items h, ¬ Reaches heap w h

/-- A value with all its lists written out. -/
inductive Unfolds (heap : Heap) : Value → Rendering → Prop
  | scalar {v : Value} (single : v.isShared = false) : Unfolds heap v (.scalar v)
  | items {h : Handle} {inner : List Rendering} (length : (heap.items h).length = inner.length)
      (each : ∀ (i : Nat) v r, (heap.items h)[i]? = some v → inner[i]? = some r →
        Unfolds heap v r) :
      Unfolds heap (.list h) (.items inner)

/-- A whole printing of a value inside the lists `openLists`, with what comes out. There is one for
every printing that ends, however long that takes. -/
inductive Shows (heap : Heap) : List Handle → Value → Rendering → Prop
  | scalar {openLists : List Handle} {v : Value} (single : v.isShared = false) :
      Shows heap openLists v (.scalar v)
  | again {openLists : List Handle} {h : Handle} (known : h ∈ openLists) :
      Shows heap openLists (.list h) .again
  | items {openLists : List Handle} {h : Handle} {inner : List Rendering} (new : h ∉ openLists)
      (length : (heap.items h).length = inner.length)
      (each : ∀ (i : Nat) v r, (heap.items h)[i]? = some v → inner[i]? = some r →
        Shows heap (h :: openLists) v r) :
      Shows heap openLists (.list h) (.items inner)

variable {heap : Heap} {openLists : List Handle} {v : Value} {r r' : Rendering}

/-- The lists that are open differ from one another and are in the heap, so that there is always
another level left, and the printing comes to its end. -/
theorem exists_shows (depth : Nat) :
    ∀ {openLists : List Handle} (v : Value), openLists.Nodup → (∀ h ∈ openLists, h < heap.size) →
      heap.size < depth + openLists.length →
      ∃ r, Shows heap openLists v r ∧
        ∀ style, printInside style heap depth openLists v = r.text style := by
  induction depth with
  | zero =>
    intro openLists v hnodup hinside hdepth
    have hle := length_le_of_nodup hnodup hinside
    omega
  | succ depth ih =>
    intro openLists v hnodup hinside hdepth
    cases v with
    | list h =>
      by_cases hopen : h ∈ openLists
      · exact ⟨.again, .again hopen, fun style => by simp [printInside, Rendering.text, hopen]⟩
      · -- a list that has items to print is in the heap
        have hitem : ∀ v, ∃ r, v ∈ heap.items h → Shows heap (h :: openLists) v r ∧
            ∀ style, printInside style heap depth (h :: openLists) v = r.text style := by
          intro v
          by_cases hv : v ∈ heap.items h
          · obtain ⟨r, hr⟩ := ih v (List.nodup_cons.mpr ⟨hopen, hnodup⟩)
              (List.forall_mem_cons.mpr ⟨inside_of_mem_items hv, hinside⟩)
              (by simp only [List.length_cons]; omega)
            exact ⟨r, fun _ => hr⟩
          · exact ⟨.again, fun hv' => absurd hv' hv⟩
        choose render hrender using hitem
        refine ⟨.items ((heap.items h).map render), .items hopen (by simp) fun i v r hv hr => ?_,
          fun style => ?_⟩
        · obtain rfl : render v = r := by simpa [hv] using hr
          exact (hrender v (List.mem_of_getElem? hv)).1
        · have hmap : (heap.items h).map (printInside style heap depth (h :: openLists)) =
              (heap.items h).map fun v => (render v).text style :=
            List.map_congr_left fun v hv => (hrender v hv).2 style
          simp [printInside, Rendering.text, hopen, hmap, Function.comp_def]
    | _ => exact ⟨.scalar _, .scalar rfl, fun style => by simp [printInside, Rendering.text]⟩

theorem Shows.unique (h : Shows heap openLists v r) (h' : Shows heap openLists v r') : r = r' := by
  induction h generalizing r' with
  | scalar single =>
    cases h' with
    | scalar => rfl
    | _ => cases single
  | again known =>
    cases h' with
    | scalar single => cases single
    | again => rfl
    | items new => exact absurd known new
  | @items _ h inner new length _ ih =>
    cases h' with
    | scalar single => cases single
    | again known => exact absurd known new
    | @items _ _ inner' _ length' each' =>
      refine congrArg Rendering.items (List.ext_getElem (length ▸ length') fun i hi hi' => ?_)
      have hv := List.getElem?_eq_getElem (length ▸ hi : i < (heap.items h).length)
      exact ih i _ _ hv (List.getElem?_eq_getElem hi)
        (each' i _ _ hv (List.getElem?_eq_getElem hi'))

theorem Occurrence.mark_of_single {around : List Handle} (single : v.isShared = false) :
    Occurrence.mark heap ⟨around, v⟩ = .scalar v := by
  cases v with
  | list h => cases single
  | _ => rfl

theorem occurrence?_of_single (single : v.isShared = false) (i : Nat) (path : List Nat) :
    occurrence? heap openLists v (i :: path) = none := by
  cases v with
  | list h => cases single
  | _ => rfl

theorem not_visible {o : Occurrence} {path : List Nat} (hopen : ¬ openLists.Nodup)
    (ho : occurrence? heap openLists v path = some o) : o.visible = false := by
  induction path generalizing openLists v with
  | nil =>
    cases ho
    simpa [Occurrence.visible] using hopen
  | cons i path ih =>
    cases v with
    | list h =>
      obtain ⟨w, -, hw⟩ := Option.bind_eq_some_iff.mp ho
      exact ih (fun hnodup => hopen hnodup.of_cons) hw
    | _ => cases ho

/-- At every place stands what has to, and nothing stands behind a list that is left out. -/
theorem Shows.mark?_eq (hs : Shows heap openLists v r) (hnodup : openLists.Nodup)
    (path : List Nat) :
    r.mark? path = ((occurrence? heap openLists v path).filter Occurrence.visible).map
      (Occurrence.mark heap) := by
  induction path generalizing openLists v r with
  | nil =>
    have hvisible : (Occurrence.mk openLists v).visible = true := by simpa [Occurrence.visible]
    have hmark : Occurrence.mark heap ⟨openLists, v⟩ = r.mark := by
      cases hs with
      | scalar single => exact Occurrence.mark_of_single single
      | again known => simp [Occurrence.mark, Rendering.mark, known]
      | items new length => simp [Occurrence.mark, Rendering.mark, new, length]
    simp [occurrence?, Rendering.mark?, hvisible, hmark]
  | cons i path ih =>
    cases hs with
    | scalar single => simp [occurrence?_of_single single, Rendering.mark?]
    | @again _ h known =>
      have hcut : ¬ (h :: openLists).Nodup := fun hn => (List.nodup_cons.mp hn).1 known
      cases ho : occurrence? heap openLists (.list h) (i :: path) with
      | none => rfl
      | some o =>
        obtain ⟨w, -, hw⟩ := Option.bind_eq_some_iff.mp ho
        simp [Rendering.mark?, not_visible hcut hw]
    | @items _ h inner new length each =>
      have hinner : (h :: openLists).Nodup := List.nodup_cons.mpr ⟨new, hnodup⟩
      by_cases hi : i < (heap.items h).length
      · have hv := List.getElem?_eq_getElem hi
        have hr := List.getElem?_eq_getElem (length ▸ hi : i < inner.length)
        simpa [Rendering.mark?, occurrence?, hv, hr] using ih (each i _ _ hv hr) hinner
      · have hv := List.getElem?_eq_none (Nat.not_lt.mp hi)
        have hr : inner[i]? = none := List.getElem?_eq_none (length ▸ Nat.not_lt.mp hi)
        simp [Rendering.mark?, occurrence?, hv, hr]

theorem Reaches.trans {h k : Handle} (hv : Reaches heap v h) (hk : Reaches heap (.list h) k) :
    Reaches heap v k := by
  induction hv with
  | self => exact hk
  | item there _ ih => exact .item there (ih hk)

theorem Acyclic.item {h : Handle} (ha : Acyclic heap (.list h)) (hv : v ∈ heap.items h) :
    Acyclic heap v :=
  fun k hk => ha k (.item hv hk)

theorem Shows.unfolds (hs : Shows heap openLists v r) (ha : Acyclic heap v)
    (hopen : ∀ h ∈ openLists, ¬ Reaches heap v h) : Unfolds heap v r := by
  induction hs with
  | scalar single => exact .scalar single
  | again known => exact absurd .self (hopen _ known)
  | @items _ h _ _ length _ ih =>
    refine .items length fun i w r hw hr => ?_
    have hmem := List.mem_of_getElem? hw
    refine ih i w r hw hr (ha.item hmem) (List.forall_mem_cons.mpr ⟨?_, fun k hk hreach => ?_⟩)
    · exact ha h .self w hmem
    · exact hopen k hk (.item hmem hreach)

/-- Where all lists can be written out, going on inwards comes to an end: no list is met again. -/
theorem Unfolds.acyclic (hu : Unfolds heap v r) : Acyclic heap v := by
  induction hu with
  | @scalar v single =>
    intro h hreach
    cases hreach <;> cases single
  | @items h inner length _ ih =>
    have hitem : ∀ w ∈ heap.items h, Acyclic heap w := by
      intro w hw
      obtain ⟨i, hi, rfl⟩ := List.getElem_of_mem hw
      exact ih i _ _ (List.getElem?_eq_getElem hi) (List.getElem?_eq_getElem (length ▸ hi))
    intro k hreach w hw hback
    cases hreach with
    | item there inside => exact hitem _ there k inside w hw hback
    | self =>
      -- the way back to the list goes round through its own item
      cases hback with
      | self => exact hitem _ hw h .self _ hw .self
      | item there inside => exact hitem _ hw _ .self _ there (inside.trans (.item hw .self))

/-- Printing is safe on cycles and exact elsewhere, in the style of `text` and in that of `inspect`.
It ends, and there is one thing that comes out, whatever the style. At every place from the outside
in stands the value that stands there, but the mark for a list that is left out just if the list is
one of those around it, and nothing stands inside that. What comes out is the value with all its
lists written out, however often they are shared, just if no list in it stands in itself. -/
theorem print_exact (heap : Heap) (v : Value) :
    ∃ r : Rendering, text heap v = r.text plain ∧ inspect heap v = r.text detailed ∧
      (∀ style, print style heap v = r.text style) ∧ (∀ r', Shows heap [] v r' ↔ r' = r) ∧
      (∀ path, r.mark? path = ((occurrence? heap [] v path).filter Occurrence.visible).map
        (Occurrence.mark heap)) ∧
      (Acyclic heap v ↔ Unfolds heap v r) := by
  have hends : ∃ r : Rendering, Shows heap [] v r ∧
      ∀ style, printInside style heap (heap.size + 2) [] v = r.text style :=
    exists_shows _ v .nil (by simp) (by simp)
  obtain ⟨r, hshows, htext⟩ := hends
  refine ⟨r, htext plain, htext detailed, htext, fun r' => ⟨fun h => h.unique hshows, ?_⟩,
    hshows.mark?_eq .nil, fun ha => hshows.unfolds ha (by simp), Unfolds.acyclic⟩
  rintro rfl
  exact hshows

/-- A list that contains itself and, twice, another list. -/
example : text ⟨#[#[.integer 1, .list 0, .list 1, .list 1], #[.boolean true]]⟩ (.list 0) =
    "[1, [...], [true], [true]]" := by decide +kernel

end Fabula.Value
