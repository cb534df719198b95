import Fabula.Proofs.Bytes.Pairs
import Fabula.Proofs.Machine.Renaming
import Fabula.Proofs.Session.Digests

/-! Loading replaces the state as a whole, or nothing. Two sessions of one story read the same bytes
side by side. Each makes its new lists beside those it had, and the lists that both make at the same
time are paired. What was in the sessions before is looked at for nothing but the elements that are
live, and these are the same. -/

namespace Fabula

variable {old old' : Heap} {R S : Handle → Handle → Prop}

/-- Lists were made beside those of an old heap, and the old ones are as they were. -/
structure Rebuilt.Beside (old : Heap) (b : Rebuilt) : Prop where
  least : old.size ≤ b.heap.size
  items : ∀ h < old.size, b.heap.items h = old.items h

/-- What two sessions have rebuilt from the same bytes. Lists are paired with their partners on the
other side, and only new ones have partners. -/
structure Rebuilt.Alike (old old' : Heap) (R : Handle → Handle → Prop) (b b' : Rebuilt) : Prop where
  heap : b.heap.Mirrors R b'.heap
  lists : ∀ number : Nat, Option.Rel R b.lists[number]? b'.lists[number]?
  left : b.Beside old
  right : b'.Beside old'
  new : ∀ {h k : Handle}, R h k → old.size ≤ h ∧ old'.size ≤ k

namespace Rebuilt

variable {b b' : Rebuilt}

theorem Beside.make (h : b.Beside old) (n : Nat) : (b.make n).Beside old where
  least := h.least.trans (b.size_make n ▸ Nat.le_succ _)
  items k hk := (b.items_make_of_lt n (hk.trans_le h.least)).trans (h.items k hk)

theorem Beside.fill (h : b.Beside old) {k : Handle} (hk : old.size ≤ k) (items : List Value) :
    (b.fill k items).Beside old where
  least := h.least.trans (b.size_fill k items).ge
  items k' hk' :=
    (b.items_fill_of_ne items (Nat.ne_of_lt (hk'.trans_le hk))).trans (h.items k' hk')

theorem alike_start (old old' : Heap) : Alike old old' (fun _ _ => False) ⟨old, ∅⟩ ⟨old', ∅⟩ where
  heap := Heap.mirrors_nothing old old'
  lists number := by simp
  left := ⟨le_rfl, fun _ _ => rfl⟩
  right := ⟨le_rfl, fun _ _ => rfl⟩
  new h := h.elim

theorem Alike.contains_eq (h : b.Alike old old' R b') (number : Nat) :
    b.lists.contains number = b'.lists.contains number := by
  have hnumber := h.lists number
  rw [Std.ExtTreeMap.contains_eq_isSome_getElem?, Std.ExtTreeMap.contains_eq_isSome_getElem?]
  generalize b.lists[number]? = x at hnumber ⊢
  generalize b'.lists[number]? = y at hnumber ⊢
  cases hnumber with
  | some => rfl
  | none => rfl

theorem Alike.make (h : b.Alike old old' R b') (n : Nat) :
    (b.make n).Alike old old' (Heap.Paired R b.heap b'.heap) (b'.make n) where
  heap := h.heap.alloc .nil
  lists number := by
    simp only [Rebuilt.make, Std.ExtTreeMap.getElem?_insert]
    split
    · exact .some (.inr ⟨rfl, rfl⟩)
    · have hnumber := h.lists number
      generalize b.lists[number]? = x at hnumber ⊢
      generalize b'.lists[number]? = y at hnumber ⊢
      cases hnumber with
      | some hr => exact .some (.inl hr)
      | none => exact .none
  left := h.left.make n
  right := h.right.make n
  new := by
    rintro p q (hr | ⟨rfl, rfl⟩)
    · exact h.new hr
    · exact ⟨h.left.least, h.right.least⟩

theorem Alike.fill (h : b.Alike old old' R b') {k k' : Handle} (hr : R k k')
    {items items' : List Value} (hitems : List.Forall₂ (Value.Alike R) items items') :
    (b.fill k items).Alike old old' R (b'.fill k' items') where
  heap := h.heap.modify hr hitems
  lists := h.lists
  left := h.left.fill (h.new hr).1 items
  right := h.right.fill (h.new hr).2 items'
  new := h.new

/-- What was read with the lists it led to, on both sides, under a pairing that may have grown. -/
def Later (old old' : Heap) {α : Type} (A : (Handle → Handle → Prop) → α → α → Prop)
    (R : Handle → Handle → Prop) (found found' : α × Rebuilt) : Prop :=
  ∃ S, R ≤ S ∧ A S found.1 found'.1 ∧ found.2.Alike old old' S found'.2

end Rebuilt

namespace Reader

open Rebuilt (Later)

def ItemsAlike (R : Handle → Handle → Prop) (items items' : List Value) : Prop :=
  List.Forall₂ (Value.Alike R) items items'

theorem ItemsAlike.mono (hRS : R ≤ S) {items items' : List Value} (h : ItemsAlike R items items') :
    ItemsAlike S items items' :=
  h.imp fun _ _ hv => hv.mono hRS

variable {b b' : Rebuilt}

theorem pairs_savedItems {value : Rebuilt → Reader (Value × Rebuilt)}
    (hvalue : ∀ {R : Handle → Handle → Prop} {b b' : Rebuilt}, b.Alike old old' R b' →
      Pairs (Later old old' Value.Alike R) (value b) (value b'))
    (hb : b.Alike old old' R b') :
    Pairs (Later old old' ItemsAlike R) (savedItems value b) (savedItems value b') := by
  have hitem : ∀ found found' : List Value × Rebuilt, Later old old' ItemsAlike R found found' →
      Pairs (Later old old' ItemsAlike R) (savedItem value found) (savedItem value found') := by
    rintro found found' ⟨S, hS, hitems, hfound⟩
    refine (hvalue hfound).bind ?_
    rintro read read' ⟨T, hT, hv, hread⟩
    exact pairs_pure ⟨T, hS.trans hT, .cons hv (hitems.mono hT), hread⟩
  have hstart : Later old old' ItemsAlike R ([], b) ([], b') := ⟨R, le_rfl, .nil, hb⟩
  refine (Pairs.counted hitem hstart).bind ?_
  rintro found found' ⟨S, hS, hitems, hfound⟩
  exact pairs_pure ⟨S, hS, List.forall₂_reverse_iff.mpr hitems, hfound⟩

theorem pairs_savedList {value : Rebuilt → Reader (Value × Rebuilt)}
    (hvalue : ∀ {R : Handle → Handle → Prop} {b b' : Rebuilt}, b.Alike old old' R b' →
      Pairs (Later old old' Value.Alike R) (value b) (value b'))
    (hb : b.Alike old old' R b') (number : Nat) :
    Pairs (Later old old' Value.Alike R)
      (do
        let (items, made) ← savedItems value (b.make number)
        return (Value.list b.heap.size, made.fill b.heap.size items))
      (do
        let (items, made) ← savedItems value (b'.make number)
        return (Value.list b'.heap.size, made.fill b'.heap.size items)) := by
  refine (pairs_savedItems hvalue (hb.make number)).bind ?_
  rintro found found' ⟨S, hS, hitems, hfound⟩
  have hnew : S b.heap.size b'.heap.size := hS _ _ (.inr ⟨rfl, rfl⟩)
  exact pairs_pure ⟨S, fun _ _ hr => hS _ _ (.inl hr), .list hnew, hfound.fill hnew hitems⟩

theorem pairs_savedValue (levels : Nat) {R : Handle → Handle → Prop} {b b' : Rebuilt}
    (hb : b.Alike old old' R b') :
    Pairs (Later old old' Value.Alike R) (savedValue levels b) (savedValue levels b') := by
  induction levels using Nat.strong_induction_on generalizing R b b' with
  | _ levels ih =>
    rw [savedValue.eq_def, savedValue.eq_def levels b']
    refine pairs_after fun kind => ?_
    split
    · refine (yields_scalar kind).pairs.bind ?_
      rintro v w ⟨rfl, hv⟩
      exact pairs_pure ⟨R, le_rfl, .scalar hv.single, hb⟩
    · refine pairs_after fun number => pairs_after fun full => ?_
      have hnumber := hb.lists number
      split
      · generalize b.lists[number]? = x at hnumber ⊢
        generalize b'.lists[number]? = y at hnumber ⊢
        cases hnumber with
        | some hr => exact pairs_pure ⟨R, le_rfl, .list hr, hb⟩
        | none => exact pairs_fail _
      · cases levels with
        | zero => exact pairs_fail _
        | succ levels =>
          simp only [hb.contains_eq number]
          split
          · exact pairs_fail _
          · exact pairs_savedList (ih levels (Nat.lt_succ_self levels)) hb number

def BindingsAlike (R : Handle → Handle → Prop) (t u : Table Value) : Prop :=
  TablesAlike (Value.Alike R) t u

def SectionsAlike (R : Handle → Handle → Prop) (sections sections' : Sections) : Prop :=
  List.Forall₂ (fun x y => x.1 = y.1 ∧ BindingsAlike R x.2 y.2) sections sections'

theorem BindingsAlike.mono (hRS : R ≤ S) {t u : Table Value} (h : BindingsAlike R t u) :
    BindingsAlike S t u :=
  TablesAlike.mono (fun _ _ hv => hv.mono hRS) h

theorem SectionsAlike.mono (hRS : R ≤ S) {sections sections' : Sections}
    (h : SectionsAlike R sections sections') : SectionsAlike S sections sections' :=
  h.imp fun _ _ hxy => ⟨hxy.1, hxy.2.mono hRS⟩

theorem pairs_savedVariables (hb : b.Alike old old' R b') :
    Pairs (Later old old' BindingsAlike R) (savedVariables b) (savedVariables b') := by
  have hvariable : ∀ found found' : Table Value × Rebuilt,
      Later old old' BindingsAlike R found found' →
      Pairs (Later old old' BindingsAlike R) (savedVariable found) (savedVariable found') := by
    rintro found found' ⟨S, hS, hbound, hfound⟩
    refine pairs_after fun name => (pairs_savedValue maxNesting hfound).bind ?_
    rintro read read' ⟨T, hT, hv, hread⟩
    exact pairs_pure ⟨T, hS.trans hT, (hbound.mono hT).insert hv name, hread⟩
  have hstart : Later old old' BindingsAlike R (∅, b) (∅, b') := ⟨R, le_rfl, .empty, hb⟩
  exact Pairs.counted hvariable hstart

section

variable {c d : Session} (hcast : ∀ identity : String,
  c.state.contexts[identity]?.map (fun c => c.element) =
    d.state.contexts[identity]?.map fun c => c.element)

include hcast

theorem pairs_savedSections :
    Pairs (Later c.state.heap d.state.heap SectionsAlike fun _ _ => False) (savedSections c)
      (savedSections d) := by
  have hsection : ∀ (kind : ElementKind) (found found' : Sections × Rebuilt),
      Later c.state.heap d.state.heap SectionsAlike (fun _ _ => False) found found' →
      Pairs (Later c.state.heap d.state.heap SectionsAlike fun _ _ => False)
        (savedElement c kind found) (savedElement d kind found') := by
    rintro kind found found' ⟨S, hS, hsections, hfound⟩
    rw [savedElement, savedElement, liveIdentity_eq hcast]
    refine pairs_after fun identity => (pairs_savedVariables hfound).bind ?_
    rintro read read' ⟨T, hT, hbound, hread⟩
    exact pairs_pure ⟨T, hS.trans hT, .cons ⟨rfl, hbound⟩ (hsections.mono hT), hread⟩
  refine (pairs_savedVariables (Rebuilt.alike_start c.state.heap d.state.heap)).bind ?_
  rintro read read' ⟨S, hS, hbound, hread⟩
  refine Pairs.foldlM (fun found found' kind hfound => ?_) Story.fileKinds
    ⟨S, hS, .cons ⟨rfl, hbound⟩ .nil, hread⟩
  exact Pairs.counted (hsection kind) hfound

theorem pairs_savedState (hdigest : c.digest = d.digest) :
    Pairs (fun found found' => ∃ (R : Handle → Handle → Prop) (b b' : Rebuilt),
        b.Alike c.state.heap d.state.heap R b' ∧
        SectionsAlike R found.1 found'.1 ∧ found.2 = (b.heap, found.2.2) ∧
        found'.2 = (b'.heap, found.2.2))
      (savedState c) (savedState d) := by
  rw [savedState, savedState, hdigest, ownership_eq hcast]
  refine pairs_after fun _ => pairs_after fun version => ?_
  split
  · exact pairs_fail _
  · refine pairs_after fun digest => ?_
    split
    · exact pairs_fail _
    · refine (pairs_savedSections hcast).bind ?_
      rintro found found' ⟨R, -, hsections, hfound⟩
      refine pairs_after fun m => pairs_pure ?_
      exact ⟨R, found.2, found'.2, hfound, hsections, rfl, rfl⟩

end

theorem SectionsAlike.bindings {sections sections' : Sections}
    (h : SectionsAlike R sections sections') (identity : String) :
    BindingsAlike R (((sections.find? fun item => item.1 = identity).map Prod.snd).getD ∅)
      (((sections'.find? fun item => item.1 = identity).map Prod.snd).getD ∅) := by
  induction h with
  | nil => exact TablesAlike.empty
  | @cons x y sections sections' hxy _ ih =>
    rw [List.find?_cons, List.find?_cons, ← hxy.1]
    split
    · exact hxy.2
    · exact ih

end Reader

theorem State.restored_alike {contexts contexts' : Table Context}
    (hcast : ∀ identity : String, contexts[identity]?.map (fun c => c.element) =
      contexts'[identity]?.map fun c => c.element)
    {sections sections' : Reader.Sections} (h : Reader.SectionsAlike R sections sections') :
    TablesAlike (Context.Alike R) (restored contexts sections) (restored contexts' sections') := by
  intro identity
  have hsame := hcast identity
  rw [getElem?_restored, getElem?_restored]
  cases hx : contexts[identity]? with
  | none =>
    cases hy : contexts'[identity]? with
    | some y => simp [hx, hy] at hsame
    | none => exact .none
  | some x =>
    cases hy : contexts'[identity]? with
    | none => simp [hx, hy] at hsame
    | some y => exact .some ⟨by simpa [hx, hy] using hsame, h.bindings identity⟩

namespace Session

/-- What is left after loading was tried: the session, with what was wrong if it is the old one. -/
def reload (s : Session) (bytes : Bytes) : Option DecodeError × Session :=
  match s.load bytes with
  | .ok s' => (none, s')
  | .error e => (some e, s)

structure Replaced (s : Session) (bytes : Bytes) (s' : Session) : Prop where
  story : s'.story = s.story
  digest : s'.digest = s.digest
  limits : s'.limits = s.limits
  random : s'.state.random = s.state.random
  /-- Elements without a section in the bytes have no variables. -/
  unmentioned : ∃ sections, (Reader.savedState s).complete bytes =
      .ok (sections, s'.state.heap, s'.state.ownership) ∧
    ∀ {identity : String} {c : Context}, s'.state.contexts[identity]? = some c →
      (∀ item ∈ sections, item.1 ≠ identity) → c.bindings = ∅
  /-- No list that variables lead to was there before. -/
  fresh : ∀ {h : Handle}, s'.state.Reaches h → s.state.heap.size ≤ h
  /-- The lists that were there before are as they were. -/
  kept : ∀ h < s.state.heap.size, s'.state.heap.items h = s.state.heap.items h

def restoring (s : Session) (sections : Reader.Sections) (heap : Heap) (m : Ownership) : Session :=
  { s with
    state := { s.state with
      heap := heap
      contexts := State.restored s.state.contexts sections
      ownership := m } }

theorem reload_of_complete {s : Session} {bytes : Bytes} {sections : Reader.Sections} {heap : Heap}
    {m : Ownership} (h : (Reader.savedState s).complete bytes = .ok (sections, heap, m)) :
    s.reload bytes = (none, s.restoring sections heap m) := by
  rw [reload, load, h]
  rfl

theorem reload_of_refused {s : Session} {bytes : Bytes} {e : DecodeError}
    (h : (Reader.savedState s).complete bytes = .error e) : s.reload bytes = (some e, s) := by
  rw [reload, load, h]

theorem replaced_of_complete {s : Session} {bytes : Bytes} {sections : Reader.Sections}
    {b : Rebuilt} {m : Ownership}
    (h : (Reader.savedState s).complete bytes = .ok (sections, b.heap, m))
    (hb : b.Beside s.state.heap)
    (hfresh : ∀ {h : Handle}, (s.restoring sections b.heap m).state.Reaches h →
      s.state.heap.size ≤ h) : s.Replaced bytes (s.restoring sections b.heap m) where
  story := rfl
  digest := rfl
  limits := rfl
  random := rfl
  unmentioned := by
    refine ⟨sections, h, fun {identity c} hc hnone => ?_⟩
    have hfound : sections.find? (fun item => item.1 = identity) = none := by
      rw [List.find?_eq_none]
      exact fun item hi => by simpa using hnone item hi
    rw [State.bindings_of_restored hc, hfound]
    rfl
  fresh := hfresh
  kept := hb.items

/-- Loading replaces the whole state of a session or nothing. Whatever two sessions of one story
hold, the same bytes are refused by both with the same error and leave both as they were, or are
accepted by both. Then both have the same ownership and variables that differ in nothing but the
places of lists, all of these lists are new, elements without a section in the bytes have no
variables, and the story, its digest, the limits and the random source are untouched. -/
theorem reload_replaces {story : Story} {c d : Session} (hc : c.Of story) (hd : d.Of story)
    (bytes : Bytes) :
    (∃ e, c.reload bytes = (some e, c) ∧ d.reload bytes = (some e, d)) ∨
      ∃ c' d', c.reload bytes = (none, c') ∧ d.reload bytes = (none, d') ∧
        c'.state.ownership = d'.state.ownership ∧ c'.state.Isomorphic d'.state ∧
        c.Replaced bytes c' ∧ d.Replaced bytes d' := by
  have hsame := hc.stages.digest.symm.trans hd.stages.digest
  have hdigest : c.digest = d.digest := Except.ok.inj (congrArg Prod.fst hsame)
  have hstory : c.story = d.story := congrArg Prod.snd hsame
  have hcast : ∀ identity : String, c.state.contexts[identity]?.map (fun c => c.element) =
      d.state.contexts[identity]?.map fun c => c.element :=
    fun identity => by rw [hc.stages.cast, hd.stages.cast, hstory]
  rcases (Reader.pairs_savedState hcast hdigest).complete bytes with
    ⟨e, hx, hy⟩ | ⟨⟨sections, heap, _⟩, ⟨sections', heap', m⟩, hx, hy, R, b, b', hb, hsections,
      hheap, hheap'⟩
  · exact .inl ⟨e, reload_of_refused hx, reload_of_refused hy⟩
  · obtain ⟨rfl, -⟩ := Prod.mk.inj hheap
    obtain ⟨rfl, rfl⟩ := Prod.mk.inj hheap'
    have hmirrors : (c.restoring sections b.heap m).state.Mirrors R
        (d.restoring sections' b'.heap m).state :=
      ⟨hb.heap, State.restored_alike hcast hsections⟩
    refine .inr ⟨_, _, reload_of_complete hx, reload_of_complete hy, rfl,
      ⟨_, hmirrors.correspond⟩, replaced_of_complete hx hb.left fun hr => ?_,
      replaced_of_complete hy hb.right fun hr => ?_⟩
    -- only lists with a partner are reached, and both of a pair are new
    · obtain ⟨k, hk, -⟩ := hmirrors.partner_of_reaches hr
      exact (hb.new hk).1
    · obtain ⟨k, hk, -⟩ := hmirrors.flip.partner_of_reaches hr
      exact (hb.new hk).2

end Session

namespace Sample

def stocked : Session := cellarSession (Heap.empty.alloc [.integer 1]).2

def laden : Session :=
  (stocked.setVariable "hero" "bag" (.list 0)).toOption.getD stocked

theorem laden_of : laden.Of cellarStory := by
  have hof : stocked.Of cellarStory := .started (start_cellarStory _)
  unfold laden
  cases hs : stocked.setVariable "hero" "bag" (.list 0) with
  | error e => exact hof
  | ok s => exact .assigned hof hs

/-- Two sessions of the cellar load a knot of lists. The one in which the hero has a bag is left
with the same game as the new one, with lists beside the old one. Without their last byte the bytes
are refused, and the bag is still there. -/
theorem laden_reloaded :
    (∃ c' d', (cellarSession .empty).reload knotted.save = (none, c') ∧
      laden.reload knotted.save = (none, d') ∧ c'.state.ownership = d'.state.ownership ∧
      c'.state.Isomorphic d'.state ∧ (∀ h, d'.state.Reaches h → 1 ≤ h) ∧
      d'.state.heap.items 0 = [.integer 1]) ∧
    laden.reload knotted.save.dropLast = (some .unexpectedEnd, laden) := by
  have hof : (cellarSession .empty).Of cellarStory := .started (start_cellarStory .empty)
  have hsize : laden.state.heap.size = 1 := by decide +kernel
  have hitems : laden.state.heap.items 0 = [.integer 1] := by decide +kernel
  obtain ⟨htaken, hrefused⟩ : ((cellarSession .empty).reload knotted.save).1 = none ∧
      ((cellarSession .empty).reload knotted.save.dropLast).1 = some .unexpectedEnd := by
    decide +kernel
  constructor
  · rcases Session.reload_replaces hof laden_of knotted.save with
      ⟨e, he, -⟩ | ⟨c', d', hc', hd', howns, hsame, -, hreplaced⟩
    · rw [he] at htaken
      cases htaken
    · refine ⟨c', d', hc', hd', howns, hsame, fun h hr => hsize ▸ hreplaced.fresh hr, ?_⟩
      rw [hreplaced.kept 0 (by rw [hsize]; decide), hitems]
  · rcases Session.reload_replaces hof laden_of knotted.save.dropLast with
      ⟨e, he, hd⟩ | ⟨c', d', hc', -⟩
    · rw [he] at hrefused
      obtain rfl := Option.some.inj hrefused
      exact hd
    · rw [hc'] at hrefused
      cases hrefused

end Sample

end Fabula
