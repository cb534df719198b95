import Fabula.Ownership
import Fabula.Proofs.Table
import Fabula.Proofs.Text.Folding

/-! The shape of ownership. The table of holders and the table of their objects are inverse to each
other, words are folded, and nothing is kept empty. What is kept twice is therefore known from one
side: the objects of all holders from the holders of all objects. -/

namespace Fabula

namespace WordTable

/-- No owner has an empty set of words, and all words are folded. -/
structure Tidy (t : WordTable) : Prop where
  nonempty : ∀ owner : String, t[owner]? ≠ some ∅
  folded : ∀ {owner word : String}, word ∈ get t owner → Text.fold word = word

theorem tidy_empty : Tidy ∅ := ⟨by simp, by simp [get]⟩

theorem get_add (t : WordTable) (owner word other : String) :
    get (add t owner word) other =
      if owner = other then (get t owner).insert word else get t other := by
  by_cases h : owner = other <;> simp [get, add, Std.ExtTreeMap.getElem?_insert, h]

def addAll (t : WordTable) (owner : String) (words : List String) : WordTable :=
  words.foldl (fun t word => add t owner (Text.fold word)) t

theorem mem_get_addAll {t : WordTable} {owner other word : String} (words : List String) :
    word ∈ get (addAll t owner words) other ↔
      word ∈ get t other ∨ owner = other ∧ ∃ w ∈ words, Text.fold w = word := by
  induction words generalizing t with
  | nil => simp [addAll]
  | cons w words ih =>
    have hstep : addAll t owner (w :: words) = addAll (add t owner (Text.fold w)) owner words := rfl
    rw [hstep, ih, get_add]
    by_cases h : owner = other
    · subst h
      simp [or_assoc, or_left_comm]
    · simp [h]

theorem Tidy.add {t : WordTable} (h : Tidy t) (owner word : String) :
    Tidy (add t owner (Text.fold word)) where
  nonempty other := by
    by_cases ho : owner = other
    · subst ho
      simp [WordTable.add]
    · simpa [WordTable.add, Std.ExtTreeMap.getElem?_insert, ho] using h.nonempty other
  folded {other w} hw := by
    rw [get_add] at hw
    split at hw
    · rcases Std.ExtTreeSet.mem_insert.mp hw with he | hw
      · rw [← Std.compare_eq_iff_eq.mp he, Text.fold_fold]
      · exact h.folded hw
    · exact h.folded hw

theorem Tidy.remove {t : WordTable} (h : Tidy t) (owner word : String) :
    Tidy (remove t owner word) := by
  unfold WordTable.remove
  cases hw : t[owner]? with
  | none => exact h
  | some words =>
    have hsub : ∀ w ∈ words.erase word, Text.fold w = w := by
      intro w hm
      have hget : w ∈ get t owner := by simpa [get, hw] using (Std.ExtTreeSet.mem_erase.mp hm).2
      exact h.folded hget
    simp only
    split
    · constructor
      · intro other
        rw [Std.ExtTreeMap.getElem?_erase]
        split
        · simp
        · exact h.nonempty other
      · intro other w hm
        rw [get, Std.ExtTreeMap.getElem?_erase] at hm
        split at hm
        · simp at hm
        · exact h.folded hm
    · rename_i hne
      constructor
      · intro other
        rw [Std.ExtTreeMap.getElem?_insert]
        split
        · exact fun he => hne (Std.ExtTreeSet.isEmpty_iff.mpr (Option.some.inj he))
        · exact h.nonempty other
      · intro other w hm
        rw [get, Std.ExtTreeMap.getElem?_insert] at hm
        split at hm
        · exact hsub w hm
        · exact h.folded hm

theorem Tidy.addAll {t : WordTable} (h : Tidy t) (owner : String) (words : List String) :
    Tidy (addAll t owner words) := by
  induction words generalizing t with
  | nil => exact h
  | cons w words ih => exact ih (h.add owner w)

theorem eq_of_get_eq {t u : WordTable} (ht : Tidy t) (hu : Tidy u)
    (h : ∀ owner, get t owner = get u owner) : t = u :=
  eq_of_getD_eq ht.nonempty hu.nonempty h

theorem foldl_addAll {t : WordTable} (ht : Tidy t) {owners : List String}
    (howners : ∀ owner ∈ t, owner ∈ owners) :
    owners.foldl (fun u owner => addAll u owner (get t owner).toList) ∅ = t := by
  have hfold : ∀ (owners : List String) (u : WordTable), Tidy u →
      Tidy (owners.foldl (fun u owner => addAll u owner (get t owner).toList) u) ∧
        ∀ other word, word ∈ get (owners.foldl
            (fun u owner => addAll u owner (get t owner).toList) u) other ↔
          word ∈ get u other ∨ other ∈ owners ∧ word ∈ get t other := by
    intro owners
    induction owners with
    | nil => simp
    | cons owner owners ih =>
      intro u hu
      obtain ⟨htidy, hmem⟩ := ih (addAll u owner (get t owner).toList) (hu.addAll owner _)
      refine ⟨htidy, fun other word => ?_⟩
      have hwords : (∃ w ∈ (get t owner).toList, Text.fold w = word) ↔ word ∈ get t owner := by
        constructor
        · rintro ⟨w, hw, rfl⟩
          have hw := Std.ExtTreeSet.mem_toList.mp hw
          rwa [ht.folded hw]
        · intro hw
          exact ⟨word, Std.ExtTreeSet.mem_toList.mpr hw, ht.folded hw⟩
      rw [List.foldl_cons, hmem, mem_get_addAll, hwords]
      by_cases ho : owner = other
      · subst ho
        simp only [true_and, List.mem_cons, true_or]
        tauto
      · have ho' : other ≠ owner := fun e => ho e.symm
        simp [ho, ho']
  obtain ⟨htidy, hmem⟩ := hfold owners ∅ tidy_empty
  refine eq_of_get_eq htidy ht fun other => Std.ExtTreeSet.ext_mem fun word => ?_
  rw [hmem]
  constructor
  · rintro (hw | ⟨-, hw⟩)
    · simp [get] at hw
    · exact hw
  · intro hw
    refine .inr ⟨howners other ?_, hw⟩
    by_contra hno
    rw [get, Std.ExtTreeMap.getElem?_eq_none hno] at hw
    exact Std.ExtTreeSet.not_mem_empty hw

end WordTable

namespace Ownership

/-- The objects of a holder are those it owns, and no holder is kept without objects. -/
structure Inverse (m : Ownership) : Prop where
  held_iff : ∀ (holder : ElementRef) (object : String),
    object ∈ m.objectsOf holder ↔ m.owner[object]? = some holder
  held_nonempty : ∀ holder : ElementRef, m.held[holder]? ≠ some ∅

/-- Holders and objects are inverse to each other, words are folded, and nothing is kept empty. -/
structure Coherent (m : Ownership) : Prop extends Inverse m where
  names : WordTable.Tidy m.names
  tags : WordTable.Tidy m.tags
  rooms_nonempty : ∀ player : String, m.rooms[player]? ≠ some []

theorem inverse_of_owner_empty {m : Ownership} (ho : m.owner = ∅) (hh : m.held = ∅) :
    Inverse m := by
  constructor
  · simp [objectsOf, ho, hh]
  · simp [hh]

theorem coherent_empty : Coherent empty where
  toInverse := inverse_of_owner_empty rfl rfl
  names := WordTable.tidy_empty
  tags := WordTable.tidy_empty
  rooms_nonempty := by simp [empty]

theorem foldl_addName (m : Ownership) (object : String) (words : List String) :
    words.foldl (fun m name => m.addName object name) m =
      { m with names := WordTable.addAll m.names object words } := by
  induction words generalizing m with
  | nil => rfl
  | cons word words ih =>
    rw [List.foldl_cons, ih]
    rfl

theorem foldl_addTag (m : Ownership) (object : String) (words : List String) :
    words.foldl (fun m tag => m.addTag object tag) m =
      { m with tags := WordTable.addAll m.tags object words } := by
  induction words generalizing m with
  | nil => rfl
  | cons word words ih =>
    rw [List.foldl_cons, ih]
    rfl

theorem foldl_describe {m : Ownership} (hm : m.Coherent) {objects : List String}
    (hn : ∀ object ∈ m.names, object ∈ objects) (ht : ∀ object ∈ m.tags, object ∈ objects) :
    objects.foldl (fun n object =>
        (WordTable.get m.tags object).toList.foldl (fun n tag => n.addTag object tag)
          ((WordTable.get m.names object).toList.foldl (fun n name => n.addName object name) n))
        empty =
      { names := m.names, tags := m.tags } := by
  have hfold : ∀ (objects : List String) (n : Ownership), objects.foldl (fun n object =>
        (WordTable.get m.tags object).toList.foldl (fun n tag => n.addTag object tag)
          ((WordTable.get m.names object).toList.foldl (fun n name => n.addName object name) n)) n =
      { n with
        names := objects.foldl (fun t object =>
          WordTable.addAll t object (WordTable.get m.names object).toList) n.names
        tags := objects.foldl (fun t object =>
          WordTable.addAll t object (WordTable.get m.tags object).toList) n.tags } := by
    intro objects
    induction objects with
    | nil => exact fun n => rfl
    | cons object objects ih =>
      intro n
      rw [List.foldl_cons, ih, foldl_addName, foldl_addTag]
      rfl
  have hnames := WordTable.foldl_addAll hm.names hn
  have htags := WordTable.foldl_addAll hm.tags ht
  rw [hfold]
  simp only [empty, hnames, htags]

/-- Who holds what is known from the holders of all objects. -/
theorem Inverse.held_eq {m n : Ownership} (hm : m.Inverse) (hn : n.Inverse)
    (h : m.owner = n.owner) : m.held = n.held := by
  refine eq_of_getD_eq hm.held_nonempty hn.held_nonempty fun holder => ?_
  refine Std.ExtTreeSet.ext_mem fun object => ?_
  exact (hm.held_iff holder object).trans (h ▸ (hn.held_iff holder object).symm)

theorem objectsOf_removeObject {m : Ownership} {object : String} {known : ElementRef}
    (ho : m.owner[object]? = some known) (holder : ElementRef) :
    (m.removeObject object).objectsOf holder =
      if known = holder then (m.objectsOf known).erase object else m.objectsOf holder := by
  simp only [removeObject, ho]
  by_cases he : ((m.objectsOf known).erase object).isEmpty
  · rw [if_pos he, objectsOf, Std.ExtTreeMap.getElem?_erase]
    simp only [Std.compare_eq_iff_eq]
    split
    · exact (Std.ExtTreeSet.isEmpty_iff.mp he).symm
    · rfl
  · rw [if_neg he, objectsOf, Std.ExtTreeMap.getElem?_insert]
    simp only [Std.compare_eq_iff_eq]
    split <;> rfl

theorem mem_objectsOf_removeObject {m : Ownership} (h : m.Inverse) (object : String)
    (holder : ElementRef) (other : String) :
    other ∈ (m.removeObject object).objectsOf holder ↔
      object ≠ other ∧ other ∈ m.objectsOf holder := by
  cases ho : m.owner[object]? with
  | none =>
    have hsame : m.removeObject object = m := by simp [removeObject, ho]
    rw [hsame]
    refine ⟨fun hmem => ⟨?_, hmem⟩, fun hmem => hmem.2⟩
    rintro rfl
    rw [h.held_iff, ho] at hmem
    cases hmem
  | some known =>
    rw [objectsOf_removeObject ho]
    split
    · rename_i hk
      subst hk
      simp
    · rename_i hk
      refine ⟨fun hmem => ⟨?_, hmem⟩, fun hmem => hmem.2⟩
      rintro rfl
      exact hk (Option.some.inj (ho.symm.trans ((h.held_iff _ _).mp hmem)))

theorem owner_removeObject (m : Ownership) (object other : String) :
    (m.removeObject object).owner[other]? = if object = other then none else m.owner[other]? := by
  unfold removeObject
  cases ho : m.owner[object]? with
  | none =>
    by_cases he : object = other
    · simp [← he, ho]
    · simp [he]
  | some known => simp [Std.ExtTreeMap.getElem?_erase]

theorem Inverse.removeObject {m : Ownership} (h : m.Inverse) (object : String) :
    (m.removeObject object).Inverse where
  held_iff holder other := by
    rw [mem_objectsOf_removeObject h, owner_removeObject, h.held_iff]
    by_cases he : object = other <;> simp [he]
  held_nonempty holder := by
    unfold Ownership.removeObject
    cases ho : m.owner[object]? with
    | none => exact h.held_nonempty holder
    | some known =>
      simp only
      split
      · rw [Std.ExtTreeMap.getElem?_erase]
        split
        · simp
        · exact h.held_nonempty holder
      · rename_i he
        rw [Std.ExtTreeMap.getElem?_insert]
        split
        · intro hsome
          exact he (Std.ExtTreeSet.isEmpty_iff.mpr (Option.some.inj hsome))
        · exact h.held_nonempty holder

theorem owner_addObject (m : Ownership) (holder : ElementRef) (object : String) :
    (m.addObject holder object).owner = m.owner.insert object holder := by
  apply Std.ExtTreeMap.ext_getElem?
  intro other
  simp only [addObject, Std.ExtTreeMap.getElem?_insert, Std.compare_eq_iff_eq, owner_removeObject]
  split <;> rfl

theorem Inverse.addObject {m : Ownership} (h : m.Inverse) (holder : ElementRef) (object : String) :
    (m.addObject holder object).Inverse where
  held_iff other o := by
    have hr := h.removeObject object
    have hmem : o ∈ (m.addObject holder object).objectsOf other ↔
        (holder = other ∧ object = o) ∨ o ∈ (m.removeObject object).objectsOf other := by
      simp only [Ownership.addObject, objectsOf, Std.ExtTreeMap.getElem?_insert,
        Std.compare_eq_iff_eq]
      by_cases hh : holder = other
      · subst hh
        simp
      · simp [hh]
    rw [hmem, owner_addObject, Std.ExtTreeMap.getElem?_insert, hr.held_iff, owner_removeObject]
    by_cases ho : object = o <;> simp [ho]
  held_nonempty other := by
    have hr := (h.removeObject object).held_nonempty other
    simp only [Ownership.addObject, Std.ExtTreeMap.getElem?_insert, Std.compare_eq_iff_eq]
    split
    · simp
    · exact hr

theorem foldl_addObject (items : List (String × ElementRef)) (m : Ownership) :
    items.foldl (fun m item => m.addObject item.2 item.1) m =
      { m with
        owner := items.foldl (fun t item => t.insert item.1 item.2) m.owner
        held := (items.foldl (fun m item => m.addObject item.2 item.1) m).held } := by
  induction items generalizing m with
  | nil => rfl
  | cons item items ih =>
    rw [List.foldl_cons, ih, List.foldl_cons, owner_addObject]
    have hr : m.addObject item.2 item.1 =
        { m with
          owner := (m.addObject item.2 item.1).owner
          held := (m.addObject item.2 item.1).held } := by
      unfold addObject removeObject
      cases m.owner[item.1]? <;> rfl
    rw [hr]

theorem Inverse.foldl_addObject {m : Ownership} (h : m.Inverse)
    (items : List (String × ElementRef)) :
    (items.foldl (fun m item => m.addObject item.2 item.1) m).Inverse := by
  induction items generalizing m with
  | nil => exact h
  | cons item items ih => exact ih (h.addObject item.2 item.1)

theorem foldl_addObject_owner {m n : Ownership} (h : m.Inverse) (ho : n.owner = ∅)
    (hh : n.held = ∅) :
    m.owner.toList.foldl (fun n item => n.addObject item.2 item.1) n =
      { n with owner := m.owner, held := m.held } := by
  have hi := (inverse_of_owner_empty ho hh).foldl_addObject m.owner.toList
  have hf := foldl_addObject m.owner.toList n
  rw [ho, foldl_insert_toList] at hf
  have hheld := hi.held_eq h (by rw [hf])
  rw [hf, hheld]

theorem pushRoom_eq (m : Ownership) (player room : String) :
    m.pushRoom player room =
      { m with rooms := m.rooms.insert player (room :: m.roomsOf player) } := by
  simp [pushRoom, setRooms]

theorem foldl_pushRoom {m : Ownership} {player : String} {rooms : List String} (hr : rooms ≠ [])
    (hm : m.roomsOf player = []) :
    rooms.reverse.foldl (fun m room => m.pushRoom player room) m =
      { m with rooms := m.rooms.insert player rooms } := by
  induction rooms with
  | nil => exact absurd rfl hr
  | cons room rooms ih =>
    rw [List.reverse_cons, List.foldl_append]
    cases rooms with
    | nil => simp [pushRoom_eq, hm]
    | cons next rest =>
      rw [ih (by simp), List.foldl_cons, List.foldl_nil, pushRoom_eq]
      congr 1
      apply Std.ExtTreeMap.ext_getElem?
      intro k
      simp only [roomsOf, Std.ExtTreeMap.getElem?_insert, Std.compare_eq_iff_eq]
      by_cases hk : player = k <;> simp [hk]

namespace Coherent

variable {m : Ownership}

theorem addName (h : m.Coherent) (object name : String) : (m.addName object name).Coherent :=
  { h with names := h.names.add object name }

theorem addObject (h : m.Coherent) (holder : ElementRef) (object : String) :
    (m.addObject holder object).Coherent := by
  have hf := foldl_addObject [(object, holder)] m
  simp only [List.foldl_cons, List.foldl_nil] at hf
  have hi := h.toInverse.addObject holder object
  rw [hf] at hi ⊢
  exact ⟨hi, h.names, h.tags, h.rooms_nonempty⟩

theorem removeObject (h : m.Coherent) (object : String) : (m.removeObject object).Coherent := by
  have hi := h.toInverse.removeObject object
  unfold Ownership.removeObject at hi ⊢
  cases ho : m.owner[object]? with
  | none => exact h
  | some holder =>
    rw [ho] at hi
    exact ⟨hi, h.names, h.tags, h.rooms_nonempty⟩

theorem moveObjects (h : m.Coherent) (source target : ElementRef) :
    (m.moveObjects source target).Coherent := by
  unfold Ownership.moveObjects
  split
  · exact h
  · generalize m.objectsHeld source = objects
    induction objects generalizing m with
    | nil => exact h
    | cons object objects ih => exact ih (h.addObject target object)

theorem setRooms (h : m.Coherent) (player : String) (rooms : List String) :
    (m.setRooms player rooms).Coherent := by
  refine ⟨⟨h.held_iff, h.held_nonempty⟩, h.names, h.tags, fun other => ?_⟩
  unfold Ownership.setRooms
  cases rooms with
  | nil =>
    simp only [List.isEmpty_nil, if_true, Std.ExtTreeMap.getElem?_erase]
    split
    · simp
    · exact h.rooms_nonempty other
  | cons room rooms =>
    simp only [List.isEmpty_cons, Bool.false_eq_true, if_false, Std.ExtTreeMap.getElem?_insert]
    split
    · simp
    · exact h.rooms_nonempty other

theorem popRoom (h : m.Coherent) (player : String) : (m.popRoom player).2.Coherent := by
  unfold Ownership.popRoom
  split
  · exact h
  · exact h.setRooms player _

theorem setPlayer (h : m.Coherent) (player : Option String) : (m.setPlayer player).Coherent :=
  ⟨⟨h.held_iff, h.held_nonempty⟩, h.names, h.tags, h.rooms_nonempty⟩

end Coherent

theorem foldl_pushRoom_rooms (items : List (String × List String)) (m : Ownership)
    (hr : ∀ item ∈ items, item.2 ≠ []) (hm : ∀ item ∈ items, m.roomsOf item.1 = [])
    (hd : items.Pairwise fun a b => a.1 ≠ b.1) :
    items.foldl (fun m item =>
        item.2.reverse.foldl (fun m room => m.pushRoom item.1 room) m) m =
      { m with rooms := items.foldl (fun t item => t.insert item.1 item.2) m.rooms } := by
  induction items generalizing m with
  | nil => rfl
  | cons item items ih =>
    obtain ⟨hne, hd⟩ := List.pairwise_cons.mp hd
    rw [List.foldl_cons,
      foldl_pushRoom (hr item List.mem_cons_self) (hm item List.mem_cons_self), ih]
    · rfl
    · exact fun other ho => hr other (List.mem_cons_of_mem _ ho)
    · intro other ho
      have h := hm other (List.mem_cons_of_mem _ ho)
      simpa [roomsOf, Std.ExtTreeMap.getElem?_insert, hne other ho] using h
    · exact hd

inductive Change where
  | addObject (holder : ElementRef) (object : String)
  | removeObject (object : String)
  | moveObjects (source target : ElementRef)
  | addName (object name : String)
  | removeName (object name : String)
  | addTag (object tag : String)
  | removeTag (object tag : String)
  | pushRoom (player room : String)
  | popRoom (player : String)
  | swapRoom (player room : String)
  | setPlayer (player : Option String)

def Change.apply : Change → Ownership → Ownership
  | addObject holder object, m => m.addObject holder object
  | removeObject object, m => m.removeObject object
  | moveObjects source target, m => m.moveObjects source target
  | addName object name, m => m.addName object name
  | removeName object name, m => m.removeName object name
  | addTag object tag, m => m.addTag object tag
  | removeTag object tag, m => m.removeTag object tag
  | pushRoom player room, m => m.pushRoom player room
  | popRoom player, m => (m.popRoom player).2
  | swapRoom player room, m => (m.swapRoom player room).2
  | setPlayer player, m => m.setPlayer player

theorem Coherent.apply {m : Ownership} (h : m.Coherent) (change : Change) :
    (change.apply m).Coherent := by
  cases change with
  | addObject holder object => exact h.addObject holder object
  | removeObject object => exact h.removeObject object
  | moveObjects source target => exact h.moveObjects source target
  | addName object name => exact h.addName object name
  | removeName object name => exact { h with names := h.names.remove object (Text.fold name) }
  | addTag object tag => exact { h with tags := h.tags.add object tag }
  | removeTag object tag => exact { h with tags := h.tags.remove object (Text.fold tag) }
  | pushRoom player room => exact h.setRooms player _
  | popRoom player => exact h.popRoom player
  | swapRoom player room => exact (h.popRoom player).setRooms player _
  | setPlayer player => exact h.setPlayer player

/-- Whatever changes ownership goes through, it stays coherent. -/
theorem coherent_run (changes : List Change) :
    (changes.foldl (fun m change => change.apply m) empty).Coherent := by
  have hrun : ∀ (changes : List Change) (m : Ownership), m.Coherent →
      (changes.foldl (fun m change => change.apply m) m).Coherent := by
    intro changes
    induction changes with
    | nil => exact fun m h => h
    | cons change changes ih => exact fun m h => ih (change.apply m) (h.apply change)
  exact hrun changes empty coherent_empty

end Ownership

end Fabula
