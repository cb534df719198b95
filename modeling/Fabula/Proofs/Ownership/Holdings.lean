import Mathlib.Data.Set.Card
import Mathlib.Logic.Function.Basic
import Fabula.Proofs.Ownership
import Fabula.Session.Save

/-! Ownership as plainly as it can be said: every object has at most one holder and some words,
every player is in some rooms, and there may be a current player. The tables of ownership keep
holdings in both directions and never keep anything empty, but every change does to the plain record
what it says, whatever happened before, and every question is answered as the plain record answers
it. The tables hold nothing besides: records that are the same have the same tables. -/

namespace Fabula

/-- The plain record: holders of objects, folded words of objects, the rooms of players with the
innermost last, and the current player. -/
@[ext] structure Holdings where
  holder : String → Option ElementRef
  names : String → Set String
  tags : String → Set String
  rooms : String → List String
  player : Option String

namespace Holdings

def nothing : Holdings := ⟨fun _ => none, fun _ => ∅, fun _ => ∅, fun _ => [], none⟩

open Ownership (Change)

def apply (h : Holdings) : Change → Holdings
  | .addObject holder object =>
    { h with holder := Function.update h.holder object (some holder) }
  | .removeObject object => { h with holder := Function.update h.holder object none }
  | .moveObjects source target =>
    { h with holder := fun object =>
        if h.holder object = some source then some target else h.holder object }
  | .addName object name =>
    { h with names := Function.update h.names object (h.names object ∪ {Text.fold name}) }
  | .removeName object name =>
    { h with names := Function.update h.names object (h.names object \ {Text.fold name}) }
  | .addTag object tag =>
    { h with tags := Function.update h.tags object (h.tags object ∪ {Text.fold tag}) }
  | .removeTag object tag =>
    { h with tags := Function.update h.tags object (h.tags object \ {Text.fold tag}) }
  | .pushRoom player room =>
    { h with rooms := Function.update h.rooms player (h.rooms player ++ [room]) }
  | .popRoom player => { h with rooms := Function.update h.rooms player (h.rooms player).dropLast }
  | .swapRoom player room =>
    { h with rooms := Function.update h.rooms player ((h.rooms player).dropLast ++ [room]) }
  | .setPlayer player => { h with player := player }

/-- The room that a change gives back: the innermost one if a player leaves it. -/
def gives (h : Holdings) : Change → Option String
  | .popRoom player => (h.rooms player).getLast?
  | .swapRoom player _ => (h.rooms player).getLast?
  | _ => none

def run (h : Holdings) : List Change → List (Option String) × Holdings
  | [] => ([], h)
  | change :: changes =>
    let after := (h.apply change).run changes
    (h.gives change :: after.1, after.2)

end Holdings

namespace WordTable

def words (t : WordTable) (owner : String) : Set String := {word | word ∈ get t owner}

theorem words_add (t : WordTable) (owner word : String) :
    words (add t owner word) = Function.update (words t) owner (words t owner ∪ {word}) := by
  funext other
  ext w
  by_cases h : other = owner
  · subst h
    simp [words, get_add, @eq_comm _ w]
  · simp [words, get_add, h, Ne.symm h]

theorem get_remove (t : WordTable) (owner word other : String) :
    get (remove t owner word) other =
      if owner = other then (get t owner).erase word else get t other := by
  unfold remove
  cases hw : t[owner]? with
  | none =>
    by_cases h : owner = other
    · subst h
      apply Std.ExtTreeSet.ext_mem
      simp [get, hw]
    · rw [if_neg h]
  | some known =>
    simp only
    split
    · rename_i hempty
      rw [get, Std.ExtTreeMap.getElem?_erase]
      simp only [Std.compare_eq_iff_eq, get, hw, Option.getD_some]
      split
      · exact (Std.ExtTreeSet.isEmpty_iff.mp hempty).symm
      · rfl
    · rw [get, Std.ExtTreeMap.getElem?_insert]
      simp only [Std.compare_eq_iff_eq, get, hw, Option.getD_some]
      split <;> rfl

theorem words_remove (t : WordTable) (owner word : String) :
    words (remove t owner word) = Function.update (words t) owner (words t owner \ {word}) := by
  funext other
  ext w
  by_cases h : other = owner
  · subst h
    simp [words, get_remove, and_comm, @eq_comm _ w]
  · simp [words, get_remove, h, Ne.symm h]

end WordTable

namespace Ownership

def Change.gives : Change → Ownership → Option String
  | popRoom player, m => (m.popRoom player).1
  | swapRoom player room, m => (m.swapRoom player room).1
  | _, _ => none

def run (m : Ownership) : List Change → List (Option String) × Ownership
  | [] => ([], m)
  | change :: changes =>
    let after := (change.apply m).run changes
    (change.gives m :: after.1, after.2)

/-- The plain record that ownership stands for. -/
def holdings (m : Ownership) : Holdings where
  holder := m.owner?
  names := WordTable.words m.names
  tags := WordTable.words m.tags
  rooms := m.roomStack
  player := m.player

theorem addObject_eq (m : Ownership) (holder : ElementRef) (object : String) :
    m.addObject holder object =
      { m with
        owner := m.owner.insert object holder
        held := (m.addObject holder object).held } :=
  foldl_addObject [(object, holder)] m

theorem holdings_addObject (m : Ownership) (holder : ElementRef) (object : String) :
    (m.addObject holder object).holdings = m.holdings.apply (.addObject holder object) := by
  rw [addObject_eq]
  refine Holdings.ext (funext fun other => ?_) rfl rfl rfl rfl
  show (m.owner.insert object holder)[other]? = _
  rw [Std.ExtTreeMap.getElem?_insert]
  by_cases h : other = object
  · subst h
    simp [Holdings.apply]
  · simp [Holdings.apply, holdings, owner?, h, Ne.symm h]

theorem holdings_removeObject (m : Ownership) (object : String) :
    (m.removeObject object).holdings = m.holdings.apply (.removeObject object) := by
  have heq : m.removeObject object =
      { m with
        owner := (m.removeObject object).owner
        held := (m.removeObject object).held } := by
    unfold removeObject
    cases m.owner[object]? <;> rfl
  rw [heq]
  refine Holdings.ext (funext fun other => ?_) rfl rfl rfl rfl
  show (m.removeObject object).owner[other]? = _
  rw [owner_removeObject]
  by_cases h : other = object
  · subst h
    simp [Holdings.apply]
  · simp [Holdings.apply, holdings, owner?, h, Ne.symm h]

theorem Inverse.mem_objectsHeld {m : Ownership} (h : m.Inverse) (holder : ElementRef)
    (object : String) : object ∈ m.objectsHeld holder ↔ m.owner? object = some holder := by
  rw [objectsHeld, Std.ExtTreeSet.mem_toList, h.held_iff, owner?]

theorem holdings_foldl_addObject (target : ElementRef) (objects : List String) (m : Ownership) :
    (objects.foldl (fun m object => m.addObject target object) m).holdings =
      { m.holdings with holder := fun object =>
          if object ∈ objects then some target else m.owner? object } := by
  induction objects generalizing m with
  | nil => simp [holdings]
  | cons object objects ih =>
    have hstep := holdings_addObject m target object
    rw [List.foldl_cons, ih, hstep]
    refine Holdings.ext (funext fun other => ?_) rfl rfl rfl rfl
    have howner : (m.addObject target object).owner? other =
        Function.update m.owner? object (some target) other :=
      congrFun (congrArg Holdings.holder hstep) other
    simp only [howner, List.mem_cons, Function.update_apply]
    by_cases h : other ∈ objects <;> by_cases h' : other = object <;> simp [h, h']

/-- Nothing is moved twice or left behind, since the objects are listed before the first one is
given away. -/
theorem holdings_moveObjects {m : Ownership} (h : m.Inverse) (source target : ElementRef) :
    (m.moveObjects source target).holdings = m.holdings.apply (.moveObjects source target) := by
  unfold moveObjects
  split
  · rename_i he
    subst he
    refine Holdings.ext (funext fun object => ?_) rfl rfl rfl rfl
    simp only [Holdings.apply]
    split
    · assumption
    · rfl
  · rw [holdings_foldl_addObject]
    refine Holdings.ext (funext fun object => ?_) rfl rfl rfl rfl
    exact if_congr (h.mem_objectsHeld source object) rfl rfl

theorem roomStack_setRooms (m : Ownership) (player : String) (rooms : List String) :
    (m.setRooms player rooms).roomStack = Function.update m.roomStack player rooms.reverse := by
  funext other
  by_cases h : other = player
  · subst h
    cases rooms <;> simp [roomStack, roomsOf, setRooms]
  · cases rooms <;>
      simp [roomStack, roomsOf, setRooms, Std.ExtTreeMap.getElem?_erase,
        Std.ExtTreeMap.getElem?_insert, h, Ne.symm h]

theorem holdings_setRooms (m : Ownership) (player : String) (rooms : List String) :
    (m.setRooms player rooms).holdings =
      { m.holdings with rooms := Function.update m.roomStack player rooms.reverse } :=
  Holdings.ext rfl rfl rfl (roomStack_setRooms m player rooms) rfl

theorem holdings_pushRoom (m : Ownership) (player room : String) :
    (m.pushRoom player room).holdings = m.holdings.apply (.pushRoom player room) := by
  rw [pushRoom, holdings_setRooms, List.reverse_cons]
  rfl

theorem holdings_popRoom (m : Ownership) (player : String) :
    (m.popRoom player).2.holdings = m.holdings.apply (.popRoom player) := by
  have hstack : m.roomStack player = (m.roomsOf player).reverse := rfl
  unfold popRoom
  split
  · rename_i hnone
    refine Holdings.ext rfl rfl rfl ?_ rfl
    rw [hnone] at hstack
    simp [Holdings.apply, holdings, hstack]
  · rename_i room rest hrooms
    rw [holdings_setRooms]
    rw [hrooms] at hstack
    simp [Holdings.apply, holdings, hstack]

theorem popRoom_fst (m : Ownership) (player : String) :
    (m.popRoom player).1 = (m.roomStack player).getLast? := by
  unfold popRoom roomStack
  cases m.roomsOf player <;> simp

theorem holdings_apply {m : Ownership} (h : m.Coherent) (change : Change) :
    (change.apply m).holdings = m.holdings.apply change := by
  cases change with
  | addObject holder object => exact holdings_addObject m holder object
  | removeObject object => exact holdings_removeObject m object
  | moveObjects source target => exact holdings_moveObjects h.toInverse source target
  | addName object name =>
    exact Holdings.ext rfl (WordTable.words_add m.names object _) rfl rfl rfl
  | removeName object name =>
    exact Holdings.ext rfl (WordTable.words_remove m.names object _) rfl rfl rfl
  | addTag object tag =>
    exact Holdings.ext rfl rfl (WordTable.words_add m.tags object _) rfl rfl
  | removeTag object tag =>
    exact Holdings.ext rfl rfl (WordTable.words_remove m.tags object _) rfl rfl
  | pushRoom player room => exact holdings_pushRoom m player room
  | popRoom player => exact holdings_popRoom m player
  | swapRoom player room =>
    show ((m.popRoom player).2.pushRoom player room).holdings = _
    rw [holdings_pushRoom, holdings_popRoom]
    simp [Holdings.apply]
  | setPlayer player => rfl

theorem gives_eq (m : Ownership) (change : Change) :
    change.gives m = m.holdings.gives change := by
  cases change with
  | popRoom player => exact popRoom_fst m player
  | swapRoom player room => exact popRoom_fst m player
  | _ => rfl

theorem run_eq (changes : List Change) {m : Ownership} (h : m.Coherent) :
    (m.run changes).1 = (m.holdings.run changes).1 ∧
      (m.run changes).2.holdings = (m.holdings.run changes).2 ∧ (m.run changes).2.Coherent := by
  induction changes generalizing m with
  | nil => exact ⟨rfl, rfl, h⟩
  | cons change changes ih =>
    obtain ⟨hgives, hholdings, hcoherent⟩ := ih (h.apply change)
    rw [holdings_apply h] at hgives hholdings
    exact ⟨congrArg₂ List.cons (gives_eq m change) hgives, hholdings, hcoherent⟩

structure Answers (m : Ownership) (h : Holdings) : Prop where
  owner : ∀ object, m.owner? object = h.holder object
  has : ∀ holder object, m.hasObject holder object = true ↔ h.holder object = some holder
  held : ∀ holder object, object ∈ m.objectsHeld holder ↔ h.holder object = some holder
  /-- The objects of a holder stand in their order, each of them once. -/
  ordered : ∀ holder, (m.objectsHeld holder).Pairwise fun a b => compare a b = .lt
  count : ∀ holder, m.objectCount holder = {object | h.holder object = some holder}.ncard
  name : ∀ object name, m.hasName object name = true ↔ Text.fold name ∈ h.names object
  tag : ∀ object tag, m.hasTag object tag = true ↔ Text.fold tag ∈ h.tags object
  rooms : ∀ player, m.roomStack player = h.rooms player
  innermost : ∀ player, m.roomOf? player = (h.rooms player).getLast?
  player : m.player = h.player
  room : m.room? = h.player.bind fun player => (h.rooms player).getLast?

theorem getLast?_roomStack (m : Ownership) (player : String) :
    (m.roomStack player).getLast? = m.roomOf? player := by
  rw [roomStack, List.getLast?_reverse, roomOf?]

theorem Inverse.objectCount_eq {m : Ownership} (h : m.Inverse) (holder : ElementRef) :
    m.objectCount holder = {object | m.owner? object = some holder}.ncard := by
  have hset : {object | m.owner? object = some holder} =
      ((m.objectsHeld holder).toFinset : Set String) := by
    ext object
    simp [h.mem_objectsHeld]
  have hnodup : (m.objectsHeld holder).Nodup :=
    Std.ExtTreeSet.distinct_toList.imp fun hne he => hne (Std.compare_eq_iff_eq.mpr he)
  rw [hset, Set.ncard_coe_finset, List.toFinset_card_of_nodup hnodup, objectsHeld,
    Std.ExtTreeSet.length_toList, objectCount]

theorem Coherent.answers {m : Ownership} (h : m.Coherent) : m.Answers m.holdings where
  owner _ := rfl
  has holder object := by
    rw [hasObject, Std.ExtTreeSet.contains_iff_mem, h.held_iff]
    rfl
  held := h.mem_objectsHeld
  ordered _ := Std.ExtTreeSet.ordered_toList
  count := h.objectCount_eq
  name _ _ := Std.ExtTreeSet.contains_iff_mem
  tag _ _ := Std.ExtTreeSet.contains_iff_mem
  rooms _ := rfl
  innermost player := (getLast?_roomStack m player).symm
  player := rfl
  room := by
    show m.room? = m.player.bind fun player => (m.roomStack player).getLast?
    unfold room?
    cases m.player with
    | none => rfl
    | some player => exact (getLast?_roomStack m player).symm

/-- Nothing is kept besides the plain record. -/
theorem Coherent.eq_of_holdings {m n : Ownership} (hm : m.Coherent) (hn : n.Coherent)
    (h : m.holdings = n.holdings) : m = n := by
  have hwords : ∀ {t u : WordTable}, t.Tidy → u.Tidy → WordTable.words t = WordTable.words u →
      t = u := fun ht hu hwords =>
    WordTable.eq_of_get_eq ht hu fun owner => Std.ExtTreeSet.ext_mem fun word =>
      Set.ext_iff.mp (congrFun hwords owner) word
  have howner : m.owner = n.owner :=
    Std.ExtTreeMap.ext_getElem? fun object => congrFun (congrArg Holdings.holder h) object
  have hrooms : m.rooms = n.rooms := by
    refine eq_of_getD_eq hm.rooms_nonempty hn.rooms_nonempty fun player => ?_
    exact List.reverse_injective (congrFun (congrArg Holdings.rooms h) player)
  have hheld := hm.toInverse.held_eq hn.toInverse howner
  have hnames := hwords hm.names hn.names (congrArg Holdings.names h)
  have htags := hwords hm.tags hn.tags (congrArg Holdings.tags h)
  have hplayer : m.player = n.player := congrArg Holdings.player h
  cases m
  cases n
  simp_all

theorem holdings_empty : empty.holdings = Holdings.nothing := by
  have hwords : WordTable.words ∅ = fun _ => ∅ :=
    funext fun _ => Set.eq_empty_of_forall_notMem fun _ => Std.ExtTreeSet.not_mem_empty
  exact Holdings.ext rfl hwords hwords rfl rfl

theorem run_empty (changes : List Change) :
    (empty.run changes).1 = (Holdings.nothing.run changes).1 ∧
      (empty.run changes).2.holdings = (Holdings.nothing.run changes).2 ∧
      (empty.run changes).2.Coherent := by
  rw [← holdings_empty]
  exact run_eq changes coherent_empty

theorem answers_run (changes : List Change) :
    (empty.run changes).2.Answers (Holdings.nothing.run changes).2 := by
  obtain ⟨-, hholdings, hcoherent⟩ := run_empty changes
  exact hholdings ▸ hcoherent.answers

/-- Ownership refines the plain record. Whatever changes are made one after another from the start
on, each gives back what it should, and then all questions are answered as the plain record answers
them. Moving the objects of a holder changes who holds exactly these, and nothing at all if the
holder is the new one or has no objects. The tables depend on nothing but the plain record, and so
does what is saved of them. -/
theorem holdings_refined (changes : List Change) :
    (empty.run changes).1 = (Holdings.nothing.run changes).1 ∧
    (empty.run changes).2.Answers (Holdings.nothing.run changes).2 ∧
    (∀ source target object, ((empty.run changes).2.moveObjects source target).owner? object =
      if (empty.run changes).2.owner? object = some source then some target
      else (empty.run changes).2.owner? object) ∧
    (∀ source target, source = target ∨ (empty.run changes).2.objectCount source = 0 →
      (empty.run changes).2.moveObjects source target = (empty.run changes).2) ∧
    ∀ changes' : List Change,
      (Holdings.nothing.run changes).2 = (Holdings.nothing.run changes').2 →
      (empty.run changes).2 = (empty.run changes').2 ∧
        Bytes.ownership (empty.run changes).2 = Bytes.ownership (empty.run changes').2 := by
  obtain ⟨hgives, hholdings, hcoherent⟩ := run_empty changes
  refine ⟨hgives, answers_run changes, fun source target object => ?_,
    fun source target h => ?_, fun changes' h => ?_⟩
  · have hmoved := holdings_moveObjects hcoherent.toInverse source target
    exact congrFun (congrArg Holdings.holder hmoved) object
  · unfold moveObjects
    split
    · rfl
    · rename_i hne
      have hnone : (empty.run changes).2.objectsHeld source = [] := by
        rw [← List.length_eq_zero_iff, objectsHeld, Std.ExtTreeSet.length_toList]
        exact h.resolve_left hne
      rw [hnone, List.foldl_nil]
  · obtain ⟨-, hholdings', hcoherent'⟩ := run_empty changes'
    have hsame := hcoherent.eq_of_holdings hcoherent'
      (hholdings.trans (h.trans hholdings'.symm))
    exact ⟨hsame, congrArg Bytes.ownership hsame⟩

end Ownership

namespace Sample

/-- The hero takes the lamp and names it, leaves it with all else in the cellar and takes the name
away again, and goes through the attic. -/
def detour : List Ownership.Change :=
  [.addObject (.of .player "hero") "lamp", .addName "lamp" "Lantern",
   .moveObjects (.of .player "hero") (.of .room "cellar"), .removeName "lamp" "LANTERN",
   .pushRoom "hero" "attic", .swapRoom "hero" "cellar", .popRoom "hero"]

/-- Where it went and what it was called leaves no trace in the tables or in what is saved. -/
theorem detour_untraced :
    (Holdings.nothing.run detour).2 =
      (Holdings.nothing.run [.addObject (.of .room "cellar") "lamp"]).2 ∧
    (Ownership.empty.run detour).2 =
      (Ownership.empty.run [.addObject (.of .room "cellar") "lamp"]).2 ∧
    Bytes.ownership (Ownership.empty.run detour).2 =
      Bytes.ownership (Ownership.empty.run [.addObject (.of .room "cellar") "lamp"]).2 ∧
    (Ownership.empty.run detour).1 =
      [none, none, none, none, none, some "attic", some "cellar"] := by
  have hname : Text.fold "LANTERN" = Text.fold "Lantern" := by decide +kernel
  have hsame : (Holdings.nothing.run detour).2 =
      (Holdings.nothing.run [.addObject (.of .room "cellar") "lamp"]).2 := by
    refine Holdings.ext ?_ ?_ rfl ?_ rfl
    all_goals
      funext key
      by_cases h : key = "lamp" <;>
        simp [detour, Holdings.run, Holdings.apply, Holdings.nothing, Function.update_apply, hname,
          h]
  obtain ⟨hgives, -, -, -, heq⟩ := Ownership.holdings_refined detour
  obtain ⟨htables, hbytes⟩ := heq _ hsame
  refine ⟨hsame, htables, hbytes, hgives.trans ?_⟩
  simp [detour, Holdings.run, Holdings.apply, Holdings.gives, Holdings.nothing]

end Sample

end Fabula
