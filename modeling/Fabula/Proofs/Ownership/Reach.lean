import Fabula.Proofs.Ownership.Holdings

/-! What the current player can reach. They look for a name on themselves, then in the innermost of
their rooms, then in the world, and have the objects of that name at the first of these places where
there is any. All of it is said of the plain record of holdings. -/

namespace Fabula

namespace Holdings

/-- Where the current player looks, nearest place first; without a room or a player there are fewer
places. -/
def places (h : Holdings) : List ElementRef :=
  match h.player with
  | none => [.world]
  | some player =>
    match (h.rooms player).getLast? with
    | none => [.of .player player, .world]
    | some room => [.of .player player, .of .room room, .world]

def Offers (h : Holdings) (name : String) (place : ElementRef) (object : String) : Prop :=
  h.holder object = some place ∧ Text.fold name ∈ h.names object

def Nearest (h : Holdings) (name : String) (place : ElementRef) : Prop :=
  ∃ before after, h.places = before ++ place :: after ∧ (∃ object, h.Offers name place object) ∧
    ∀ nearer ∈ before, ∀ object, ¬h.Offers name nearer object

/-- What is found under a name: the objects at the nearest place that has any, in their order and
each of them once. -/
structure Finds (h : Holdings) (name : String) (found : List String) : Prop where
  ordered : found.Pairwise (· < ·)
  mem_iff : ∀ object,
    object ∈ found ↔ ∃ place, h.Nearest name place ∧ h.Offers name place object
  eq_nil_iff : found = [] ↔ ∀ place ∈ h.places, ∀ object, ¬h.Offers name place object

end Holdings

namespace Ownership

def place? (m : Ownership) (name : String) : Option ElementRef :=
  m.reachable.find? fun place => !(m.namedObjects place (Text.fold name)).isEmpty

theorem accessible_eq (m : Ownership) (name : String) :
    m.accessible name =
      ((m.place? name).map fun place => m.namedObjects place (Text.fold name)).getD [] := by
  rw [accessible, List.find?_map]
  rfl

theorem mem_accessible {m : Ownership} {name object : String} :
    object ∈ m.accessible name ↔
      ∃ place, m.place? name = some place ∧ object ∈ m.namedObjects place (Text.fold name) := by
  rw [accessible_eq]
  cases m.place? name <;> simp

theorem accessible_eq_nil {m : Ownership} {name : String} :
    m.accessible name = [] ↔ m.place? name = none := by
  rw [accessible_eq]
  cases hplace : m.place? name with
  | none => simp
  | some place =>
    have hfound := List.find?_some hplace
    simpa using hfound

namespace Answers

variable {m : Ownership} {h : Holdings} (hm : m.Answers h)
include hm

theorem reachable_eq : m.reachable = h.places := by
  unfold reachable Holdings.places
  rw [hm.room, hm.player]
  cases h.player with
  | none => rfl
  | some player =>
    simp only [Option.bind_some]
    cases (h.rooms player).getLast? <;> rfl

theorem mem_namedObjects {name object : String} {place : ElementRef} :
    object ∈ m.namedObjects place (Text.fold name) ↔ h.Offers name place object := by
  have hname : WordTable.has m.names object (Text.fold name) = true ↔
      Text.fold name ∈ h.names object := hm.name object name
  rw [namedObjects, List.mem_filter, hm.held, hname, Holdings.Offers]

theorem namedObjects_eq_nil {name : String} {place : ElementRef} :
    m.namedObjects place (Text.fold name) = [] ↔ ∀ object, ¬h.Offers name place object := by
  simp only [List.eq_nil_iff_forall_not_mem, hm.mem_namedObjects]

theorem place?_eq_some {name : String} {place : ElementRef} :
    m.place? name = some place ↔ h.Nearest name place := by
  rw [place?, List.find?_eq_some_iff_append, hm.reachable_eq, Holdings.Nearest]
  simp only [Bool.not_eq_true', Bool.not_not, List.isEmpty_iff, hm.namedObjects_eq_nil,
    List.isEmpty_eq_false_iff, ne_eq, not_forall, not_not]
  constructor
  · rintro ⟨hoffers, before, after, heq, hbefore⟩
    exact ⟨before, after, heq, hoffers, hbefore⟩
  · rintro ⟨before, after, heq, hoffers, hbefore⟩
    exact ⟨hoffers, before, after, heq, hbefore⟩

theorem place?_eq_none {name : String} :
    m.place? name = none ↔ ∀ place ∈ h.places, ∀ object, ¬h.Offers name place object := by
  rw [place?, List.find?_eq_none, hm.reachable_eq]
  simp only [Bool.not_eq_true', Bool.not_eq_false, List.isEmpty_iff, hm.namedObjects_eq_nil]

/-- Objects stand in their order wherever they are, so those of one name do. -/
theorem ordered_namedObjects (place : ElementRef) (name : String) :
    (m.namedObjects place name).Pairwise (· < ·) :=
  ((hm.ordered place).imp compareOfLessAndEq_eq_lt.mp).filter _

theorem ordered_accessible (name : String) : (m.accessible name).Pairwise (· < ·) := by
  rw [accessible_eq]
  cases m.place? name with
  | none => exact .nil
  | some place => exact hm.ordered_namedObjects place _

theorem finds (name : String) : h.Finds name (m.accessible name) where
  ordered := hm.ordered_accessible name
  mem_iff object := by simp only [mem_accessible, hm.place?_eq_some, hm.mem_namedObjects]
  eq_nil_iff := accessible_eq_nil.trans hm.place?_eq_none

end Answers

/-- Whatever changes were made from the start on, a name finds the objects of the nearest place that
offers any, and all spellings of the name find the same. -/
theorem accessible_nearest (changes : List Change) (name : String) :
    (Holdings.nothing.run changes).2.Finds name ((empty.run changes).2.accessible name) ∧
    ∀ spelling, Text.fold spelling = Text.fold name →
      (empty.run changes).2.accessible spelling = (empty.run changes).2.accessible name := by
  refine ⟨(answers_run changes).finds name, fun spelling hfold => ?_⟩
  rw [accessible, accessible, hfold]

end Ownership

namespace Sample

/-- Three lamps: one in the world, one in the attic, and one that the hero carries until they put it
down in the cellar, where they are before they climb to the attic. -/
def threeLamps : List Ownership.Change :=
  [.addName "beacon" "lamp", .addObject .world "beacon", .addName "candle" "LAMP",
   .addObject (.of .room "attic") "candle", .addName "torch" "lamp",
   .addObject (.of .player "hero") "torch", .setPlayer (some "hero"), .pushRoom "hero" "cellar",
   .moveObjects (.of .player "hero") (.of .room "cellar"), .pushRoom "hero" "attic"]

/-- In the attic they see neither the lamp below nor the one in the world. -/
theorem threeLamps_candle :
    (Ownership.empty.run threeLamps).2.accessible "Lamp" = ["candle"] ∧
    (Holdings.nothing.run threeLamps).2.Finds "Lamp" ["candle"] ∧
    (Ownership.empty.run threeLamps).2.accessible "lAMP" = ["candle"] := by
  have hfound : (Ownership.empty.run threeLamps).2.accessible "Lamp" = ["candle"] := by
    decide +kernel
  obtain ⟨hfinds, hspelling⟩ := Ownership.accessible_nearest threeLamps "Lamp"
  have hfold : Text.fold "lAMP" = Text.fold "Lamp" := by decide +kernel
  exact ⟨hfound, hfound ▸ hfinds, (hspelling _ hfold).trans hfound⟩

end Sample

end Fabula
