import Fabula.Proofs.Story.Building

/-! Lineages are built by adding elements and linking parents, in any order and whatever the calls
give back. At every moment they form a forest: from any element the way along parents comes to an
end, and no call takes back a link that was made. -/

namespace Fabula.Story

/-- A call that adds a fresh element or links one to a parent. -/
inductive Call where
  | add (e : Element) (fresh : e.Built)
  | link (child parent : String)

namespace Call

def result (s : Story) : Call → Except StoryError Story
  | add e _ => s.addElement e
  | link child parent => s.linkParent child parent

def perform (s : Story) (call : Call) : Except StoryError Unit × Story :=
  match call.result s with
  | .ok t => (.ok (), t)
  | .error error => (.error error, s)

end Call

def performAll (s : Story) (calls : List Call) : Story :=
  calls.foldl (fun s call => (call.perform s).2) s

def parentOf? (s : Story) (identity : String) : Option String :=
  (s.element? identity).bind Element.parent

/-- The way from an element along parents, up to one that has none. -/
inductive Ascent (s : Story) : Element → List Element → Prop
  | root {e : Element} : e.parent = none → Ascent s e [e]
  | child {e p : Element} {parent : String} {rest : List Element} :
      e.parent = some parent → s.element? parent = some p → Ascent s p rest →
      Ascent s e (e :: rest)

/-- Links join elements of one kind other than the world, and all ways along them come to an end
without going in circles. -/
structure Forest (s : Story) : Prop where
  link : ∀ {child parent : String}, s.parentOf? child = some parent →
    ∃ c p, s.element? child = some c ∧ s.element? parent = some p ∧ c.kind ≠ .world ∧
      p.kind = c.kind
  ascent : ∀ {identity : String} {e : Element}, s.element? identity = some e →
    s.Ascent e (s.lineage identity)
  unknown : ∀ {identity : String}, s.element? identity = none → s.lineage identity = []
  nodup : ∀ identity, ((s.lineage identity).map Element.identity).Nodup

variable {s t : Story} {child parent identity : String} {c p e : Element}

theorem element?_fold (s : Story) (identity : String) :
    s.element? (Text.fold identity) = s.element? identity := by
  rw [element?, element?, Text.fold_fold]

namespace Sound

variable (h : s.Sound)

include h

theorem element?_of_key (he : s.elements[identity]? = some e) : s.element? identity = some e := by
  have hworld : identity ≠ worldIdentity := ne_worldIdentity_of_checked (h.checked he)
  rw [element?, h.orderly.folded he, if_neg hworld, he]

theorem element?_cases (he : s.element? identity = some e) :
    e = s.world ∨ s.elements[Text.fold identity]? = some e ∧ e.identity = Text.fold identity := by
  unfold element? at he
  split at he
  · exact .inl (Option.some.inj he).symm
  · exact .inr ⟨he, h.orderly.identity he⟩

theorem found_of_parent (he : s.element? identity = some e) (hparent : e.parent = some parent) :
    s.elements[Text.fold identity]? = some e := by
  rcases h.element?_cases he with rfl | ⟨he, -⟩
  · rw [h.world_parent] at hparent
    cases hparent
  · exact he

/-- An ancestry that ended before its bound goes all the way up. -/
theorem ascent_ancestry (generations : Nat)
    (hl : (s.ancestry generations e).length ≤ generations)
    (he : ∀ parent, e.parent = some parent → ∃ p, s.elements[parent]? = some p) :
    s.Ascent e (s.ancestry generations e) := by
  induction generations generalizing e with
  | zero => simp [ancestry] at hl
  | succ generations ih =>
    unfold ancestry at hl ⊢
    cases hparent : e.parent with
    | none =>
      simp only [parent?, hparent]
      exact .root hparent
    | some parent =>
      obtain ⟨p, hp⟩ := he parent hparent
      simp only [parent?, hparent, hp, List.length_cons] at hl ⊢
      refine .child hparent (h.element?_of_key hp) (ih (by omega) fun grand hgrand => ?_)
      exact (h.parent hp hgrand).imp fun _ hq => hq.1

theorem ancestry_world (generations : Nat) : s.ancestry generations s.world = [s.world] := by
  cases generations <;> simp [ancestry, parent?, h.world_parent]

theorem ascent_lineage (he : s.element? identity = some e) : s.Ascent e (s.lineage identity) := by
  rw [lineage, he]
  rcases h.element?_cases he with rfl | ⟨hfound, hidentity⟩
  · simp only [h.ancestry_world]
    exact .root h.world_parent
  · rw [← hidentity] at hfound
    have hl := length_ancestry_le h.orderly h.acyclic s.elements.size hfound
    exact h.ascent_ancestry _ hl fun parent hp => (h.parent hfound hp).imp fun _ hq => hq.1

theorem nodup_lineage (identity : String) : ((s.lineage identity).map Element.identity).Nodup := by
  cases he : s.element? identity with
  | none => simp [lineage, he]
  | some e =>
    rw [lineage, he]
    rcases h.element?_cases he with rfl | ⟨hfound, hidentity⟩
    · simp only [h.ancestry_world]
      exact List.nodup_singleton _
    · rw [← hidentity] at hfound
      exact nodup_ancestry h.orderly h.acyclic _ hfound

theorem forest : s.Forest where
  link {child parent} hlink := by
    obtain ⟨c, hc, hparent⟩ := Option.bind_eq_some_iff.mp hlink
    have hfound := h.found_of_parent hc hparent
    obtain ⟨p, hp, hkind⟩ := h.parent hfound hparent
    exact ⟨c, p, hc, h.element?_of_key hp, h.orderly.kind hfound, hkind⟩
  ascent := h.ascent_lineage
  unknown hnone := by rw [lineage, hnone]
  nodup := h.nodup_lineage

theorem mem_lineage (hc : s.elements[c.identity]? = some c)
    (hp : s.elements[p.identity]? = some p) :
    c ∈ s.lineage p.identity ↔ ((s.lineage p.identity).any fun e => e.identity = c.identity) := by
  rw [lineage_eq h.orderly hp, List.any_eq_true]
  refine ⟨fun hmem => ⟨c, hmem, by simp⟩, fun ⟨e, hmem, he⟩ => ?_⟩
  have hfound := (reaches_of_mem_ancestry h.orderly _ hp hmem).1
  rw [of_decide_eq_true he, hc] at hfound
  obtain rfl := Option.some.inj hfound
  exact hmem

/-- What linking does for elements of one kind, if the child has no parent yet. -/
theorem linkParent_eq (hc : s.element? child = some c) (hp : s.element? parent = some p)
    (hworld : c.kind ≠ .world) (hkind : p.kind = c.kind) (hfree : c.parent = none) :
    (c ∈ s.lineage parent ∧ s.linkParent child parent = .error (.circularLineage c.identity)) ∨
      c ∉ s.lineage parent ∧
        s.linkParent child parent = .ok (s.putElement { c with parent := some p.identity }) := by
  have hc' := h.element?_of_kind hc hworld
  have hp' := h.element?_of_kind hp (hkind ▸ hworld)
  have hci := h.orderly.identity hc'
  have hpi := h.orderly.identity hp'
  have hcf : s.element? c.identity = some c := by rw [hci, element?_fold, hc]
  have hpf : s.element? p.identity = some p := by rw [hpi, element?_fold, hp]
  have hlineage : s.lineage parent = s.lineage p.identity := by rw [lineage, lineage, hp, hpf]
  have hlink : s.linkParent child parent =
      if (s.lineage p.identity).any fun e => e.identity = c.identity then
        .error (.circularLineage c.identity)
      else .ok (s.putElement { c with parent := some p.identity }) := by
    simp only [Story.linkParent, ← hci, ← hpi, hcf, hpf, hkind, hworld, hfree, or_self, if_false,
      ne_eq, not_true_eq_false]
    rfl
  rw [hlineage, hlink]
  by_cases hmem : c ∈ s.lineage p.identity
  · refine .inl ⟨hmem, if_pos ?_⟩
    exact (h.mem_lineage (hci ▸ hc') (hpi ▸ hp')).mp hmem
  · refine .inr ⟨hmem, if_neg fun hany => hmem ?_⟩
    exact (h.mem_lineage (hci ▸ hc') (hpi ▸ hp')).mpr hany

theorem parentOf?_putElement (hlink : s.parentOf? identity = some parent)
    (hold : ∀ old, s.elements[e.identity]? = some old → old.parent = none) :
    (s.putElement e).parentOf? identity = some parent := by
  obtain ⟨c, hc, hparent⟩ := Option.bind_eq_some_iff.mp hlink
  have hfound := h.found_of_parent hc hparent
  have hne : e.identity ≠ Text.fold identity := by
    intro heq
    rw [← heq] at hfound
    rw [hold c hfound] at hparent
    cases hparent
  have hworld : Text.fold identity ≠ worldIdentity :=
    ne_worldIdentity_of_checked (h.checked hfound)
  have hkept : (s.putElement e).element? identity = some c := by
    rw [element?, if_neg hworld, Story.putElement, Std.ExtTreeMap.getElem?_insert,
      if_neg (fun heq => hne (Std.compare_eq_iff_eq.mp heq)), hfound]
  rw [parentOf?, hkept, Option.bind_some, hparent]

theorem parentOf?_linked (hc : s.elements[Text.fold child]? = some c) (parent : String) :
    (s.putElement { c with parent := some parent }).parentOf? child = some parent := by
  have hworld : Text.fold child ≠ worldIdentity := ne_worldIdentity_of_checked (h.checked hc)
  have hidentity := h.orderly.identity hc
  have hput : (s.putElement { c with parent := some parent }).element? child =
      some { c with parent := some parent } := by
    rw [element?, if_neg hworld, Story.putElement, ← hidentity]
    exact Std.ExtTreeMap.getElem?_insert_self
  rw [parentOf?, hput, Option.bind_some]

end Sound

theorem addElement_eq_ok (made : s.addElement e = .ok t) :
    s.elements[e.identity]? = none ∧ t = s.putElement e := by
  unfold addElement at made
  split at made
  · cases made
  · split at made
    · cases made
    · split at made
      · cases made
      · rename_i hfree
        obtain rfl := Except.ok.inj made
        rw [Std.ExtTreeMap.contains_eq_isSome_getElem?] at hfree
        exact ⟨Option.not_isSome_iff_eq_none.mp hfree, rfl⟩

/-- Linking changes nothing, or sets the parent of one element that had none. -/
theorem linkParent_eq_ok (h : s.Sound) (made : s.linkParent child parent = .ok t) :
    t = s ∨ ∃ (c : Element) (p : String), s.elements[c.identity]? = some c ∧ c.parent = none ∧
      t = s.putElement { c with parent := some p } := by
  have hmade := made
  simp only [linkParent, element?_fold] at made
  split at made
  · cases made
  · cases made
  · rename_i c p hc hp
    split at made
    · cases made
    · rename_i hkind
      split at made
      · cases made
      · rename_i hsame
        split at made
        · split at made
          · exact .inl (Except.ok.inj made).symm
          · cases made
        · rename_i hfree
          have hworld : c.kind ≠ .world := fun hw => hkind (.inl hw)
          have hc' := h.element?_of_kind hc hworld
          rw [← h.orderly.identity hc'] at hc'
          rcases h.linkParent_eq hc hp hworld (not_ne_iff.mp hsame).symm hfree with
            ⟨-, hlink⟩ | ⟨-, hlink⟩
          · rw [hmade] at hlink
            cases hlink
          · rw [hmade] at hlink
            exact .inr ⟨c, p.identity, hc', hfree, Except.ok.inj hlink⟩

theorem Built.perform (h : s.Built) (call : Call) : (call.perform s).2.Built := by
  unfold Call.perform
  cases hresult : call.result s with
  | error error => exact h
  | ok t =>
    cases call with
    | add e fresh =>
      have made : s.addElement e = .ok t := hresult
      exact h.addElement fresh made
    | link child parent =>
      have made : s.linkParent child parent = .ok t := hresult
      exact h.linkParent made

theorem parentOf?_perform (h : s.Sound) (hlink : s.parentOf? identity = some parent) (call : Call) :
    (call.perform s).2.parentOf? identity = some parent := by
  unfold Call.perform
  cases hresult : call.result s with
  | error error => exact hlink
  | ok t =>
    cases call with
    | add e fresh =>
      have made : s.addElement e = .ok t := hresult
      obtain ⟨hfree, rfl⟩ := addElement_eq_ok made
      exact h.parentOf?_putElement hlink fun old hold => by simp [hfree] at hold
    | link child parent' =>
      have made : s.linkParent child parent' = .ok t := hresult
      rcases linkParent_eq_ok h made with rfl | ⟨c, p, hc, hfree, rfl⟩
      · exact hlink
      · refine h.parentOf?_putElement hlink fun old hold => ?_
        obtain rfl := Option.some.inj (hc.symm.trans hold)
        exact hfree

theorem Built.performAll (h : s.Built) (calls : List Call) : (s.performAll calls).Built := by
  induction calls generalizing s with
  | nil => exact h
  | cons call calls ih => exact ih (h.perform call)

theorem parentOf?_performAll (h : s.Built) (hlink : s.parentOf? identity = some parent)
    (calls : List Call) : (s.performAll calls).parentOf? identity = some parent := by
  induction calls generalizing s with
  | nil => exact hlink
  | cons call calls ih => exact ih (h.perform call) (parentOf?_perform h.sound hlink call)

/-- After any calls the lineages form a forest. Whatever is called later, links that were made stay
as they are, and a call that fails leaves the story as it was. An element without a parent is linked
to another one of its kind unless it stands in the lineage of that, which is told otherwise. -/
theorem lineage_forest (calls : List Call) :
    (empty.performAll calls).Forest ∧
    (∀ later identity parent, (empty.performAll calls).parentOf? identity = some parent →
      (empty.performAll (calls ++ later)).parentOf? identity = some parent) ∧
    (∀ (call : Call) (error : StoryError),
      (call.perform (empty.performAll calls)).1 = .error error →
      (call.perform (empty.performAll calls)).2 = empty.performAll calls) ∧
    ∀ child parent c p, (empty.performAll calls).element? child = some c →
      (empty.performAll calls).element? parent = some p → c.kind ≠ .world → p.kind = c.kind →
      c.parent = none →
      (((Call.link child parent).perform (empty.performAll calls)).1 = .ok () ↔
        c ∉ (empty.performAll calls).lineage parent) ∧
      (((Call.link child parent).perform (empty.performAll calls)).1 = .ok () →
        (empty.performAll (calls ++ [.link child parent])).parentOf? child = some p.identity) ∧
      (c ∈ (empty.performAll calls).lineage parent →
        ((Call.link child parent).perform (empty.performAll calls)).1 =
          .error (.circularLineage c.identity)) := by
  have hbuilt := Built.empty.performAll calls
  have h := hbuilt.sound
  have happend : ∀ later, empty.performAll (calls ++ later) =
      (empty.performAll calls).performAll later := fun later => List.foldl_append
  refine ⟨h.forest, fun later identity parent hlink => ?_, fun call error => ?_,
    fun child parent c p hc hp hworld hkind hfree => ?_⟩
  · rw [happend]
    exact parentOf?_performAll hbuilt hlink later
  · unfold Call.perform
    cases call.result (empty.performAll calls) with
    | error _ => exact fun _ => rfl
    | ok t => exact fun hfailed => by cases hfailed
  · rw [happend]
    generalize empty.performAll calls = s at h hc hp ⊢
    rcases h.linkParent_eq hc hp hworld hkind hfree with ⟨hmem, hlink⟩ | ⟨hmem, hlink⟩
    · simp [Call.perform, Call.result, hlink, hmem]
    · have hset := h.parentOf?_linked (h.element?_of_kind hc hworld) p.identity
      simp [Call.perform, Call.result, hlink, hmem, performAll, hset]

end Fabula.Story

namespace Fabula.Sample

def bareRoom (identity : String) : Element := { kind := .room, identity := Text.fold identity }

theorem bareRoom_built {identity : String} (h : checkIdentity identity = .ok ()) :
    (bareRoom identity).Built := by
  refine @Element.Built.create .room identity _ ?_
  rw [Element.create, if_neg (by decide), h]
  rfl

/-- A cellar below a hall and an attic below the cellar, with calls in between that fail. -/
def houseCalls : List Story.Call :=
  [.add (bareRoom "Cellar") (bareRoom_built (by decide +kernel)), .link "cellar" "hall",
    .add (bareRoom "hall") (bareRoom_built (by decide +kernel)), .link "CELLAR" "Hall",
    .add (bareRoom "attic") (bareRoom_built (by decide +kernel)), .link "hall" "world",
    .link "attic" "cellar", .link "cellar" "attic"]

def house : Story := Story.empty.performAll houseCalls

/-- The hall is not linked to the attic, which has it for an ancestor, and the attic stays below the
cellar. -/
theorem house_forest :
    (house.lineage "attic").map Element.identity = ["attic", "cellar", "hall"] ∧
    (∃ c ∈ house.lineage "attic", house.element? "hall" = some c ∧
      ((Story.Call.link "hall" "attic").perform house).1 = .error (.circularLineage c.identity)) ∧
    (Story.empty.performAll (houseCalls ++ [.link "attic" "hall"])).parentOf? "attic" =
      some "cellar" := by
  obtain ⟨-, hlater, -, hlink⟩ := Story.lineage_forest houseCalls
  have hhall : (house.element? "hall").map (fun e => (e.kind, e.parent)) = some (.room, none) := by
    decide +kernel
  have hattic : (house.element? "attic").map (fun e => e.kind) = some .room := by decide +kernel
  obtain ⟨c, hc, hcellar⟩ := Option.map_eq_some_iff.mp hhall
  obtain ⟨p, hp, hpkind⟩ := Option.map_eq_some_iff.mp hattic
  obtain ⟨hckind, hfree⟩ := Prod.mk.inj hcellar
  obtain ⟨hok, -, hcircular⟩ := hlink "hall" "attic" c p hc hp (by rw [hckind]; decide)
    (hpkind.trans hckind.symm) hfree
  have hmem : c ∈ house.lineage "attic" := by
    by_contra hnot
    have hfailed : ((Story.Call.link "hall" "attic").perform house).1 ≠ .ok () := by decide +kernel
    exact hfailed (hok.mpr hnot)
  exact ⟨by decide +kernel, ⟨c, hmem, hc, hcircular hmem⟩,
    hlater [.link "attic" "hall"] "attic" "cellar" (by decide +kernel)⟩

end Fabula.Sample
