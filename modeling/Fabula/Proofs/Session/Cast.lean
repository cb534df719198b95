import Fabula.Proofs.Table
import Fabula.Proofs.Text.Folding
import Fabula.Sample.Cellar
import Fabula.Session.Basic

/-! The live elements of a session. They are the world and the elements of the story that are no
archetypes for as long as the session lasts, so that all sessions of a story have the same ones. -/

namespace Fabula

structure Story.Placed (s : Story) : Prop where
  identity : ∀ {key : String} {e : Element}, s.elements[key]? = some e → e.identity = key
  folded : ∀ {key : String} {e : Element}, s.elements[key]? = some e → Text.fold key = key
  kind : ∀ {key : String} {e : Element}, s.elements[key]? = some e → e.kind ≠ .world
  no_world : s.elements[worldIdentity]? = none

/-- Every element is in its place, and a digest that is remembered is that of the content. The second
may fail for a story from a file, whose digest is that of the bytes it came in. -/
structure Story.Orderly (s : Story) : Prop extends s.Placed where
  digest : ∀ {d : Bytes}, s.knownDigest = some d → d = Digest.of s.payload

theorem fold_worldIdentity : Text.fold worldIdentity = worldIdentity := by decide +kernel

namespace Story

theorem mem_fileKinds {kind : ElementKind} (h : kind ≠ .world) : kind ∈ fileKinds := by
  cases kind with
  | world => exact absurd rfl h
  | _ => simp [fileKinds]

def live? (s : Story) (identity : String) : Option ElementRef :=
  if identity = worldIdentity then some .world
  else
    match s.elements[identity]? with
    | none => none
    | some e => if e.archetype then none else some e.toRef

theorem live?_world (s : Story) : s.live? worldIdentity = some .world := if_pos rfl

/-- A live element is found under its own folded identity, and only the world is one. -/
theorem Placed.of_live? {s : Story} (h : s.Placed) {identity : String} {e : ElementRef}
    (he : s.live? identity = some e) :
    e.identity = identity ∧ Text.fold identity = identity ∧
      (e.kind = .world → identity = worldIdentity) := by
  unfold live? at he
  split at he
  · rename_i hw
    obtain rfl := Option.some.inj he
    subst hw
    exact ⟨rfl, fold_worldIdentity, fun _ => rfl⟩
  · split at he
    · cases he
    · rename_i e' hk
      split at he
      · cases he
      · obtain rfl := Option.some.inj he
        exact ⟨h.identity hk, h.folded hk, fun hw => absurd hw (h.kind hk)⟩

theorem digest_after_digest (s : Story) : s.digest.2.digest.1 = s.digest.1 := by
  unfold digest
  cases hk : s.knownDigest with
  | some d => simp [hk]
  | none => cases hp : s.payload? <;> simp [hp, hk]

theorem Orderly.after_digest {s : Story} (h : s.Orderly) :
    s.digest.2.Orderly ∧ ∀ d, s.digest.1 = .ok d → d.length = Digest.size := by
  unfold Story.digest
  cases hk : s.knownDigest with
  | some known =>
    refine ⟨h, fun d hd => ?_⟩
    obtain rfl := Except.ok.inj hd
    rw [h.digest hk, Digest.length_of]
  | none =>
    cases hp : s.payload? with
    | error e => exact ⟨h, fun d hd => by cases hd⟩
    | ok payload =>
      refine ⟨⟨⟨h.identity, h.folded, h.kind, h.no_world⟩, fun hd => ?_⟩, fun d hd => ?_⟩
      · obtain rfl := Option.some.inj hd
        unfold payload? at hp
        split at hp
        · rw [← Except.ok.inj hp]
          rfl
        · cases hp
      · obtain rfl := Except.ok.inj hd
        exact Digest.length_of payload

end Story

namespace State

def Live (st : State) (e : ElementRef) : Prop :=
  ∃ c, st.contexts[e.identity]? = some c ∧ c.element = e

theorem element_putContext {st : State} {identity : String} {c c' : Context}
    (hc : st.contexts[Text.fold identity]? = some c) (he : c'.element = c.element)
    (other : String) :
    (st.putContext identity c').contexts[other]?.map (fun c => c.element) =
      st.contexts[other]?.map fun c => c.element := by
  rw [putContext, Std.ExtTreeMap.getElem?_insert]
  split
  · rename_i hsame
    rw [← Std.compare_eq_iff_eq.mp hsame, hc, Option.map_some, Option.map_some, he]
  · rfl

theorem mem_live_iff {st : State} {kind : ElementKind} {e : ElementRef} :
    e ∈ st.live kind ↔
      e.kind = kind ∧ ∃ (identity : String) (c : Context),
        st.contexts[identity]? = some c ∧ c.element = e := by
  simp only [live, List.mem_filter, List.mem_map, decide_eq_true_eq, mem_values]
  constructor
  · rintro ⟨⟨c, ⟨identity, hi⟩, he⟩, hk⟩
    exact ⟨hk, identity, c, hi, he⟩
  · rintro ⟨hk, identity, c, hi, he⟩
    exact ⟨⟨c, ⟨identity, hi⟩, he⟩, hk⟩

end State

namespace Session

structure Plays (s : Session) : Prop where
  digest : s.story.digest.1 = .ok s.digest
  digest_size : s.digest.length = Digest.size
  cast : ∀ identity : String,
    s.state.contexts[identity]?.map (fun c => c.element) = s.story.live? identity

namespace Plays

variable {s : Session}

theorem live_iff (h : s.Plays) {e : ElementRef} :
    s.state.Live e ↔ s.story.live? e.identity = some e := by
  rw [← h.cast, Option.map_eq_some_iff]
  rfl

theorem world (h : s.Plays) : s.state.Live .world :=
  h.live_iff.mpr s.story.live?_world

/-- What stands in the table of contexts is a live element under its folded identity. -/
theorem of_context (h : s.Plays) (ho : s.story.Placed) {identity : String} {c : Context}
    (hc : s.state.contexts[identity]? = some c) :
    c.element.identity = identity ∧ Text.fold identity = identity ∧
      (c.element.kind = .world → identity = worldIdentity) := by
  refine ho.of_live? ?_
  rw [← h.cast, hc]
  rfl

theorem context_of_live (h : s.Plays) (ho : s.story.Placed) {e : ElementRef}
    (he : s.state.Live e) :
    ∃ c, s.state.context s.story e.identity = .ok c ∧ s.state.contexts[e.identity]? = some c ∧
      c.element = e := by
  obtain ⟨c, hc, rfl⟩ := he
  refine ⟨c, ?_, hc, rfl⟩
  rw [State.context, (h.of_context ho hc).2.1, hc]

theorem live_of_mem (h : s.Plays) (ho : s.story.Placed) {kind : ElementKind} {e : ElementRef}
    (he : e ∈ s.state.live kind) : s.state.Live e := by
  obtain ⟨-, identity, c, hc, rfl⟩ := State.mem_live_iff.mp he
  exact ⟨c, by rwa [(h.of_context ho hc).1], rfl⟩

theorem putContext (h : s.Plays) (identity : String) (c : Context)
    (hc : s.story.live? (Text.fold identity) = some c.element) :
    { s with state := s.state.putContext identity c }.Plays where
  digest := h.digest
  digest_size := h.digest_size
  cast other := by
    show (s.state.contexts.insert (Text.fold identity) c)[other]?.map (fun c => c.element) =
      s.story.live? other
    rw [Std.ExtTreeMap.getElem?_insert]
    split
    · rename_i he
      rw [← Std.compare_eq_iff_eq.mp he, hc]
      rfl
    · exact h.cast other

end Plays

theorem mem_liveElements {story : Story} (h : story.Orderly) {e : Element} :
    e ∈ liveElements story ↔ story.elements[e.identity]? = some e ∧ e.archetype = false := by
  simp only [liveElements, List.mem_flatMap, List.mem_filter, Story.elementsOf, mem_values,
    decide_eq_true_eq, Bool.not_eq_true']
  constructor
  · rintro ⟨kind, -, ⟨⟨key, hk⟩, -⟩, ha⟩
    exact ⟨by rwa [h.identity hk], ha⟩
  · rintro ⟨hk, ha⟩
    exact ⟨e.kind, Story.mem_fileKinds (h.kind hk), ⟨⟨e.identity, hk⟩, rfl⟩, ha⟩

theorem startContexts_cast {story : Story} (h : story.Orderly) (identity : String) :
    (startContexts story)[identity]?.map (fun c => c.element) = story.live? identity := by
  have hf := getElem?_foldl_insert (fun e : Element => e.identity)
    (fun e => ({ element := e.toRef } : Context)) (liveElements story)
    ((∅ : Table Context).insert worldIdentity { element := .world }) identity
  rcases hf with ⟨e, he, rfl, hget⟩ | ⟨hno, hget⟩
  · have hl := (mem_liveElements h).mp he
    have hw : e.identity ≠ worldIdentity := by
      intro hw
      rw [hw, h.no_world] at hl
      cases hl.1
    rw [startContexts, hget, Story.live?, if_neg hw, hl.1]
    simp [hl.2]
  · rw [startContexts, hget, Std.ExtTreeMap.getElem?_insert]
    by_cases hw : identity = worldIdentity
    · subst hw
      simp [Story.live?_world]
    · have hw' : worldIdentity ≠ identity := fun e => hw e.symm
      rw [Story.live?, if_neg hw]
      cases he : story.elements[identity]? with
      | none => simp [hw']
      | some e =>
        cases ha : e.archetype with
        | true => simp [hw', ha]
        | false =>
          have hi := h.identity he
          exact absurd hi (hno e ((mem_liveElements h).mpr ⟨by rw [hi]; exact he, ha⟩))

theorem bindings_of_startContexts {story : Story} {identity : String} {c : Context}
    (h : (startContexts story)[identity]? = some c) : c.bindings = ∅ := by
  rcases getElem?_foldl_insert Element.identity (fun e => ({ element := e.toRef } : Context))
      (liveElements story) _ identity with ⟨e, _, _, he⟩ | ⟨_, he⟩
  · rw [startContexts, he] at h
    obtain rfl := Option.some.inj h
    rfl
  · rw [startContexts, he, Std.ExtTreeMap.getElem?_insert] at h
    split at h
    · obtain rfl := Option.some.inj h
      rfl
    · simp at h

theorem plays_of_start {heap : Heap} {story : Story} {seed : UInt64} {s : Session}
    (h : story.Orderly) (hs : start heap story seed = .ok s) : s.story.Orderly ∧ s.Plays := by
  unfold start at hs
  have hd := h.after_digest
  have ha := story.digest_after_digest
  split at hs
  · cases hs
  · rename_i digest remembered he
    rw [he] at hd ha
    obtain rfl := Except.ok.inj hs
    exact ⟨hd.1, ha, hd.2 _ rfl, startContexts_cast hd.1⟩

/-- Only stories without list constants have a digest, so only they are played. -/
theorem listFree_of_start {heap : Heap} {story : Story} {seed : UInt64} {s : Session}
    (hnew : story.knownDigest = none) (hs : start heap story seed = .ok s) :
    s.story.listFree = true := by
  simp only [start, Story.digest, hnew, Story.payload?] at hs
  cases hl : story.listFree with
  | false =>
    rw [hl] at hs
    cases hs
  | true =>
    rw [hl] at hs
    obtain rfl := Except.ok.inj hs
    exact hl

end Session

namespace Sample

theorem cellarStory_orderly : cellarStory.Orderly where
  identity := forall_of_toList (fun key (e : Element) => e.identity = key) (by decide +kernel)
  folded := forall_of_toList (fun key _ => Text.fold key = key) (by decide +kernel)
  kind := forall_of_toList (fun _ (e : Element) => e.kind ≠ .world) (by decide +kernel)
  no_world := Option.isNone_iff_eq_none.mp (by decide +kernel)
  digest h := by
    have hn : cellarStory.knownDigest = none := by decide +kernel
    rw [hn] at h
    cases h

def cellarSession (heap : Heap) : Session where
  story := cellarStory.digest.2
  digest := Digest.of cellarStory.payload
  limits := .ofStory cellarStory.digest.2
  state :=
    { heap := heap
      contexts := Session.startContexts cellarStory.digest.2
      ownership := Session.startOwnership cellarStory.digest.2
      random := .ofSeed seed }

theorem start_cellarStory (heap : Heap) :
    Session.start heap cellarStory seed = .ok (cellarSession heap) := by
  have hl : cellarStory.listFree = true := by decide +kernel
  have hn : cellarStory.knownDigest = none := by decide +kernel
  simp [Session.start, cellarSession, Story.digest, hn, Story.payload?, hl]

end Sample

end Fabula
