import Fabula.Proofs.Machine.Rules
import Fabula.Proofs.Session.RoundTrip
import Fabula.Proofs.Story.Made

/-! States as a session keeps them: the live elements are those of the story, and who holds what is
coherent and speaks of live elements only, each in a place for its kind. New sessions are so, and a
change of ownership that records nothing but live elements leaves them so. -/

namespace Fabula

namespace WordTable

theorem mem_add {t : WordTable} {owner word other : String} :
    other ∈ add t owner word ↔ owner = other ∨ other ∈ t := by
  simp [add]

theorem mem_of_mem_remove {t : WordTable} {owner word other : String}
    (h : other ∈ remove t owner word) : other ∈ t := by
  unfold remove at h
  cases hw : t[owner]? with
  | none => simpa [hw] using h
  | some words =>
    simp only [hw] at h
    split at h
    · exact (Std.ExtTreeMap.mem_erase.mp h).2
    · rcases Std.ExtTreeMap.mem_insert.mp h with he | h
      · rw [← Std.compare_eq_iff_eq.mp he, Std.ExtTreeMap.mem_iff_isSome_getElem?, hw]
        rfl
      · exact h

end WordTable

namespace Ownership

/-- Only elements in `L` are named, each in a place for its kind. -/
structure Among (L : ElementRef → Prop) (m : Ownership) : Prop where
  names : ∀ {object : String}, object ∈ m.names → L ⟨.object, object⟩
  tags : ∀ {object : String}, object ∈ m.tags → L ⟨.object, object⟩
  objects : ∀ {object : String} {holder : ElementRef}, m.owner[object]? = some holder →
    L ⟨.object, object⟩
  holders : ∀ {object : String} {holder : ElementRef}, m.owner[object]? = some holder →
    holder.kind.holdsObjects ∧ L holder
  players : ∀ {player : String} {rooms : List String}, m.rooms[player]? = some rooms →
    L ⟨.player, player⟩
  rooms : ∀ {player : String} {rooms : List String}, m.rooms[player]? = some rooms →
    ∀ room ∈ rooms, L ⟨.room, room⟩
  player : ∀ {player : String}, m.player = some player → L ⟨.player, player⟩

theorem amongLive_iff {m : Ownership} {st : State} : m.AmongLive st ↔ Among st.Live m :=
  ⟨fun h => ⟨h.names, h.tags, h.objects, h.holders, h.players, h.rooms, h.player⟩,
    fun h => ⟨h.names, h.tags, h.objects, h.holders, h.players, h.rooms, h.player⟩⟩

theorem among_empty {L : ElementRef → Prop} : Among L empty where
  names h := by simp [empty] at h
  tags h := by simp [empty] at h
  objects h := by simp [empty] at h
  holders h := by simp [empty] at h
  players h := by simp [empty] at h
  rooms h := by simp [empty] at h
  player h := by cases h

namespace Among

variable {L L' : ElementRef → Prop} {m : Ownership}

theorem mono (h : m.Among L) (hL : ∀ e, L e → L' e) : m.Among L' where
  names hn := hL _ (h.names hn)
  tags ht := hL _ (h.tags ht)
  objects ho := hL _ (h.objects ho)
  holders ho := ⟨(h.holders ho).1, hL _ (h.holders ho).2⟩
  players hp := hL _ (h.players hp)
  rooms hp room hr := hL _ (h.rooms hp room hr)
  player hp := hL _ (h.player hp)

theorem and (h : m.Among L) (h' : m.Among L') : m.Among fun e => L e ∧ L' e where
  names hn := ⟨h.names hn, h'.names hn⟩
  tags ht := ⟨h.tags ht, h'.tags ht⟩
  objects ho := ⟨h.objects ho, h'.objects ho⟩
  holders ho := ⟨(h.holders ho).1, (h.holders ho).2, (h'.holders ho).2⟩
  players hp := ⟨h.players hp, h'.players hp⟩
  rooms hp room hr := ⟨h.rooms hp room hr, h'.rooms hp room hr⟩
  player hp := ⟨h.player hp, h'.player hp⟩

theorem addObject (h : m.Among L) {holder : ElementRef} {object : String}
    (hkind : holder.kind.holdsObjects) (hholder : L holder) (hobject : L ⟨.object, object⟩) :
    (m.addObject holder object).Among L := by
  have hf := Ownership.foldl_addObject [(object, holder)] m
  simp only [List.foldl_cons, List.foldl_nil] at hf
  have hget : ∀ {o : String} {r : ElementRef}, (m.owner.insert object holder)[o]? = some r →
      object = o ∧ holder = r ∨ m.owner[o]? = some r := by
    intro o r ho
    rw [Std.ExtTreeMap.getElem?_insert] at ho
    split at ho
    · rename_i he
      exact .inl ⟨Std.compare_eq_iff_eq.mp he, Option.some.inj ho⟩
    · exact .inr ho
  rw [hf]
  refine { h with objects := fun ho => ?_, holders := fun ho => ?_ }
  · rcases hget ho with ⟨rfl, rfl⟩ | ho
    · exact hobject
    · exact h.objects ho
  · rcases hget ho with ⟨rfl, rfl⟩ | ho
    · exact ⟨hkind, hholder⟩
    · exact h.holders ho

theorem removeObject (h : m.Among L) (object : String) : (m.removeObject object).Among L := by
  have hget : ∀ {o : String} {r : ElementRef}, (m.removeObject object).owner[o]? = some r →
      m.owner[o]? = some r := by
    intro o r ho
    rw [owner_removeObject] at ho
    split at ho
    · cases ho
    · exact ho
  unfold Ownership.removeObject at hget ⊢
  cases hw : m.owner[object]? with
  | none => exact h
  | some holder =>
    rw [hw] at hget
    exact { h with objects := fun ho => h.objects (hget ho), holders := fun ho => h.holders (hget ho) }

theorem moveObjects (h : m.Among L) (hm : m.Inverse) (source : ElementRef) {target : ElementRef}
    (hkind : target.kind.holdsObjects) (htarget : L target) :
    (m.moveObjects source target).Among L := by
  unfold Ownership.moveObjects
  split
  · exact h
  · have hobjects : ∀ object ∈ m.objectsHeld source, L ⟨.object, object⟩ := fun object ho =>
      h.objects ((hm.held_iff source object).mp (Std.ExtTreeSet.mem_toList.mp ho))
    clear hm
    generalize m.objectsHeld source = objects at hobjects
    induction objects generalizing m with
    | nil => exact h
    | cons object objects ih =>
      refine ih (h.addObject hkind htarget (hobjects object List.mem_cons_self)) fun o ho => ?_
      exact hobjects o (List.mem_cons_of_mem _ ho)

theorem roomsOf (h : m.Among L) (player : String) :
    (∀ room ∈ m.roomsOf player, L ⟨.room, room⟩) ∧
      (m.roomsOf player ≠ [] → L ⟨.player, player⟩) := by
  unfold Ownership.roomsOf
  cases hr : m.rooms[player]? with
  | none => simp
  | some rooms => exact ⟨h.rooms hr, fun _ => h.players hr⟩

theorem setRooms (h : m.Among L) {player : String} {rooms : List String}
    (hrooms : ∀ room ∈ rooms, L ⟨.room, room⟩) (hplayer : rooms ≠ [] → L ⟨.player, player⟩) :
    (m.setRooms player rooms).Among L := by
  have hget : ∀ {p : String} {rs : List String}, (m.setRooms player rooms).rooms[p]? = some rs →
      rooms ≠ [] ∧ player = p ∧ rooms = rs ∨ m.rooms[p]? = some rs := by
    intro p rs hp
    unfold Ownership.setRooms at hp
    cases rooms with
    | nil =>
      simp only [List.isEmpty_nil, if_true, Std.ExtTreeMap.getElem?_erase] at hp
      split at hp
      · cases hp
      · exact .inr hp
    | cons room rooms =>
      simp only [List.isEmpty_cons, Bool.false_eq_true, if_false,
        Std.ExtTreeMap.getElem?_insert] at hp
      split at hp
      · rename_i he
        exact .inl ⟨List.cons_ne_nil _ _, Std.compare_eq_iff_eq.mp he, Option.some.inj hp⟩
      · exact .inr hp
  refine ⟨h.names, h.tags, h.objects, h.holders, fun hp => ?_, fun hp => ?_, h.player⟩
  · rcases hget hp with ⟨hne, rfl, rfl⟩ | hp
    · exact hplayer hne
    · exact h.players hp
  · rcases hget hp with ⟨-, -, rfl⟩ | hp
    · exact hrooms
    · exact h.rooms hp

theorem pushRoom (h : m.Among L) {player room : String} (hplayer : L ⟨.player, player⟩)
    (hroom : L ⟨.room, room⟩) : (m.pushRoom player room).Among L := by
  refine h.setRooms (fun other ho => ?_) fun _ => hplayer
  rcases List.mem_cons.mp ho with rfl | ho
  · exact hroom
  · exact (h.roomsOf player).1 other ho

theorem popRoom (h : m.Among L) (player : String) : (m.popRoom player).2.Among L := by
  obtain ⟨hrooms, hplayer⟩ := h.roomsOf player
  unfold Ownership.popRoom
  split
  · exact h
  · rename_i room rest hr
    rw [hr] at hrooms hplayer
    exact h.setRooms (fun other ho => hrooms other (List.mem_cons_of_mem _ ho)) fun _ =>
      hplayer (List.cons_ne_nil _ _)

/-- A change that records nothing but what is in `L` leaves only that recorded. -/
theorem apply (h : m.Among L) (hm : m.Inverse) {change : Change} (hfits : change.Fits L) :
    (change.apply m).Among L := by
  cases change with
  | addObject holder object => exact h.addObject hfits.2.1 hfits.1 hfits.2.2
  | removeObject object => exact h.removeObject object
  | moveObjects source target => exact h.moveObjects hm source hfits.2 hfits.1
  | addName object name =>
    refine { h with names := fun hn => ?_ }
    rcases WordTable.mem_add.mp hn with rfl | hn
    · exact hfits
    · exact h.names hn
  | removeName object name =>
    exact { h with names := fun hn => h.names (WordTable.mem_of_mem_remove hn) }
  | addTag object tag =>
    refine { h with tags := fun ht => ?_ }
    rcases WordTable.mem_add.mp ht with rfl | ht
    · exact hfits
    · exact h.tags ht
  | removeTag object tag =>
    exact { h with tags := fun ht => h.tags (WordTable.mem_of_mem_remove ht) }
  | pushRoom player room => exact h.pushRoom hfits.1 hfits.2
  | popRoom player => exact h.popRoom player
  | swapRoom player room => exact (h.popRoom player).pushRoom hfits.1 hfits.2
  | setPlayer player => exact { h with player := fun hp => hfits _ hp }

theorem foldl_apply (h : m.Coherent ∧ m.Among L) (changes : List Change)
    (hfits : ∀ change ∈ changes, change.Fits L) :
    (changes.foldl (fun m change => change.apply m) m).Coherent ∧
      (changes.foldl (fun m change => change.apply m) m).Among L := by
  induction changes generalizing m with
  | nil => exact h
  | cons change changes ih =>
    refine ih ⟨h.1.apply change, h.2.apply h.1.toInverse (hfits change List.mem_cons_self)⟩ ?_
    exact fun other ho => hfits other (List.mem_cons_of_mem _ ho)

end Among

end Ownership

def Story.Casts (s : Story) (e : ElementRef) : Prop := s.live? e.identity = some e

namespace State

/-- The live elements are those of the story, and who holds what is coherent and speaks of live
elements only. -/
structure WellKept (story : Story) (st : State) : Prop where
  cast : ∀ identity : String,
    st.contexts[identity]?.map (fun c => c.element) = story.live? identity
  coherent : st.ownership.Coherent
  among : st.ownership.AmongLive st

namespace WellKept

variable {story : Story} {st : State}

theorem live_iff (h : st.WellKept story) {e : ElementRef} : st.Live e ↔ story.Casts e := by
  rw [Story.Casts, ← h.cast, Option.map_eq_some_iff]
  rfl

theorem amongCast (h : st.WellKept story) : st.ownership.Among story.Casts :=
  (Ownership.amongLive_iff.mp h.among).mono fun _ he => h.live_iff.mp he

theorem of_cast {st' : State}
    (hcast : ∀ identity : String,
      st'.contexts[identity]?.map (fun c => c.element) = story.live? identity)
    (hcoherent : st'.ownership.Coherent) (hamong : st'.ownership.Among story.Casts) :
    st'.WellKept story where
  cast := hcast
  coherent := hcoherent
  among := Ownership.amongLive_iff.mpr <| hamong.mono fun e he => by
    rw [Story.Casts, ← hcast, Option.map_eq_some_iff] at he
    exact he

theorem change (h : st.WellKept story) {c : Ownership.Change} (hfits : c.Fits story.Casts) :
    State.WellKept story { st with ownership := c.apply st.ownership } :=
  of_cast h.cast (h.coherent.apply c) (h.amongCast.apply h.coherent.toInverse hfits)

theorem putContext (h : st.WellKept story) {identity : String} {c c' : Context}
    (hc : st.contexts[Text.fold identity]? = some c) (he : c'.element = c.element) :
    (st.putContext identity c').WellKept story := by
  refine of_cast (fun other => ?_) h.coherent h.amongCast
  rw [element_putContext hc he, h.cast]

variable (ho : Story.Orderly { story with knownDigest := none })

include ho

theorem of_context (h : st.WellKept story) {identity : String} {c : Context}
    (hc : st.contexts[identity]? = some c) :
    story.Casts c.element ∧ c.element.identity = identity ∧ Text.fold identity = identity := by
  have hl : story.live? identity = some c.element := by rw [← h.cast, hc, Option.map_some]
  obtain ⟨hi, hf, -⟩ := ho.of_live? hl
  exact ⟨by rwa [Story.Casts, hi], hi, hf⟩

theorem context_of_casts (h : st.WellKept story) {e : ElementRef} (he : story.Casts e) :
    ∃ c, st.context story e.identity = .ok c := by
  obtain ⟨c, hc, -⟩ := h.live_iff.mpr he
  exact ⟨c, by rw [State.context, (h.of_context ho hc).2.2, hc]⟩

theorem of_fold {kind : ElementKind} {identity : String} (he : story.Casts ⟨kind, identity⟩) :
    story.Casts (.of kind identity) := by
  rw [ElementRef.of, (ho.of_live? he).2.1]
  exact he

/-- Everything that operations find in a well-kept state is live. -/
theorem grounds : Grounds story (WellKept story) story.Casts Anything where
  world := story.live?_world
  resolve {st kind identity e} h he := by
    unfold State.resolve at he
    split at he
    · unfold currentPlayer at he
      split at he
      · rename_i player hp
        rw [← Except.ok.inj he]
        exact of_fold ho (h.amongCast.player hp)
      · cases he
    · split at he
      · unfold currentRoom Ownership.room? at he
        split at he
        · rename_i room hr
          rw [← Except.ok.inj he]
          split at hr
          · cases hr
          · rename_i player _
            exact of_fold ho ((h.amongCast.roomsOf player).1 room (List.mem_of_mem_head? hr))
        · cases he
      · split at he
        · cases he
        · rename_i c hc
          split at he
          · rw [← Except.ok.inj he]
            unfold State.context at hc
            split at hc
            · rename_i c' hc'
              rw [← Except.ok.inj hc]
              exact (h.of_context ho hc').1
            · split at hc <;> cases hc
          · cases he
  live {st kind e} h he := by
    obtain ⟨-, identity, c, hc, rfl⟩ := mem_live_iff.mp he
    exact (h.of_context ho hc).1
  held {st holder object} h hobject := by
    have howner := (h.coherent.held_iff holder object).mp (Std.ExtTreeSet.mem_toList.mp hobject)
    exact of_fold ho (h.amongCast.objects howner)
  simple _ := .intro
  items _ _ _ := .intro
  bindings _ _ _ _ _ := .intro
  block _ _ _ _ := .intro
  function _ _ _ _ := .intro

end WellKept

end State

namespace Session

theorem startOwnership_kept {story : Story} (h : Story.Sound { story with knownDigest := none }) :
    (startOwnership story).Coherent ∧ (startOwnership story).Among story.Casts := by
  have hlive : ∀ e ∈ liveElements story, ∀ word : String, word ∈ e.names ∨ word ∈ e.tags →
      story.Casts ⟨.object, e.identity⟩ := by
    intro e he word hword
    obtain ⟨hget, ha⟩ := (mem_liveElements h.orderly).mp he
    have hkind : e.kind = .object := by
      by_contra hk
      obtain ⟨hn, ht⟩ := (h.element hget).described hk
      simp [hn, ht] at hword
    have hw : e.identity ≠ worldIdentity := by
      intro hw
      rw [hw, h.orderly.no_world] at hget
      cases hget
    have hget' : story.elements[e.identity]? = some e := hget
    simp [Story.Casts, Story.live?, hw, hget', ha, Element.toRef, hkind]
  unfold startOwnership
  generalize liveElements story = elements at hlive
  have hempty := And.intro Ownership.coherent_empty (Ownership.among_empty (L := story.Casts))
  generalize Ownership.empty = m at hempty
  induction elements generalizing m with
  | nil => exact hempty
  | cons e elements ih =>
    refine ih (fun e' he' => hlive e' (List.mem_cons_of_mem _ he')) _ ?_
    have hnamed := Ownership.Among.foldl_apply hempty
      (e.names.toList.map (.addName e.identity)) fun change hc => by
        obtain ⟨word, hw, rfl⟩ := List.mem_map.mp hc
        exact hlive e List.mem_cons_self word (.inl (Std.ExtTreeSet.mem_toList.mp hw))
    have htagged := Ownership.Among.foldl_apply hnamed
      (e.tags.toList.map (.addTag e.identity)) fun change hc => by
        obtain ⟨word, hw, rfl⟩ := List.mem_map.mp hc
        exact hlive e List.mem_cons_self word (.inr (Std.ExtTreeSet.mem_toList.mp hw))
    simp only [List.foldl_map] at htagged
    exact htagged

theorem wellKept_of_start {heap : Heap} {story : Story} {seed : UInt64} {s : Session}
    (h : story.Made) (hs : start heap story seed = .ok s) :
    Story.Orderly { s.story with knownDigest := none } ∧ s.state.WellKept s.story := by
  have hsound := h.sound
  have hsame : Story.Sound { story.digest.2 with knownDigest := none } := by
    unfold Story.digest
    cases hk : story.knownDigest with
    | some d => exact hsound
    | none => cases hp : story.payload? <;> exact hsound
  unfold start at hs
  split at hs
  · cases hs
  · rename_i digest remembered he
    rw [he] at hsame
    obtain rfl := Except.ok.inj hs
    obtain ⟨hcoherent, hamong⟩ := startOwnership_kept hsame
    have hcast := startContexts_cast hsame.orderly
    exact ⟨hsame.orderly, .of_cast hcast hcoherent hamong⟩

end Session

end Fabula
