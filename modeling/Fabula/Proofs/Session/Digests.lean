import Fabula.Proofs.Session.Acceptance
import Fabula.Proofs.Story.Headers
import Fabula.Proofs.Story.Payload

/-! What a story from a file goes by. Its digest is that of the payload as it stands in the file, and
not of the payload that the story would be written with. A payload in the form in which stories are
written makes no difference between the two. The reader takes payloads in other forms as well, so
that one content may go by several digests, and sessions refuse the saved states of one another. -/

namespace Fabula

def Digest.Apart (payloads : List Bytes) : Prop :=
  ∀ p ∈ payloads, ∀ q ∈ payloads, Digest.of p = Digest.of q → p = q

instance (payloads : List Bytes) : Decidable (Digest.Apart payloads) :=
  inferInstanceAs (Decidable (∀ p ∈ payloads, ∀ q ∈ payloads, Digest.of p = Digest.of q → p = q))

namespace Story

variable {bytes bytes' p : Bytes} {s s' : Story}

def filePayload? (bytes : Bytes) : Option Bytes :=
  match Reader.storyFile.complete bytes with
  | .ok (_, _, payload) => some payload
  | .error _ => none

theorem filePayload?_file {header : Table String}
    (h : ∀ {key value : String}, header[key]? = some value → Text.fold key = key)
    (hlength : (file header p).length < 0x10000000000000000) :
    filePayload? (file header p) = some p := by
  rw [filePayload?, (Reader.takes_storyFile h p).complete hlength]

/-- A story from a file is what its payload is read as, and remembers the digest of that payload. -/
theorem eq_of_decode (h : decode bytes = .ok s) (hp : filePayload? bytes = some p) :
    ∃ header t, (Reader.payload header).complete p = .ok t ∧
      s = { t with knownDigest := some (Digest.of p) } := by
  unfold decode at h
  unfold filePayload? at hp
  split at hp
  · rename_i header digest payload hfile
    obtain rfl := Option.some.inj hp
    rw [hfile] at h
    simp only at h
    split at h
    · cases h
    · rename_i hdigest
      split at h
      · cases h
      · rename_i t ht
        refine ⟨header, t, ht, ?_⟩
        rw [not_not.mp hdigest]
        exact (Except.ok.inj h).symm
  · cases hp

theorem digest_of_decode (h : decode bytes = .ok s) (hp : filePayload? bytes = some p) :
    s.digest = (.ok (Digest.of p), s) := by
  obtain ⟨header, t, -, rfl⟩ := eq_of_decode h hp
  rfl

/-- Files with the same payload differ in their headers only. -/
theorem eq_under_of_decode (h : decode bytes = .ok s) (hp : filePayload? bytes = some p)
    (h' : decode bytes' = .ok s') (hp' : filePayload? bytes' = some p) :
    s = s'.under s.header := by
  obtain ⟨header, t, ht, rfl⟩ := eq_of_decode h hp
  obtain ⟨header', t', ht', rfl⟩ := eq_of_decode h' hp'
  have hread := (Reader.maps_payload header' header).complete p
  rw [ht', ht] at hread
  obtain rfl := Except.ok.inj hread
  rfl

end Story

theorem State.context_of_none {st : State} (story : Story) {identity : String}
    (h : st.contexts[Text.fold identity]? = none) : ∃ e, st.context story identity = .error e := by
  unfold State.context
  rw [h]
  simp only
  split
  · exact ⟨_, rfl⟩
  · exact ⟨_, rfl⟩

namespace Reader

section

variable {c d : Session} (hcast : ∀ identity : String,
  c.state.contexts[identity]?.map (fun c => c.element) =
    d.state.contexts[identity]?.map fun c => c.element)

include hcast

theorem liveIdentity_eq : liveIdentity c = liveIdentity d := by
  funext kind
  unfold liveIdentity
  refine congrArg (Bind.bind text) (funext fun identity => ?_)
  have hsame := hcast (Text.fold identity)
  cases hx : c.state.contexts[Text.fold identity]? with
  | none =>
    cases hy : d.state.contexts[Text.fold identity]? with
    | some y => simp [hx, hy] at hsame
    | none =>
      obtain ⟨e, he⟩ := State.context_of_none c.story hx
      obtain ⟨e', he'⟩ := State.context_of_none d.story hy
      simp only [he, he']
  | some x =>
    cases hy : d.state.contexts[Text.fold identity]? with
    | none => simp [hx, hy] at hsame
    | some y =>
      have helement : x.element = y.element := by simpa [hx, hy] using hsame
      simp only [State.context, hx, hy, helement]

theorem ownership_eq : ownership c = ownership d := by
  have hlive := liveIdentity_eq hcast
  have hdescribed : describedObject c = describedObject d := by
    funext m
    rw [describedObject, describedObject, hlive]
  have howned : ownedObject c = ownedObject d := by
    funext m
    rw [ownedObject, ownedObject, hlive]
  have hstack : roomStack c = roomStack d := by
    funext m
    rw [roomStack, roomStack, hlive]
  rw [ownership, ownership, hdescribed, howned, hstack, hlive]

end

variable (d : Session) (story : Story)

theorem liveIdentity_story : liveIdentity { d with story := story } = liveIdentity d :=
  liveIdentity_eq fun _ => rfl

theorem savedSections_story : savedSections { d with story := story } = savedSections d := by
  have helement : savedElement { d with story := story } = savedElement d := by
    funext kind found
    rw [savedElement, savedElement, liveIdentity_story]
  have hkind : savedKind { d with story := story } = savedKind d := by
    funext kind found
    rw [savedKind, savedKind, helement]
  rw [savedSections, savedSections, hkind]

theorem ownership_story : ownership { d with story := story } = ownership d :=
  ownership_eq fun _ => rfl

end Reader

namespace Session

theorem load_story (d : Session) (story : Story) (bytes : Bytes) :
    ({ d with story := story } : Session).load bytes =
      (d.load bytes).map fun d' => { d' with story := story } := by
  have hstate : Reader.savedState { d with story := story } = Reader.savedState d := by
    rw [Reader.savedState, Reader.savedState, Reader.savedSections_story, Reader.ownership_story]
  rw [load, load, hstate]
  cases (Reader.savedState d).complete bytes <;> rfl

variable {s d : Session}

theorem load_of_digest_ne (hsize : s.digest.length = Digest.size) (hne : s.digest ≠ d.digest)
    (hlength : s.save.length < 0x10000000000000000) : d.load s.save = .error .storyMismatch := by
  have hrefuses : Reader.Refuses (Reader.savedState d) s.save .storyMismatch := by
    simp only [save, List.append_assoc]
    refine (Reader.takes_magic saveMagic).refuses ((Reader.takes_byte saveVersion).refuses ?_)
    rw [if_neg (not_not.mpr rfl)]
    refine (Reader.takes_digest hsize).refuses ?_
    rw [if_pos hne]
    exact (Reader.refuses_fail .storyMismatch).append _
  rw [load, hrefuses.complete hlength]

theorem Serves.eq_of_digest {story : Story} {p : Bytes} (h : d.Serves story)
    (hdigest : story.digest = (.ok (Digest.of p), story)) :
    d.digest = Digest.of p ∧ d.story = story := by
  have heq := hdigest.symm.trans h.digest
  exact ⟨(Except.ok.inj (congrArg Prod.fst heq)).symm, (congrArg Prod.snd heq).symm⟩

/-- A session serves the stories that differ from its own in the header only. -/
theorem Serves.under {story story' : Story} {p : Bytes} (h : d.Serves story')
    (hdigest : story.digest = (.ok (Digest.of p), story))
    (hdigest' : story'.digest = (.ok (Digest.of p), story'))
    (hstory : story = story'.under story.header) :
    ({ d with story := story } : Session).Serves story where
  digest := by rw [hdigest, (h.eq_of_digest hdigest').1]
  cast identity := by
    rw [hstory]
    exact h.cast identity

/-- Between files with the same payload, saved states are taken as within one file. -/
theorem loads_iff_nesting_le {bytes bytes' p : Bytes} {story story' : Story}
    (hread : Story.decode bytes = .ok story) (hp : Story.filePayload? bytes = some p)
    (hread' : Story.decode bytes' = .ok story') (hp' : Story.filePayload? bytes' = some p)
    (hs : s.Played story) (hd : d.Serves story')
    (hlength : s.save.length < 0x10000000000000000) :
    (∃ d', d.load s.save = .ok d') ↔ s.nesting ≤ maxNesting := by
  have hserves := hd.under (Story.digest_of_decode hread hp) (Story.digest_of_decode hread' hp')
    (Story.eq_under_of_decode hread hp hread' hp')
  have hload := load_story d story s.save
  constructor
  · rintro ⟨d', hd'⟩
    by_contra hn
    rw [hd', refuses_of_lt_nesting hread hs hserves (Nat.lt_of_not_le hn) hlength] at hload
    cases hload
  · intro hn
    obtain ⟨e, he, -⟩ := accepts_of_nesting_le hread hs hserves hn hlength
    cases hd' : d.load s.save with
    | ok d' => exact ⟨d', rfl⟩
    | error error =>
      rw [he, hd'] at hload
      cases hload

/-- The digest of a story from a file is that of the payload in the file. It is the digest that the
story is written with if and only if that payload is in the form in which stories are written. A
session of another file takes the states saved in a session of this one if and only if the payloads
are the same, down to the last byte, and lists are not nested too deep; and they are the same if both
are in that form and have the same content. No two payloads are supposed to have the same digest. -/
theorem saves_follow_payload {bytes bytes' p p' : Bytes} {story story' : Story}
    (hread : Story.decode bytes = .ok story) (hp : Story.filePayload? bytes = some p)
    (hread' : Story.decode bytes' = .ok story') (hp' : Story.filePayload? bytes' = some p')
    (hapart : Digest.Apart [p, p', story.payload]) :
    story.digest.1 = .ok (Digest.of p) ∧
    story.encode = .ok (Story.file story.header story.payload) ∧
    (story.digest.1 = .ok (Digest.of story.payload) ↔ p = story.payload) ∧
    (∀ {heap : Heap} {seed : UInt64} {s₀ : Session} (requests : List Request) {s d : Session},
      start heap story seed = .ok s₀ → s ∈ s₀ :: (s₀.play requests).map Prod.snd → d.Of story' →
      s.save.length < 0x10000000000000000 →
      ((∃ d', d.load s.save = .ok d') ↔ p = p' ∧ s.nesting ≤ maxNesting) ∧
      (p ≠ p' → d.load s.save = .error .storyMismatch)) ∧
    (story.SameContent story' → story'.NaNFree → p = story.payload → p' = story'.payload →
      p = p') := by
  have hdigest := Story.digest_of_decode hread hp
  have hdigest' := Story.digest_of_decode hread' hp'
  have hlists' := Story.listFree_of_decode hread'
  refine ⟨by rw [hdigest], Story.encode_of_listFree (Story.listFree_of_decode hread), ?_, ?_, ?_⟩
  · rw [hdigest]
    constructor
    · exact fun h => hapart p (by simp) _ (by simp) (Except.ok.inj h)
    · exact fun h => by rw [← h]
  · intro heap seed s₀ requests s d hs₀ hs hd hlength
    have hplayed := played hread hs₀ requests s hs
    have hserves := hd.serves (Story.Made.decoded hread').sound.orderly
    have hmine := (hplayed.toServes.eq_of_digest hdigest).1
    have hyours := (hserves.eq_of_digest hdigest').1
    have hmismatch : p ≠ p' → d.load s.save = .error .storyMismatch := fun hne =>
      load_of_digest_ne (hplayed.digest_size hread) (fun h => hne (hapart p (by simp) p' (by simp)
        (by rw [← hmine, ← hyours, h]))) hlength
    refine ⟨⟨fun ⟨d', hd'⟩ => ?_, fun ⟨heq, hn⟩ => ?_⟩, hmismatch⟩
    · have heq : p = p' := by
        by_contra hne
        rw [hmismatch hne] at hd'
        cases hd'
      subst heq
      exact ⟨rfl, (loads_iff_nesting_le hread hp hread' hp' hplayed hserves hlength).mp ⟨d', hd'⟩⟩
    · subst heq
      exact (loads_iff_nesting_le hread hp hread' hp' hplayed hserves hlength).mpr hn
  · intro hsame hnan hform hform'
    rw [hform, hform']
    exact hsame.payload_eq (Story.Made.decoded hread').keyed hnan hlists'

end Session

namespace Sample

def strictLook : Action := { identity := "look", kind := .general, strict := true }

def strictStory : Story := { actions := (∅ : Table Action).insert "look" strictLook }

/-- The action with any byte in the place of the one that marks it as strict. -/
def markedAction (mark : UInt8) : Bytes :=
  Bytes.text "look" ++ ([ActionKind.general.tag] ++ ([mark] ++ (Bytes.flag false ++ ([0] ++ [0]))))

def markedPayload (mark : UInt8) : Bytes :=
  Bytes.elementBody Element.world ++ (([1] ++ markedAction mark) ++
    ([0, 0, 0, 0] ++ [0, 0, 0, 0]))

def markedFile (mark : UInt8) : Bytes := Story.file ∅ (markedPayload mark)

def markedStory (mark : UInt8) : Story :=
  { strictStory with knownDigest := some (Digest.of (markedPayload mark)) }

theorem takes_counted_none {σ : Type} (step : σ → Reader σ) (s : σ) :
    Reader.Takes (Reader.counted step s) [0] s :=
  Reader.Takes.bind_natural (Nat.zero_le _) (Reader.takes_pure s)

theorem takes_counted_one {σ : Type} {step : σ → Reader σ} {s t : σ} {bytes : Bytes}
    (h : Reader.Takes (step s) bytes t) (hlength : 1 ≤ bytes.length) :
    Reader.Takes (Reader.counted step s) ([1] ++ bytes) t := by
  refine Reader.Takes.bind_natural hlength (h.of_eq fun c => ?_)
  simp only [Reader.iterate]
  rcases step s c with ⟨e | a, c'⟩ <;> rfl

theorem takes_groups_none {σ κ : Type} (step : κ → σ → Reader σ) (s : σ) (kinds : List κ) :
    Reader.Takes (kinds.foldlM (fun s kind => Reader.counted (step kind) s) s)
      (kinds.flatMap fun _ => [0]) s :=
  Reader.takes_foldlM_reach (fun _ => s) fun _ kind _ _ => takes_counted_none (step kind) s

/-- Every byte but zero is a mark. -/
theorem takes_strictLook {mark : UInt8} (h : mark ≠ 0) :
    Reader.Takes Reader.action (markedAction mark) strictLook := by
  have hmark : Reader.Takes Reader.flag [mark] true := by
    have hbyte := (Reader.takes_byte mark).map fun b => b != 0
    rwa [bne_iff_ne.mpr h] at hbyte
  have hcheck : checkIdentity "look" = .ok () := by decide +kernel
  have hfold : Text.fold "look" = "look" := by decide +kernel
  have hcreate : Action.create "look" .general = .ok { identity := "look", kind := .general } := by
    rw [Action.create, hcheck, hfold]
  refine (Reader.takes_text "look").bind ((Reader.Takes.tagged (ActionKind.ofTag?_tag _)).bind ?_)
  rw [hcreate]
  refine (Reader.takes_ofStory _).bind (hmark.bind ((Reader.takes_flag false).bind ?_))
  exact (takes_counted_none _ _).bind (takes_counted_none _ _)

theorem takes_markedPayload {mark : UInt8} (h : mark ≠ 0) :
    Reader.Takes (Reader.payload ∅) (markedPayload mark) strictStory := by
  have hadd : Story.addAction { header := ∅, world := Element.world } strictLook =
      .ok strictStory := by
    simp [Story.addAction, strictStory, strictLook]
  have haction : Reader.Takes (Reader.counted
      (fun s => do Reader.ofStory (Story.addAction s (← Reader.action)))
      { header := ∅, world := Element.world }) ([1] ++ markedAction mark) strictStory := by
    refine takes_counted_one ((takes_strictLook h).bind_nil ?_) (by simp [markedAction]; omega)
    rw [hadd]
    exact Reader.takes_ofStory _
  refine Reader.takes_bareWorld.bind (haction.bind ?_)
  exact (takes_groups_none _ strictStory Story.fileKinds).bind
    (takes_groups_none Reader.parent strictStory Story.fileKinds)

theorem length_markedFile : ∀ mark ∈ [1, 2],
    (markedFile mark).length < 0x10000000000000000 := by
  simp only [markedFile, Story.file, List.length_append, Digest.length_of]
  decide +kernel

theorem decode_markedFile : ∀ mark ∈ [1, 2],
    Story.decode (markedFile mark) = .ok (markedStory mark) ∧
      Story.filePayload? (markedFile mark) = some (markedPayload mark) := by
  intro mark hm
  have hheader : ∀ {key value : String}, (∅ : Table String)[key]? = some value →
      Text.fold key = key := fun h => by cases h
  have hne : mark ≠ 0 := by
    rintro rfl
    revert hm
    decide
  have hlength := length_markedFile mark hm
  have hread := (takes_markedPayload hne).complete (Story.length_payload_lt hlength)
  refine ⟨?_, Story.filePayload?_file hheader hlength⟩
  rw [markedFile, Story.decode_file_eq hheader hlength, hread]
  rfl

theorem payload_strictStory : strictStory.payload = markedPayload 1 := by decide +kernel

theorem length_save_marked {s : Session}
    (h : Session.start .empty (markedStory 2) seed = .ok s) :
    s.save.length < 0x10000000000000000 := by
  obtain rfl := Except.ok.inj h
  simp only [Session.save, List.length_append, Digest.length_of]
  decide +kernel

theorem marked_apart : Digest.Apart [markedPayload 2, markedPayload 1, strictStory.payload] := by
  decide +kernel

/-- Two files with the same content: the action is marked as strict with a one in the first and with
a two in the second. The story from the second file goes by another digest than it is written with,
and its saved states are refused in sessions of the first. -/
theorem marked_refused : ∃ story story' s d,
    Story.decode (markedFile 2) = .ok story ∧ Story.decode (markedFile 1) = .ok story' ∧
    story.SameContent story' ∧ story.encode = .ok (Story.file story.header story.payload) ∧
    story.digest.1 ≠ .ok (Digest.of story.payload) ∧
    Session.start .empty story seed = .ok s ∧ Session.start .empty story' seed = .ok d ∧
    d.load s.save = .error .storyMismatch := by
  obtain ⟨hread, hp⟩ := decode_markedFile 2 (by decide)
  obtain ⟨hread', hp'⟩ := decode_markedFile 1 (by decide)
  have hne : markedPayload 2 ≠ markedPayload 1 := by decide +kernel
  obtain ⟨-, hwritten, hform, hsaves, -⟩ := Session.saves_follow_payload hread hp hread' hp'
    marked_apart
  have hsame : (markedStory 2).SameContent (markedStory 1) :=
    ⟨Element.alike_of_stored_eq rfl, rfl, fun _ => .none⟩
  refine ⟨_, _, _, _, hread, hread', hsame, hwritten, fun h => hne ?_, rfl, rfl, ?_⟩
  · exact (hform.mp h).trans payload_strictStory
  · exact (hsaves [] rfl List.mem_cons_self (.started rfl) (length_save_marked rfl)).2 hne

end Sample

end Fabula
