import Fabula.Proofs.Bytes.Stable
import Fabula.Proofs.Story.Files
import Fabula.Session.Load

/-! Story files and saved states are accepted as a whole or not at all. None of their readers looks
ahead, so a file with its last bytes missing ends too early, and one with more bytes behind it ends
too late. -/

namespace Fabula

namespace Reader

/-- A story file behind its mark. What the payload means is of no account here. -/
theorem stable_storyFile : ∃ body, storyFile = (magic Story.fileMagic >>= fun _ => body) ∧
    Stable body := by
  refine ⟨_, rfl, ?_⟩
  have hheader : ∀ header : Table String, Stable (do
      let key ← text
      return header.insert (Text.fold key) (← text)) := fun header =>
    stable_text.bind fun key => stable_text.map fun value => header.insert (Text.fold key) value
  refine (Stable.counted hheader ∅).bind fun header => stable_byte.bind fun version => ?_
  split_ifs
  · exact stable_fail _
  · exact stable_digest.bind fun digest => stable_natural.bind fun length =>
      (stable_take length).map fun payload => (header, digest, payload)

theorem stable_scalar (kind : ValueKind) : Stable (scalar kind) := by
  cases kind with
  | boolean => exact stable_flag.map _
  | integer => exact stable_integer.map _
  | float => exact stable_float.map _
  | string | object | player | room | container | action | varName => exact stable_text.map _
  | world =>
    refine stable_text.bind fun identity => ?_
    split_ifs
    · exact stable_pure _
    · exact stable_fail _
  | list => exact stable_fail _

theorem stable_savedItems {value : Rebuilt → Reader (Value × Rebuilt)}
    (h : ∀ b, Stable (value b)) (b : Rebuilt) : Stable (savedItems value b) := by
  have hitem : ∀ found, Stable (savedItem value found) := fun found =>
    (h found.2).bind fun read => stable_pure (read.1 :: found.1, read.2)
  exact (Stable.counted hitem ([], b)).map fun found => (found.1.reverse, found.2)

theorem stable_savedValue (levels : Nat) : ∀ b, Stable (savedValue levels b) := by
  induction levels using Nat.strong_induction_on with
  | _ levels ih =>
    intro b
    unfold savedValue
    refine (stable_tagged _ _).bind fun kind => ?_
    split_ifs
    · exact (stable_scalar kind).map fun v => (v, b)
    refine stable_natural.bind fun number => (stable_tagged _ _).bind fun full => ?_
    split
    · cases b.lists[number]? with
      | some h => exact stable_pure _
      | none => exact stable_fail _
    · cases levels with
      | zero => exact stable_fail _
      | succ levels =>
        dsimp only
        split
        · exact stable_fail _
        · exact (stable_savedItems (ih levels (Nat.lt_succ_self levels)) _).bind fun found =>
            stable_pure _

theorem stable_savedVariables (b : Rebuilt) : Stable (savedVariables b) := by
  refine Stable.counted (fun found => stable_text.bind fun name => ?_) (∅, b)
  exact (stable_savedValue maxNesting found.2).bind fun read =>
    stable_pure (found.1.insert name read.1, read.2)

theorem stable_liveIdentity (s : Session) (kind : ElementKind) : Stable (liveIdentity s kind) := by
  refine stable_text.bind fun identity => ?_
  cases s.state.context s.story identity with
  | error e => exact stable_fail _
  | ok c =>
    dsimp only
    split_ifs
    · exact stable_pure _
    · exact stable_fail _

theorem stable_savedSections (s : Session) : Stable (savedSections s) := by
  have helement : ∀ kind found, Stable (savedElement s kind found) := fun kind found =>
    (stable_liveIdentity s kind).bind fun identity =>
      (stable_savedVariables found.2).bind fun read =>
        stable_pure ((identity, read.1) :: found.1, read.2)
  refine (stable_savedVariables _).bind fun world => ?_
  exact Stable.foldlM (fun found kind => Stable.counted (helement kind) found) Story.fileKinds _

theorem stable_describedObject (s : Session) (m : Ownership) : Stable (describedObject s m) := by
  refine (stable_liveIdentity s .object).bind fun object => ?_
  refine (Stable.counted (fun m => stable_text.map (m.addName object)) m).bind fun m => ?_
  exact Stable.counted (fun m => stable_text.map (m.addTag object)) m

theorem stable_ownership (s : Session) : Stable (ownership s) := by
  have howned : ∀ m, Stable (ownedObject s m) := fun m =>
    (stable_liveIdentity s .object).bind fun object => (stable_tagged _ _).bind fun kind =>
      (stable_liveIdentity s kind).map fun holder => m.addObject (.of kind holder) object
  have hstack : ∀ m, Stable (roomStack s m) := fun m =>
    (stable_liveIdentity s .player).bind fun player =>
      Stable.counted (fun m => (stable_liveIdentity s .room).map (m.pushRoom player)) m
  refine (Stable.counted (stable_describedObject s) .empty).bind fun m => ?_
  refine (Stable.counted howned m).bind fun m => (Stable.counted hstack m).bind fun m => ?_
  refine stable_flag.bind fun there => ?_
  split_ifs
  · exact (stable_liveIdentity s .player).map fun player => m.setPlayer (some player)
  · exact stable_pure m

theorem stable_savedState (s : Session) : ∃ body,
    savedState s = (magic Session.saveMagic >>= fun _ => body) ∧ Stable body := by
  refine ⟨_, rfl, stable_byte.bind fun version => ?_⟩
  split_ifs
  · exact stable_fail _
  refine stable_digest.bind fun digest => ?_
  split_ifs
  · exact stable_fail _
  · exact (stable_savedSections s).bind fun found =>
      (stable_ownership s).map fun m => (found.1, found.2.heap, m)

end Reader

/-- The file is refused with some of its last bytes missing, within the mark at its beginning as a
file of another sort, and it is refused with more bytes behind it. -/
structure Whole {α : Type} (read : Bytes → Except DecodeError α) (mark file : Bytes) : Prop where
  cut : ∀ {front more : Bytes}, file = front ++ more → more ≠ [] →
    read front = .error (if front.length < mark.length then .badMagic else .unexpectedEnd)
  extended : ∀ {more : Bytes}, more ≠ [] → read (file ++ more) = .error .trailingBytes

theorem Whole.of_stable {α β : Type} {read : Reader α} {mark : Bytes}
    (hmark : mark.length < 0x10000000000000000)
    (hread : ∃ body, read = (Reader.magic mark >>= fun _ => body) ∧ Reader.Stable body)
    {accept : Bytes → Except DecodeError β}
    (haccept : ∀ bytes e, read.complete bytes = .error e → accept bytes = .error e)
    {file : Bytes} {a : α} (h : read.complete file = .ok a) : Whole accept mark file := by
  obtain ⟨body, rfl, hbody⟩ := hread
  constructor
  · rintro front more rfl hmore
    exact haccept _ _ (Reader.complete_cut hmark hbody h hmore)
  · intro more hmore
    exact haccept _ _ (Reader.complete_append hmark hbody h hmore)

theorem Story.whole_of_decode {file : Bytes} {story : Story} (h : decode file = .ok story) :
    Whole decode fileMagic file := by
  cases hfile : Reader.storyFile.complete file with
  | error e =>
    rw [decode, hfile] at h
    cases h
  | ok parts =>
    refine .of_stable (by decide +kernel) Reader.stable_storyFile (fun bytes e he => ?_) hfile
    rw [decode, he]

theorem Session.whole_of_load {s s' : Session} {saved : Bytes} (h : s.load saved = .ok s') :
    Whole s.load saveMagic saved := by
  cases hsaved : (Reader.savedState s).complete saved with
  | error e =>
    rw [load, hsaved] at h
    cases h
  | ok parts =>
    refine .of_stable (by decide +kernel) (Reader.stable_savedState s) (fun bytes e he => ?_) hsaved
    rw [load, he]

/-- Every story file that is accepted, and every saved state that a session accepts, is refused when
it is cut short anywhere and when anything is put behind it. -/
theorem whole_of_accepted :
    (∀ (file : Bytes) (story : Story), Story.decode file = .ok story →
      Whole Story.decode Story.fileMagic file) ∧
    ∀ (s : Session) (saved : Bytes) (s' : Session), s.load saved = .ok s' →
      Whole s.load Session.saveMagic saved :=
  ⟨fun _ _ h => Story.whole_of_decode h, fun _ _ _ h => Session.whole_of_load h⟩

theorem Whole.dropLast {α : Type} {read : Bytes → Except DecodeError α} {mark file : Bytes}
    (h : Whole read mark file) (hlength : mark.length < file.length) :
    read file.dropLast = .error .unexpectedEnd := by
  have hne : file ≠ [] := List.ne_nil_of_length_pos (by omega)
  rw [h.cut (List.dropLast_append_getLast hne).symm (List.cons_ne_nil _ _), if_neg]
  rw [List.length_dropLast]
  omega

namespace Sample

/-- Without its last byte the file of the manor ends too early, and so does a saved game in the
cellar. With one more byte they do not end where they should. -/
theorem manor_and_cellar_whole : ∃ file s', Story.decode file = .ok manorStory.stored ∧
    Story.decode file.dropLast = .error .unexpectedEnd ∧
    Story.decode (file ++ [0]) = .error .trailingBytes ∧
    (cellarSession .empty).load (cellarSession .empty).save = .ok s' ∧
    (cellarSession .empty).load (cellarSession .empty).save.dropLast = .error .unexpectedEnd ∧
    (cellarSession .empty).load ((cellarSession .empty).save ++ [0]) = .error .trailingBytes := by
  have hlength :
      (Story.file manorStory.header manorStory.payload).length < 0x10000000000000000 := by
    simp only [Story.file, Story.payload, List.length_append, Digest.length_of,
      Element.length_elementBody manorStory.world]
    decide +kernel
  have hdecode := Story.decode_file manorStory_built.sound (by decide +kernel) (by decide +kernel)
    hlength
  have hfile := whole_of_accepted.1 _ _ hdecode
  have hload : ((cellarSession .empty).load (cellarSession .empty).save).toOption.isSome = true := by
    decide +kernel
  cases hsaved : (cellarSession .empty).load (cellarSession .empty).save with
  | error e =>
    rw [hsaved] at hload
    cases hload
  | ok s' =>
    have hsave := whole_of_accepted.2 _ _ _ hsaved
    have hone : ([0] : Bytes) ≠ [] := List.cons_ne_nil 0 []
    refine ⟨_, s', hdecode, hfile.dropLast ?_, hfile.extended hone, rfl, hsave.dropLast ?_,
      hsave.extended hone⟩
    · simp only [Story.file, List.length_append, List.length_singleton]
      omega
    · simp only [Session.save, List.length_append, List.length_singleton]
      omega

end Sample

end Fabula
