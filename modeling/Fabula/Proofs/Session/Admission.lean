import Fabula.Proofs.Session.WellKept

/-! What loading admits. Identities in a saved state are looked up folded and then kept as they are
spelled. So every one of them is that of a live element up to its spelling, and holders, which are
kept folded, are so exactly; but variables are found again only if their element and their name are
spelled folded. Values are canonical, and lists are new ones. -/

namespace Fabula

theorem Value.Sound.mono {P Q : Handle → Prop} {v : Value} (h : v.Sound P) (hPQ : ∀ a, P a → Q a) :
    v.Sound Q :=
  ⟨h.1, fun a ha => hPQ a (h.2 a ha)⟩

namespace Rebuilt

def MadeSince (base : Nat) (b : Rebuilt) (h : Handle) : Prop := base ≤ h ∧ h < b.heap.size

/-- All lists with a number are new ones, and new lists hold sound values only. -/
structure Sound (base : Nat) (b : Rebuilt) : Prop where
  least : base ≤ b.heap.size
  lists : ∀ {n : Nat} {h : Handle}, b.lists[n]? = some h → b.MadeSince base h
  heap : b.heap.SoundOn (b.MadeSince base)

structure Grown (base : Nat) (b b' : Rebuilt) : Prop where
  size : b.heap.size ≤ b'.heap.size
  sound : b'.Sound base

variable {base : Nat} {b b' b'' : Rebuilt}

theorem MadeSince.mono {a : Handle} (ha : b.MadeSince base a) (h : b.heap.size ≤ b'.heap.size) :
    b'.MadeSince base a :=
  ⟨ha.1, Nat.lt_of_lt_of_le ha.2 h⟩

theorem Grown.value (h : Grown base b b') {v : Value} (hv : v.Sound (b.MadeSince base)) :
    v.Sound (b'.MadeSince base) :=
  hv.mono fun _ ha => ha.mono h.size

theorem Grown.refl (h : b.Sound base) : Grown base b b := ⟨le_rfl, h⟩

theorem Grown.trans (h : Grown base b b') (h' : Grown base b' b'') : Grown base b b'' :=
  ⟨h.size.trans h'.size, h'.sound⟩

theorem sound_start (heap : Heap) : Sound heap.size ⟨heap, ∅⟩ where
  least := le_rfl
  lists h := by simp at h
  heap a ha := absurd ha.2 (Nat.not_lt.mpr ha.1)

theorem Sound.make (h : b.Sound base) (n : Nat) : Grown base b (b.make n) := by
  have hsize := b.size_make n
  have hle : b.heap.size ≤ (b.make n).heap.size := hsize ▸ Nat.le_succ _
  refine ⟨hle, h.least.trans hle, fun {k a} hk => ?_, fun a ha => ⟨ha.2, fun v hv => ?_⟩⟩
  · simp only [Rebuilt.make, Std.ExtTreeMap.getElem?_insert] at hk
    split at hk
    · rw [← Option.some.inj hk]
      exact ⟨h.least, hsize ▸ Nat.lt_succ_self _⟩
    · exact (h.lists hk).mono hle
  · by_cases hold : a < b.heap.size
    · rw [b.items_make_of_lt n hold] at hv
      exact ((h.heap a ⟨ha.1, hold⟩).2 v hv).mono fun _ hm => hm.mono hle
    · have hlast : a = b.heap.size :=
        Nat.le_antisymm (Nat.lt_succ_iff.mp (ha.2.trans_eq hsize)) (Nat.not_lt.mp hold)
      subst hlast
      simp [Rebuilt.make, Heap.items_alloc] at hv

theorem Sound.fill (h : b.Sound base) (k : Handle) {items : List Value}
    (hitems : ∀ v ∈ items, v.Sound (b.MadeSince base)) : Grown base b (b.fill k items) := by
  have hsize := b.size_fill k items
  refine ⟨hsize.ge, h.least.trans hsize.ge, fun hk => (h.lists hk).mono hsize.ge, fun a ha => ?_⟩
  have ha' : b.MadeSince base a := ha.mono hsize.le
  refine ⟨ha.2, fun v hv => ?_⟩
  by_cases hk : a = k
  · subst hk
    rw [b.items_fill items ha'.2] at hv
    exact (hitems v hv).mono fun _ hm => hm.mono hsize.ge
  · rw [b.items_fill_of_ne items hk] at hv
    exact ((h.heap a ha').2 v hv).mono fun _ hm => hm.mono hsize.ge

end Rebuilt

def SoundBindings (P : Handle → Prop) (bindings : Table Value) : Prop :=
  ∀ {name : String} {v : Value}, bindings[name]? = some v → v.Sound P

namespace Reader

variable {base : Nat} {b : Rebuilt}

theorem yields_soundScalar (P : Handle → Prop) (kind : ValueKind) :
    Yields (scalar kind) (Value.Sound P) :=
  (yields_scalar kind).mono fun _ h => ⟨h.canonical, fun a ha => by cases ha ▸ h.single⟩

theorem yields_savedItems {value : Rebuilt → Reader (Value × Rebuilt)}
    (hvalue : ∀ b : Rebuilt, b.Sound base → Yields (value b) fun found =>
      Rebuilt.Grown base b found.2 ∧ found.1.Sound (found.2.MadeSince base))
    (hb : b.Sound base) :
    Yields (savedItems value b) fun found =>
      Rebuilt.Grown base b found.2 ∧ ∀ v ∈ found.1, v.Sound (found.2.MadeSince base) := by
  refine Yields.bind (Yields.counted (P := fun found => Rebuilt.Grown base b found.2 ∧
    ∀ v ∈ found.1, v.Sound (found.2.MadeSince base)) ⟨.refl hb, by simp⟩ ?_) ?_
  · rintro found ⟨hgrown, hitems⟩
    refine (hvalue found.2 hgrown.sound).bind fun read hread => yields_pure ?_
    refine ⟨hgrown.trans hread.1, fun v hv => ?_⟩
    rcases List.mem_cons.mp hv with rfl | hv
    · exact hread.2
    · exact hread.1.value (hitems v hv)
  · rintro found ⟨hgrown, hitems⟩
    exact yields_pure ⟨hgrown, fun v hv => hitems v (List.mem_reverse.mp hv)⟩

/-- A list in full: it is made, its items are read, and it is filled with them. -/
theorem yields_savedList {value : Rebuilt → Reader (Value × Rebuilt)}
    (hvalue : ∀ b : Rebuilt, b.Sound base → Yields (value b) fun found =>
      Rebuilt.Grown base b found.2 ∧ found.1.Sound (found.2.MadeSince base))
    (hb : b.Sound base) (number : Nat) :
    Yields (do
        let (items, b') ← savedItems value (b.make number)
        return (Value.list b.heap.size, b'.fill b.heap.size items)) fun found =>
      Rebuilt.Grown base b found.2 ∧ found.1.Sound (found.2.MadeSince base) := by
  have hmade := hb.make number
  refine (yields_savedItems hvalue hmade.sound).bind fun found hfound => yields_pure ?_
  have hfilled := hmade.trans (hfound.1.trans (hfound.1.sound.fill b.heap.size hfound.2))
  refine ⟨hfilled, trivial, fun a ha => ?_⟩
  obtain rfl := Value.list.inj ha
  have hnew : (b.make number).MadeSince base b.heap.size :=
    ⟨hb.least, b.size_make number ▸ Nat.lt_succ_self _⟩
  exact hnew.mono (hfound.1.trans (hfound.1.sound.fill b.heap.size hfound.2)).size

theorem yields_savedValue (levels : Nat) : ∀ b : Rebuilt, b.Sound base →
    Yields (savedValue levels b) fun found =>
      Rebuilt.Grown base b found.2 ∧ found.1.Sound (found.2.MadeSince base) := by
  induction levels using Nat.strong_induction_on with
  | _ levels ih =>
    intro b hb
    unfold savedValue
    refine yields_after fun kind => ?_
    split
    · exact (yields_soundScalar (b.MadeSince base) kind).bind fun v hv => yields_pure ⟨.refl hb, hv⟩
    · refine yields_after fun number => yields_after fun full => ?_
      split
      · split
        · rename_i h hl
          refine yields_pure ⟨.refl hb, trivial, fun a ha => ?_⟩
          obtain rfl := Value.list.inj ha
          exact hb.lists hl
        · exact yields_fail _
      · split
        · exact yields_fail _
        · rename_i levels
          split
          · exact yields_fail _
          · exact yields_savedList (ih levels (Nat.lt_succ_self levels)) hb number

theorem yields_savedVariables (hb : b.Sound base) : Yields (savedVariables b) fun found =>
    Rebuilt.Grown base b found.2 ∧ SoundBindings (found.2.MadeSince base) found.1 := by
  refine Yields.counted ⟨.refl hb, fun h => by simp at h⟩ ?_
  rintro found ⟨hgrown, hbound⟩
  refine yields_after fun name => ?_
  refine (yields_savedValue maxNesting found.2 hgrown.sound).bind fun read hread => ?_
  refine yields_pure ⟨hgrown.trans hread.1, fun {other v} hv => ?_⟩
  rw [Std.ExtTreeMap.getElem?_insert] at hv
  split at hv
  · rw [← Option.some.inj hv]
    exact hread.2
  · exact hread.1.value (hbound hv)

end Reader

def State.LiveAs (st : State) (e : ElementRef) : Prop := st.Live (.of e.kind e.identity)

/-- Coherent ownership that names live elements only, up to the spelling of all but holders. -/
structure Ownership.Admissible (st : State) (m : Ownership) : Prop where
  coherent : m.Coherent
  among : m.Among st.LiveAs
  holders : ∀ {object : String} {holder : ElementRef}, m.owner[object]? = some holder →
    st.Live holder

namespace Ownership.Admissible

variable {st : State} {m : Ownership}

theorem change (h : m.Admissible st) (c : Change) (hfits : c.Fits st.LiveAs)
    (howner : (c.apply m).owner = m.owner) : (c.apply m).Admissible st where
  coherent := h.coherent.apply c
  among := h.among.apply h.coherent.toInverse hfits
  holders ho := h.holders (howner ▸ ho)

theorem addObject (h : m.Admissible st) {kind : ElementKind} {holder object : String}
    (hkind : kind.holdsObjects = true) (hholder : st.LiveAs ⟨kind, holder⟩)
    (hobject : st.LiveAs ⟨.object, object⟩) :
    (m.addObject (.of kind holder) object).Admissible st where
  coherent := h.coherent.addObject _ object
  among := by
    refine h.among.addObject hkind ?_ hobject
    simpa only [State.LiveAs, ElementRef.of, Text.fold_fold] using hholder
  holders {o r} ho := by
    rw [owner_addObject, Std.ExtTreeMap.getElem?_insert] at ho
    split at ho
    · rw [← Option.some.inj ho]
      exact hholder
    · exact h.holders ho

end Ownership.Admissible

namespace Reader

variable {s : Session} (ho : Story.Orderly { s.story with knownDigest := none })
  (hcast : ∀ identity : String,
    s.state.contexts[identity]?.map (fun c => c.element) = s.story.live? identity)

include ho hcast

theorem yields_liveIdentity (kind : ElementKind) :
    Yields (liveIdentity s kind) fun identity => s.state.LiveAs ⟨kind, identity⟩ := by
  refine yields_after fun identity => ?_
  split
  · rename_i c hc
    split
    · rename_i hkind
      refine yields_pure ?_
      unfold State.context at hc
      split at hc
      · rename_i c' hc'
        obtain rfl := Except.ok.inj hc
        have hl : s.story.live? (Text.fold identity) = some c'.element := by
          rw [← hcast, hc', Option.map_some]
        refine ⟨c', hc', ?_⟩
        rw [ElementRef.of, ← (ho.of_live? hl).1, ← hkind]
      · split at hc <;> cases hc
    · exact yields_fail _
  · exact yields_fail _

theorem yields_describedObject {m : Ownership} (hm : m.Admissible s.state) :
    Yields (describedObject s m) (Ownership.Admissible s.state) := by
  refine (yields_liveIdentity ho hcast .object).bind fun object hobject => ?_
  refine Yields.bind (Yields.counted hm fun m hm => ?_) fun m hm =>
    Yields.counted hm fun m hm => ?_
  · exact yields_after fun name => yields_pure (hm.change (.addName object name) hobject rfl)
  · exact yields_after fun tag => yields_pure (hm.change (.addTag object tag) hobject rfl)

theorem yields_ownedObject {m : Ownership} (hm : m.Admissible s.state) :
    Yields (ownedObject s m) (Ownership.Admissible s.state) := by
  refine (yields_liveIdentity ho hcast .object).bind fun object hobject => ?_
  have hholds : Yields (tagged "holder kind" fun tag =>
      (ElementKind.ofTag? tag).filter fun kind => kind.holdsObjects)
      fun kind => kind.holdsObjects = true :=
    yields_tagged fun _ _ h => (Option.filter_eq_some_iff.mp h).2
  refine hholds.bind fun kind hkind => ?_
  refine (yields_liveIdentity ho hcast kind).bind fun holder hholder => yields_pure ?_
  exact hm.addObject hkind hholder hobject

theorem yields_roomStack {m : Ownership} (hm : m.Admissible s.state) :
    Yields (roomStack s m) (Ownership.Admissible s.state) := by
  refine (yields_liveIdentity ho hcast .player).bind fun player hplayer => ?_
  refine Yields.counted hm fun m hm => ?_
  refine (yields_liveIdentity ho hcast .room).bind fun room hroom => yields_pure ?_
  exact hm.change (.pushRoom player room) ⟨hplayer, hroom⟩ rfl

theorem yields_ownership : Yields (ownership s) (Ownership.Admissible s.state) := by
  have hempty : Ownership.empty.Admissible s.state :=
    ⟨Ownership.coherent_empty, Ownership.among_empty, fun h => by simp [Ownership.empty] at h⟩
  refine Yields.bind (Yields.counted hempty fun m hm => yields_describedObject ho hcast hm)
    fun m hm => ?_
  refine Yields.bind (Yields.counted hm fun m hm => yields_ownedObject ho hcast hm) fun m hm => ?_
  refine Yields.bind (Yields.counted hm fun m hm => yields_roomStack ho hcast hm) fun m hm => ?_
  refine yields_after fun there => ?_
  cases there with
  | false => exact yields_pure hm
  | true =>
    refine (yields_liveIdentity ho hcast .player).bind fun player hplayer => yields_pure ?_
    refine hm.change (.setPlayer (some player)) (fun p hp => ?_) rfl
    rw [← Option.some.inj hp]
    exact hplayer

def SoundSections (st : State) (P : Handle → Prop) (sections : Sections) : Prop :=
  ∀ item ∈ sections, (∃ kind, st.LiveAs ⟨kind, item.1⟩) ∧ SoundBindings P item.2

theorem yields_savedSections : Yields (savedSections s) fun found =>
    found.2.Sound s.state.heap.size ∧
      SoundSections s.state (found.2.MadeSince s.state.heap.size) found.1 := by
  have hworld : s.state.LiveAs .world := by
    obtain ⟨c, hc, he⟩ := Option.map_eq_some_iff.mp
      ((hcast worldIdentity).trans s.story.live?_world)
    refine ⟨c, ?_, ?_⟩
    · simpa [ElementRef.of, ElementRef.world, fold_worldIdentity] using hc
    · simpa [ElementRef.of, ElementRef.world, fold_worldIdentity] using he
  have hsection : ∀ (kind : ElementKind) (found : Sections × Rebuilt),
      found.2.Sound s.state.heap.size ∧
        SoundSections s.state (found.2.MadeSince s.state.heap.size) found.1 →
      Yields (savedElement s kind found) fun found => found.2.Sound s.state.heap.size ∧
        SoundSections s.state (found.2.MadeSince s.state.heap.size) found.1 := by
    rintro kind found ⟨hb, hsections⟩
    refine (yields_liveIdentity ho hcast kind).bind fun identity hlive => ?_
    refine (yields_savedVariables hb).bind fun read hread => yields_pure ⟨hread.1.sound, ?_⟩
    intro item hi
    rcases List.mem_cons.mp hi with rfl | hi
    · exact ⟨⟨kind, hlive⟩, hread.2⟩
    · exact ⟨(hsections item hi).1, fun hv => hread.1.value ((hsections item hi).2 hv)⟩
  refine (yields_savedVariables (Rebuilt.sound_start s.state.heap)).bind fun read hread => ?_
  refine Yields.foldlM ⟨hread.1.sound, ?_⟩ fun found kind hfound =>
    Yields.counted hfound (hsection kind)
  intro item hi
  obtain rfl := List.mem_singleton.mp hi
  exact ⟨⟨.world, hworld⟩, hread.2⟩

/-- What is known of a saved state that is accepted. -/
theorem yields_savedState : Yields (savedState s) fun found =>
    (∃ b : Rebuilt, b.heap = found.2.1 ∧ b.Sound s.state.heap.size ∧
      SoundSections s.state (b.MadeSince s.state.heap.size) found.1) ∧
    found.2.2.Admissible s.state := by
  refine yields_after fun _ => yields_after fun version => ?_
  split
  · exact yields_fail _
  · refine yields_after fun digest => ?_
    split
    · exact yields_fail _
    · refine (yields_savedSections ho hcast).bind fun found hfound => ?_
      refine (yields_ownership ho hcast).bind fun m hm => yields_pure ?_
      exact ⟨⟨found.2, rfl, hfound⟩, hm⟩

end Reader

namespace Session

/-- What a session is like that has loaded a saved state with these sections, the last ones first. -/
structure Admitted (s s' : Session) (sections : Reader.Sections) : Prop where
  /-- Every section is that of a live element, up to spelling. -/
  named : ∀ item ∈ sections, ∃ kind, s.state.LiveAs ⟨kind, item.1⟩
  /-- The live elements stay the same. -/
  cast : ∀ identity : String,
    s'.state.contexts[identity]?.map (fun c => c.element) = s.story.live? identity
  /-- An element has the variables of the last section spelled like it, and no others. -/
  bindings : ∀ {identity : String} {c : Context}, s'.state.contexts[identity]? = some c →
    c.bindings = ((sections.find? fun item => item.1 = identity).map Prod.snd).getD ∅
  /-- A section that is spelled folded is installed, unless another one follows. -/
  installed : ∀ {later before : Reader.Sections} {identity : String} {bindings : Table Value},
    sections = later ++ (identity, bindings) :: before → (∀ item ∈ later, item.1 ≠ identity) →
      Text.fold identity = identity →
      ∃ c, s'.state.contexts[identity]? = some c ∧ c.bindings = bindings
  /-- A variable whose name is spelled folded can be read under it. -/
  readable : ∀ {identity name : String} {c : Context} {v : Value},
    s'.state.contexts[identity]? = some c → c.bindings[name]? = some v → Text.fold name = name →
      c.get? name = some v
  /-- All values are canonical and all lists are there. -/
  canonical : s'.state.Canonical
  coherent : s'.state.ownership.Coherent
  /-- Everything named is live, up to spelling. -/
  among : s'.state.ownership.Among s'.state.LiveAs
  /-- Holders are live as they are spelled. -/
  holders : ∀ {object : String} {holder : ElementRef},
    s'.state.ownership.owner[object]? = some holder →
      holder.kind.holdsObjects ∧ s'.state.Live holder
  /-- Where everything named is spelled folded, the state is well kept. -/
  wellKept : s'.state.ownership.Among (fun e => Text.fold e.identity = e.identity) →
    s'.state.WellKept s.story

end Session

namespace State

def restored (contexts : Table Context) (sections : Reader.Sections) : Table Context :=
  sections.foldr (fun item t => installSection t item.1 item.2) (withoutVariables contexts)

variable {contexts : Table Context} {sections : Reader.Sections} {identity : String} {c : Context}

theorem getElem?_restored (contexts : Table Context) (sections : Reader.Sections)
    (identity : String) :
    (restored contexts sections)[identity]? = contexts[identity]?.map fun c =>
      ⟨c.element, ((sections.find? fun item => item.1 = identity).map Prod.snd).getD ∅⟩ := by
  rw [restored, getElem?_foldr_installSection, withoutVariables, Std.ExtTreeMap.getElem?_map,
    Option.map_map]
  congr 1
  funext c
  cases sections.find? fun item => item.1 = identity <;> rfl

theorem bindings_of_restored (hc : (restored contexts sections)[identity]? = some c) :
    c.bindings = ((sections.find? fun item => item.1 = identity).map Prod.snd).getD ∅ := by
  rw [getElem?_restored] at hc
  obtain ⟨c', -, rfl⟩ := Option.map_eq_some_iff.mp hc
  rfl

theorem exists_restored (sections : Reader.Sections) {e : ElementRef}
    (he : ∃ c, contexts[e.identity]? = some c ∧ c.element = e) :
    ∃ c, (restored contexts sections)[e.identity]? = some c ∧ c.element = e := by
  obtain ⟨c, hc, he⟩ := he
  have hnew := getElem?_restored contexts sections e.identity
  rw [hc, Option.map_some] at hnew
  exact ⟨_, hnew, he⟩

/-- The last section spelled like an element counts. -/
theorem bindings_of_last {later before : Reader.Sections} {bindings : Table Value}
    (hlater : ∀ item ∈ later, item.1 ≠ identity)
    (hc : (restored contexts (later ++ (identity, bindings) :: before))[identity]? = some c) :
    c.bindings = bindings := by
  have hnone : later.find? (fun item => item.1 = identity) = none := by
    rw [List.find?_eq_none]
    exact fun item hi => by simpa using hlater item hi
  rw [bindings_of_restored hc, List.find?_append, hnone]
  simp

theorem soundBindings_of_restored {P : Handle → Prop}
    (hsections : ∀ item ∈ sections, SoundBindings P item.2)
    (hc : (restored contexts sections)[identity]? = some c) : SoundBindings P c.bindings := by
  intro name v hv
  rw [bindings_of_restored hc] at hv
  cases hfound : sections.find? fun item => item.1 = identity with
  | none => simp [hfound] at hv
  | some item =>
    rw [hfound] at hv
    exact hsections item (List.mem_of_find?_eq_some hfound) hv

theorem canonical_of_sound {st : State} {P : Handle → Prop} (hheap : st.heap.SoundOn P)
    (hbound : ∀ {identity : String} {c : Context}, st.contexts[identity]? = some c →
      SoundBindings P c.bindings) : st.Canonical where
  bound hc hv := (hbound hc hv).1
  lists {h} hr := by
    have hP : P h := by
      induction hr with
      | held found bound => exact (hbound found bound).2 _ rfl
      | inside _ item ih => exact ((hheap _ ih).2 _ item).2 _ rfl
    exact ⟨(hheap h hP).1, fun v hv => ((hheap h hP).2 v hv).1⟩

end State

/-- What is live up to spelling and spelled folded is live. -/
theorem Ownership.Admissible.amongLive {st : State} {m : Ownership} (h : m.Admissible st)
    (hfolded : m.Among fun e => Text.fold e.identity = e.identity) : m.Among st.Live := by
  refine (h.among.and hfolded).mono fun e he => ?_
  have hlive : st.Live (.of e.kind e.identity) := he.1
  rwa [ElementRef.of, he.2] at hlive

namespace Session

variable {s s' : Session}

theorem admitted_of_sound
    (hcast : ∀ identity : String,
      s.state.contexts[identity]?.map (fun c => c.element) = s.story.live? identity)
    {sections : Reader.Sections} {b : Rebuilt} {m : Ownership} (hb : b.Sound s.state.heap.size)
    (hsections : Reader.SoundSections s.state (b.MadeSince s.state.heap.size) sections)
    (hm : m.Admissible s.state) :
    s.Admitted { s with
      state := { s.state with
        heap := b.heap
        contexts := State.restored s.state.contexts sections
        ownership := m } } sections := by
  have hcast' : ∀ identity : String,
      (State.restored s.state.contexts sections)[identity]?.map (fun c => c.element) =
        s.story.live? identity := by
    intro identity
    rw [State.getElem?_restored, Option.map_map, ← hcast]
    rfl
  constructor
  case named => exact fun item hi => (hsections item hi).1
  case cast => exact hcast'
  case bindings => exact State.bindings_of_restored
  case installed =>
    rintro later before identity bindings rfl hlater hfold
    obtain ⟨kind, hkind⟩ := (hsections (identity, bindings) (by simp)).1
    obtain ⟨c, hc, -⟩ := State.exists_restored _ hkind
    simp only [ElementRef.of, hfold] at hc
    exact ⟨c, hc, State.bindings_of_last hlater hc⟩
  case readable =>
    intro identity name c v _ hv hfold
    rwa [Context.get?, hfold]
  case canonical =>
    refine State.canonical_of_sound hb.heap fun hc => ?_
    exact State.soundBindings_of_restored (fun item hi => (hsections item hi).2) hc
  case coherent => exact hm.coherent
  case among => exact hm.among.mono fun e he => State.exists_restored sections he
  case holders =>
    intro object holder howner
    exact ⟨(hm.among.holders howner).1, State.exists_restored sections (hm.holders howner)⟩
  case wellKept =>
    intro hfolded
    refine .of_cast hcast' hm.coherent ((hm.amongLive hfolded).mono fun e he => ?_)
    obtain ⟨c, hc, he⟩ := he
    rw [Story.Casts, ← hcast, hc, Option.map_some, he]

/-- Loading admits only states that are well formed up to spelling: where it succeeds, the bytes hold
sections, lists and ownership, and the session is what it has to be with these. -/
theorem load_admits {bytes : Bytes} (hmade : s.story.Made)
    (hcast : ∀ identity : String,
      s.state.contexts[identity]?.map (fun c => c.element) = s.story.live? identity)
    (h : s.load bytes = .ok s') :
    ∃ sections, (Reader.savedState s).complete bytes =
        .ok (sections, s'.state.heap, s'.state.ownership) ∧ s.Admitted s' sections := by
  unfold load at h
  split at h
  · cases h
  · rename_i sections heap ownership hread
    obtain rfl := Except.ok.inj h
    have hyields := Reader.yields_savedState hmade.sound.orderly hcast
    obtain ⟨⟨b, rfl, hb, hsections⟩, hm⟩ := hyields.complete hread
    exact ⟨sections, hread, admitted_of_sound hcast hb hsections hm⟩

end Session

namespace Sample

/-- A saved state of the cellar in which the variables of the lamp stand under `LAMP` and the lamp
is with the hero, who is spelled `HERO` there. -/
def misspelled : Bytes :=
  Session.saveMagic ++ [Session.saveVersion] ++ (cellarSession .empty).digest ++
    [0, 1] ++ Bytes.text "hero" ++ [0, 1] ++ Bytes.text "cellar" ++
    [0, 1] ++ Bytes.text "LAMP" ++ [1] ++ Bytes.text "oil" ++ [1, 7] ++
    [0, 0, 1] ++ Bytes.text "lamp" ++ [1] ++ Bytes.text "HERO" ++ [0, 0]

/-- The misspelled lamp loses its variables, and the hero who holds it is the live one. -/
theorem load_misspelled : ∃ s' sections, (cellarSession .empty).load misspelled = .ok s' ∧
    (cellarSession .empty).Admitted s' sections ∧
    sections.map (fun item => (item.1, item.2.toList)) =
      [("LAMP", [("oil", .integer 7)]), ("cellar", []), ("hero", []), ("world", [])] ∧
    s'.state.contexts.toList.map (fun item => (item.1, item.2.bindings.toList)) =
      [("cellar", []), ("hero", []), ("lamp", []), ("world", [])] ∧
    s'.state.ownership.owner.toList = [("lamp", ⟨.player, "hero"⟩)] := by
  let loaded := State.restored (cellarSession .empty).state.contexts
  have hfound : ((Reader.savedState (cellarSession .empty)).complete misspelled).toOption.any
      (fun found =>
        found.1.map (fun item => (item.1, item.2.toList)) =
          [("LAMP", [("oil", .integer 7)]), ("cellar", []), ("hero", []), ("world", [])] ∧
        (loaded found.1).toList.map (fun item => (item.1, item.2.bindings.toList)) =
          [("cellar", []), ("hero", []), ("lamp", []), ("world", [])] ∧
        found.2.2.owner.toList = [("lamp", ⟨.player, "hero"⟩)]) = true := by decide +kernel
  cases hread : (Reader.savedState (cellarSession .empty)).complete misspelled with
  | error e =>
    rw [hread] at hfound
    cases hfound
  | ok found =>
    obtain ⟨sections, heap, m⟩ := found
    rw [hread] at hfound
    obtain ⟨hsections, hcontexts, howner⟩ := of_decide_eq_true hfound
    have hload : (cellarSession .empty).load misspelled = .ok
        { cellarSession .empty with
          state := { (cellarSession .empty).state with
            heap := heap, contexts := loaded sections, ownership := m } } := by
      rw [Session.load, hread]
      rfl
    have hmade : (cellarSession .empty).story.Made := .built _ cellarStory_built.digest
    have hplays := (Session.plays_of_start cellarStory_orderly (start_cellarStory .empty)).2
    obtain ⟨sections', hread', hadmitted⟩ := Session.load_admits hmade hplays.cast hload
    obtain rfl : sections = sections' := by
      rw [hread] at hread'
      exact (Prod.mk.inj (Except.ok.inj hread')).1
    exact ⟨_, sections, hload, hadmitted, hsections, hcontexts, howner⟩

end Sample

end Fabula
