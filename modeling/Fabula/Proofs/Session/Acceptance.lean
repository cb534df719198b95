import Fabula.Proofs.Session.Admission
import Fabula.Proofs.Session.Canonical
import Fabula.Proofs.Session.Refusal
import Fabula.Proofs.Session.Upkeep

/-! Which saved games can be loaded. Whatever was asked of a session of a story from a file, what it
saves is accepted by all sessions of the story, unless lists stand too deep inside one another where
they are saved. Then it is refused by all of them. -/

namespace Fabula

namespace Session

/-- A session of the story, whatever was done to it since it was started: requests, loading, and
changes from outside of variables, limits, ownership and lists. -/
inductive Of (story : Story) : Session → Prop
  | started {heap : Heap} {seed : UInt64} {s : Session} (made : start heap story seed = .ok s) :
      Of story s
  | answered {s : Session} {x : Response × Session} (before : Of story s) (r : Request)
      (made : x ∈ s.answer r) : Of story x.2
  | loaded {s s' : Session} {bytes : Bytes} (before : Of story s) (made : s.load bytes = .ok s') :
      Of story s'
  | assigned {s s' : Session} {element name : String} {v : Value} (before : Of story s)
      (made : s.setVariable element name v = .ok s') : Of story s'
  | cleared {s s' : Session} {element name : String} {v : Option Value} (before : Of story s)
      (made : s.clearVariable element name = .ok (v, s')) : Of story s'
  | limited {s : Session} (before : Of story s) (limits : Limits) :
      Of story { s with limits := limits }
  | owned {s : Session} (before : Of story s) (ownership : Ownership) :
      Of story { s with state := { s.state with ownership := ownership } }
  | relisted {s : Session} (before : Of story s) (heap : Heap) :
      Of story { s with state := { s.state with heap := heap } }

structure Serves (story : Story) (s : Session) : Prop where
  digest : story.digest = (.ok s.digest, s.story)
  cast : ∀ identity : String,
    s.state.contexts[identity]?.map (fun c => c.element) = story.live? identity

namespace Serves

variable {story : Story} {s : Session}

theorem casts_iff (h : s.Serves story) {e : ElementRef} :
    s.state.Live e ↔ story.live? e.identity = some e := by
  rw [← h.cast, Option.map_eq_some_iff]
  rfl

end Serves

/-- Requests never change which elements are live. -/
theorem cast_invariant (story : Story) (cast : String → Option ElementRef) :
    Invariant story (fun st => ∀ identity : String,
      st.contexts[identity]?.map (fun c => c.element) = cast identity) Anything Anything
      fun m => ∀ identity : String,
        m.state.contexts[identity]?.map (fun c => c.element) = cast identity where
  grounds := .trivial story
  state _ h := h
  unseen h hstate _ _ _ := hstate ▸ h
  values _ _ _ := .intro
  push h _ := h
  drop _ h := h
  running _ _ _ := ⟨.intro, fun _ _ _ => .intro⟩
  enter h _ _ := h
  leave h := h
  pending _ _ := .intro
  giveBack h _ := h
  putContext h hc he _ other := (State.element_putContext hc he other).trans (h other)
  alloc h _ := ⟨h, .intro⟩
  modify h _ _ := h
  draw _ h := h
  change h _ := h

theorem eq_of_answer {s : Session} {r : Request} {x : Response × Session} (h : x ∈ s.answer r) :
    x.2 = { s with state := x.2.state } := by
  have hconclude : ∀ (env : Env) (o : Outcome Unit), x ∈ s.conclude env o →
      x.2 = { s with state := x.2.state } := by
    intro env o hx
    cases o with
    | exhausted => cases hx
    | done a m =>
      obtain rfl := Option.some.inj hx
      rfl
    | stopped signal m =>
      obtain rfl := Option.some.inj hx
      rfl
  cases r with
  | setUp options => exact hconclude _ _ h
  | act i options => exact hconclude _ _ h

structure Stages (story : Story) (s : Session) : Prop where
  digest : story.digest = (.ok s.digest, s.story)
  cast : ∀ identity : String, s.state.contexts[identity]?.map (fun c => c.element) =
    (startContexts s.story)[identity]?.map fun c => c.element

theorem Stages.of_state {story : Story} {s s' : Session} (h : s.Stages story)
    (hdigest : s'.digest = s.digest) (hstory : s'.story = s.story)
    (hcast : ∀ identity : String, s'.state.contexts[identity]?.map (fun c => c.element) =
      s.state.contexts[identity]?.map fun c => c.element) : s'.Stages story :=
  ⟨by rw [h.digest, hdigest, hstory], fun identity => by rw [hcast, h.cast, hstory]⟩

theorem Of.stages {story : Story} {s : Session} (h : s.Of story) : s.Stages story := by
  induction h with
  | @started heap seed s made =>
    exact ⟨digest_of_start made, fun identity => by rw [contexts_of_start made]⟩
  | @answered s x before r made ih =>
    have hsame := eq_of_answer made
    have hstory : x.2.story = s.story := by rw [hsame]
    refine ih.of_state (by rw [hsame]) hstory fun identity => ?_
    exact answer_keeps (cast_invariant s.story fun identity =>
      s.state.contexts[identity]?.map fun c => c.element) rfl (fun _ => rfl) r x made identity
  | @loaded s s' bytes before made ih =>
    unfold load at made
    split at made
    · cases made
    · obtain rfl := Except.ok.inj made
      refine ih.of_state rfl rfl fun identity => ?_
      show (State.restored s.state.contexts _)[identity]?.map _ = _
      rw [State.getElem?_restored, Option.map_map]
      rfl
  | @assigned s s' element name v before made ih =>
    unfold setVariable at made
    split at made
    · cases made
    · rename_i c hc
      obtain rfl := Except.ok.inj made
      exact ih.of_state rfl rfl (State.element_putContext (State.of_context hc) rfl)
  | @cleared s s' element name v before made ih =>
    unfold clearVariable at made
    split at made
    · cases made
    · rename_i c hc
      cases made
      exact ih.of_state rfl rfl (State.element_putContext (State.of_context hc) rfl)
  | limited _ _ ih => exact ih.of_state rfl rfl fun _ => rfl
  | owned _ _ ih => exact ih.of_state rfl rfl fun _ => rfl
  | relisted _ _ ih => exact ih.of_state rfl rfl fun _ => rfl

theorem Of.serves {story : Story} (ho : Story.Orderly { story with knownDigest := none })
    {s : Session} (h : s.Of story) : s.Serves story := by
  have hstages := h.stages
  refine ⟨hstages.digest, fun identity => ?_⟩
  rw [hstages.cast, story_of_digest hstages.digest]
  exact startContexts_cast ho identity

theorem forall_mem_play {Q : Session → Prop}
    (hanswer : ∀ s r, Q s → ∀ x ∈ s.answer r, Q x.2) (requests : List Request) {s : Session}
    (hs : Q s) : ∀ x ∈ s.play requests, Q x.2 := by
  induction requests generalizing s with
  | nil => exact fun x hx => absurd hx List.not_mem_nil
  | cons r requests ih =>
    intro x hx
    unfold play at hx
    cases hr : s.answer r with
    | none =>
      rw [hr] at hx
      cases hx
    | some y =>
      rw [hr] at hx
      have hy := hanswer s r hs y hr
      rcases List.mem_cons.mp hx with rfl | hx
      · exact hy
      · exact ih hy x hx

theorem isomorphic_of_start {heap : Heap} {story : Story} {seed : UInt64} {s : Session}
    (hs : start heap story seed = .ok s) : s.Isomorphic s := by
  have hempty : ∀ {identity : String} {c : Context}, s.state.contexts[identity]? = some c →
      c.bindings = ∅ := by
    rw [contexts_of_start hs]
    exact bindings_of_startContexts
  have hcontexts : TablesAlike (Context.Alike fun _ _ => False) s.state.contexts
      s.state.contexts := by
    intro identity
    cases hc : s.state.contexts[identity]? with
    | none => exact .none
    | some c =>
      refine .some ⟨rfl, fun name => ?_⟩
      rw [hempty hc]
      simp
  exact ⟨rfl, rfl, rfl,
    ⟨_, State.Mirrors.correspond ⟨Heap.mirrors_nothing _ _, hcontexts⟩⟩, rfl, rfl⟩

theorem isomorphic_of_answer {s : Session} (hlists : s.story.listFree = true)
    (hs : s.Isomorphic s) (r : Request) : ∀ x ∈ s.answer r, x.2.Isomorphic x.2 := by
  intro x hx
  have hr := answer_alike hs hlists r
  rw [Option.mem_def.mp hx] at hr
  cases hr with
  | some h => exact h.2

end Session

namespace State

variable {st : State} {base : Nat}

theorem Since.of_reaches (h : st.Since base) {a : Handle} (ha : st.Reaches a) : base ≤ a := by
  induction ha with
  | held found bound => exact (h.bindings found _ _ bound).since _ rfl
  | inside _ item ih => exact (h.items ih _ item).since _ rfl

/-- A state is canonical if its values are and its lists are in the heap. That they are there is
known from comparing it with itself. -/
theorem Since.canonical (h : st.Since base) (hsame : st.Isomorphic st) : st.Canonical where
  bound hc hv := (h.bindings hc _ _ hv).canonical
  lists {a} ha := by
    obtain ⟨R, hR⟩ := hsame
    obtain ⟨b, hb, -⟩ := hR.toMirrors.partner_of_reaches ha
    exact ⟨(hR.heap.inside hb).1, fun v hv => (h.items (h.of_reaches ha) v hv).canonical⟩

end State

namespace Session

structure Played (story : Story) (s : Session) : Prop extends Serves story s where
  canonical : s.state.Canonical
  wellKept : s.state.WellKept s.story

theorem played {bytes : Bytes} {story : Story} (hread : Story.decode bytes = .ok story)
    {heap : Heap} {seed : UInt64} {s₀ : Session} (hs₀ : start heap story seed = .ok s₀)
    (requests : List Request) :
    ∀ s ∈ s₀ :: (s₀.play requests).map Prod.snd, s.Played story := by
  have hmade : story.Made := .decoded hread
  have ho : Story.Orderly { story with knownDigest := none } := hmade.sound.orderly
  have hof : s₀.Of story := .started hs₀
  obtain ⟨ho₀, hkept⟩ := wellKept_of_start hmade hs₀
  have hsame := story_of_digest (digest_of_start hs₀)
  have hlists : s₀.story.listFree = true := by
    rw [hsame]
    exact (Story.listFree_of_decode hread :)
  have hconstants : s₀.story.Constants Value.Canonical := by
    have hliteral := Story.constants_of_decode hread
    rw [hsame]
    exact ⟨(hliteral.mono fun _ hv => hv.canonical).world,
      (hliteral.mono fun _ hv => hv.canonical).elements⟩
  have hsince := since_of_start hs₀
  intro s hs
  rcases List.mem_cons.mp hs with rfl | hs
  · exact ⟨hof.serves ho, hsince.canonical (isomorphic_of_start hs₀).bound, hkept⟩
  · obtain ⟨x, hx, rfl⟩ := List.mem_map.mp hs
    obtain ⟨hof', hstory, hsame'⟩ :=
      forall_mem_play (Q := fun s => s.Of story ∧ s.story = s₀.story ∧ s.Isomorphic s)
        (fun s r h x hx => ⟨.answered h.1 r hx, (s.answer_story r x hx).trans h.2.1,
          isomorphic_of_answer (h.2.1 ▸ hlists) h.2.2 r x hx⟩)
        requests ⟨hof, rfl, isomorphic_of_start hs₀⟩ x hx
    have hcanonical := (playGuarded_canonical hlists hconstants Guard.canonicalOnly_spares
      requests s₀ rfl hsince).2 x hx
    have hwellKept := (playGuarded_upkeep ho₀ (Guard.alarm_spares s₀.story) requests s₀ rfl
      hkept).2 x hx
    exact ⟨hof'.serves ho, hcanonical.canonical hsame'.bound, hstory ▸ hwellKept⟩

/-- The session with the digest that its story would have if it had been built. A file may be written
in another way than the story in it would be, so that the digests differ, but variables and ownership
are saved and read without a look at the digest. -/
def plain (s : Session) : Session :=
  { s with story := { s.story with knownDigest := none }, digest := Digest.of s.story.payload }

theorem Serves.plain {story : Story} (ho : Story.Orderly { story with knownDigest := none })
    (hlists : story.listFree = true) {s : Session} (h : s.Serves story) :
    s.plain.story = { story with knownDigest := none } ∧ s.plain.Plays := by
  have hstory : s.plain.story = { story with knownDigest := none } := by
    show ({ s.story with knownDigest := none } : Story) = _
    rw [story_of_digest h.digest]
  have hpayload : s.plain.digest = Digest.of s.plain.story.payload := rfl
  refine ⟨hstory, ⟨?_, ?_, fun identity => ?_⟩⟩
  · rw [hpayload, hstory]
    exact Story.digest_eq ho hlists
  · exact Digest.length_of _
  · rw [hstory]
    exact h.cast identity

/-- The digest of a story from a file is the one of its payload there. -/
theorem Serves.digest_size {bytes : Bytes} {story : Story}
    (hread : Story.decode bytes = .ok story) {s : Session} (h : s.Serves story) :
    s.digest.length = Digest.size := by
  obtain ⟨payload, hknown⟩ := Story.knownDigest_of_decode hread
  have hdigest := h.digest
  rw [Story.digest, hknown] at hdigest
  rw [← Except.ok.inj (congrArg Prod.fst hdigest)]
  exact Digest.length_of payload

theorem length_savedVariables_le (s : Session) : s.savedVariables.length ≤ s.save.length := by
  simp only [save, List.length_append]
  omega

section Loading

variable {bytes : Bytes} {story : Story} (hread : Story.decode bytes = .ok story)
  {s d : Session} (hs : s.Played story) (hd : d.Serves story)

include hs hd

theorem digest_eq_of_serves : d.digest = s.digest :=
  Except.ok.inj (congrArg Prod.fst (hd.digest.symm.trans hs.digest))

include hread

theorem plain_plays : s.plain.story.Placed ∧ s.plain.Plays ∧ d.plain.Plays ∧
    d.plain.story = s.plain.story := by
  have ho : Story.Orderly { story with knownDigest := none } :=
    (Story.Made.decoded hread).sound.orderly
  have hlists := Story.listFree_of_decode hread
  obtain ⟨hstory, hplays⟩ := hs.plain ho hlists
  obtain ⟨hstory', hplays'⟩ := hd.plain ho hlists
  exact ⟨hstory ▸ ho.toPlaced, hplays, hplays', hstory'.trans hstory.symm⟩

theorem accepts_of_nesting_le (hn : s.nesting ≤ maxNesting)
    (hsize : s.save.length < 0x10000000000000000) :
    ∃ d', d.load s.save = .ok d' ∧ s.state.Isomorphic d'.state ∧
      d'.state.ownership = s.state.ownership := by
  obtain ⟨ho, hc, hd', hsame⟩ := plain_plays hread hs hd
  have hlive : s.state.ownership.AmongLive d.state :=
    Ownership.amongLive_iff.mpr ((Ownership.amongLive_iff.mp hs.wellKept.among).mono fun e he =>
      hd.casts_iff.mpr (hs.casts_iff.mp he))
  obtain ⟨sections, known, b, ht, hg, hr⟩ := takes_sections ho hc hd' hsame hs.canonical hn
    (s.length_savedVariables_le.trans_lt hsize)
  have hownership := Reader.takes_ownership hd' (hsame ▸ ho) hs.wellKept.coherent hlive
  have hsave := takes_save (hs.digest_size hread) (digest_eq_of_serves hs hd) ht hownership
  have halike := contexts_alike ho hc hd' hsame hr
  rw [load, hsave.complete hsize]
  exact ⟨_, rfl, ⟨_, State.Mirrors.correspond ⟨mirrors_linked hg, halike⟩⟩, rfl⟩

theorem refuses_of_lt_nesting (hn : maxNesting < s.nesting)
    (hsize : s.save.length < 0x10000000000000000) : d.load s.save = .error .nestingTooDeep := by
  obtain ⟨ho, hc, hd', hsame⟩ := plain_plays hread hs hd
  have ht := refuses_sections ho hc hd' hsame hs.canonical hn
    (s.length_savedVariables_le.trans_lt hsize)
  have hsave := refuses_save (hs.digest_size hread) (digest_eq_of_serves hs hd) ht
  rw [load, hsave.complete hsize]

end Loading

/-- Whatever was asked of a session of a story from a file, its saved state is accepted by all
sessions of the story, and nothing is lost, as long as no more than `maxNesting` lists that are met
for the first time stand inside one another where it is saved. Otherwise all of them refuse it. -/
theorem load_played {bytes : Bytes} {story : Story} (hread : Story.decode bytes = .ok story)
    {heap : Heap} {seed : UInt64} {s₀ : Session} (hs₀ : start heap story seed = .ok s₀)
    (requests : List Request) {s : Session} (hs : s ∈ s₀ :: (s₀.play requests).map Prod.snd)
    (hsize : s.save.length < 0x10000000000000000) {d : Session} (hd : d.Of story) :
    (s.nesting ≤ maxNesting → ∃ d', d.load s.save = .ok d' ∧ s.state.Isomorphic d'.state ∧
      d'.state.ownership = s.state.ownership) ∧
    (maxNesting < s.nesting → d.load s.save = .error .nestingTooDeep) := by
  have hplayed := played hread hs₀ requests s hs
  have hserves := hd.serves (Story.Made.decoded hread).sound.orderly
  exact ⟨fun hn => accepts_of_nesting_le hread hplayed hserves hn hsize,
    fun hn => refuses_of_lt_nesting hread hplayed hserves hn hsize⟩

end Session

namespace Sample

/-- The cellar where looking makes an empty list and puts it into a new list, and that into another
one, `n` times. -/
def boxes (n : Nat) : Story :=
  onLook cellarStory .empty
    (Build.plain (.stack .pushNewList) ++
      (List.replicate n (Build.push (.integer 1) ++ Build.plain (.stack .pushInitList))).flatten ++
      Build.popValue "boxes")

def boxesFile (n : Nat) : Bytes := Story.file (boxes n).header (boxes n).payload

def boxesRead (n : Nat) : Story :=
  { boxes n with knownDigest := some (Digest.of (boxes n).payload) }

theorem decode_boxesFile {n : Nat}
    (hordered : (boxes n).world.Ordered ∧ ∀ e ∈ (boxes n).elements.values, e.Ordered)
    (hstorable : (boxes n).Storable) (hlists : (boxes n).listFree = true)
    (hlength : (boxesFile n).length < 0x10000000000000000) :
    Story.decode (boxesFile n) = .ok (boxesRead n) := by
  have hbuilt : (boxes n).Built := cellarStory_built.editWorld (.block .empty (.onAction "look") _)
  rw [boxesFile, Story.decode_file hbuilt.sound hstorable hlists hlength,
    Story.stored_of_ordered hordered.1 hordered.2, boxesRead]

def boxesLists (n : Nat) : List (List Value) := [] :: (List.range n).map fun k => [.list k]

theorem items_eq_getD (heap : Heap) (h : Handle) :
    heap.items h = (heap.cells.toList.map Array.toList)[h]?.getD [] := by
  rw [Heap.items, Heap.cell, List.getElem?_map, Array.getElem?_toList]
  cases heap.cells[h]? <;> rfl

section BoxesLists

variable {n : Nat} {heap : Heap} (h : heap.cells.toList.map Array.toList = boxesLists n)

include h

theorem items_of_boxesLists_zero : heap.items 0 = [] := by
  rw [items_eq_getD, h]
  rfl

theorem items_of_boxesLists_succ {k : Nat} (hk : k < n) : heap.items (k + 1) = [.list k] := by
  rw [items_eq_getD, h]
  simp [boxesLists, hk]

theorem size_of_boxesLists : heap.size = n + 1 := by
  have hlength := congrArg List.length h
  simpa [boxesLists, Heap.size] using hlength

omit h in
theorem unmet_insert {known : ListNumbers} {k : Nat} (hk : ∀ j ≤ k + 1, known[j]? = none) :
    ∀ j ≤ k, (known.insert (k + 1) known.size)[j]? = none := by
  intro j hj
  rw [Std.ExtTreeMap.getElem?_insert, if_neg (by simp; omega)]
  exact hk j (by omega)

theorem nesting_boxes (k : Nat) : ∀ (levels : Nat) (known : ListNumbers), k ≤ n → k < levels →
    (∀ j ≤ k, known[j]? = none) → (Bytes.nesting heap levels (.list k) known).1 = k + 1 := by
  induction k with
  | zero =>
    intro levels known _ hl hk
    obtain ⟨levels, rfl⟩ : ∃ l, levels = l + 1 := ⟨levels - 1, by omega⟩
    simp only [Bytes.nesting, hk 0 le_rfl, items_of_boxesLists_zero h, Bytes.deepest]
  | succ k ih =>
    intro levels known hn hl hk
    obtain ⟨levels, rfl⟩ : ∃ l, levels = l + 1 := ⟨levels - 1, by omega⟩
    have hitem := ih levels _ (by omega) (by omega) (unmet_insert hk)
    simp only [Bytes.nesting, hk (k + 1) le_rfl, items_of_boxesLists_succ h hn, Bytes.deepest,
      hitem, Nat.max_zero]

theorem length_savedValue_boxes (k : Nat) : ∀ (levels : Nat) (known : ListNumbers), k ≤ n →
    k < levels → (∀ j ≤ k, known[j]? = none) →
    (Bytes.savedValue heap levels (.list k) known).1.length ≤ (k + 1) * (known.size + k + 5) := by
  induction k with
  | zero =>
    intro levels known _ hl hk
    obtain ⟨levels, rfl⟩ : ∃ l, levels = l + 1 := ⟨levels - 1, by omega⟩
    have hnumber := Bytes.length_natural_le known.size
    have hcount := Bytes.length_natural_le 0
    simp only [Bytes.savedValue_unmet _ _ (hk 0 le_rfl), items_of_boxesLists_zero h, Bytes.inOrder,
      List.length_append, List.length_cons, List.length_nil]
    omega
  | succ k ih =>
    intro levels known hn hl hk
    obtain ⟨levels, rfl⟩ : ∃ l, levels = l + 1 := ⟨levels - 1, by omega⟩
    have hnumber := Bytes.length_natural_le known.size
    have hcount := Bytes.length_natural_le 1
    have hitem := ih levels _ (by omega) (by omega) (unmet_insert hk)
    rw [size_insert_next (hk (k + 1) le_rfl)] at hitem
    have hbound : (k + 1 + 1) * (known.size + (k + 1) + 5) =
        (k + 1) * (known.size + 1 + k + 5) + (known.size + 1 + k + 5) := by ring
    simp only [Bytes.savedValue_unmet _ _ (hk (k + 1) le_rfl), items_of_boxesLists_succ h hn,
      Bytes.inOrder, List.length_append, List.length_cons, List.length_nil, Nat.zero_add]
    omega

end BoxesLists

/-- What is saved of a session: its lists, the variables of the world, how deep lists stand in those
of the other elements, and the number of bytes besides the variables of the world. -/
structure Summary where
  lists : List (List Value)
  world : List (String × Value)
  depth : Nat
  bytes : Nat
deriving DecidableEq

def summary (s : Session) : Option Summary :=
  match s.state.context s.story worldIdentity with
  | .error _ => none
  | .ok c =>
    let known := (Bytes.savedContext s.state.heap c ∅).2
    let others := Bytes.inOrder (Bytes.savedKind s.state s.story) Story.fileKinds known
    some {
      lists := s.state.heap.cells.toList.map Array.toList
      world := c.bindings.toList
      depth := (Bytes.deepest (Bytes.nestingKind s.state s.story) Story.fileKinds known).1
      bytes := s.digest.length + others.1.length + (Bytes.ownership s.state.ownership).length }

/-- With many lists inside one another the summary is computed much faster than the saved state. -/
theorem saved_of_summary {s : Session} {n m : Nat} (hn : n ≤ 1000) (hm : m ≤ 1000)
    (h : summary s = some ⟨boxesLists n, [("boxes", .list n)], 0, m⟩) :
    s.nesting = n + 1 ∧ s.save.length < 0x10000000000000000 := by
  unfold summary at h
  split at h
  · cases h
  · rename_i c hc
    obtain ⟨hlists, hworld, hdepth, hlength⟩ := Summary.mk.inj (Option.some.inj h)
    have hlevels : n < s.state.heap.size + 1 := by
      rw [size_of_boxesLists hlists]
      omega
    have hunmet : ∀ j ≤ n, (∅ : ListNumbers)[j]? = none := fun j _ => Std.ExtTreeMap.getElem?_empty
    constructor
    · have hnested := nesting_boxes hlists n _ ∅ le_rfl hlevels hunmet
      simp only [Session.nesting, Bytes.nestingElement, ElementRef.world, hc,
        Bytes.nestingContext_snd, hdepth, Nat.max_zero]
      simp only [Bytes.nestingContext, hworld, Bytes.deepest, hnested, Nat.max_zero]
    · have hsize : c.bindings.size = 1 := by
        rw [← Std.ExtTreeMap.length_toList, hworld]
        rfl
      have hvalue := length_savedValue_boxes hlists n _ ∅ le_rfl hlevels hunmet
      have hbound : (n + 1) * ((∅ : ListNumbers).size + n + 5) ≤ 1001 * 1005 :=
        Nat.mul_le_mul (by omega) (by simp; omega)
      have hname : (Bytes.natural 1).length + (Bytes.text "boxes").length = 7 := by decide +kernel
      have hvariables : (Bytes.savedContext s.state.heap c ∅).1.length ≤ 7 + 1001 * 1005 := by
        simp only [Bytes.savedContext, hsize, hworld, Bytes.inOrder, Bytes.savedVariable,
          List.length_append, List.length_nil]
        omega
      have hmagic : Session.saveMagic.length = 4 := by decide +kernel
      simp only [Session.save, Session.savedVariables, hc, List.length_append, hmagic,
        List.length_singleton]
      omega

theorem play_boxes {n m : Nat} (hn : n ≤ 1000) (hm : m ≤ 1000)
    (h : (Session.start .empty (boxesRead n) seed).toOption.bind (fun s =>
        (s.play [.setUp {}, look]).getLast?.bind fun x => summary x.2) =
      some ⟨boxesLists n, [("boxes", .list n)], 0, m⟩) :
    ∃ s₀ s, Session.start .empty (boxesRead n) seed = .ok s₀ ∧
      s ∈ s₀ :: (s₀.play [.setUp {}, look]).map Prod.snd ∧ s.nesting = n + 1 ∧
      s.save.length < 0x10000000000000000 := by
  cases hs₀ : Session.start .empty (boxesRead n) seed with
  | error e =>
    rw [hs₀] at h
    cases h
  | ok s₀ =>
    rw [hs₀] at h
    have hlast : (s₀.play [.setUp {}, look]).getLast?.bind (fun x => summary x.2) =
        some ⟨boxesLists n, [("boxes", .list n)], 0, m⟩ := h
    obtain ⟨x, hx, hsummary⟩ := Option.bind_eq_some_iff.mp hlast
    have hplayed : x.2 ∈ (s₀.play [.setUp {}, look]).map Prod.snd :=
      List.mem_map_of_mem (List.mem_of_getLast? hx)
    exact ⟨s₀, x.2, rfl, List.mem_cons_of_mem _ hplayed, saved_of_summary hn hm hsummary⟩

/-- Lists as deep as they may be are loaded into a new session. -/
theorem load_boxes : ∃ s₀ s d', Story.decode (boxesFile 255) = .ok (boxesRead 255) ∧
    Session.start .empty (boxesRead 255) seed = .ok s₀ ∧
    s ∈ s₀ :: (s₀.play [.setUp {}, look]).map Prod.snd ∧ s.nesting = maxNesting ∧
    s₀.load s.save = .ok d' ∧ s.state.Isomorphic d'.state := by
  have hlength : (boxesFile 255).length < 0x10000000000000000 := by
    simp only [boxesFile, Story.file, Story.payload, List.length_append, Digest.length_of,
      Element.length_elementBody (boxes 255).world]
    decide +kernel
  have hread := decode_boxesFile (by decide +kernel) (by decide +kernel) (by decide +kernel) hlength
  obtain ⟨s₀, s, hs₀, hs, hdepth, hsize⟩ := play_boxes (n := 255) (m := 78) (by decide) (by decide)
    (by decide +kernel)
  obtain ⟨d', hload, hsame, -⟩ := (Session.load_played hread hs₀ [.setUp {}, look] hs hsize
    (.started hs₀)).1 hdepth.le
  exact ⟨s₀, s, d', hread, hs₀, hs, hdepth, hload, hsame⟩

/-- With one more list, what the session saves cannot be loaded, not even by itself. -/
theorem boxes_refused : ∃ s₀ s, Story.decode (boxesFile 256) = .ok (boxesRead 256) ∧
    Session.start .empty (boxesRead 256) seed = .ok s₀ ∧
    s ∈ s₀ :: (s₀.play [.setUp {}, look]).map Prod.snd ∧
    s.load s.save = .error .nestingTooDeep := by
  have hlength : (boxesFile 256).length < 0x10000000000000000 := by
    simp only [boxesFile, Story.file, Story.payload, List.length_append, Digest.length_of,
      Element.length_elementBody (boxes 256).world]
    decide +kernel
  have hread := decode_boxesFile (by decide +kernel) (by decide +kernel) (by decide +kernel) hlength
  obtain ⟨s₀, s, hs₀, hs, hdepth, hsize⟩ := play_boxes (n := 256) (m := 78) (by decide) (by decide)
    (by decide +kernel)
  have hplayed := Session.played hread hs₀ [.setUp {}, look] s hs
  exact ⟨s₀, s, hread, hs₀, hs, Session.refuses_of_lt_nesting hread hplayed hplayed.toServes
    (hdepth ▸ by decide) hsize⟩

end Sample

end Fabula
