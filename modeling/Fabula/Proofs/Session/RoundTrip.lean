import Fabula.Proofs.Ownership
import Fabula.Proofs.Session.Cast
import Fabula.Proofs.Session.Restoring

/-! Loading a saved state gives the state back. The variables of all live elements are read in the
order in which they were written, world first, with one table of lists for all of them, so that
lists shared between elements stay shared. Lists that the variables do not reach are not saved. -/

namespace Fabula

namespace Bytes

def nestingContext (heap : Heap) (c : Context) (known : ListNumbers) : Nat × ListNumbers :=
  deepest (fun item known => nesting heap (heap.size + 1) item.2 known) c.bindings.toList known

def nestingElement (st : State) (story : Story) (e : ElementRef) (known : ListNumbers) :
    Nat × ListNumbers :=
  match st.context story e.identity with
  | .ok c => nestingContext st.heap c known
  | .error _ => (0, known)

def nestingKind (st : State) (story : Story) (kind : ElementKind) (known : ListNumbers) :
    Nat × ListNumbers :=
  deepest (nestingElement st story) (st.live kind) known

theorem nestingContext_snd (heap : Heap) (c : Context) (known : ListNumbers) :
    (nestingContext heap c known).2 = (savedContext heap c known).2 := by
  have h : ∀ (item : String × Value) (known : ListNumbers),
      (nesting heap (heap.size + 1) item.2 known).2 = (savedVariable heap item known).2 :=
    fun item known => nesting_snd heap (heap.size + 1) item.2 known
  exact deepest_snd h c.bindings.toList known

theorem nestingElement_snd (st : State) (story : Story) (e : ElementRef) (known : ListNumbers) :
    (nestingElement st story e known).2 = (savedElement st story e known).2 := by
  unfold nestingElement savedElement
  cases st.context story e.identity with
  | ok c => exact nestingContext_snd st.heap c known
  | error => rfl

theorem nestingKind_snd (st : State) (story : Story) (kind : ElementKind) (known : ListNumbers) :
    (nestingKind st story kind known).2 = (savedKind st story kind known).2 :=
  deepest_snd (nestingElement_snd st story) (st.live kind) known

theorem size_savedVariable_le (heap : Heap) (item : String × Value) (known : ListNumbers) :
    (savedVariable heap item known).2.size ≤
      known.size + (savedVariable heap item known).1.length := by
  have h := size_savedValue_le heap (heap.size + 1) item.2 known
  simp only [savedVariable, List.length_append]
  omega

theorem size_savedContext_le (heap : Heap) (c : Context) (known : ListNumbers) :
    (savedContext heap c known).2.size ≤ known.size + (savedContext heap c known).1.length := by
  have h := size_inOrder_le (size_savedVariable_le heap) c.bindings.toList known
  simp only [savedContext, List.length_append]
  omega

theorem size_savedElement_le (st : State) (story : Story) (e : ElementRef) (known : ListNumbers) :
    (savedElement st story e known).2.size ≤
      known.size + (savedElement st story e known).1.length := by
  unfold savedElement
  cases st.context story e.identity with
  | ok c =>
    have h := size_savedContext_le st.heap c known
    simp only [List.length_append]
    omega
  | error => simp

theorem size_savedKind_le (st : State) (story : Story) (kind : ElementKind)
    (known : ListNumbers) :
    (savedKind st story kind known).2.size ≤
      known.size + (savedKind st story kind known).1.length := by
  have h := size_inOrder_le (size_savedElement_le st story) (st.live kind) known
  simp only [savedKind, List.length_append]
  omega

end Bytes

/-- How deep lists met for the first time stand inside one another where the session is saved. -/
def Session.nesting (s : Session) : Nat :=
  let world := Bytes.nestingElement s.state s.story .world ∅
  max world.1 (Bytes.deepest (Bytes.nestingKind s.state s.story) Story.fileKinds world.2).1

/-- All values that the variables reach are canonical, and all lists are in the heap. -/
structure State.Canonical (st : State) : Prop where
  bound : ∀ {identity name : String} {c : Context} {v : Value},
    st.contexts[identity]? = some c → c.bindings[name]? = some v → v.Canonical
  lists : ∀ {h : Handle}, st.Reaches h → h < st.heap.size ∧ ∀ v ∈ st.heap.items h, v.Canonical

theorem State.Canonical.soundOn {st : State} (h : st.Canonical) : st.heap.SoundOn st.Reaches := by
  intro a ha
  refine ⟨(h.lists ha).1, fun v hv => ⟨(h.lists ha).2 v hv, ?_⟩⟩
  rintro k rfl
  exact .inside ha hv

theorem State.Canonical.sound {st : State} (h : st.Canonical) {identity name : String}
    {c : Context} {v : Value} (hc : st.contexts[identity]? = some c)
    (hv : c.bindings[name]? = some v) : v.Sound st.Reaches := by
  refine ⟨h.bound hc hv, ?_⟩
  rintro k rfl
  exact .held hc hv

theorem matched_empty (heap target : Heap) : Matched heap ∅ ⟨target, ∅⟩ := by
  constructor <;> simp

theorem readsBack_variable {heap : Heap} {P : Handle → Prop} (hP : heap.SoundOn P) {name : String}
    {v : Value} (hv : v.Sound P) {known : ListNumbers} {b : Rebuilt} (hm : Matched heap known b)
    (hn : (Bytes.nesting heap (heap.size + 1) v known).1 ≤ maxNesting)
    (hb : known.size + (Bytes.savedVariable heap (name, v) known).1.length < 0x10000000000000000)
    {before found : Table Value}
    (hd : TablesAlike (Value.Alike (Linked known b)) before found) :
    ReadsBack heap known b (Bytes.savedVariable heap (name, v) known)
      (Reader.savedVariable (found, b))
      fun R found => TablesAlike (Value.Alike R) (before.insert name v) found := by
  simp only [Bytes.savedVariable, List.length_append] at hb
  obtain ⟨w, b', ht, hg, hw⟩ :=
    readsBack_savedValue hP (heap.size + 1) maxNesting hm (by omega) hv hn (by omega)
  refine ⟨found.insert name w, b', ?_, hg, ?_⟩
  · exact (Reader.takes_text name).bind (ht.map fun p => (found.insert name p.1, p.2))
  · exact (hd.mono fun _ _ ha => hg.alike ha).insert hw name

theorem readsBack_context {heap : Heap} {P : Handle → Prop} (hP : heap.SoundOn P) {c : Context}
    (hc : ∀ {name : String} {v : Value}, c.bindings[name]? = some v → v.Sound P)
    {known : ListNumbers} {b : Rebuilt} (hm : Matched heap known b)
    (hn : (Bytes.nestingContext heap c known).1 ≤ maxNesting)
    (hb : known.size + (Bytes.savedContext heap c known).1.length < 0x10000000000000000) :
    ReadsBack heap known b (Bytes.savedContext heap c known) (Reader.savedVariables b)
      fun R bindings => TablesAlike (Value.Alike R) c.bindings bindings := by
  simp only [Bytes.savedContext, List.length_append] at hb
  rw [Bytes.savedContext, ← Std.ExtTreeMap.length_toList]
  refine ReadsBack.counted (fun item known => by simp [Bytes.savedVariable, Bytes.text_ne_nil]) ?_
  have hloop := readsBack_inOrder 0 maxNesting c.bindings.toList (Bytes.savedVariable heap)
    (fun found _ => Reader.savedVariable found)
    (fun R before found => TablesAlike (Value.Alike R)
      (before.foldl (fun t item => t.insert item.1 item.2) ∅) found)
    (fun item known => Bytes.nesting_snd heap (heap.size + 1) item.2 known)
    (Bytes.size_savedVariable_le heap) ?_ c.bindings.toList [] ∅ known b rfl hm (Nat.zero_le _) hn
    (by omega) (fun key => by simp)
  · simpa only [foldl_insert_toList] using hloop
  · intro before item after found known₁ b₁ hall hm₁ _ hn₁ hb₁ hd₁
    have hitem : c.bindings[item.1]? = some item.2 := by
      rw [← Std.ExtTreeMap.mem_toList_iff_getElem?_eq_some, hall]
      simp
    simp only [List.foldl_append, List.foldl_cons, List.foldl_nil]
    exact readsBack_variable hP (hc hitem) hm₁ hn₁ hb₁ hd₁

def State.savedOrder (st : State) : List String :=
  worldIdentity :: Story.fileKinds.flatMap fun kind => (st.live kind).map fun e => e.identity

theorem Session.Plays.mem_savedOrder {s : Session} (hs : s.Plays) (ho : s.story.Placed)
    {identity : String} {c : Context} (hc : s.state.contexts[identity]? = some c) :
    identity ∈ s.state.savedOrder := by
  obtain ⟨hi, -, hw⟩ := hs.of_context ho hc
  by_cases hk : c.element.kind = .world
  · rw [hw hk]
    exact List.mem_cons_self
  · refine List.mem_cons_of_mem _ ?_
    refine List.mem_flatMap.mpr ⟨c.element.kind, Story.mem_fileKinds hk, ?_⟩
    exact List.mem_map.mpr ⟨c.element, State.mem_live_iff.mpr ⟨rfl, identity, c, hc, rfl⟩, hi⟩

/-- Sections read so far: all hold what the state holds, and the wanted elements are among them. -/
def State.Restored (st : State) (wanted : List String) (R : Handle → Handle → Prop)
    (sections : Reader.Sections) : Prop :=
  (∀ item ∈ sections, ∃ c, st.contexts[item.1]? = some c ∧
      TablesAlike (Value.Alike R) c.bindings item.2) ∧
    ∀ identity ∈ wanted, ∃ item ∈ sections, item.1 = identity

namespace State.Restored

variable {st : State} {wanted : List String} {R S : Handle → Handle → Prop}
  {sections : Reader.Sections}

theorem mono (h : st.Restored wanted R sections) (hRS : ∀ a b, R a b → S a b) :
    st.Restored wanted S sections := by
  refine ⟨fun item hi => ?_, h.2⟩
  obtain ⟨c, hc, ht⟩ := h.1 item hi
  exact ⟨c, hc, ht.mono fun _ _ hv => hv.mono hRS⟩

theorem cons (h : st.Restored wanted R sections) {identity : String} {c : Context}
    {bindings : Table Value} (hc : st.contexts[identity]? = some c)
    (ht : TablesAlike (Value.Alike R) c.bindings bindings) :
    st.Restored (wanted ++ [identity]) R ((identity, bindings) :: sections) := by
  constructor
  · intro item hi
    rcases List.mem_cons.mp hi with rfl | hi
    · exact ⟨c, hc, ht⟩
    · exact h.1 item hi
  · intro other ho
    rcases List.mem_append.mp ho with ho | ho
    · obtain ⟨item, hi, he⟩ := h.2 other ho
      exact ⟨item, List.mem_cons_of_mem _ hi, he⟩
    · exact ⟨(identity, bindings), List.mem_cons_self, (List.mem_singleton.mp ho).symm⟩

theorem first {identity : String} {c : Context} {bindings : Table Value}
    (hc : st.contexts[identity]? = some c)
    (ht : TablesAlike (Value.Alike R) c.bindings bindings) :
    st.Restored [identity] R [(identity, bindings)] := by
  have hnone : st.Restored [] R [] := by constructor <;> simp
  exact hnone.cons hc ht

end State.Restored

theorem Reader.takes_liveIdentity {s : Session} (hs : s.Plays) (ho : s.story.Placed)
    {e : ElementRef} (he : s.state.Live e) :
    Takes (liveIdentity s e.kind) (Bytes.text e.identity) e.identity := by
  obtain ⟨c, hc, -, rfl⟩ := hs.context_of_live ho he
  rw [← List.append_nil (Bytes.text _)]
  refine (takes_text _).bind ?_
  simp only [hc]
  exact takes_pure _

section Variables

variable {c d : Session} (ho : c.story.Placed) (hc : c.Plays) (hd : d.Plays)
  (hs : d.story = c.story) (hcan : c.state.Canonical)

include hs in
theorem live_of_same_story (hc : c.Plays) (hd : d.Plays) {e : ElementRef}
    (he : c.state.Live e) : d.state.Live e := by
  rw [hd.live_iff, hs]
  exact hc.live_iff.mp he

include ho hc hd hs hcan

theorem readsBack_element {e : ElementRef} (he : c.state.Live e) {wanted : List String}
    {sections : Reader.Sections} {known : ListNumbers} {b : Rebuilt}
    (hm : Matched c.state.heap known b)
    (hn : (Bytes.nestingElement c.state c.story e known).1 ≤ maxNesting)
    (hb : known.size + (Bytes.savedElement c.state c.story e known).1.length <
      0x10000000000000000)
    (hr : c.state.Restored wanted (Linked known b) sections) :
    ReadsBack c.state.heap known b (Bytes.savedElement c.state c.story e known)
      (Reader.savedElement d e.kind (sections, b))
      fun R sections => c.state.Restored (wanted ++ [e.identity]) R sections := by
  obtain ⟨cx, hcx, hget, -⟩ := hc.context_of_live ho he
  simp only [Bytes.nestingElement, hcx] at hn
  simp only [Bytes.savedElement, hcx, List.length_append] at hb ⊢
  obtain ⟨bindings, b', ht, hg, hv⟩ := readsBack_context hcan.soundOn
    (fun hb => hcan.sound hget hb) hm hn (by omega)
  refine ⟨(e.identity, bindings) :: sections, b', ?_, hg, ?_⟩
  · exact (Reader.takes_liveIdentity hd (hs ▸ ho) (live_of_same_story hs hc hd he)).bind
      (ht.map fun p => ((e.identity, p.1) :: sections, p.2))
  · exact (hr.mono fun _ _ hl => hg.linked hl).cons hget hv

theorem readsBack_kind {kind : ElementKind} {wanted : List String} {sections : Reader.Sections}
    {known : ListNumbers} {b : Rebuilt} (hm : Matched c.state.heap known b)
    (hn : (Bytes.nestingKind c.state c.story kind known).1 ≤ maxNesting)
    (hb : known.size + (Bytes.savedKind c.state c.story kind known).1.length <
      0x10000000000000000)
    (hr : c.state.Restored wanted (Linked known b) sections) :
    ReadsBack c.state.heap known b (Bytes.savedKind c.state c.story kind known)
      (Reader.savedKind d kind (sections, b))
      fun R sections => c.state.Restored
        (wanted ++ (c.state.live kind).map fun e => e.identity) R sections := by
  simp only [Bytes.savedKind, List.length_append] at hb ⊢
  refine ReadsBack.counted (fun e known => by simp [Bytes.savedElement, Bytes.text_ne_nil]) ?_
  refine readsBack_inOrder 0 maxNesting (c.state.live kind)
    (Bytes.savedElement c.state c.story) (fun found _ => Reader.savedElement d kind found)
    (fun R before sections =>
      c.state.Restored (wanted ++ before.map fun e => e.identity) R sections)
    (Bytes.nestingElement_snd c.state c.story) (Bytes.size_savedElement_le c.state c.story) ?_
    (c.state.live kind) [] sections known b rfl hm (Nat.zero_le _) hn (by omega) (by simpa using hr)
  intro before e after sections₁ known₁ b₁ hall hm₁ _ hn₁ hb₁ hr₁
  have he : e ∈ c.state.live kind := by rw [hall]; simp
  have hk := (State.mem_live_iff.mp he).1
  have h := readsBack_element ho hc hd hs hcan (hc.live_of_mem ho he) hm₁ hn₁ hb₁ hr₁
  simpa [hk] using h

/-- The variables of all elements are read back, those of the world first. -/
theorem takes_sections (hn : c.nesting ≤ maxNesting)
    (hb : c.savedVariables.length < 0x10000000000000000) :
    ∃ sections known b, (Reader.savedSections d).Takes c.savedVariables (sections, b) ∧
      Grows c.state.heap ∅ ⟨d.state.heap, ∅⟩ known b ∧
      c.state.Restored c.state.savedOrder (Linked known b) sections := by
  obtain ⟨cx, hcx, hget, -⟩ := hc.context_of_live ho hc.world
  simp only [ElementRef.world] at hcx hget
  simp only [Session.nesting, Bytes.nestingElement, ElementRef.world, hcx,
    Bytes.nestingContext_snd] at hn
  simp only [Session.savedVariables, hcx, List.length_append] at hb ⊢
  have hsize := Bytes.size_savedContext_le c.state.heap cx ∅
  have hempty : (∅ : ListNumbers).size = 0 := rfl
  obtain ⟨world, b₁, ht₁, hg₁, hv₁⟩ := readsBack_context hcan.soundOn
    (fun hb => hcan.sound hget hb) (matched_empty c.state.heap d.state.heap)
    (le_of_max_le_left hn) (by omega)
  obtain ⟨sections, b₂, ht₂, hg₂, hr₂⟩ := readsBack_inOrder 0 maxNesting Story.fileKinds
    (Bytes.savedKind c.state c.story) (fun found kind => Reader.savedKind d kind found)
    (fun R before sections => c.state.Restored (worldIdentity ::
      before.flatMap fun kind => (c.state.live kind).map fun e => e.identity) R sections)
    (Bytes.nestingKind_snd c.state c.story) (Bytes.size_savedKind_le c.state c.story)
    (by
      intro before kind after sections known b _ hm _ hn hb hr
      have h := readsBack_kind ho hc hd hs hcan hm hn hb hr
      simpa using h)
    Story.fileKinds [] _ _ b₁ rfl hg₁.matched (Nat.zero_le _) (le_of_max_le_right hn) (by omega)
    (.first hget hv₁)
  exact ⟨sections, _, b₂, ht₁.bind ht₂, hg₁.trans hg₂, hr₂⟩

end Variables

namespace State

theorem getElem?_installSection (t : Table Context) (identity : String) (bindings : Table Value)
    (key : String) :
    (installSection t identity bindings)[key]? =
      if identity = key then t[key]?.map fun c => { c with bindings := bindings } else t[key]? := by
  unfold installSection
  by_cases hk : identity = key
  · subst hk
    cases ht : t[identity]? with
    | none => simp [ht]
    | some c => simp
  · cases t[identity]? with
    | none => simp [hk]
    | some c => simp [Std.ExtTreeMap.getElem?_insert, hk]

/-- Installed sections change variables only, and the first section of an element counts. -/
theorem getElem?_foldr_installSection (sections : Reader.Sections) (t : Table Context)
    (key : String) :
    (sections.foldr (fun item t => installSection t item.1 item.2) t)[key]? =
      t[key]?.map fun c =>
        match sections.find? fun item => item.1 = key with
        | none => c
        | some item => { c with bindings := item.2 } := by
  induction sections with
  | nil => simp
  | cons item sections ih =>
    rw [List.foldr_cons, getElem?_installSection, ih, List.find?_cons]
    by_cases hk : item.1 = key
    · simp only [hk, if_true, decide_true, Option.map_map]
      congr 1
      funext c
      simp only [Function.comp]
      split <;> rfl
    · simp [hk]

end State

namespace Ownership

structure AmongLive (m : Ownership) (st : State) : Prop where
  names : ∀ {object : String}, object ∈ m.names → st.Live ⟨.object, object⟩
  tags : ∀ {object : String}, object ∈ m.tags → st.Live ⟨.object, object⟩
  objects : ∀ {object : String} {holder : ElementRef}, m.owner[object]? = some holder →
    st.Live ⟨.object, object⟩
  holders : ∀ {object : String} {holder : ElementRef}, m.owner[object]? = some holder →
    holder.kind.holdsObjects ∧ st.Live holder
  players : ∀ {player : String} {rooms : List String}, m.rooms[player]? = some rooms →
    st.Live ⟨.player, player⟩
  rooms : ∀ {player : String} {rooms : List String}, m.rooms[player]? = some rooms →
    ∀ room ∈ rooms, st.Live ⟨.room, room⟩
  player : ∀ {player : String}, m.player = some player → st.Live ⟨.player, player⟩

end Ownership

namespace Reader

variable {d : Session} (hd : d.Plays) (ho : d.story.Placed)

include hd ho

theorem takes_describedObject {m n : Ownership} {object : String}
    (h : d.state.Live ⟨.object, object⟩) :
    Takes (describedObject d n)
      (Bytes.text object ++ Bytes.words (WordTable.get m.names object) ++
        Bytes.words (WordTable.get m.tags object))
      ((WordTable.get m.tags object).toList.foldl (fun n tag => n.addTag object tag)
        ((WordTable.get m.names object).toList.foldl (fun n name => n.addName object name) n)) := by
  rw [List.append_assoc]
  exact (takes_liveIdentity hd ho h).bind ((takes_eachText _ n _).bind (takes_eachText _ _ _))

theorem takes_ownedObject {n : Ownership} {object : String} {holder : ElementRef}
    (h : d.state.Live ⟨.object, object⟩) (hh : holder.kind.holdsObjects)
    (hl : d.state.Live holder) :
    Takes (ownedObject d n)
      (Bytes.text object ++ [holder.kind.tag] ++ Bytes.text holder.identity)
      (n.addObject holder object) := by
  have hk : ((ElementKind.ofTag? holder.kind.tag).filter fun kind => kind.holdsObjects) =
      some holder.kind := by simp [hh]
  rw [List.append_assoc]
  refine (takes_liveIdentity hd ho h).bind ((Takes.tagged hk).bind ?_)
  have hf : ElementRef.of holder.kind holder.identity = holder := by
    obtain ⟨c, hc, -⟩ := hl
    rw [ElementRef.of, (hd.of_context ho hc).2.1]
  have ht := (takes_liveIdentity hd ho hl).map fun identity =>
    n.addObject (.of holder.kind identity) object
  rwa [hf] at ht

theorem takes_roomStack {n : Ownership} {player : String} {rooms : List String}
    (h : d.state.Live ⟨.player, player⟩) (hr : ∀ room ∈ rooms, d.state.Live ⟨.room, room⟩) :
    Takes (roomStack d n) (Bytes.text player ++ Bytes.texts rooms.reverse)
      (rooms.reverse.foldl (fun n room => n.pushRoom player room) n) := by
  refine (takes_liveIdentity hd ho h).bind
    (takes_counted (fun room _ => Bytes.text_ne_nil room) fun before room after hall => ?_)
  have hroom : room ∈ rooms := by
    rw [← List.mem_reverse, hall]
    simp
  exact (takes_liveIdentity hd ho (hr room hroom)).map fun room =>
    (before.foldl (fun n room => n.pushRoom player room) n).pushRoom player room

theorem takes_descriptions {m : Ownership} (hm : m.Coherent) (hl : m.AmongLive d.state) :
    Takes (counted (describedObject d) .empty)
      (Bytes.counted (fun object =>
        Bytes.text object ++ Bytes.words (WordTable.get m.names object) ++
          Bytes.words (WordTable.get m.tags object)) (Bytes.describedObjects m))
      { names := m.names, tags := m.tags } := by
  have hmem : ∀ object, object ∈ Bytes.describedObjects m ↔
      object ∈ m.names ∨ object ∈ m.tags := by
    intro object
    simp [Bytes.describedObjects, ← Std.ExtTreeSet.insertMany_list_eq_foldl]
  rw [← Ownership.foldl_describe hm (fun object h => (hmem object).mpr (.inl h))
    fun object h => (hmem object).mpr (.inr h)]
  refine takes_counted (fun object _ => by simp [Bytes.text_ne_nil])
    fun before object after hall => takes_describedObject hd ho ?_
  have hobject : object ∈ Bytes.describedObjects m := by rw [hall]; simp
  rcases (hmem object).mp hobject with h | h
  · exact hl.names h
  · exact hl.tags h

theorem takes_owners {m n : Ownership} (hm : m.Coherent) (hl : m.AmongLive d.state)
    (hn : n.owner = ∅) (hh : n.held = ∅) :
    Takes (counted (ownedObject d) n)
      (Bytes.counted (fun item => Bytes.text item.1 ++ [item.2.kind.tag] ++
        Bytes.text item.2.identity) m.owner.toList)
      { n with owner := m.owner, held := m.held } := by
  rw [← Ownership.foldl_addObject_owner hm.toInverse hn hh]
  refine takes_counted (fun item _ => by simp [Bytes.text_ne_nil]) fun before item after hall => ?_
  have hitem : m.owner[item.1]? = some item.2 := by
    rw [← Std.ExtTreeMap.mem_toList_iff_getElem?_eq_some, hall]
    simp
  exact takes_ownedObject hd ho (hl.objects hitem) (hl.holders hitem).1 (hl.holders hitem).2

theorem takes_rooms {m n : Ownership} (hm : m.Coherent) (hl : m.AmongLive d.state)
    (hn : n.rooms = ∅) :
    Takes (counted (roomStack d) n)
      (Bytes.counted (fun item => Bytes.text item.1 ++ Bytes.texts item.2.reverse) m.rooms.toList)
      { n with rooms := m.rooms } := by
  have hentry : ∀ item ∈ m.rooms.toList, m.rooms[item.1]? = some item.2 := fun item hi =>
    Std.ExtTreeMap.mem_toList_iff_getElem?_eq_some.mp hi
  have hf := Ownership.foldl_pushRoom_rooms m.rooms.toList n
    (fun item hi he => hm.rooms_nonempty item.1 (he ▸ hentry item hi))
    (fun item _ => by simp [Ownership.roomsOf, hn])
    (Std.ExtTreeMap.distinct_keys_toList.imp fun h he => h (Std.compare_eq_iff_eq.mpr he))
  rw [hn, foldl_insert_toList] at hf
  rw [← hf]
  refine takes_counted (fun item _ => by simp [Bytes.text_ne_nil]) fun before item after hall => ?_
  have hitem := hentry item (by rw [hall]; simp)
  exact takes_roomStack hd ho (hl.players hitem) (hl.rooms hitem)

theorem takes_player {m n : Ownership} (hl : m.AmongLive d.state) (hn : n.player = none) :
    Takes (do if ← flag then return n.setPlayer (some (← liveIdentity d .player)) else return n)
      (Bytes.player m.player) { n with player := m.player } := by
  cases hp : m.player with
  | none =>
    have hsame : { n with player := none } = n := by rw [← hn]
    rw [hsame, Bytes.player, ← List.append_nil (Bytes.flag false)]
    exact (takes_flag false).bind (takes_pure n)
  | some player =>
    exact (takes_flag true).bind ((takes_liveIdentity hd ho (hl.player hp)).map fun player =>
      n.setPlayer (some player))

/-- Ownership that names live elements only is read back as it is. -/
theorem takes_ownership {m : Ownership} (hm : m.Coherent) (hl : m.AmongLive d.state) :
    Takes (ownership d) (Bytes.ownership m) m := by
  rw [Bytes.ownership, List.append_assoc (Bytes.counted _ _ ++ Bytes.counted _ _),
    List.append_assoc (Bytes.counted _ _)]
  refine (takes_descriptions hd ho hm hl).bind ?_
  refine (takes_owners hd ho hm hl rfl rfl).bind ?_
  refine (takes_rooms hd ho hm hl rfl).bind ?_
  exact takes_player hd ho hl rfl

end Reader

namespace Session

variable {c d : Session}

theorem takes_save (hsize : c.digest.length = Digest.size) (hdigest : d.digest = c.digest)
    {sections : Reader.Sections} {b : Rebuilt} {m : Ownership}
    (hvariables : (Reader.savedSections d).Takes c.savedVariables (sections, b))
    (hownership : (Reader.ownership d).Takes (Bytes.ownership c.state.ownership) m) :
    (Reader.savedState d).Takes c.save (sections, b.heap, m) := by
  simp only [save, List.append_assoc]
  refine (Reader.takes_magic saveMagic).bind ((Reader.takes_byte saveVersion).bind ?_)
  rw [if_neg (by simp)]
  refine (Reader.takes_digest hsize).bind ?_
  rw [if_neg (by simp [hdigest])]
  exact hvariables.bind (hownership.map fun ownership => (sections, b.heap, ownership))

/-- Reading a saved state gives the sections, the heap and the ownership that were saved. -/
theorem takes_savedState (ho : c.story.Placed) (hc : c.Plays) (hd : d.Plays)
    (hs : d.story = c.story) (hcan : c.state.Canonical) (hm : c.state.ownership.Coherent)
    (hl : c.state.ownership.AmongLive c.state) (hn : c.nesting ≤ maxNesting)
    (hb : c.save.length < 0x10000000000000000) :
    ∃ sections known b, (Reader.savedState d).Takes c.save
        (sections, b.heap, c.state.ownership) ∧
      Grows c.state.heap ∅ ⟨d.state.heap, ∅⟩ known b ∧
      c.state.Restored c.state.savedOrder (Linked known b) sections := by
  have hdigest : d.digest = c.digest := by
    have h := hd.digest
    rw [hs, hc.digest] at h
    exact (Except.ok.inj h).symm
  have hlive : c.state.ownership.AmongLive d.state :=
    { names := fun h => live_of_same_story hs hc hd (hl.names h)
      tags := fun h => live_of_same_story hs hc hd (hl.tags h)
      objects := fun h => live_of_same_story hs hc hd (hl.objects h)
      holders := fun h => ⟨(hl.holders h).1, live_of_same_story hs hc hd (hl.holders h).2⟩
      players := fun h => live_of_same_story hs hc hd (hl.players h)
      rooms := fun h room hr => live_of_same_story hs hc hd (hl.rooms h room hr)
      player := fun h => live_of_same_story hs hc hd (hl.player h) }
  simp only [save, List.length_append] at hb
  obtain ⟨sections, known, b, ht, hg, hr⟩ := takes_sections ho hc hd hs hcan hn (by omega)
  refine ⟨sections, known, b, ?_, hg, hr⟩
  exact takes_save hc.digest_size hdigest ht (Reader.takes_ownership hd (hs ▸ ho) hm hlive)

theorem mirrors_linked {heap target : Heap} {known : ListNumbers} {b : Rebuilt}
    (h : Grows heap ∅ ⟨target, ∅⟩ known b) : heap.Mirrors (Linked known b) b.heap where
  right_unique := by
    rintro a k k' ⟨n, ha, hk⟩ ⟨n', ha', hk'⟩
    obtain rfl : n = n' := Option.some.inj (ha.symm.trans ha')
    exact Option.some.inj (hk.symm.trans hk')
  left_unique := by
    rintro a a' k ⟨n, ha, hk⟩ ⟨n', ha', hk'⟩
    obtain rfl := h.matched.list_unique hk hk'
    exact h.matched.number_unique ha ha'
  inside := by
    rintro a k ⟨n, ha, hk⟩
    exact ⟨(h.matched.inside ha).1, (h.matched.made hk).2⟩
  items hl := h.items_new hl (by simp)

/-- Installed in a session of the same story, the sections give every variable its value again. -/
theorem contexts_alike {R : Handle → Handle → Prop} {sections : Reader.Sections}
    (ho : c.story.Placed) (hc : c.Plays) (hd : d.Plays) (hs : d.story = c.story)
    (hr : c.state.Restored c.state.savedOrder R sections) :
    TablesAlike (Context.Alike R) c.state.contexts
      (sections.foldr (fun item t => State.installSection t item.1 item.2)
        (State.withoutVariables d.state.contexts)) := by
  intro identity
  have hcast := hc.cast identity
  rw [← hs, ← hd.cast identity] at hcast
  rw [State.getElem?_foldr_installSection, State.withoutVariables, Std.ExtTreeMap.getElem?_map]
  cases hcx : c.state.contexts[identity]? with
  | none =>
    rw [hcx, Option.map_none] at hcast
    rw [Option.map_eq_none_iff.mp hcast.symm]
    exact .none
  | some cx =>
    rw [hcx] at hcast
    obtain ⟨dx, hdx, he⟩ := Option.map_eq_some_iff.mp hcast.symm
    have hfound : ∃ item, sections.find? (fun item => item.1 = identity) = some item := by
      obtain ⟨item, hitem, hi⟩ := hr.2 identity (hc.mem_savedOrder ho hcx)
      rw [← Option.isSome_iff_exists, List.find?_isSome]
      exact ⟨item, hitem, by simpa using hi⟩
    obtain ⟨item, hitem⟩ := hfound
    obtain ⟨cx', hcx', hv⟩ := hr.1 item (List.mem_of_find?_eq_some hitem)
    have hi : item.1 = identity := by simpa using List.find?_some hitem
    obtain rfl : cx = cx' := Option.some.inj (hcx.symm.trans (hi ▸ hcx'))
    rw [hdx, hitem]
    exact .some ⟨he.symm, hv⟩

/-- Loading what was saved succeeds in every session of the same story. The variables hold what they
held up to the places of lists, with the same sharing, and the ownership is the same. -/
theorem load_save (ho : c.story.Placed) (hc : c.Plays) (hd : d.Plays)
    (hs : d.story = c.story) (hcan : c.state.Canonical) (hm : c.state.ownership.Coherent)
    (hl : c.state.ownership.AmongLive c.state) (hn : c.nesting ≤ maxNesting)
    (hb : c.save.length < 0x10000000000000000) :
    ∃ d', d.load c.save = .ok d' ∧ c.state.Isomorphic d'.state ∧
      d'.state.ownership = c.state.ownership := by
  obtain ⟨sections, known, b, ht, hg, hr⟩ := takes_savedState ho hc hd hs hcan hm hl hn hb
  rw [load, ht.complete hb]
  exact ⟨_, rfl, ⟨_, State.Mirrors.correspond
    ⟨mirrors_linked hg, contexts_alike ho hc hd hs hr⟩⟩, rfl⟩

end Session

namespace Sample

def knot : Table Value := (∅ : Table Value).insert "knot" (.list 0)

def moves : List Ownership.Change :=
  [.addName "lamp" "light", .addObject ⟨.player, "hero"⟩ "lamp", .pushRoom "hero" "cellar",
    .setPlayer (some "hero")]

/-- The hero holds the lamp, and the world and the lamp share a list that contains itself. -/
def knotted : Session :=
  let s := cellarSession (Heap.empty.alloc [.list 0, .integer 7]).2
  let state := (s.state.putContext "world" ⟨.world, knot⟩).putContext "lamp"
    ⟨⟨.object, "lamp"⟩, knot⟩
  { s with
    state := { state with ownership := moves.foldl (fun m change => change.apply m) .empty } }

theorem knotted_plays : knotted.story.Orderly ∧ knotted.Plays := by
  obtain ⟨ho, hp⟩ := Session.plays_of_start cellarStory_orderly
    (start_cellarStory (Heap.empty.alloc [.list 0, .integer 7]).2)
  have hw := hp.putContext "world" ⟨.world, knot⟩ (by decide +kernel)
  have hl := hw.putContext "lamp" ⟨⟨.object, "lamp"⟩, knot⟩ (by decide +kernel)
  exact ⟨ho, hl.digest, hl.digest_size, hl.cast⟩

theorem knotted_canonical : knotted.state.Canonical := by
  have hbound : ∀ {identity name : String} {c : Context} {v : Value},
      knotted.state.contexts[identity]? = some c → c.bindings[name]? = some v → v = .list 0 := by
    intro identity name c v hc hv
    exact forall_of_toList (fun _ v => v = .list 0)
      (forall_of_toList (fun _ (c : Context) => ∀ item ∈ c.bindings.toList, item.2 = .list 0)
        (by decide +kernel) hc) hv
  have hitems : knotted.state.heap.items 0 = [.list 0, .integer 7] := by decide +kernel
  have hreach : ∀ {h : Handle}, knotted.state.Reaches h → h = 0 := by
    intro h hr
    induction hr with
    | held found bound => exact Value.list.inj (hbound found bound)
    | inside _ item ih =>
      rw [ih, hitems] at item
      simpa using item
  constructor
  · intro identity name c v hc hv
    rw [hbound hc hv]
    decide
  · intro h hr
    rw [hreach hr]
    decide +kernel

theorem knotted_amongLive : knotted.state.ownership.AmongLive knotted.state := by
  have hlive : ∀ {e : ElementRef}, knotted.story.live? e.identity = some e →
      knotted.state.Live e := knotted_plays.2.live_iff.mpr
  have howner : ∀ {object : String} {holder : ElementRef},
      knotted.state.ownership.owner[object]? = some holder →
      knotted.story.live? object = some ⟨.object, object⟩ ∧
        holder.kind.holdsObjects = true ∧ knotted.story.live? holder.identity = some holder :=
    forall_of_toList (fun object (holder : ElementRef) =>
      knotted.story.live? object = some ⟨.object, object⟩ ∧
        holder.kind.holdsObjects = true ∧ knotted.story.live? holder.identity = some holder)
      (by decide +kernel)
  have hrooms : ∀ {player : String} {rooms : List String},
      knotted.state.ownership.rooms[player]? = some rooms →
      knotted.story.live? player = some ⟨.player, player⟩ ∧
        ∀ room ∈ rooms, knotted.story.live? room = some ⟨.room, room⟩ :=
    forall_of_toList (fun player (rooms : List String) =>
      knotted.story.live? player = some ⟨.player, player⟩ ∧
        ∀ room ∈ rooms, knotted.story.live? room = some ⟨.room, room⟩)
      (by decide +kernel)
  constructor
  · intro object h
    obtain ⟨words, hw⟩ := Option.isSome_iff_exists.mp (Std.ExtTreeMap.mem_iff_isSome_getElem?.mp h)
    exact hlive (forall_of_toList
      (fun object _ => knotted.story.live? object = some ⟨.object, object⟩) (by decide +kernel) hw)
  · intro object h
    exact absurd h Std.ExtTreeMap.not_mem_empty
  · exact fun h => hlive (howner h).1
  · exact fun h => ⟨(howner h).2.1, hlive (howner h).2.2⟩
  · exact fun h => hlive (hrooms h).1
  · exact fun h room hr => hlive ((hrooms h).2 room hr)
  · intro player h
    obtain rfl := Option.some.inj h
    exact hlive (by decide +kernel)

theorem load_knotted : ∃ d', (cellarSession .empty).load knotted.save = .ok d' ∧
    knotted.state.Isomorphic d'.state ∧ d'.state.ownership = knotted.state.ownership := by
  obtain ⟨ho, hp⟩ := Session.plays_of_start cellarStory_orderly (start_cellarStory .empty)
  exact Session.load_save knotted_plays.1.toPlaced knotted_plays.2 hp rfl knotted_canonical
    (Ownership.coherent_run moves) knotted_amongLive (by decide +kernel) (by decide +kernel)

end Sample

end Fabula
