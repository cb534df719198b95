import Fabula.Proofs.Bytes.Refuses
import Fabula.Proofs.Session.RoundTrip

/-! Saved states that are refused. Where lists that are met for the first time stand inside one
another deeper than the loader goes, everything before them is taken and then loading fails for that
reason, whatever follows. -/

namespace Fabula

open Reader (Refuses)

/-- Parts written one after another are refused if one of them is too deep: those before it are read
back, and it is refused. -/
theorem refuses_inOrder {σ ι : Type} {heap : Heap} {e : DecodeError} (least most : Nat)
    (all : List ι) (save : ι → ListNumbers → Bytes × ListNumbers)
    {visit : ι → ListNumbers → Nat × ListNumbers}
    (step : σ × Rebuilt → ι → Reader (σ × Rebuilt))
    (Done : (Handle → Handle → Prop) → List ι → σ → Prop)
    (hvisit : ∀ i known, (visit i known).2 = (save i known).2)
    (hsize : ∀ i known, (save i known).2.size ≤ known.size + (save i known).1.length)
    (hstep : ∀ before i after acc known b, all = before ++ i :: after → Matched heap known b →
      least ≤ known.size → known.size + (save i known).1.length < 0x10000000000000000 →
      Done (Linked known b) before acc →
      ((visit i known).1 ≤ most → ReadsBack heap known b (save i known) (step (acc, b) i)
        fun R acc => Done R (before ++ [i]) acc) ∧
      (most < (visit i known).1 → Refuses (step (acc, b) i) (save i known).1 e))
    (after : List ι) : ∀ before acc known b, all = before ++ after → Matched heap known b →
      least ≤ known.size → most < (Bytes.deepest visit after known).1 →
      known.size + (Bytes.inOrder save after known).1.length < 0x10000000000000000 →
      Done (Linked known b) before acc →
      Refuses (after.foldlM step (acc, b)) (Bytes.inOrder save after known).1 e := by
  induction after with
  | nil =>
    intro before acc known b _ _ _ hn
    exact absurd hn (Nat.not_lt_zero _)
  | cons i after ih =>
    intro before acc known b hall hm hl hn hb hd
    have hs := hsize i known
    simp only [Bytes.deepest, hvisit] at hn
    simp only [Bytes.inOrder, List.length_append] at hb
    obtain ⟨hback, hrefused⟩ := hstep before i after acc known b hall hm hl (by omega) hd
    rcases Nat.lt_or_ge most (visit i known).1 with hdeep | hdeep
    · exact ((hrefused hdeep).append _).bind
    · obtain ⟨acc₁, b₁, ht₁, hg₁, hd₁⟩ := hback hdeep
      refine ht₁.refuses (ih (before ++ [i]) acc₁ (save i known).2 b₁ ?_ hg₁.matched
        (hl.trans hg₁.known_le) (by omega) (by omega) hd₁)
      rw [hall, List.append_assoc]
      rfl

/-- A list that is met for the first time is refused with its items, or at once where no more levels
are left. -/
theorem refuses_first {heap : Heap} {known : ListNumbers} {b : Rebuilt} {h : Handle}
    (levels r : Nat) (hm : Matched heap known b) (hn : known[h]? = none)
    (hb : known.size < 0x10000000000000000)
    (hitems : ∀ r', r = r' + 1 → Refuses
      ((heap.items h).foldlM (fun found _ => Reader.savedItem (Reader.savedValue r') found)
        ([], b.make known.size))
      (Bytes.inOrder (Bytes.savedValue heap levels) (heap.items h) (known.insert h known.size)).1
      .nestingTooDeep) :
    Refuses (Reader.savedValue r b) (Bytes.savedValue heap (levels + 1) (.list h) known).1
      .nestingTooDeep := by
  have hnew : b.lists.contains known.size = false := by
    rw [Std.ExtTreeMap.contains_eq_isSome_getElem?]
    cases hk : b.lists[known.size]? with
    | none => rfl
    | some k => exact absurd (hm.made hk).1 (lt_irrefl _)
  rw [Bytes.savedValue_unmet heap levels hn]
  unfold Reader.savedValue
  refine (Reader.Takes.tagged (ValueKind.ofTag?_tag .list)).refuses ?_
  rw [if_neg (by simp)]
  refine (Reader.takes_natural hb).refuses ?_
  have hf : Reader.Takes (Reader.tagged "list reference" fun tag =>
      if tag = 0 then some false else if tag = 1 then some true else none) [1] true :=
    Reader.Takes.tagged rfl
  refine hf.refuses ?_
  cases r with
  | zero => exact (Reader.refuses_fail .nestingTooDeep).append _
  | succ r =>
    simp only [Bool.not_true, Bool.false_eq_true, ↓reduceIte, hnew]
    have hlength := Bytes.length_le_inOrder (Bytes.savedValue_ne_nil heap levels) (heap.items h)
      (known.insert h known.size)
    exact ((hitems r rfl).counted hlength).bind.bind

theorem refuses_savedValue {heap : Heap} {P : Handle → Prop} (hP : heap.SoundOn P)
    (levels : Nat) : ∀ (r : Nat) {v : Value} {known : ListNumbers} {b : Rebuilt},
      Matched heap known b → heap.size + 1 ≤ known.size + levels → v.Sound P →
      r < (Bytes.nesting heap levels v known).1 →
      known.size + (Bytes.savedValue heap levels v known).1.length < 0x10000000000000000 →
      Refuses (Reader.savedValue r b) (Bytes.savedValue heap levels v known).1
        .nestingTooDeep := by
  induction levels with
  | zero =>
    intro r v known b hm hl hv hr _
    cases v with
    | list h =>
      cases hn : known[h]? with
      | some n => simp [Bytes.nesting, hn] at hr
      | none =>
        have hlt := size_lt_of_unmet (fun hk => (hm.inside hk).1) (hP h (hv.2 h rfl)).1 hn
        omega
    | _ => simp [Bytes.nesting] at hr
  | succ levels ih =>
    intro r v known b hm hl hv hr hb
    cases v with
    | list h =>
      cases hn : known[h]? with
      | some n => simp [Bytes.nesting, hn] at hr
      | none =>
        have hh := hP h (hv.2 h rfl)
        have hk := size_insert_next hn
        simp only [Bytes.nesting, hn] at hr
        simp only [Bytes.savedValue, hn, List.length_append, List.length_cons] at hb
        refine refuses_first levels r hm hn (by omega) ?_
        rintro r rfl
        refine refuses_inOrder (known.size + 1) r (heap.items h) (Bytes.savedValue heap levels)
          (fun found _ => Reader.savedItem (Reader.savedValue r) found)
          (fun R before found => List.Forall₂ (Value.Alike R) before found.reverse)
          (Bytes.nesting_snd heap levels) (Bytes.size_savedValue_le heap levels) ?_ (heap.items h)
          [] [] _ _ rfl (hm.meet hh.1 hn) hk.ge (by omega) (by omega) .nil
        intro before i after found known₁ b₁ hall hm₁ hl₁ hb₁ hd₁
        have hi : i ∈ heap.items h := by rw [hall]; simp
        refine ⟨fun hn₁ => ?_, fun hn₁ => ?_⟩
        · exact (readsBack_savedValue hP levels r hm₁ (by omega) (hh.2 i hi) hn₁ hb₁).savedItem hd₁
        · exact (ih r hm₁ (by omega) (hh.2 i hi) hn₁ hb₁).bind
    | _ => simp [Bytes.nesting] at hr

theorem refuses_context {heap : Heap} {P : Handle → Prop} (hP : heap.SoundOn P) {c : Context}
    (hc : ∀ {name : String} {v : Value}, c.bindings[name]? = some v → v.Sound P)
    {known : ListNumbers} {b : Rebuilt} (hm : Matched heap known b)
    (hn : maxNesting < (Bytes.nestingContext heap c known).1)
    (hb : known.size + (Bytes.savedContext heap c known).1.length < 0x10000000000000000) :
    Refuses (Reader.savedVariables b) (Bytes.savedContext heap c known).1 .nestingTooDeep := by
  simp only [Bytes.savedContext, List.length_append] at hb
  simp only [Bytes.savedContext, ← Std.ExtTreeMap.length_toList]
  refine Refuses.counted (Bytes.length_le_inOrder (fun item known => by
    simp [Bytes.savedVariable, Bytes.text_ne_nil]) c.bindings.toList known) ?_
  refine refuses_inOrder 0 maxNesting c.bindings.toList (Bytes.savedVariable heap)
    (fun found _ => Reader.savedVariable found)
    (fun R before found => TablesAlike (Value.Alike R)
      (before.foldl (fun t item => t.insert item.1 item.2) ∅) found)
    (fun item known => Bytes.nesting_snd heap (heap.size + 1) item.2 known)
    (Bytes.size_savedVariable_le heap) ?_ c.bindings.toList [] ∅ known b rfl hm (Nat.zero_le _) hn
    (by omega) (fun key => by simp)
  intro before item after found known₁ b₁ hall hm₁ _ hb₁ hd₁
  have hitem : c.bindings[item.1]? = some item.2 := by
    rw [← Std.ExtTreeMap.mem_toList_iff_getElem?_eq_some, hall]
    simp
  refine ⟨fun hn₁ => ?_, fun hn₁ => ?_⟩
  · simp only [List.foldl_append, List.foldl_cons, List.foldl_nil]
    exact readsBack_variable hP (hc hitem) hm₁ hn₁ hb₁ hd₁
  · simp only [Bytes.savedVariable, List.length_append] at hb₁
    have hvalue := refuses_savedValue hP (heap.size + 1) maxNesting hm₁ (by omega) (hc hitem) hn₁
      (by omega)
    exact (Reader.takes_text item.1).refuses hvalue.bind

section Variables

variable {c d : Session} (ho : c.story.Placed) (hc : c.Plays) (hd : d.Plays)
  (hs : d.story = c.story) (hcan : c.state.Canonical)

include ho hc hd hs hcan

theorem refuses_element {e : ElementRef} (he : c.state.Live e) {sections : Reader.Sections}
    {known : ListNumbers} {b : Rebuilt} (hm : Matched c.state.heap known b)
    (hn : maxNesting < (Bytes.nestingElement c.state c.story e known).1)
    (hb : known.size + (Bytes.savedElement c.state c.story e known).1.length <
      0x10000000000000000) :
    Refuses (Reader.savedElement d e.kind (sections, b))
      (Bytes.savedElement c.state c.story e known).1 .nestingTooDeep := by
  obtain ⟨cx, hcx, hget, -⟩ := hc.context_of_live ho he
  simp only [Bytes.nestingElement, hcx] at hn
  simp only [Bytes.savedElement, hcx, List.length_append] at hb ⊢
  have hidentity := Reader.takes_liveIdentity hd (hs ▸ ho) (live_of_same_story hs hc hd he)
  have hvariables := refuses_context hcan.soundOn (fun hb => hcan.sound hget hb) hm hn (by omega)
  exact hidentity.refuses hvariables.bind

theorem refuses_kind {kind : ElementKind} {wanted : List String} {sections : Reader.Sections}
    {known : ListNumbers} {b : Rebuilt} (hm : Matched c.state.heap known b)
    (hn : maxNesting < (Bytes.nestingKind c.state c.story kind known).1)
    (hb : known.size + (Bytes.savedKind c.state c.story kind known).1.length <
      0x10000000000000000)
    (hr : c.state.Restored wanted (Linked known b) sections) :
    Refuses (Reader.savedKind d kind (sections, b)) (Bytes.savedKind c.state c.story kind known).1
      .nestingTooDeep := by
  simp only [Bytes.savedKind, List.length_append] at hb ⊢
  refine Refuses.counted (Bytes.length_le_inOrder (fun e known => by
    simp [Bytes.savedElement, Bytes.text_ne_nil]) (c.state.live kind) known) ?_
  refine refuses_inOrder 0 maxNesting (c.state.live kind)
    (Bytes.savedElement c.state c.story) (fun found _ => Reader.savedElement d kind found)
    (fun R before sections =>
      c.state.Restored (wanted ++ before.map fun e => e.identity) R sections)
    (Bytes.nestingElement_snd c.state c.story) (Bytes.size_savedElement_le c.state c.story) ?_
    (c.state.live kind) [] sections known b rfl hm (Nat.zero_le _) hn (by omega) (by simpa using hr)
  intro before e after sections₁ known₁ b₁ hall hm₁ _ hb₁ hr₁
  have he : e ∈ c.state.live kind := by rw [hall]; simp
  obtain rfl := (State.mem_live_iff.mp he).1
  have hlive := hc.live_of_mem ho he
  refine ⟨fun hn₁ => ?_, fun hn₁ => refuses_element ho hc hd hs hcan hlive hm₁ hn₁ hb₁⟩
  simpa using readsBack_element ho hc hd hs hcan hlive hm₁ hn₁ hb₁ hr₁

theorem refuses_sections (hn : maxNesting < c.nesting)
    (hb : c.savedVariables.length < 0x10000000000000000) :
    Refuses (Reader.savedSections d) c.savedVariables .nestingTooDeep := by
  obtain ⟨cx, hcx, hget, -⟩ := hc.context_of_live ho hc.world
  simp only [ElementRef.world] at hcx hget
  simp only [Session.nesting, Bytes.nestingElement, ElementRef.world, hcx,
    Bytes.nestingContext_snd] at hn
  simp only [Session.savedVariables, hcx, List.length_append] at hb ⊢
  have hsize := Bytes.size_savedContext_le c.state.heap cx ∅
  have hempty : (∅ : ListNumbers).size = 0 := rfl
  have hmatched := matched_empty c.state.heap d.state.heap
  rcases Nat.lt_or_ge maxNesting (Bytes.nestingContext c.state.heap cx ∅).1 with hdeep | hdeep
  · exact ((refuses_context hcan.soundOn (fun hb => hcan.sound hget hb) hmatched hdeep
      (by omega)).append _).bind
  · obtain ⟨world, b₁, ht₁, hg₁, hv₁⟩ := readsBack_context hcan.soundOn
      (fun hb => hcan.sound hget hb) hmatched hdeep (by omega)
    refine ht₁.refuses (refuses_inOrder 0 maxNesting Story.fileKinds
      (Bytes.savedKind c.state c.story) (fun found kind => Reader.savedKind d kind found)
      (fun R before sections => c.state.Restored (worldIdentity ::
        before.flatMap fun kind => (c.state.live kind).map fun e => e.identity) R sections)
      (Bytes.nestingKind_snd c.state c.story) (Bytes.size_savedKind_le c.state c.story) ?_
      Story.fileKinds [] _ _ b₁ rfl hg₁.matched (Nat.zero_le _) (by omega) (by omega)
      (.first hget hv₁))
    intro before kind after sections known b _ hm _ hb hr
    refine ⟨fun hn => ?_, fun hn => refuses_kind ho hc hd hs hcan hm hn hb hr⟩
    simpa using readsBack_kind ho hc hd hs hcan hm hn hb hr

end Variables

theorem Session.refuses_save {c d : Session} (hsize : c.digest.length = Digest.size)
    (hdigest : d.digest = c.digest) {e : DecodeError}
    (hvariables : Refuses (Reader.savedSections d) c.savedVariables e) :
    Refuses (Reader.savedState d) c.save e := by
  simp only [save, List.append_assoc]
  refine (Reader.takes_magic saveMagic).refuses ((Reader.takes_byte saveVersion).refuses ?_)
  rw [if_neg (by simp)]
  refine (Reader.takes_digest hsize).refuses ?_
  rw [if_neg (by simp [hdigest])]
  exact (hvariables.append _).bind

end Fabula
