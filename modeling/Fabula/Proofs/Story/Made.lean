import Fabula.Proofs.Bytes.Yields
import Fabula.Proofs.Story.Files
import Fabula.Sample.Cellar

/-! Where stories come from: they are built or read from files. What a file holds is put together by
the same steps by which stories are built, so that every file that is accepted gives a story in
order, however its bytes came about. -/

namespace Fabula

namespace Element

def EditedTo : Element → Element → Prop :=
  Relation.ReflTransGen fun e e' => ∃ edit : Edit, edit.apply e = .ok e'

theorem EditedTo.edit {e e₁ e₂ : Element} (h : e.EditedTo e₁) (edit : Edit)
    (made : edit.apply e₁ = .ok e₂) : e.EditedTo e₂ :=
  h.tail ⟨edit, made⟩

theorem Built.edited {e e' : Element} (h : e.Built) (hedited : e.EditedTo e') : e'.Built := by
  induction hedited with
  | refl => exact h
  | tail _ step ih =>
    obtain ⟨edit, made⟩ := step
    exact ih.edit edit made

end Element

theorem Story.Built.editedWorld {header : Table String} {world : Element}
    (h : Story.Built { header := header }) (hedited : Element.world.EditedTo world) :
    Story.Built { header := header, world := world } := by
  induction hedited with
  | refl => exact h
  | @tail e e' _ step ih =>
    obtain ⟨edit, made⟩ := step
    have hstep := ih.editWorld edit
    rwa [Story.editWorld, made] at hstep

namespace Reader

theorem yields_archetype (e : Element) : Yields (archetype e) e.EditedTo := by
  refine yields_after fun marked => ?_
  cases marked with
  | false => exact yields_pure .refl
  | true => exact yields_ofStory fun e' made => .single ⟨.archetype true, made⟩

theorem yields_restrictions (e : Element) : Yields (restrictions e) e.EditedTo := by
  refine yields_after fun table => ?_
  cases table with
  | none => exact yields_pure .refl
  | some table => exact yields_ofStory fun e' made => .single ⟨.permissions table, made⟩

/-- What is read of an element is put on it by edits. -/
theorem yields_elementBody (e : Element) : Yields (elementBody e) e.EditedTo := by
  have hblock : ∀ e₁, e.EditedTo e₁ → Yields (do
      let entry ← entry
      return e₁.addBlock Heap.empty entry (← block)) e.EditedTo := fun e₁ h₁ =>
    yields_after fun entry => yields_after fun block =>
      yields_pure (h₁.edit (.block .empty entry block) rfl)
  have hfunction : ∀ e₁, e.EditedTo e₁ →
      Yields (do return e₁.addFunction (← function)) e.EditedTo := fun e₁ h₁ =>
    yields_after fun f => yields_pure (h₁.edit (.function f) rfl)
  have hname : ∀ e₁, e.EditedTo e₁ →
      Yields (do ofStory (e₁.addName (← text))) e.EditedTo := fun e₁ h₁ =>
    yields_after fun word => yields_ofStory fun e₂ made => h₁.edit (.name word) made
  have htag : ∀ e₁, e.EditedTo e₁ →
      Yields (do ofStory (e₁.addTag (← text))) e.EditedTo := fun e₁ h₁ =>
    yields_after fun word => yields_ofStory fun e₂ made => h₁.edit (.tag word) made
  refine (yields_archetype e).bind fun e₁ h₁ => ?_
  refine (Yields.counted h₁ hblock).bind fun e₂ h₂ => ?_
  refine (Yields.counted h₂ hfunction).bind fun e₃ h₃ => ?_
  refine (yields_restrictions e₃).bind fun e₄ h₄ => ?_
  exact (Yields.counted (h₃.trans h₄) hname).bind fun e₅ h₅ => Yields.counted h₅ htag

theorem yields_element (kind : ElementKind) : Yields (element kind) Element.Built := by
  refine yields_after fun identity => ?_
  have hbare : Yields (ofStory (Element.create kind identity)) Element.Built :=
    yields_ofStory fun e made => .create made
  exact hbare.bind fun e he => (yields_elementBody e).mono fun e' hedited => he.edited hedited

theorem yields_action : Yields action Action.Built := by
  refine yields_after fun identity => yields_after fun kind => ?_
  have hbare : Yields (ofStory (Action.create identity kind)) Action.Built :=
    yields_ofStory fun a made => .create made
  refine hbare.bind fun a ha => yields_after fun strict => yields_after fun reversed => ?_
  have hname : ∀ a : Action, a.Built → Yields (do return a.withName (← text)) Action.Built :=
    fun a ha => yields_after fun name => yields_pure (ha.withName name)
  have hextra : ∀ a : Action, a.Built → Yields (do return a.withExtra (← text)) Action.Built :=
    fun a ha => yields_after fun extra => yields_pure (ha.withExtra extra)
  exact (Yields.counted (ha.marked strict reversed) hname).bind fun a ha =>
    Yields.counted ha hextra

theorem yields_parent (kind : ElementKind) {s : Story} (hs : s.Built) :
    Yields (parent kind s) Story.Built := by
  refine yields_after fun child => yields_after fun parent => ?_
  split
  · exact yields_ofStory fun t made => hs.linkParent made
  · exact yields_fail _

/-- A payload holds a story that is built on the header. -/
theorem yields_payload {header : Table String} (h : Story.Built { header := header }) :
    Yields (payload header) Story.Built := by
  have haction : ∀ s : Story, s.Built →
      Yields (do ofStory (s.addAction (← action))) Story.Built := fun s hs =>
    yields_action.bind fun a ha => yields_ofStory fun t made => hs.addAction ha made
  have helement : ∀ (kind : ElementKind) (s : Story), s.Built →
      Yields (do ofStory (Story.addElement s (← element kind))) Story.Built := fun kind s hs =>
    (yields_element kind).bind fun e he => yields_ofStory fun t made => hs.addElement he made
  refine (yields_elementBody Element.world).bind fun world hworld => ?_
  refine (Yields.counted (h.editedWorld hworld) haction).bind fun s hs => ?_
  refine Yields.bind (Yields.foldlM hs fun s kind hs => ?_) fun s hs => ?_
  · exact Yields.counted hs (helement kind)
  · exact Yields.foldlM hs fun s kind hs => Yields.counted hs fun s hs => yields_parent kind hs

theorem yields_storyFile :
    Yields storyFile fun found => Story.Built { header := found.1 } := by
  have hheader : ∀ header : Table String, Story.Built { header := header } → Yields (do
      let key ← text
      return header.insert (Text.fold key) (← text))
      fun header => Story.Built { header := header } := fun header h =>
    yields_after fun key => yields_after fun value => yields_pure (h.setHeader key value)
  refine yields_after fun _ => (Yields.counted .empty hheader).bind fun header h => ?_
  refine yields_after fun version => ?_
  split
  · exact yields_fail _
  · exact yields_after fun digest => yields_after fun length => yields_after fun payload =>
      yields_pure h

end Reader

namespace Story

/-- A story that was built or read from a file. What it remembers as its digest is left open: a
story read from a file remembers the digest of the bytes, which need not be those in which it would
be written. -/
inductive Made : Story → Prop
  | built {s : Story} (digest : Option Bytes)
      (content : Built { s with knownDigest := digest }) : Made s
  | decoded {s : Story} {bytes : Bytes} (read : decode bytes = .ok s) : Made s

/-- The content of a story from a file could have been built. -/
theorem built_of_decode {bytes : Bytes} {s : Story} (h : decode bytes = .ok s) :
    ∃ digest, Built { s with knownDigest := digest } := by
  unfold decode at h
  split at h
  · cases h
  · rename_i header digest payload hfile
    split at h
    · cases h
    · split at h
      · cases h
      · rename_i t ht
        obtain rfl := Except.ok.inj h
        have hheader := Reader.yields_storyFile.complete hfile
        exact ⟨t.knownDigest, (Reader.yields_payload hheader).complete ht⟩

theorem Made.sound {s : Story} (h : s.Made) : Sound { s with knownDigest := none } := by
  obtain ⟨digest, hb⟩ : ∃ digest, Built { s with knownDigest := digest } := by
    cases h with
    | built digest content => exact ⟨digest, content⟩
    | decoded read => exact built_of_decode read
  exact hb.sound.forget

end Story

namespace Sample

theorem cellarStory_built : cellarStory.Built := by
  have h : cellar = .ok cellarStory := by
    have hsome : cellar.toOption.isSome = true := by decide +kernel
    unfold cellarStory
    revert hsome
    cases cellar with
    | ok s => exact fun _ => rfl
    | error e => exact fun h => by cases h
  unfold cellar at h
  obtain ⟨look, hlook, h⟩ := of_bind_eq_ok h
  obtain ⟨s₁, h₁, h⟩ := of_bind_eq_ok h
  obtain ⟨hero, hhero, h⟩ := of_bind_eq_ok h
  obtain ⟨s₂, h₂, h⟩ := of_bind_eq_ok h
  obtain ⟨room, hroom, h⟩ := of_bind_eq_ok h
  obtain ⟨s₃, h₃, h⟩ := of_bind_eq_ok h
  obtain ⟨bare, hbare, h⟩ := of_bind_eq_ok h
  obtain ⟨lamp, hlamp, h⟩ := of_bind_eq_ok h
  obtain ⟨s₄, h₄, h⟩ := of_bind_eq_ok h
  rw [← Except.ok.inj h]
  have b₁ : s₁.Built := .addAction .empty (.create hlook) h₁
  have b₃ : s₃.Built := (b₁.addElement (.create hhero) h₂).addElement (.create hroom) h₃
  have b₄ : s₄.Built := b₃.addElement (.edit (.create hbare) (.name _) hlamp) h₄
  exact b₄.editWorld (.block .empty ⟨.start, []⟩ cellarStart)

end Sample

end Fabula
