import Fabula.Story.Encode

/-! The digest a story remembers. It is computed when it is asked for and kept until the next call
that can change the content. Whatever was called before, the digest that is given back is the one
that would be computed now, and where there is none to compute none is remembered. -/

namespace Fabula.Story

/-- A call on a story. The elements and actions that are added may be any, and an edit may do
anything to its element or fail. -/
inductive Use where
  | setHeader (key value : String)
  | editWorld (edit : Element → Except StoryError Element)
  | editElement (identity : String) (edit : Element → Except StoryError Element)
  | addAction (a : Action)
  | addElement (e : Element)
  | linkParent (child parent : String)
  | digest

def Use.after (s : Story) : Use → Story
  | setHeader key value => s.setHeader key value
  | editWorld edit => (s.editWorld edit).2
  | editElement identity edit => (s.editElement identity edit).2
  | addAction a => (s.addAction a).toOption.getD s
  | addElement e => (s.addElement e).toOption.getD s
  | linkParent child parent => (s.linkParent child parent).toOption.getD s
  | digest => s.digest.2

def afterAll (s : Story) (uses : List Use) : Story := uses.foldl Use.after s

def freshDigest (s : Story) : Except StoryError Digest := s.payload?.map Digest.of

def Remembers (s : Story) : Prop := ∀ d, s.knownDigest = some d → s.freshDigest = .ok d

variable {s t : Story}

theorem Remembers.of_forgotten (h : s.knownDigest = none) : s.Remembers :=
  fun d hd => by rw [h] at hd; cases hd

theorem Remembers.setHeader (h : s.Remembers) (key value : String) :
    (s.setHeader key value).Remembers := h

/-- Only asking for the digest makes a story remember one. -/
theorem digest_eq_fresh (h : s.Remembers) :
    s.digest.1 = s.freshDigest ∧ s.digest.2.freshDigest = s.freshDigest ∧ s.digest.2.Remembers := by
  unfold digest
  cases hk : s.knownDigest with
  | some d => exact ⟨(h d hk).symm, rfl, h⟩
  | none =>
    cases hp : s.payload? with
    | error error => exact ⟨by simp [freshDigest, hp, Except.map], rfl, .of_forgotten hk⟩
    | ok payload =>
      have hfresh : s.freshDigest = .ok (Digest.of payload) := by simp [freshDigest, hp, Except.map]
      refine ⟨hfresh.symm, rfl, fun d hd => ?_⟩
      cases hd
      exact hfresh

theorem forgotten_of_editWorld (edit : Element → Except StoryError Element) :
    (s.editWorld edit).2.knownDigest = none := by
  simp only [editWorld]
  split <;> rfl

theorem forgotten_of_editElement (identity : String) (edit : Element → Except StoryError Element) :
    (s.editElement identity edit).2.knownDigest = none := by
  simp only [editElement]
  split
  · rfl
  · split <;> rfl

theorem forgotten_of_addAction {a : Action} (h : s.addAction a = .ok t) : t.knownDigest = none := by
  unfold addAction at h
  split at h
  · cases h
  · cases h
    rfl

theorem forgotten_of_addElement {e : Element} (h : s.addElement e = .ok t) :
    t.knownDigest = none := by
  unfold addElement at h
  repeat' split at h
  all_goals cases h
  rfl

/-- Linking an element to the parent it has changes nothing, and the digest stays known. -/
theorem forgotten_of_linkParent {child parent : String} (h : s.linkParent child parent = .ok t) :
    t = s ∨ t.knownDigest = none := by
  unfold linkParent at h
  simp only at h
  repeat' split at h
  all_goals cases h
  · exact .inl rfl
  · exact .inr rfl

theorem Remembers.of_result {result : Except StoryError Story} (h : s.Remembers)
    (hresult : ∀ t, result = .ok t → t = s ∨ t.knownDigest = none) :
    (result.toOption.getD s).Remembers := by
  cases result with
  | error error => exact h
  | ok t =>
    rcases hresult t rfl with rfl | ht
    · exact h
    · exact .of_forgotten ht

theorem Remembers.after (h : s.Remembers) (use : Use) : (use.after s).Remembers := by
  cases use with
  | setHeader key value => exact h.setHeader key value
  | editWorld edit => exact .of_forgotten (forgotten_of_editWorld edit)
  | editElement identity edit => exact .of_forgotten (forgotten_of_editElement identity edit)
  | addAction a => exact h.of_result fun t ht => .inr (forgotten_of_addAction ht)
  | addElement e => exact h.of_result fun t ht => .inr (forgotten_of_addElement ht)
  | linkParent child parent =>
    rw [Use.after]
    exact h.of_result fun t ht => forgotten_of_linkParent ht
  | digest => exact (digest_eq_fresh h).2.2

theorem Remembers.afterAll (h : s.Remembers) (uses : List Use) : (s.afterAll uses).Remembers := by
  induction uses generalizing s with
  | nil => exact h
  | cons use uses ih => exact ih (h.after use)

/-- After any calls, failed or not and with the digest asked for anywhere between them, the digest
that is given back is the one computed from the content as it is now, and if a list constant stands
in the way of that, this is what is told. Asking for it does not change the content. -/
theorem digest_coherent (uses : List Use) :
    (empty.afterAll uses).digest.1 = (empty.afterAll uses).freshDigest ∧
      (empty.afterAll (uses ++ [.digest])).freshDigest = (empty.afterAll uses).freshDigest := by
  have h : (empty.afterAll uses).Remembers := Remembers.afterAll (.of_forgotten rfl) uses
  obtain ⟨hdigest, hfresh, -⟩ := digest_eq_fresh h
  refine ⟨hdigest, ?_⟩
  have hasked : empty.afterAll (uses ++ [.digest]) = (empty.afterAll uses).digest.2 := by
    simp only [afterAll, List.foldl_append, List.foldl_cons, List.foldl_nil, Use.after]
  rw [hasked, hfresh]

end Fabula.Story
