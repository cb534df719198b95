import Fabula.Proofs.Bytes.Pairs
import Fabula.Proofs.Story.Made

/-! The header of a file is carried along unread while the payload is read: under another header the
same payload gives the same story, but for the header. -/

namespace Fabula

namespace Reader

variable {α β γ δ σ ι : Type}

/-- `y` reads whatever `x` reads, and gives what `f` makes of it. -/
def Maps (f : α → β) (x : Reader α) (y : Reader β) : Prop :=
  ∀ c, y c = ((x c).1.map f, (x c).2)

theorem maps_iff_pairs {f : α → β} {x : Reader α} {y : Reader β} :
    Maps f x y ↔ Pairs (fun a b => b = f a) x y := by
  refine forall_congr' fun c => ⟨fun h => ?_, fun h => ?_⟩
  · rw [h]
    rcases x c with ⟨e | a, c'⟩
    · exact .error
    · exact .ok rfl
  · generalize x c = p at h ⊢
    generalize y c = q at h ⊢
    cases h with
    | ok results => rw [results, Except.map]
    | error => rfl

theorem maps_pure (f : α → β) (a : α) : Maps f (pure a) (pure (f a)) := fun _ => rfl

theorem maps_fail (f : α → β) (e : DecodeError) : Maps f (fail e) (fail e) := fun _ => rfl

theorem Maps.bind {f : α → β} {g : γ → δ} {x : Reader α} {y : Reader β} {k : α → Reader γ}
    {l : β → Reader δ} (h : Maps f x y) (hk : ∀ a, Maps g (k a) (l (f a))) :
    Maps g (x >>= k) (y >>= l) := by
  refine maps_iff_pairs.mpr ((maps_iff_pairs.mp h).bind ?_)
  rintro a _ rfl
  exact maps_iff_pairs.mp (hk a)

theorem maps_after {g : γ → δ} {x : Reader α} {k : α → Reader γ} {l : α → Reader δ}
    (hk : ∀ a, Maps g (k a) (l a)) : Maps g (x >>= k) (x >>= l) :=
  maps_iff_pairs.mpr (pairs_after fun a => maps_iff_pairs.mp (hk a))

theorem maps_ofStory {f : α → β} {x : Except StoryError α} {y : Except StoryError β}
    (h : y = x.map f) : Maps f (ofStory x) (ofStory y) := by
  subst h
  cases x with
  | error e => exact maps_fail f _
  | ok a => exact maps_pure f a

theorem Maps.foldlM {f : σ → σ} {step step' : σ → ι → Reader σ}
    (h : ∀ s i, Maps f (step s i) (step' (f s) i)) (items : List ι) (s : σ) :
    Maps f (items.foldlM step s) (items.foldlM step' (f s)) := by
  refine maps_iff_pairs.mpr (Pairs.foldlM ?_ items rfl)
  rintro s _ i rfl
  exact maps_iff_pairs.mp (h s i)

theorem Maps.counted {f : σ → σ} {step step' : σ → Reader σ}
    (h : ∀ s, Maps f (step s) (step' (f s))) (s : σ) :
    Maps f (counted step s) (counted step' (f s)) := by
  refine maps_iff_pairs.mpr (Pairs.counted ?_ rfl)
  rintro s _ rfl
  exact maps_iff_pairs.mp (h s)

theorem Maps.complete {f : α → β} {x : Reader α} {y : Reader β} (h : Maps f x y) (bytes : Bytes) :
    y.complete bytes = (x.complete bytes).map f := by
  rcases (maps_iff_pairs.mp h).complete bytes with ⟨e, hx, hy⟩ | ⟨a, _, hx, hy, rfl⟩
  · rw [hx, hy]
    rfl
  · rw [hx, hy]
    rfl

end Reader

namespace Story

variable {header : Table String} {s : Story}

def under (header : Table String) (s : Story) : Story := { s with header := header }

theorem addAction_under (a : Action) :
    (s.under header).addAction a = (s.addAction a).map (under header) := by
  unfold addAction
  by_cases h : s.actions.contains a.identity = true
  · rw [if_pos h, if_pos (show (s.under header).actions.contains a.identity = true from h)]
    rfl
  · rw [if_neg h, if_neg (show ¬(s.under header).actions.contains a.identity = true from h)]
    rfl

theorem addElement_under (e : Element) :
    (s.under header).addElement e = (s.addElement e).map (under header) := by
  unfold addElement
  split
  · rfl
  · split
    · rfl
    · by_cases h : s.elements.contains e.identity = true
      · rw [if_pos h, if_pos (show (s.under header).elements.contains e.identity = true from h)]
        rfl
      · rw [if_neg h, if_neg (show ¬(s.under header).elements.contains e.identity = true from h)]
        rfl

theorem ancestry_under (generations : Nat) :
    ∀ e, (s.under header).ancestry generations e = s.ancestry generations e := by
  induction generations with
  | zero => exact fun _ => rfl
  | succ generations ih =>
    intro e
    rw [ancestry, ancestry, show (s.under header).parent? e = s.parent? e from rfl]
    cases s.parent? e with
    | none => rfl
    | some parent => exact congrArg (e :: ·) (ih parent)

theorem lineage_under (identity : String) :
    (s.under header).lineage identity = s.lineage identity := by
  rw [lineage, lineage, show (s.under header).element? identity = s.element? identity from rfl]
  cases s.element? identity with
  | none => rfl
  | some e => exact ancestry_under _ e

theorem linkParent_under (child parent : String) :
    (s.under header).linkParent child parent =
      (s.linkParent child parent).map (under header) := by
  have helement : ∀ identity, (s.under header).element? identity = s.element? identity :=
    fun _ => rfl
  simp only [linkParent, lineage_under, helement]
  cases s.element? (Text.fold child) with
  | none => rfl
  | some c =>
    cases s.element? (Text.fold parent) with
    | none => rfl
    | some p =>
      simp only
      split
      · rfl
      · split
        · rfl
        · cases c.parent with
          | none =>
            simp only
            split <;> rfl
          | some known =>
            simp only
            split <;> rfl

end Story

namespace Reader

open Story (under)

theorem maps_payload (header other : Table String) :
    Maps (under other) (payload header) (payload other) := by
  have haction : ∀ s : Story,
      Maps (under other) (counted (fun s => do ofStory (Story.addAction s (← action))) s)
        (counted (fun s => do ofStory (Story.addAction s (← action))) (s.under other)) :=
    Maps.counted fun s => maps_after fun a => maps_ofStory (Story.addAction_under a)
  have helement : ∀ (s : Story) (kind : ElementKind),
      Maps (under other) (counted (fun s => do ofStory (Story.addElement s (← element kind))) s)
        (counted (fun s => do ofStory (Story.addElement s (← element kind))) (s.under other)) :=
    fun s kind => Maps.counted (fun s => maps_after fun e =>
      maps_ofStory (Story.addElement_under e)) s
  have hparent : ∀ (s : Story) (kind : ElementKind),
      Maps (under other) (counted (parent kind) s) (counted (parent kind) (s.under other)) := by
    refine fun s kind => Maps.counted (fun s => maps_after fun child => maps_after fun up => ?_) s
    rw [show (s.under other).element? child = s.element? child from rfl]
    split
    · exact maps_ofStory (Story.linkParent_under child up)
    · exact maps_fail _ _
  refine maps_after fun world => ?_
  refine (haction { header := header, world := world }).bind fun s => ?_
  exact (Maps.foldlM helement Story.fileKinds s).bind (Maps.foldlM hparent Story.fileKinds)

end Reader

end Fabula
