import Fabula.Proofs.Bytes.Takes

/-! What it means that a reader fails on the bytes that a writer put down, whatever follows them. Of
parts that are read one after another, those before the first one that is refused are taken. -/

namespace Fabula

namespace Reader

variable {α β σ ι : Type} {e : DecodeError}

/-- The reader fails on these bytes, whatever follows them. -/
def Refuses (read : Reader α) (bytes : Bytes) (e : DecodeError) : Prop :=
  ∀ (rest : Bytes) (offset : Nat), offset + bytes.length < 0x10000000000000000 →
    ∃ c, read ⟨bytes ++ rest, offset⟩ = (.error e, c)

theorem refuses_fail (e : DecodeError) : Refuses (fail e : Reader α) [] e :=
  fun _ _ _ => ⟨_, rfl⟩

theorem Refuses.append {x : Reader α} {xs : Bytes} (h : Refuses x xs e) (ys : Bytes) :
    Refuses x (xs ++ ys) e := by
  intro rest offset hl
  rw [List.length_append] at hl
  rw [List.append_assoc]
  exact h (ys ++ rest) offset (by omega)

theorem Refuses.bind {x : Reader α} {f : α → Reader β} {xs : Bytes} (h : Refuses x xs e) :
    Refuses (x >>= f) xs e := by
  intro rest offset hl
  obtain ⟨c, hc⟩ := h rest offset hl
  exact ⟨c, by rw [bind_apply, hc]⟩

theorem Takes.refuses {x : Reader α} {f : α → Reader β} {xs ys : Bytes} {a : α}
    (hx : Takes x xs a) (hf : Refuses (f a) ys e) : Refuses (x >>= f) (xs ++ ys) e := by
  intro rest offset hl
  rw [List.length_append] at hl
  obtain ⟨c, hc⟩ := hf rest (offset + xs.length) (by omega)
  refine ⟨c, ?_⟩
  rw [bind_apply, List.append_assoc, hx (ys ++ rest) offset (by omega)]
  exact hc

theorem Refuses.of_eq {x y : Reader α} {xs : Bytes} (h : Refuses x xs e) (he : ∀ c, y c = x c) :
    Refuses y xs e := by
  intro rest offset hl
  rw [he]
  exact h rest offset hl

theorem Refuses.complete {x : Reader α} {bytes : Bytes} (h : Refuses x bytes e)
    (hl : bytes.length < 0x10000000000000000) : x.complete bytes = .error e := by
  obtain ⟨c, hc⟩ := h [] 0 (by omega)
  rw [List.append_nil] at hc
  simp only [Reader.complete, hc]

theorem Refuses.counted {step : σ → Reader σ} {items : List ι} {s : σ} {ys : Bytes}
    (hlength : items.length ≤ ys.length) (h : Refuses (items.foldlM (fun s _ => step s) s) ys e) :
    Refuses (Reader.counted step s) (Bytes.natural items.length ++ ys) e := by
  intro rest offset hl
  rw [List.length_append] at hl
  have hcount : Takes natural (Bytes.natural items.length) items.length :=
    takes_natural (by omega)
  have hsteps : Refuses (iterate step items.length s) ys e :=
    h.of_eq (iterate_eq_foldlM step items s)
  exact hcount.refuses hsteps rest offset (by rw [List.length_append]; exact hl)

/-- Items read one after another, where `reach` is the state that the items read so far led to, are
refused with the first one that is. -/
theorem refuses_foldlM_reach {step : σ → ι → Reader σ} {write : ι → Bytes}
    {items : List ι} (bad : ι → Prop) (reach : List ι → σ)
    (htakes : ∀ before i after, items = before ++ i :: after → ¬bad i →
      Takes (step (reach before) i) (write i) (reach (before ++ [i])))
    (hrefuses : ∀ before i after, items = before ++ i :: after → bad i →
      Refuses (step (reach before) i) (write i) e)
    (hbad : ∃ i ∈ items, bad i) :
    Refuses (items.foldlM step (reach [])) (items.flatMap write) e := by
  induction items generalizing reach with
  | nil =>
    obtain ⟨i, hi, -⟩ := hbad
    cases hi
  | cons i items ih =>
    by_cases hi : bad i
    · exact ((hrefuses [] i items rfl hi).append _).bind
    · refine (htakes [] i items rfl hi).refuses (ih (fun before => reach (i :: before)) ?_ ?_ ?_)
      · exact fun before j after h => htakes (i :: before) j after (congrArg (i :: ·) h)
      · exact fun before j after h => hrefuses (i :: before) j after (congrArg (i :: ·) h)
      · obtain ⟨j, hj, hbad⟩ := hbad
        rcases List.mem_cons.mp hj with rfl | hj
        · exact absurd hbad hi
        · exact ⟨j, hj, hbad⟩

theorem refuses_counted_reach {step : σ → Reader σ} {write : ι → Bytes} {items : List ι}
    (bad : ι → Prop) (reach : List ι → σ) (hw : ∀ i ∈ items, write i ≠ [])
    (htakes : ∀ before i after, items = before ++ i :: after → ¬bad i →
      Takes (step (reach before)) (write i) (reach (before ++ [i])))
    (hrefuses : ∀ before i after, items = before ++ i :: after → bad i →
      Refuses (step (reach before)) (write i) e)
    (hbad : ∃ i ∈ items, bad i) :
    Refuses (Reader.counted step (reach [])) (Bytes.counted write items) e :=
  Refuses.counted (length_le_flatMap items hw)
    (refuses_foldlM_reach bad reach htakes hrefuses hbad)

theorem refuses_items {read : Reader α} {write : α → Bytes} {xs : List α}
    (bad : α → Prop) (hw : ∀ a ∈ xs, write a ≠ [])
    (htakes : ∀ a ∈ xs, ¬bad a → Takes read (write a) a)
    (hrefuses : ∀ a ∈ xs, bad a → Refuses read (write a) e) (hbad : ∃ a ∈ xs, bad a) :
    Refuses (items read) (Bytes.counted write xs) e := by
  refine (refuses_counted_reach bad (fun before : List α => before.reverse) hw ?_ ?_ hbad).bind
  · intro before a after h ha
    rw [List.reverse_append]
    exact (htakes a (by simp [h]) ha).map fun a => a :: before.reverse
  · exact fun before a after h ha => (hrefuses a (by simp [h]) ha).bind

end Reader

end Fabula
