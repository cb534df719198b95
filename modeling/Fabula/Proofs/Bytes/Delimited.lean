import Fabula.Proofs.Bytes.Takes
import Fabula.Proofs.Table
import Fabula.Story.Encode

/-! What was written can be told from the bytes alone, however long it is and whatever follows. This
says less than that it can be read: a reader goes no further than offsets of 64 bits, and refuses
much that can be written. -/

namespace Fabula.Bytes

variable {α : Type}

/-- Bytes that begin with what is written for `a` begin with nothing that is written for anything
else of the kind. -/
def Delimited (write : α → Bytes) (P : α → Prop) (a : α) : Prop :=
  ∀ ⦃b : α⦄ ⦃rest rest' : Bytes⦄, P b → write a ++ rest = write b ++ rest' → a = b ∧ rest = rest'

theorem delimited_of_takes {read : Reader α} {write : α → Bytes}
    (htakes : ∀ a, Reader.Takes read (write a) a)
    (hlength : ∀ a, (write a).length < 0x10000000000000000) (a : α) :
    Delimited write Anything a := by
  intro b rest rest' _ h
  have ha := htakes a rest 0 (by simpa using hlength a)
  have hb := htakes b rest' 0 (by simpa using hlength b)
  rw [h, hb] at ha
  simp only [Prod.mk.injEq, Except.ok.injEq, Cursor.mk.injEq] at ha
  exact ⟨ha.1.symm, ha.2.1.symm⟩

/-- The last byte of a number is known by its high bit. -/
theorem delimited_natural (n : Nat) : Delimited natural Anything n := by
  intro k rest rest' _ h
  obtain ⟨hsame, hrest⟩ := (chained_natural n).eq_of_append (chained_natural k) h
  refine ⟨?_, hrest⟩
  rw [← magnitude_natural n, hsame, magnitude_natural]

theorem delimited_flag (b : Bool) : Delimited flag Anything b :=
  delimited_of_takes Reader.takes_flag (fun b => by simp [flag]) b

theorem delimited_integer (i : Int64) : Delimited integer Anything i := by
  refine delimited_of_takes Reader.takes_integer (fun i => ?_) i
  have hlength := length_integerGroups_le 10 i.toInt
  rw [integer]
  omega

theorem delimited_float (x : Float) : Delimited float Anything x :=
  delimited_of_takes Reader.takes_float (fun x => by simp [float, word]) x

theorem utf8_injective {s t : String} (h : utf8 s = utf8 t) : s = t := by
  have hs := Reader.fromUTF8?_utf8 s
  rw [h, Reader.fromUTF8?_utf8 t] at hs
  exact (Option.some.inj hs).symm

theorem delimited_text (s : String) : Delimited text Anything s := by
  intro t rest rest' _ h
  rw [text, text, List.append_assoc, List.append_assoc] at h
  obtain ⟨hlength, h⟩ := delimited_natural _ .intro h
  obtain ⟨hbytes, hrest⟩ := List.append_inj h hlength
  exact ⟨utf8_injective hbytes, hrest⟩

theorem delimited_flatMap {write : α → Bytes} {P : α → Prop} {items : List α}
    (hitems : ∀ a ∈ items, Delimited write P a) : ∀ {others : List α} {rest rest' : Bytes},
    others.length = items.length → (∀ b ∈ others, P b) →
    items.flatMap write ++ rest = others.flatMap write ++ rest' →
    items = others ∧ rest = rest' := by
  induction items with
  | nil =>
    intro others rest rest' hlength _ h
    obtain rfl := List.length_eq_zero_iff.mp hlength
    exact ⟨rfl, h⟩
  | cons a items ih =>
    intro others rest rest' hlength hothers h
    obtain ⟨b, others, rfl⟩ := List.exists_cons_of_length_eq_add_one hlength
    rw [List.flatMap_cons, List.flatMap_cons, List.append_assoc, List.append_assoc] at h
    obtain ⟨rfl, htail⟩ := hitems a List.mem_cons_self (hothers b List.mem_cons_self) h
    obtain ⟨rfl, hrest⟩ := ih (fun c hc => hitems c (List.mem_cons_of_mem a hc))
      (Nat.succ.inj hlength) (fun c hc => hothers c (List.mem_cons_of_mem a hc)) htail
    exact ⟨rfl, hrest⟩

theorem delimited_counted {write : α → Bytes} {P : α → Prop} {items : List α}
    (hitems : ∀ a ∈ items, Delimited write P a) :
    Delimited (counted write) (fun others => ∀ b ∈ others, P b) items := by
  intro others rest rest' hothers h
  rw [counted, counted, List.append_assoc, List.append_assoc] at h
  obtain ⟨hlength, h⟩ := delimited_natural _ .intro h
  exact delimited_flatMap hitems hlength.symm hothers h

theorem delimited_texts (words : List String) : Delimited texts Anything words :=
  fun _ _ _ _ h => delimited_counted (fun word _ => delimited_text word) (fun _ _ => .intro) h

theorem delimited_words (set : Words) : Delimited words Anything set := by
  intro set' rest rest' _ h
  obtain ⟨hwords, hrest⟩ := delimited_texts set.toList .intro h
  exact ⟨Std.ExtTreeSet.toList_inj.mp hwords, hrest⟩

end Fabula.Bytes
