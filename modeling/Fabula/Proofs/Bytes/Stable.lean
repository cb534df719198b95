import Mathlib.Tactic.ByContra
import Mathlib.Tactic.SplitIfs
import Fabula.Bytes.Digest

/-! Readers do not look ahead. What a reader makes of some bytes, a result or a fault in them, stays
the same when more bytes follow; only where it ran out of bytes may it go on with more. So no file
that is accepted as a whole is the beginning of another one. -/

namespace Fabula

def Cursor.extend (c : Cursor) (more : Bytes) : Cursor := ⟨c.rest ++ more, c.offset⟩

namespace Reader

variable {α β σ ι : Type}

/-- What the reader makes of bytes stays so when more follow, unless it ran out of them. -/
def Stable (read : Reader α) : Prop :=
  ∀ (c : Cursor) (more : Bytes), (read c).1 ≠ .error .unexpectedEnd →
    read (c.extend more) = ((read c).1, (read c).2.extend more)

theorem stable_pure (a : α) : Stable (pure a) := fun _ _ _ => rfl

theorem stable_fail (e : DecodeError) : Stable (fail e : Reader α) := fun _ _ _ => rfl

/-- One thing after another: either the first one ran out of bytes, or it ends the same and leaves
the second one more bytes. -/
theorem Stable.bind {x : Reader α} {f : α → Reader β} (hx : Stable x) (hf : ∀ a, Stable (f a)) :
    Stable (x >>= f) := by
  intro c more hend
  rw [bind_apply] at hend
  rw [bind_apply, bind_apply]
  have hfirst := hx c more
  rcases hxc : x c with ⟨e | a, c'⟩
  · simp only [hxc] at hend hfirst ⊢
    rw [hfirst fun he => hend (congrArg Except.error (Except.error.inj he))]
  · simp only [hxc] at hend hfirst ⊢
    rw [hfirst (by simp)]
    exact hf a c' more hend

theorem Stable.map {x : Reader α} (hx : Stable x) (f : α → β) : Stable (do return f (← x)) :=
  hx.bind fun a => stable_pure (f a)

theorem take_of_le {n : Nat} {c : Cursor} (hbound : c.offset + n < 0x10000000000000000)
    (h : n ≤ c.rest.length) : take n c = (.ok (c.rest.take n), ⟨c.rest.drop n, c.offset + n⟩) := by
  simp only [take, List.length_take]
  rw [if_neg (by omega), if_neg (by omega)]

theorem take_short {n : Nat} {c : Cursor} (hbound : c.offset + n < 0x10000000000000000)
    (h : c.rest.length < n) : take n c = (.error .unexpectedEnd, c) := by
  simp only [take, List.length_take]
  rw [if_neg (by omega), if_pos (by omega)]

theorem take_outOfBounds {n : Nat} {c : Cursor} (hbound : 0x10000000000000000 ≤ c.offset + n) :
    take n c = (.error .outOfBounds, c) := if_pos hbound

theorem stable_take (n : Nat) : Stable (take n) := by
  intro c more hend
  by_cases hbound : 0x10000000000000000 ≤ c.offset + n
  · rw [take_outOfBounds hbound, take_outOfBounds (c := c.extend more) hbound]
  have hroom : c.offset + n < 0x10000000000000000 := Nat.lt_of_not_le hbound
  by_cases hshort : c.rest.length < n
  · rw [take_short hroom hshort] at hend
    exact absurd rfl hend
  have hn : n ≤ c.rest.length := Nat.le_of_not_lt hshort
  have hextended : n ≤ (c.extend more).rest.length := by
    simp only [Cursor.extend, List.length_append]
    omega
  rw [take_of_le hroom hn, take_of_le (c := c.extend more) hroom hextended]
  simp only [Cursor.extend, List.take_append_of_le_length hn, List.drop_append_of_le_length hn]

theorem stable_byte : Stable byte := by
  intro c more hend
  obtain ⟨rest, offset⟩ := c
  cases rest with
  | nil => exact absurd rfl hend
  | cons b rest => rfl

theorem stable_tagged (what : String) (tag? : UInt8 → Option α) : Stable (tagged what tag?) := by
  refine stable_byte.bind fun b => ?_
  cases tag? b with
  | some a => exact stable_pure a
  | none => exact stable_fail _

theorem stable_naturalFrom (left : Nat) : ∀ place value, Stable (naturalFrom left place value) := by
  induction left with
  | zero => exact fun _ _ => stable_fail _
  | succ left ih =>
    intro place value
    refine stable_byte.bind fun b => ?_
    split_ifs
    · exact stable_fail _
    · exact stable_pure _
    · exact ih _ _

theorem stable_natural : Stable natural := (stable_naturalFrom 10 0 0).map UInt64.toNat

theorem stable_integerFrom (left : Nat) :
    ∀ place value, Stable (integerFrom left place value) := by
  induction left with
  | zero => exact fun _ _ => stable_fail _
  | succ left ih =>
    intro place value
    refine stable_byte.bind fun b => ?_
    split_ifs
    · exact stable_fail _
    · exact stable_pure _
    · exact ih _ _

theorem stable_integer : Stable integer := (stable_integerFrom 10 0 0).map UInt64.toInt64

theorem stable_flag : Stable flag := stable_byte.map fun b => b != 0

theorem stable_float : Stable float := ((stable_take 8).map _).map Float.ofBits

theorem stable_digest : Stable digest := stable_take Digest.size

theorem stable_text : Stable text := by
  refine stable_natural.bind fun n => (stable_take n).bind fun bytes => ?_
  cases String.fromUTF8? ⟨bytes.toArray⟩ with
  | some s => exact stable_pure s
  | none => exact stable_fail _

theorem Stable.iterate {step : σ → Reader σ} (h : ∀ s, Stable (step s)) (n : Nat) :
    ∀ s, Stable (iterate step n s) := by
  induction n with
  | zero => exact stable_pure
  | succ n ih => exact fun s => (h s).bind ih

theorem Stable.counted {step : σ → Reader σ} (h : ∀ s, Stable (step s)) (s : σ) :
    Stable (counted step s) :=
  stable_natural.bind fun n => Stable.iterate h n s

theorem Stable.foldlM {step : σ → ι → Reader σ} (h : ∀ s i, Stable (step s i)) (items : List ι) :
    ∀ s, Stable (items.foldlM step s) := by
  induction items with
  | nil => exact stable_pure
  | cons i items ih => exact fun s => (h s i).bind ih

theorem magic_extend {mark : Bytes} {c : Cursor} (h : mark.length ≤ c.rest.length) (more : Bytes) :
    magic mark (c.extend more) = ((magic mark c).1, (magic mark c).2.extend more) := by
  have hstable := stable_take mark.length c more
  unfold magic
  by_cases hbound : 0x10000000000000000 ≤ c.offset + mark.length
  · rw [take_outOfBounds hbound, take_outOfBounds (c := c.extend more) hbound]
  · rw [take_of_le (Nat.lt_of_not_le hbound) h] at hstable ⊢
    rw [hstable (by simp)]
    dsimp only
    split_ifs <;> rfl

theorem complete_eq_ok {read : Reader α} {bytes : Bytes} {a : α} :
    read.complete bytes = .ok a ↔ ∃ offset, read ⟨bytes, 0⟩ = (.ok a, ⟨[], offset⟩) := by
  unfold Reader.complete
  constructor
  · intro h
    split at h
    · rename_i b c hread
      split at h
      · rename_i hempty
        obtain ⟨rest, offset⟩ := c
        obtain rfl := List.isEmpty_iff.mp hempty
        obtain rfl := Except.ok.inj h
        exact ⟨offset, hread⟩
      · cases h
    · cases h
  · rintro ⟨offset, hread⟩
    simp [hread, Cursor.isEmpty]

/-- With fewer bytes than the mark needs, a file is not known for what it is. -/
theorem complete_of_length_lt {mark : Bytes} (hmark : mark.length < 0x10000000000000000)
    (body : Reader α) {bytes : Bytes} (h : bytes.length < mark.length) :
    (magic mark >>= fun _ => body).complete bytes = .error .badMagic := by
  have htake : take mark.length ⟨bytes, 0⟩ = (.error .unexpectedEnd, ⟨bytes, 0⟩) :=
    take_short (by simpa using hmark) h
  simp only [Reader.complete, bind_apply, magic, htake]

section Marked

variable {mark : Bytes} (hmark : mark.length < 0x10000000000000000) {body : Reader α}
  (hbody : Stable body)

include hbody

theorem marked_extend {c : Cursor} (h : mark.length ≤ c.rest.length) (more : Bytes)
    (hend : ((magic mark >>= fun _ => body) c).1 ≠ .error .unexpectedEnd) :
    (magic mark >>= fun _ => body) (c.extend more) =
      (((magic mark >>= fun _ => body) c).1,
        ((magic mark >>= fun _ => body) c).2.extend more) := by
  rw [bind_apply] at hend
  rw [bind_apply, bind_apply, magic_extend h]
  rcases hm : magic mark c with ⟨e | u, c'⟩
  · rfl
  · simp only [hm] at hend
    exact hbody c' more hend

include hmark

/-- A file that is accepted is refused with anything behind it. -/
theorem complete_append {bytes : Bytes} {a : α}
    (h : (magic mark >>= fun _ => body).complete bytes = .ok a) {more : Bytes} (hmore : more ≠ []) :
    (magic mark >>= fun _ => body).complete (bytes ++ more) = .error .trailingBytes := by
  have hlength : mark.length ≤ bytes.length := by
    by_contra hshort
    rw [complete_of_length_lt hmark body (Nat.lt_of_not_le hshort)] at h
    cases h
  obtain ⟨offset, hread⟩ := complete_eq_ok.mp h
  have hextend := marked_extend hbody (c := ⟨bytes, 0⟩) hlength more (by simp [hread])
  simp only [hread, Cursor.extend, List.nil_append] at hextend
  simp [Reader.complete, hextend, Cursor.isEmpty, hmore]

/-- A file that is accepted is refused with some of its last bytes missing. The reader runs out of
bytes then, for whatever else it made of them it would make of the whole file. -/
theorem complete_cut {front more : Bytes} {a : α}
    (h : (magic mark >>= fun _ => body).complete (front ++ more) = .ok a) (hmore : more ≠ []) :
    (magic mark >>= fun _ => body).complete front =
      .error (if front.length < mark.length then .badMagic else .unexpectedEnd) := by
  split_ifs with hshort
  · exact complete_of_length_lt hmark body hshort
  obtain ⟨offset, hread⟩ := complete_eq_ok.mp h
  have hend : ((magic mark >>= fun _ => body) ⟨front, 0⟩).1 = .error .unexpectedEnd := by
    by_contra hend
    have hextend := marked_extend hbody (c := ⟨front, 0⟩) (Nat.le_of_not_lt hshort) more hend
    rw [show Cursor.extend ⟨front, 0⟩ more = ⟨front ++ more, 0⟩ from rfl, hread] at hextend
    have hrest := congrArg (fun outcome => outcome.2.rest) hextend
    exact hmore (List.append_eq_nil_iff.mp hrest.symm).2
  rcases hfront : (magic mark >>= fun _ => body) ⟨front, 0⟩ with ⟨outcome, c⟩
  rw [hfront] at hend
  obtain rfl : outcome = .error .unexpectedEnd := hend
  rw [Reader.complete, hfront]

end Marked

end Reader

end Fabula
