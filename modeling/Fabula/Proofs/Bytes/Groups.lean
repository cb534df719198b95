import Mathlib
import Fabula.Bytes.Reader

/-! Numbers in groups of seven bits. The bytes of a number form a chain: all but the last have the
high bit set. Their low seven bits are the digits of the number to the base 128, lowest first, and
in a signed number bit 6 of the last byte is the sign. Readers shift the digits into a word of 64
bits while they go and refuse by a look at the tenth byte alone. What they do is to split off a
chain of at most ten bytes and to refuse it exactly if its value has no place in the word. -/

namespace Fabula

namespace Bytes

def payload (b : UInt8) : Nat := (b &&& 0x7f).toNat

/-- The high bit is set: more bytes follow. -/
def Continues (b : UInt8) : Prop := b &&& 0x80 ≠ 0

instance (b : UInt8) : Decidable (Continues b) := inferInstanceAs (Decidable (_ ≠ _))

/-- All bytes but the last continue. -/
inductive Chained : Bytes → Prop
  | last {b : UInt8} : ¬Continues b → Chained [b]
  | more {b : UInt8} {rest : Bytes} : Continues b → Chained rest → Chained (b :: rest)

def magnitude (g : Bytes) : Nat := ∑ i : Fin g.length, payload (g.get i) * 128 ^ (i : ℕ)

/-- The value in two's complement, bit 6 of the last byte being the sign. -/
def signed (g : Bytes) : Int :=
  magnitude g - if g.getLastD 0 &&& 0x40 ≠ 0 then 128 ^ g.length else 0

variable {b : UInt8} {g g' rest rest' : Bytes}

theorem payload_eq (b : UInt8) : payload b = b.toNat % 128 := by
  rw [payload, UInt8.toNat_and]
  exact Nat.and_two_pow_sub_one_eq_mod b.toNat 7

theorem payload_lt (b : UInt8) : payload b < 128 := by
  rw [payload_eq]
  omega

theorem and_ne_zero_iff (b : UInt8) {i : Nat} {mask : UInt8} (hmask : mask.toNat = 2 ^ i) :
    b &&& mask ≠ 0 ↔ b.toNat / 2 ^ i % 2 = 1 := by
  rw [ne_eq, ← UInt8.toNat_inj, UInt8.toNat_and, hmask, Nat.and_two_pow,
    Nat.testBit_eq_decide_div_mod_eq]
  by_cases h : b.toNat / 2 ^ i % 2 = 1 <;> simp [h]

theorem continues_iff (b : UInt8) : Continues b ↔ 128 ≤ b.toNat := by
  have hb := b.toNat_lt
  rw [Continues, and_ne_zero_iff b (i := 7) rfl]
  omega

theorem sign_iff (b : UInt8) : b &&& 0x40 ≠ 0 ↔ 64 ≤ payload b := by
  rw [and_ne_zero_iff b (i := 6) rfl, payload_eq]
  omega

theorem Chained.ne_nil (h : Chained g) : g ≠ [] := by cases h <;> simp

/-- Where a chain ends is known from its bytes. -/
theorem Chained.eq_of_append (h : Chained g) (h' : Chained g') (he : g ++ rest = g' ++ rest') :
    g = g' ∧ rest = rest' := by
  induction h generalizing g' with
  | last hb =>
    cases h' with
    | last _ => simpa using he
    | more hc _ => exact absurd ((List.cons.inj he).1 ▸ hc) hb
  | more hb _ ih =>
    cases h' with
    | last hc => exact absurd ((List.cons.inj he).1 ▸ hb) hc
    | more _ hrest =>
      obtain ⟨rfl, htail⟩ := List.cons.inj he
      obtain ⟨rfl, hsame⟩ := ih hrest htail
      exact ⟨rfl, hsame⟩

@[simp] theorem magnitude_nil : magnitude [] = 0 := rfl

@[simp] theorem magnitude_cons (b : UInt8) (g : Bytes) :
    magnitude (b :: g) = payload b + 128 * magnitude g := by
  have hsum : magnitude (b :: g) =
      payload b * 128 ^ 0 + ∑ i : Fin g.length, payload (g.get i) * 128 ^ (i.val + 1) :=
    Fin.sum_univ_succ _
  rw [hsum, magnitude, Finset.mul_sum, pow_zero, mul_one]
  congr 1
  exact Finset.sum_congr rfl fun i _ => by ring

theorem magnitude_lt (g : Bytes) : magnitude g < 128 ^ g.length := by
  induction g with
  | nil => simp
  | cons b g ih =>
    have hb := payload_lt b
    rw [magnitude_cons, List.length_cons, pow_succ]
    omega

theorem signed_singleton (b : UInt8) :
    signed [b] = if 64 ≤ payload b then (payload b : Int) - 128 else payload b := by
  simp only [signed, List.getLastD_cons, List.getLastD_nil, sign_iff]
  split <;> simp

theorem signed_cons (b : UInt8) (hg : g ≠ []) : signed (b :: g) = payload b + 128 * signed g := by
  obtain ⟨c, rest, rfl⟩ := List.exists_cons_of_ne_nil hg
  simp only [signed, magnitude_cons b, List.getLastD_cons, List.length_cons, pow_succ]
  split <;> push_cast <;> ring

theorem signed_bounds (hg : g ≠ []) :
    -(64 * 128 ^ (g.length - 1) : Int) ≤ signed g ∧ signed g < 64 * 128 ^ (g.length - 1) := by
  induction g with
  | nil => exact absurd rfl hg
  | cons b g ih =>
    have hb := payload_lt b
    cases g with
    | nil =>
      rw [signed_singleton]
      simp only [List.length_cons, List.length_nil, Nat.zero_add, Nat.sub_self, pow_zero]
      split <;> omega
    | cons c rest =>
      have hrest := ih (by simp)
      rw [signed_cons b (by simp)]
      simp only [List.length_cons, Nat.add_sub_cancel, pow_succ] at hrest ⊢
      omega

theorem toNat_digit {n : Nat} (h : n < 256) : n.toUInt8.toNat = n := by
  simp
  omega

theorem chained_naturalGroups (fuel : Nat) : ∀ n ≤ fuel,
    Chained (naturalGroups fuel n) ∧ magnitude (naturalGroups fuel n) = n := by
  have hlast : ∀ n < 128, Chained [n.toUInt8] ∧ magnitude [n.toUInt8] = n := by
    intro n hn
    have hb := toNat_digit (n := n) (by omega)
    refine ⟨.last ?_, ?_⟩
    · rw [continues_iff, hb]
      omega
    · rw [magnitude_cons, magnitude_nil, payload_eq, hb]
      omega
  induction fuel with
  | zero =>
    intro n hn
    exact hlast n (by omega)
  | succ fuel ih =>
    intro n hn
    rw [naturalGroups]
    split
    · rename_i hsmall
      exact hlast n hsmall
    · obtain ⟨hchain, hvalue⟩ := ih (n / 128) (by omega)
      have hb := toNat_digit (n := n % 128 + 128) (by omega)
      refine ⟨.more ?_ hchain, ?_⟩
      · rw [continues_iff, hb]
        omega
      · rw [magnitude_cons, hvalue, payload_eq, hb]
        omega

theorem chained_natural (n : Nat) : Chained (natural n) := (chained_naturalGroups n n le_rfl).1

@[simp] theorem magnitude_natural (n : Nat) : magnitude (natural n) = n :=
  (chained_naturalGroups n n le_rfl).2

theorem length_naturalGroups_le (left : Nat) : ∀ fuel n, n < 128 ^ (left + 1) →
    (naturalGroups fuel n).length ≤ left + 1 := by
  induction left with
  | zero =>
    intro fuel n hn
    cases fuel <;> simp_all [naturalGroups]
  | succ left ih =>
    intro fuel n hn
    cases fuel with
    | zero => simp [naturalGroups]
    | succ fuel =>
      rw [naturalGroups]
      split
      · simp
      · have hq : n / 128 < 128 ^ (left + 1) := by
          rw [Nat.div_lt_iff_lt_mul (by omega), ← pow_succ]
          exact hn
        simpa using ih fuel (n / 128) hq

theorem chained_integerGroups (left : Nat) : ∀ i : Int, -128 ^ left ≤ i → i < 128 ^ left →
    Chained (integerGroups (left + 1) i) ∧ signed (integerGroups (left + 1) i) = i := by
  have hlast : ∀ (fuel : Nat) (i : Int),
      (i / 128 = 0 ∧ (i % 128).toNat < 64) ∨ (i / 128 = -1 ∧ 64 ≤ (i % 128).toNat) →
      Chained (integerGroups (fuel + 1) i) ∧ signed (integerGroups (fuel + 1) i) = i := by
    intro fuel i hi
    have hb := toNat_digit (n := (i % 128).toNat) (by omega)
    rw [integerGroups, if_pos hi]
    refine ⟨.last ?_, ?_⟩
    · rw [continues_iff, hb]
      omega
    · rw [signed_singleton, payload_eq, hb]
      split <;> omega
  induction left with
  | zero =>
    intro i hl hu
    rw [pow_zero] at hl hu
    exact hlast 0 i (by omega)
  | succ left ih =>
    intro i hl hu
    by_cases hi : (i / 128 = 0 ∧ (i % 128).toNat < 64) ∨ (i / 128 = -1 ∧ 64 ≤ (i % 128).toNat)
    · exact hlast (left + 1) i hi
    · rw [pow_succ] at hl hu
      obtain ⟨hchain, hvalue⟩ := ih (i / 128) (by omega) (by omega)
      have hb := toNat_digit (n := (i % 128).toNat + 128) (by omega)
      rw [integerGroups, if_neg hi]
      refine ⟨.more ?_ hchain, ?_⟩
      · rw [continues_iff, hb]
        omega
      · rw [signed_cons _ hchain.ne_nil, hvalue, payload_eq, hb]
        omega

theorem length_integerGroups_le (fuel : Nat) (i : Int) : (integerGroups fuel i).length ≤ fuel := by
  induction fuel generalizing i with
  | zero => simp [integerGroups]
  | succ fuel ih =>
    rw [integerGroups]
    split
    · simp
    · simpa using ih (i / 128)

theorem chained_integer (i : Int64) : Chained (integer i) ∧ signed (integer i) = i.toInt := by
  have hl := i.le_toInt
  have hu := i.toInt_lt
  exact chained_integerGroups 9 i.toInt (by norm_num; exact hl) (by norm_num; exact hu)

/-- Bytes begin with a chain that is short enough, or go on for too long, or end too early. -/
theorem chained_cases (left : Nat) (bytes : Bytes) :
    (∃ g, g <+: bytes ∧ Chained g ∧ g.length ≤ left) ∨
    (∃ g, g <+: bytes ∧ g.length = left ∧ ∀ b ∈ g, Continues b) ∨
    bytes.length < left ∧ ∀ b ∈ bytes, Continues b := by
  induction left generalizing bytes with
  | zero => exact .inr (.inl ⟨[], List.nil_prefix, rfl, by simp⟩)
  | succ left ih =>
    cases bytes with
    | nil => exact .inr (.inr ⟨by simp, by simp⟩)
    | cons b bytes =>
      by_cases hb : Continues b
      · rcases ih bytes with ⟨g, hg, hchain, hl⟩ | ⟨g, hg, hl, hall⟩ | ⟨hl, hall⟩
        · refine .inl ⟨b :: g, List.cons_prefix_cons.mpr ⟨rfl, hg⟩, .more hb hchain, ?_⟩
          simpa using hl
        · refine .inr (.inl ⟨b :: g, List.cons_prefix_cons.mpr ⟨rfl, hg⟩, by simpa using hl, ?_⟩)
          exact List.forall_mem_cons.mpr ⟨hb, hall⟩
        · exact .inr (.inr ⟨by simpa using hl, List.forall_mem_cons.mpr ⟨hb, hall⟩⟩)
      · exact .inl ⟨[b], by simp, .last hb, by simp⟩

theorem Chained.exists_last (h : Chained g) :
    ∃ front b, g = front ++ [b] ∧ (∀ c ∈ front, Continues c) ∧ ¬Continues b := by
  induction h with
  | @last b hb => exact ⟨[], b, rfl, by simp, hb⟩
  | @more b rest hb _ ih =>
    obtain ⟨front, c, rfl, hfront, hc⟩ := ih
    exact ⟨b :: front, c, rfl, List.forall_mem_cons.mpr ⟨hb, hfront⟩, hc⟩

theorem chained_of_front {front : Bytes} (hfront : ∀ c ∈ front, Continues c) (hb : ¬Continues b) :
    Chained (front ++ [b]) := by
  induction front with
  | nil => exact .last hb
  | cons c front ih =>
    obtain ⟨hc, hfront⟩ := List.forall_mem_cons.mp hfront
    exact .more hc (ih hfront)

theorem exists_tenth (hl : g.length = 10) :
    ∃ front b, g = front ++ [b] ∧ g.take 9 = front ∧ g.getLastD 0 = b := by
  rcases List.eq_nil_or_concat g with rfl | ⟨front, b, rfl⟩
  · cases hl
  · have hfront : front.length = 9 := by simpa using hl
    exact ⟨front, b, by simp, by simp [← hfront], by simp⟩

end Bytes

def Cursor.inside (bytes : Bytes) (offset : Nat) : Cursor := ⟨bytes.drop offset, offset⟩

namespace Reader

open Bytes

/-- A chain of at most so many bytes. -/
def groups : Nat → Reader Bytes
  | 0 => fail .invalidVarint
  | left + 1 => do
    let b ← byte
    if Continues b then return b :: (← groups left) else return [b]

variable {left offset : Nat} {g rest : Bytes}

theorem groups_cons (b : UInt8) (rest : Bytes) :
    groups (left + 1) ⟨b :: rest, offset⟩ =
      if Continues b then
        match groups left ⟨rest, offset + 1⟩ with
        | (.ok g, c) => (.ok (b :: g), c)
        | (.error e, c) => (.error e, c)
      else (.ok [b], ⟨rest, offset + 1⟩) := by
  simp only [groups, bind_apply, byte]
  split
  · rw [bind_apply]
    rcases groups left ⟨rest, offset + 1⟩ with ⟨e | g, c⟩ <;> rfl
  · rfl

theorem groups_of_chained (h : Chained g) (hl : g.length ≤ left) (rest : Bytes) :
    groups left ⟨g ++ rest, offset⟩ = (.ok g, ⟨rest, offset + g.length⟩) := by
  induction h generalizing left offset with
  | last hb =>
    obtain ⟨left, rfl⟩ : ∃ k, left = k + 1 := ⟨left - 1, by simp at hl; omega⟩
    rw [List.singleton_append, groups_cons, if_neg hb]
    rfl
  | more hb _ ih =>
    obtain ⟨left, rfl⟩ : ∃ k, left = k + 1 := ⟨left - 1, by simp at hl; omega⟩
    rw [List.cons_append, groups_cons, if_pos hb, ih (by simpa using hl), List.length_cons,
      Nat.add_assoc, Nat.add_comm 1]

theorem groups_of_continues (h : ∀ b ∈ g, Continues b) (rest : Bytes) :
    groups g.length ⟨g ++ rest, offset⟩ = (.error .invalidVarint, ⟨rest, offset + g.length⟩) := by
  induction g generalizing offset with
  | nil => rfl
  | cons b g ih =>
    obtain ⟨hb, hg⟩ := List.forall_mem_cons.mp h
    rw [List.cons_append, List.length_cons, groups_cons, if_pos hb, ih hg, Nat.add_assoc,
      Nat.add_comm 1]

theorem groups_of_short (h : ∀ b ∈ g, Continues b) (hl : g.length < left) :
    groups left ⟨g, offset⟩ = (.error .unexpectedEnd, ⟨[], offset + g.length⟩) := by
  obtain ⟨left, rfl⟩ : ∃ k, left = k + 1 := ⟨left - 1, by omega⟩
  induction g generalizing left offset with
  | nil => rfl
  | cons b g ih =>
    obtain ⟨hb, hg⟩ := List.forall_mem_cons.mp h
    obtain ⟨left, rfl⟩ : ∃ k, left = k + 1 := ⟨left - 1, by simp at hl; omega⟩
    rw [groups_cons, if_pos hb, ih hg left (by simpa using hl), List.length_cons, Nat.add_assoc,
      Nat.add_comm 1]

theorem groups_ne_nil {c c' : Cursor} (h : groups left c = (.ok g, c')) : g ≠ [] := by
  obtain ⟨bytes, offset⟩ := c
  rcases chained_cases left bytes with
    ⟨g', ⟨rest, rfl⟩, hchained, hl⟩ | ⟨g', ⟨rest, rfl⟩, rfl, hall⟩ | ⟨hl, hall⟩
  · rw [groups_of_chained hchained hl] at h
    cases h
    exact hchained.ne_nil
  · rw [groups_of_continues hall] at h
    cases h
  · rw [groups_of_short hall hl] at h
    cases h

/-- What is shifted past the end of the word falls out. -/
theorem toNat_or_shift {value w : UInt64} {s : Nat} (hs : s < 64) (hv : value.toNat < 2 ^ s) :
    (value ||| w <<< s.toUInt64).toNat = value.toNat + w.toNat * 2 ^ s % 2 ^ 64 := by
  have hshift : s.toUInt64.toNat % 64 = s := by
    simp
    omega
  have hword : 2 ^ 64 = 2 ^ (64 - s) * 2 ^ s := by
    rw [← pow_add, Nat.sub_add_cancel hs.le]
  rw [UInt64.toNat_or, UInt64.toNat_shiftLeft, hshift, Nat.shiftLeft_eq, hword,
    Nat.mul_mod_mul_right, Nat.mul_comm _ (2 ^ s), Nat.or_comm,
    ← Nat.two_pow_add_eq_or_of_lt hv, Nat.add_comm]

theorem two_pow_seven_mul (place : Nat) : 2 ^ (7 * place) = 128 ^ place := pow_mul 2 7 place

theorem payload_mul_lt {place : Nat} (hplace : place < 9) (b : UInt8) :
    payload b * 128 ^ place < 2 ^ 64 := by
  have hb := payload_lt b
  have hle : 128 ^ place ≤ 128 ^ 8 := Nat.pow_le_pow_right (by omega) (by omega)
  calc payload b * 128 ^ place ≤ 127 * 128 ^ 8 := Nat.mul_le_mul (by omega) hle
    _ < 2 ^ 64 := by norm_num

theorem eq_toUInt64_of_emod {w : UInt64} {z : Int} (h : (w.toNat : Int) = z % 2 ^ 64) :
    w = (Int64.ofInt z).toUInt64 := by
  have hz : (Int64.ofInt z).toUInt64.toNat = (z % 2 ^ 64).toNat := by
    show (Int64.ofInt z).toBitVec.toNat = _
    rw [Int64.toBitVec_ofInt, BitVec.toNat_ofInt]
    norm_num
  rw [← UInt64.toNat_inj, hz, ← h, Int.toNat_natCast]

section Words

variable {place : Nat} {value : UInt64} {b : UInt8} (hv : value.toNat < 128 ^ place)

include hv

theorem toNat_putGroup (hplace : place ≤ 9) :
    (putGroup value place b).toNat = value.toNat + payload b * 128 ^ place % 2 ^ 64 := by
  rw [← two_pow_seven_mul] at hv ⊢
  rw [putGroup, toNat_or_shift (by omega) hv, UInt8.toNat_toUInt64, payload]

theorem toNat_putGroup_of_lt (hplace : place ≤ 9) (hb : payload b * 128 ^ place < 2 ^ 64) :
    (putGroup value place b).toNat = value.toNat + payload b * 128 ^ place := by
  rw [toNat_putGroup hv hplace, Nat.mod_eq_of_lt hb]

theorem putGroup_eq (hplace : place ≤ 9) (hb : payload b * 128 ^ place < 2 ^ 64) :
    putGroup value place b = UInt64.ofNat (value.toNat + payload b * 128 ^ place) := by
  rw [← toNat_putGroup_of_lt hv hplace hb, UInt64.ofNat_toNat]

omit hv in
theorem add_payload_lt {n : Nat} (hn : n < 128 ^ place) :
    n + payload b * 128 ^ place < 128 ^ (place + 1) := by
  have hb := payload_lt b
  rw [pow_succ]
  nlinarith

/-- The last group of an integer counts with its sign. -/
theorem extendSign_putGroup (hplace : place < 9) :
    extendSign (putGroup value place b) (place + 1) b =
      (Int64.ofInt (value.toNat + signed [b] * 128 ^ place)).toUInt64 := by
  apply eq_toUInt64_of_emod
  have hput := toNat_putGroup_of_lt hv hplace.le (payload_mul_lt hplace b)
  have hfits := add_payload_lt (b := b) hv
  have hunit : 128 ^ (place + 1) ≤ 128 ^ 9 := Nat.pow_le_pow_right (by omega) (by omega)
  have hcast : (payload b : Int) * 128 ^ place = ((payload b * 128 ^ place : Nat) : Int) := by
    push_cast
    rfl
  rw [extendSign, signed_singleton]
  by_cases hs : 64 ≤ payload b
  · have hones : (~~~0 : UInt64).toNat * 128 ^ (place + 1) % 2 ^ 64 =
        2 ^ 64 - 128 ^ (place + 1) := by
      have hall : (~~~0 : UInt64).toNat = 2 ^ 64 - 1 := rfl
      have hpos : 0 < 128 ^ (place + 1) := by positivity
      rw [hall]
      omega
    have hnext : (128 : Int) * 128 ^ place = ((128 ^ (place + 1) : Nat) : Int) := by
      push_cast
      ring
    rw [if_pos ⟨by omega, (sign_iff b).mpr hs⟩, if_pos hs, toNat_or_shift (by omega)
      (by rwa [two_pow_seven_mul, hput]), two_pow_seven_mul, hones, hput, sub_mul, hcast, hnext]
    omega
  · rw [if_neg (fun h => hs ((sign_iff b).mp h.2)), if_neg hs, hput, hcast]
    omega

end Words

/-- In the tenth group no bit is left to set, and of the group only the lowest is in the word. -/
theorem extendSign_putGroup_tenth {value : UInt64} {b : UInt8} (hv : value.toNat < 128 ^ 9)
    (hb : payload b = 0 ∨ payload b = 127) :
    extendSign (putGroup value 9 b) 10 b =
      (Int64.ofInt (value.toNat + signed [b] * 128 ^ 9)).toUInt64 := by
  apply eq_toUInt64_of_emod
  rw [extendSign, if_neg (by omega), toNat_putGroup hv le_rfl, signed_singleton]
  rcases hb with hb | hb <;> simp only [hb] <;> norm_num at hv ⊢ <;> omega

theorem ite_continues {α : Type} (b : UInt8) (last more : Reader α) (c : Cursor) :
    (if b &&& 0x80 = 0 then last else more) c = if Continues b then more c else last c := by
  by_cases hb : Continues b
  · rw [if_neg hb, if_pos hb]
  · rw [if_pos (not_not.mp hb), if_neg hb]

theorem naturalFrom_cons (place : Nat) (value : UInt64) (b : UInt8) (rest : Bytes) :
    naturalFrom (left + 1) place value ⟨b :: rest, offset⟩ =
      if left = 0 ∧ 1 < payload b then (.error .invalidVarint, ⟨rest, offset + 1⟩)
      else if Continues b then
        naturalFrom left (place + 1) (putGroup value place b) ⟨rest, offset + 1⟩
      else (.ok (putGroup value place b), ⟨rest, offset + 1⟩) := by
  have hone : 1 < b &&& 0x7f ↔ 1 < payload b := UInt8.lt_iff_toNat_lt
  simp only [naturalFrom, bind_apply, byte, hone]
  split
  · rfl
  · exact ite_continues b _ _ _

/-- The look at the tenth byte is a look at the value, where the chain is read from a place on and
may have `left + 1` more bytes. The word so far has nothing at that place. -/
theorem naturalFrom_eq (left : Nat) : ∀ (place : Nat) (value : UInt64) (c : Cursor),
    place + left = 9 → value.toNat < 128 ^ place →
    naturalFrom (left + 1) place value c =
      match groups (left + 1) c with
      | (.ok g, c) =>
        if magnitude g < 2 * 128 ^ left then
          (.ok (UInt64.ofNat (value.toNat + magnitude g * 128 ^ place)), c)
        else (.error .invalidVarint, c)
      | (.error e, c) => (.error e, c) := by
  induction left with
  | zero =>
    rintro place value ⟨_ | ⟨b, rest⟩, offset⟩ hplace hv
    · rfl
    · obtain rfl : place = 9 := hplace
      rw [naturalFrom_cons, groups_cons]
      by_cases hb : Continues b
      · simp only [if_pos hb, groups, naturalFrom, fail]
        split <;> rfl
      · simp only [if_neg hb, magnitude_cons, magnitude_nil]
        by_cases hp : 1 < payload b
        · rw [if_pos ⟨.intro, hp⟩, if_neg (by omega)]
        · rw [if_neg (by omega), if_pos (by omega), putGroup_eq hv le_rfl (by omega)]
          rfl
  | succ left ih =>
    rintro place value ⟨_ | ⟨b, rest⟩, offset⟩ hplace hv
    · rfl
    · have hlt := payload_lt b
      have hfits : payload b * 128 ^ place < 2 ^ 64 := payload_mul_lt (by omega) b
      have hpow : 128 ^ (left + 1) = 128 * 128 ^ left := pow_succ' 128 left
      rw [naturalFrom_cons, groups_cons, if_neg (by omega)]
      by_cases hb : Continues b
      · have hput := toNat_putGroup_of_lt hv (by omega) hfits
        rw [if_pos hb, if_pos hb,
          ih _ _ _ (by omega) (by rw [hput]; exact add_payload_lt hv), hput]
        rcases groups (left + 1) ⟨rest, offset + 1⟩ with ⟨e | g, c⟩
        · rfl
        · have hvalue : value.toNat + payload b * 128 ^ place + magnitude g * 128 ^ (place + 1) =
              value.toNat + magnitude (b :: g) * 128 ^ place := by
            rw [magnitude_cons, pow_succ]
            ring
          simp only [hvalue]
          refine if_congr ?_ rfl rfl
          rw [magnitude_cons, hpow]
          omega
      · have hpos : 0 < 128 ^ left := by positivity
        rw [if_neg hb, if_neg hb, putGroup_eq hv (by omega) hfits]
        simp only [magnitude_cons, magnitude_nil]
        rw [if_pos (by omega)]
        rfl

theorem integerFrom_cons (place : Nat) (value : UInt64) (b : UInt8) (rest : Bytes) :
    integerFrom (left + 1) place value ⟨b :: rest, offset⟩ =
      if left = 0 ∧ payload b ≠ 0 ∧ payload b ≠ 127 then
        (.error .invalidVarint, ⟨rest, offset + 1⟩)
      else if Continues b then
        integerFrom left (place + 1) (putGroup value place b) ⟨rest, offset + 1⟩
      else (.ok (extendSign (putGroup value place b) (place + 1) b), ⟨rest, offset + 1⟩) := by
  have hnone : b &&& 0x7f = 0 ↔ payload b = 0 := UInt8.toNat_inj.symm
  have hall : b &&& 0x7f = 0x7f ↔ payload b = 127 := UInt8.toNat_inj.symm
  simp only [integerFrom, bind_apply, byte, ne_eq, hnone, hall]
  split
  · rfl
  · exact ite_continues b _ _ _

/-- As for natural numbers, with a tenth byte that may only repeat the sign. -/
theorem integerFrom_eq (left : Nat) : ∀ (place : Nat) (value : UInt64) (c : Cursor),
    place + left = 9 → value.toNat < 128 ^ place →
    integerFrom (left + 1) place value c =
      match groups (left + 1) c with
      | (.ok g, c) =>
        if -128 ^ left ≤ signed g ∧ signed g < 128 ^ left then
          (.ok (Int64.ofInt (value.toNat + signed g * 128 ^ place)).toUInt64, c)
        else (.error .invalidVarint, c)
      | (.error e, c) => (.error e, c) := by
  induction left with
  | zero =>
    rintro place value ⟨_ | ⟨b, rest⟩, offset⟩ hplace hv
    · rfl
    · obtain rfl : place = 9 := hplace
      have hlt := payload_lt b
      rw [integerFrom_cons, groups_cons]
      by_cases hb : Continues b
      · simp only [if_pos hb, groups, integerFrom, fail]
        split <;> rfl
      · have hrange : (-128 ^ 0 ≤ signed [b] ∧ signed [b] < 128 ^ 0) ↔
            payload b = 0 ∨ payload b = 127 := by
          rw [signed_singleton, pow_zero]
          split <;> omega
        simp only [if_neg hb, hrange]
        by_cases hp : payload b = 0 ∨ payload b = 127
        · simp only [if_pos hp, extendSign_putGroup_tenth hv hp]
          exact if_neg (by omega)
        · simp only [if_neg hp]
          exact if_pos ⟨.intro, by omega, by omega⟩
  | succ left ih =>
    rintro place value ⟨_ | ⟨b, rest⟩, offset⟩ hplace hv
    · rfl
    · have hlt := payload_lt b
      have hpow : (128 : Int) ^ (left + 1) = 128 * 128 ^ left := pow_succ' 128 left
      rw [integerFrom_cons, groups_cons, if_neg (by omega)]
      by_cases hb : Continues b
      · have hput := toNat_putGroup_of_lt hv (by omega) (payload_mul_lt (by omega) b)
        rw [if_pos hb, if_pos hb,
          ih _ _ _ (by omega) (by rw [hput]; exact add_payload_lt hv), hput]
        rcases hg : groups (left + 1) ⟨rest, offset + 1⟩ with ⟨e | g, c⟩
        · rfl
        · have hne := groups_ne_nil hg
          have hvalue : ((value.toNat + payload b * 128 ^ place : Nat) : Int) +
              signed g * 128 ^ (place + 1) = value.toNat + signed (b :: g) * 128 ^ place := by
            rw [signed_cons b hne, pow_succ]
            push_cast
            ring
          simp only [hvalue]
          refine if_congr ?_ rfl rfl
          rw [signed_cons b hne, hpow]
          omega
      · have hpos : (0 : Int) < 128 ^ left := by positivity
        have hrange : -128 ^ (left + 1) ≤ signed [b] ∧ signed [b] < 128 ^ (left + 1) := by
          rw [signed_singleton, hpow]
          split <;> omega
        rw [if_neg hb, if_neg hb, extendSign_putGroup hv (by omega)]
        simp only [if_pos hrange]

/-- Numbers of a range are written and read exactly. What is written for a number takes ten bytes at
most and is read back wherever it stands. A result is the value of a chain of at most ten bytes that
stands at the offset, which is moved behind it. Bytes are refused exactly if there are ten of them,
the first nine continue, and the tenth continues as well or the value has no place in the range;
they end too early exactly if there are fewer and all continue. -/
structure Exact {α : Type} (write : α → Bytes) (read : Reader α) (number : α → Int)
    (value : Bytes → Int) (range : Set Int) : Prop where
  written : ∀ (a : α) (before after : Bytes), number a ∈ range →
    (write a).length ≤ 10 ∧
    read (.inside (before ++ write a ++ after) before.length) =
      (.ok a, .inside (before ++ write a ++ after) (before.length + (write a).length))
  result : ∀ (bytes : Bytes) (offset : Nat) (a : α) (c : Cursor),
    read (.inside bytes offset) = (.ok a, c) ↔
      ∃ g, g <+: bytes.drop offset ∧ Chained g ∧ g.length ≤ 10 ∧ number a = value g ∧
        value g ∈ range ∧ c = .inside bytes (offset + g.length)
  refused : ∀ (bytes : Bytes) (offset : Nat),
    (read (.inside bytes offset)).1 = .error .invalidVarint ↔
      ∃ g, g <+: bytes.drop offset ∧ g.length = 10 ∧ (∀ b ∈ g.take 9, Continues b) ∧
        (Continues (g.getLastD 0) ∨ value g ∉ range)
  ended : ∀ (bytes : Bytes) (offset : Nat),
    (read (.inside bytes offset)).1 = .error .unexpectedEnd ↔
      (bytes.drop offset).length < 10 ∧ ∀ b ∈ bytes.drop offset, Continues b

theorem inside_add {bytes : Bytes} (h : bytes.drop offset = g ++ rest) :
    Cursor.inside bytes (offset + g.length) = ⟨rest, offset + g.length⟩ := by
  rw [Cursor.inside, ← List.drop_drop, h, List.drop_left]

section Judged

variable {α : Type} {write : α → Bytes} {read : Reader α} {number : α → Int} {value : Bytes → Int}
  {range : Set Int} [DecidablePred (· ∈ range)] {make : Int → α}
  (hread : ∀ c, read c = match groups 10 c with
    | (.ok g, c) =>
      if value g ∈ range then (.ok (make (value g)), c) else (.error .invalidVarint, c)
    | (.error e, c) => (.error e, c))

include hread

theorem judged_of_chained {bytes : Bytes} (hg : bytes.drop offset = g ++ rest) (h : Chained g)
    (hl : g.length ≤ 10) : read (.inside bytes offset) =
      if value g ∈ range then (.ok (make (value g)), .inside bytes (offset + g.length))
      else (.error .invalidVarint, .inside bytes (offset + g.length)) := by
  rw [inside_add hg, hread, Cursor.inside, hg, groups_of_chained h hl]

theorem judged_of_continues {bytes : Bytes} (hg : bytes.drop offset = g ++ rest)
    (hl : g.length = 10) (h : ∀ b ∈ g, Continues b) :
    (read (.inside bytes offset)).1 = .error .invalidVarint := by
  rw [hread, Cursor.inside, hg, ← hl, groups_of_continues h]

theorem judged_of_short {bytes : Bytes} (h : ∀ b ∈ bytes.drop offset, Continues b)
    (hl : (bytes.drop offset).length < 10) :
    (read (.inside bytes offset)).1 = .error .unexpectedEnd := by
  rw [hread, Cursor.inside, groups_of_short h hl]

variable (make) (hmake : ∀ z ∈ range, number (make z) = z) (hnumber : Function.Injective number)
  (hshort : ∀ g, Chained g → g.length < 10 → value g ∈ range)
  (hwrite : ∀ a, number a ∈ range →
    Chained (write a) ∧ (write a).length ≤ 10 ∧ value (write a) = number a)

include hmake hnumber hshort hwrite

/-- A reader that judges chains by their values is exact. -/
theorem exact_of_judged : Exact write read number value range where
  written a before after ha := by
    obtain ⟨hchained, hl, hvalue⟩ := hwrite a ha
    have hdrop : (before ++ write a ++ after).drop before.length = write a ++ after := by simp
    have hmade : make (number a) = a := hnumber (hmake _ ha)
    refine ⟨hl, ?_⟩
    rw [judged_of_chained hread hdrop hchained hl, hvalue, if_pos ha, hmade]
  result bytes offset a c := by
    constructor
    · intro h
      rcases chained_cases 10 (bytes.drop offset) with
        ⟨g, ⟨rest, hg⟩, hchained, hl⟩ | ⟨g, ⟨rest, hg⟩, hl, hall⟩ | ⟨hl, hall⟩
      · rw [judged_of_chained hread hg.symm hchained hl] at h
        split at h
        · rename_i hrange
          cases h
          exact ⟨g, ⟨rest, hg⟩, hchained, hl, hmake _ hrange, hrange, rfl⟩
        · cases h
      · have herror := judged_of_continues hread hg.symm hl hall
        rw [h] at herror
        cases herror
      · have herror := judged_of_short hread hall hl
        rw [h] at herror
        cases herror
    · rintro ⟨g, ⟨rest, hg⟩, hchained, hl, hvalue, hrange, rfl⟩
      have hmade : make (value g) = a := hnumber ((hmake _ hrange).trans hvalue.symm)
      rw [judged_of_chained hread hg.symm hchained hl, if_pos hrange, hmade]
  refused bytes offset := by
    constructor
    · intro h
      rcases chained_cases 10 (bytes.drop offset) with
        ⟨g, ⟨rest, hg⟩, hchained, hl⟩ | ⟨g, ⟨rest, hg⟩, hl, hall⟩ | ⟨hl, hall⟩
      · rw [judged_of_chained hread hg.symm hchained hl] at h
        have hrange : value g ∉ range := by
          intro hrange
          rw [if_pos hrange] at h
          cases h
        have hten : g.length = 10 := by
          by_contra hne
          exact hrange (hshort g hchained (by omega))
        obtain ⟨front, b, hfront, hcontinue, -⟩ := hchained.exists_last
        obtain ⟨front', b', heq, hnine, -⟩ := exists_tenth hten
        obtain ⟨rfl, -⟩ := List.append_inj' (hfront.symm.trans heq) rfl
        exact ⟨g, ⟨rest, hg⟩, hten, hnine ▸ hcontinue, .inr hrange⟩
      · obtain ⟨front, b, heq, -, hlast⟩ := exists_tenth hl
        refine ⟨g, ⟨rest, hg⟩, hl, fun b hb => hall b (List.mem_of_mem_take hb), .inl ?_⟩
        rw [hlast]
        exact hall b (by simp [heq])
      · rw [judged_of_short hread hall hl] at h
        cases h
    · rintro ⟨g, ⟨rest, hg⟩, hl, hnine, hlast⟩
      obtain ⟨front, b, rfl, htake, hb⟩ := exists_tenth hl
      rw [htake] at hnine
      rw [hb] at hlast
      by_cases hc : Continues b
      · refine judged_of_continues hread hg.symm hl fun c hmem => ?_
        rcases List.mem_append.mp hmem with hmem | hmem
        · exact hnine c hmem
        · rwa [List.mem_singleton.mp hmem]
      · rw [judged_of_chained hread hg.symm (chained_of_front hnine hc) hl.le,
          if_neg (hlast.resolve_left hc)]
  ended bytes offset := by
    constructor
    · intro h
      rcases chained_cases 10 (bytes.drop offset) with
        ⟨g, ⟨rest, hg⟩, hchained, hl⟩ | ⟨g, ⟨rest, hg⟩, hl, hall⟩ | hshort
      · rw [judged_of_chained hread hg.symm hchained hl] at h
        split at h <;> cases h
      · rw [judged_of_continues hread hg.symm hl hall] at h
        cases h
      · exact hshort
    · rintro ⟨hl, hall⟩
      exact judged_of_short hread hall hl

end Judged

theorem exact_natural : Exact Bytes.natural natural (fun n => (n : Int))
    (fun g => (magnitude g : Int)) (Set.Ico 0 (2 ^ 64)) := by
  refine exact_of_judged Int.toNat (fun c => ?_) ?_ (fun _ _ => Int.ofNat.inj) ?_ ?_
  · rw [natural, bind_apply, naturalFrom_eq 9 0 0 c rfl (by decide)]
    rcases groups 10 c with ⟨e | g, c⟩
    · rfl
    · have hrange : magnitude g < 2 * 128 ^ 9 ↔ (magnitude g : Int) ∈ Set.Ico 0 (2 ^ 64) := by
        rw [Set.mem_Ico]
        omega
      simp only [hrange, Int.toNat_natCast, UInt64.toNat_zero, pow_zero, Nat.mul_one, Nat.zero_add]
      by_cases hg : (magnitude g : Int) ∈ Set.Ico 0 (2 ^ 64)
      · have hword : (UInt64.ofNat (magnitude g)).toNat = magnitude g :=
          UInt64.toNat_ofNat_of_lt' (by exact_mod_cast hg.2)
        simp only [if_pos hg, pure_apply, hword]
      · simp only [if_neg hg]
  · rintro z ⟨hz, -⟩
    exact Int.toNat_of_nonneg hz
  · intro g _ hl
    have hlt := magnitude_lt g
    have hle : 128 ^ g.length ≤ 128 ^ 9 := Nat.pow_le_pow_right (by omega) (by omega)
    rw [Set.mem_Ico]
    omega
  · rintro n ⟨-, hn⟩
    refine ⟨chained_natural n, ?_, by rw [magnitude_natural]⟩
    exact length_naturalGroups_le 9 n n (by omega)

theorem exact_integer : Exact Bytes.integer integer Int64.toInt signed
    (Set.Ico (-2 ^ 63) (2 ^ 63)) := by
  have hofInt : ∀ z ∈ Set.Ico (-2 ^ 63 : Int) (2 ^ 63), (Int64.ofInt z).toInt = z := by
    rintro z ⟨hl, hu⟩
    exact Int64.toInt_ofInt_of_le (by omega) (by omega)
  refine exact_of_judged Int64.ofInt (fun c => ?_) hofInt (fun _ _ => Int64.toInt_inj.mp) ?_ ?_
  · rw [integer, bind_apply, integerFrom_eq 9 0 0 c rfl (by decide)]
    rcases groups 10 c with ⟨e | g, c⟩
    · rfl
    · have hrange : (-128 ^ 9 ≤ signed g ∧ signed g < 128 ^ 9) ↔
          signed g ∈ Set.Ico (-2 ^ 63) (2 ^ 63) := by
        rw [Set.mem_Ico]
        omega
      simp only [hrange, UInt64.toNat_zero, Nat.cast_zero, pow_zero, Int.mul_one, Int.zero_add]
      by_cases hg : signed g ∈ Set.Ico (-2 ^ 63) (2 ^ 63)
      · simp only [if_pos hg, pure_apply]
        rfl
      · simp only [if_neg hg]
  · intro g hchained hl
    obtain ⟨hlow, hhigh⟩ := signed_bounds hchained.ne_nil
    have hle : (128 : Int) ^ (g.length - 1) ≤ 128 ^ 8 :=
      pow_le_pow_right₀ (by omega) (by omega)
    rw [Set.mem_Ico]
    omega
  · intro i _
    exact ⟨(chained_integer i).1, length_integerGroups_le 10 i.toInt, (chained_integer i).2⟩

/-- Numbers are exact in both directions, with and without a sign. -/
theorem numbers_exact :
    Exact Bytes.natural natural (fun n => (n : Int)) (fun g => (magnitude g : Int))
      (Set.Ico 0 (2 ^ 64)) ∧
    Exact Bytes.integer integer Int64.toInt signed (Set.Ico (-2 ^ 63) (2 ^ 63)) :=
  ⟨exact_natural, exact_integer⟩

-- The tenth byte has room for one bit of a natural number and for the sign of an integer.
example : natural ⟨List.replicate 9 0xff ++ [0x01], 0⟩ = (.ok (2 ^ 64 - 1), ⟨[], 10⟩) := rfl

example : (natural ⟨List.replicate 9 0xff ++ [0x02], 0⟩).1 = .error .invalidVarint := rfl

example : integer ⟨List.replicate 9 0x80 ++ [0x7f], 0⟩ = (.ok Int64.minValue, ⟨[], 10⟩) := rfl

end Reader

end Fabula
