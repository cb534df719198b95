import Fabula.Bytes.Digest
import Fabula.Proofs.Bytes.Groups

/-! What it means that a reader takes exactly the bytes that a writer put down. The property is kept
by doing one thing after another, so that a file is read back part by part. Offsets have 64 bits,
hence everything is said of bytes that end before that. -/

namespace Fabula

namespace Bytes

theorem natural_ne_nil (n : Nat) : natural n ≠ [] := (chained_natural n).ne_nil

theorem length_natural_le (n : Nat) : (natural n).length ≤ n + 1 := by
  have hgroups : ∀ fuel n, (naturalGroups fuel n).length ≤ fuel + 1 := by
    intro fuel
    induction fuel with
    | zero => exact fun _ => le_rfl
    | succ fuel ih =>
      intro n
      rw [naturalGroups]
      split
      · simp
      · exact Nat.succ_le_succ (ih _)
  exact hgroups n n

theorem text_ne_nil (s : String) : text s ≠ [] := by simp [text, natural_ne_nil]

end Bytes

namespace Reader

variable {α β σ ι : Type}

/-- The reader takes these bytes and gives this result, whatever follows them. -/
def Takes (read : Reader α) (bytes : Bytes) (a : α) : Prop :=
  ∀ (rest : Bytes) (offset : Nat), offset + bytes.length < 0x10000000000000000 →
    read ⟨bytes ++ rest, offset⟩ = (.ok a, ⟨rest, offset + bytes.length⟩)

theorem takes_pure (a : α) : Takes (pure a) [] a := by
  intro rest offset _
  rfl

theorem Takes.bind {x : Reader α} {f : α → Reader β} {xs ys : Bytes} {a : α} {b : β}
    (hx : Takes x xs a) (hf : Takes (f a) ys b) : Takes (x >>= f) (xs ++ ys) b := by
  intro rest offset h
  rw [List.length_append] at h
  have h₁ := hx (ys ++ rest) offset (by omega)
  have h₂ := hf rest (offset + xs.length) (by omega)
  rw [bind_apply, List.append_assoc, h₁]
  simp only [h₂, List.length_append, Nat.add_assoc]

theorem Takes.bind_nil {x : Reader α} {f : α → Reader β} {xs : Bytes} {a : α} {b : β}
    (hx : Takes x xs a) (hf : Takes (f a) [] b) : Takes (x >>= f) xs b := by
  have h := hx.bind hf
  rwa [List.append_nil] at h

theorem Takes.map {x : Reader α} {xs : Bytes} {a : α} (hx : Takes x xs a) (f : α → β) :
    Takes (do return f (← x)) xs (f a) :=
  hx.bind_nil (takes_pure (f a))

theorem Takes.of_eq {x y : Reader α} {xs : Bytes} {a : α} (h : Takes x xs a)
    (e : ∀ c, y c = x c) : Takes y xs a := by
  intro rest offset hl
  rw [e, h rest offset hl]

theorem takes_byte (b : UInt8) : Takes byte [b] b := by
  intro rest offset _
  rfl

theorem takes_flag (b : Bool) : Takes flag (Bytes.flag b) b := by
  have h := (takes_byte (if b then 1 else 0)).map fun x => x != 0
  cases b <;> exact h

theorem takes_take (bytes : Bytes) : Takes (take bytes.length) bytes bytes := by
  intro rest offset h
  simp [take, Nat.not_le.mpr h]

theorem Takes.tagged {what : String} {tag? : UInt8 → Option α} {b : UInt8} {a : α}
    (h : tag? b = some a) : Takes (Reader.tagged what tag?) [b] a := by
  intro rest offset hl
  simp only [Reader.tagged, bind_apply, takes_byte b rest offset hl, h]
  rfl

theorem Exact.takes {write : α → Bytes} {read : Reader α} {number : α → Int}
    {value : Bytes → Int} {range : Set Int} (h : Exact write read number value range) {a : α}
    (ha : number a ∈ range) : Takes read (write a) a := by
  intro rest offset _
  have hread := (h.written a (List.replicate offset 0) rest ha).2
  have hdrop : (List.replicate offset 0 ++ write a ++ rest).drop offset = write a ++ rest := by simp
  rwa [List.length_replicate, inside_add hdrop, Cursor.inside, hdrop] at hread

theorem takes_natural {n : Nat} (h : n < 0x10000000000000000) :
    Takes natural (Bytes.natural n) n := by
  refine exact_natural.takes ?_
  rw [Set.mem_Ico]
  omega

/-- A count is in range when it is no more than the bytes that follow it. -/
theorem Takes.bind_natural {f : Nat → Reader β} {n : Nat} {ys : Bytes} {b : β}
    (hn : n ≤ ys.length) (hf : Takes (f n) ys b) :
    Takes (natural >>= f) (Bytes.natural n ++ ys) b := by
  intro rest offset h
  rw [List.length_append] at h
  have hr := takes_natural (n := n) (by omega)
  exact hr.bind hf rest offset (by rw [List.length_append]; exact h)

theorem takes_integer (i : Int64) : Takes integer (Bytes.integer i) i :=
  exact_integer.takes ⟨i.le_toInt, i.toInt_lt⟩

theorem toNat_byteOfWord (w : UInt64) (i : Nat) (h : i < 8) :
    (w >>> (8 * i).toUInt64).toUInt8.toNat = w.toNat / 2 ^ (8 * i) % 256 := by
  have hi : (8 * i).toUInt64.toNat = 8 * i := by simp; omega
  have hm : 8 * i % 64 = 8 * i := Nat.mod_eq_of_lt (by omega)
  rw [UInt64.toNat_toUInt8, UInt64.toNat_shiftRight, hi, hm, Nat.shiftRight_eq_div_pow]

theorem foldr_lowBytes (w : UInt64) (n high : Nat) (h : n ≤ 8) :
    ((List.range n).map fun i => (w >>> (8 * i).toUInt64).toUInt8).foldr
      (fun (b : UInt8) (n : Nat) => n * 256 + b.toNat) high =
      w.toNat % 2 ^ (8 * n) + high * 2 ^ (8 * n) := by
  induction n generalizing high with
  | zero => simp [Nat.mod_one]
  | succ n ih =>
    have hp : 2 ^ (8 * (n + 1)) = 2 ^ (8 * n) * 256 := by
      rw [Nat.mul_succ, Nat.pow_add]
    rw [List.range_succ, List.map_append, List.foldr_append, ih _ (by omega)]
    simp only [List.map_cons, List.map_nil, List.foldr_cons, List.foldr_nil]
    rw [toNat_byteOfWord w n (by omega), hp, Nat.mod_mul]
    ring

theorem foldr_word (w : UInt64) :
    (Bytes.word w).foldr (fun (b : UInt8) (n : Nat) => n * 256 + b.toNat) 0 = w.toNat := by
  rw [Bytes.word, foldr_lowBytes w 8 0 le_rfl, Nat.zero_mul, Nat.add_zero]
  exact Nat.mod_eq_of_lt w.toNat_lt

theorem takes_word (w : UInt64) : Takes word (Bytes.word w) w := by
  have h := (takes_take (Bytes.word w)).map fun bytes =>
    (bytes.foldr (fun (b : UInt8) (n : Nat) => n * 256 + b.toNat) 0).toUInt64
  have hw : w.toNat.toUInt64 = w := UInt64.ofNat_toNat
  rw [foldr_word, hw] at h
  exact h

theorem takes_float (x : Float) : Takes float (Bytes.float x) x := by
  have h := (takes_word x.toBits).map Float.ofBits
  rwa [Float.ofBits_toBits] at h

theorem fromUTF8?_utf8 (s : String) : String.fromUTF8? ⟨(Bytes.utf8 s).toArray⟩ = some s := by
  have hs : (⟨(Bytes.utf8 s).toArray⟩ : ByteArray) = s.toByteArray := by simp [Bytes.utf8]
  rw [hs, String.fromUTF8?, dif_pos s.isValidUTF8]
  rfl

theorem takes_text (s : String) : Takes text (Bytes.text s) s := by
  refine Takes.bind_natural le_rfl ?_
  refine Eq.subst (motive := fun bytes => Takes _ bytes s) (List.append_nil (Bytes.utf8 s)) ?_
  refine (takes_take (Bytes.utf8 s)).bind ?_
  rw [fromUTF8?_utf8]
  exact takes_pure s

theorem takes_magic (bytes : Bytes) : Takes (magic bytes) bytes () := by
  intro rest offset h
  simp [magic, takes_take bytes rest offset h]

theorem takes_digest {d : Digest} (h : d.length = Digest.size) : Takes digest d d := by
  have ht := takes_take d
  rwa [h] at ht

/-- Items read one after another, where `reach` is the state that the items read so far led to. -/
theorem takes_foldlM_reach {step : σ → ι → Reader σ} {write : ι → Bytes} {items : List ι}
    (reach : List ι → σ) (h : ∀ before i after, items = before ++ i :: after →
      Takes (step (reach before) i) (write i) (reach (before ++ [i]))) :
    Takes (items.foldlM step (reach [])) (items.flatMap write) (reach items) := by
  induction items generalizing reach with
  | nil => exact takes_pure _
  | cons i items ih =>
    refine (h [] i items rfl).bind (ih (fun before => reach (i :: before)) ?_)
    intro before j after e
    exact h (i :: before) j after (congrArg (i :: ·) e)

theorem takes_foldlM {step : σ → ι → Reader σ} {write : ι → Bytes} {next : σ → ι → σ}
    (items : List ι) (s : σ)
    (h : ∀ before i after, items = before ++ i :: after →
      Takes (step (before.foldl next s) i) (write i) (next (before.foldl next s) i)) :
    Takes (items.foldlM step s) (items.flatMap write) (items.foldl next s) := by
  refine takes_foldlM_reach (fun before => before.foldl next s) fun before i after e => ?_
  rw [List.foldl_append]
  exact h before i after e

theorem iterate_eq_foldlM (step : σ → Reader σ) (items : List ι) (s : σ) (c : Cursor) :
    iterate step items.length s c = items.foldlM (fun s _ => step s) s c := by
  induction items generalizing s c with
  | nil => rfl
  | cons i items ih =>
    simp only [List.length_cons, iterate, List.foldlM_cons, bind_apply, ih]

theorem length_le_flatMap {write : ι → Bytes} (items : List ι) (h : ∀ i ∈ items, write i ≠ []) :
    items.length ≤ (items.flatMap write).length := by
  induction items with
  | nil => simp
  | cons i items ih =>
    have h₁ := List.length_pos_iff.mpr (h i (by simp))
    have h₂ := ih fun j hj => h j (by simp [hj])
    simp only [List.length_cons, List.flatMap_cons, List.length_append]
    omega

theorem takes_counted_reach {step : σ → Reader σ} {write : ι → Bytes} {items : List ι}
    (reach : List ι → σ) (hw : ∀ i ∈ items, write i ≠ [])
    (h : ∀ before i after, items = before ++ i :: after →
      Takes (step (reach before)) (write i) (reach (before ++ [i]))) :
    Takes (counted step (reach [])) (Bytes.counted write items) (reach items) :=
  Takes.bind_natural (length_le_flatMap items hw)
    ((takes_foldlM_reach reach h).of_eq (iterate_eq_foldlM step items _))

theorem takes_counted {step : σ → Reader σ} {write : ι → Bytes} {next : σ → ι → σ}
    {items : List ι} {s : σ} (hw : ∀ i ∈ items, write i ≠ [])
    (h : ∀ before i after, items = before ++ i :: after →
      Takes (step (before.foldl next s)) (write i) (next (before.foldl next s) i)) :
    Takes (counted step s) (Bytes.counted write items) (items.foldl next s) := by
  refine takes_counted_reach (fun before => before.foldl next s) hw fun before i after e => ?_
  rw [List.foldl_append]
  exact h before i after e

theorem takes_items {read : Reader α} {write : α → Bytes} {xs : List α}
    (hw : ∀ a ∈ xs, write a ≠ []) (h : ∀ a ∈ xs, Takes read (write a) a) :
    Takes (items read) (Bytes.counted write xs) xs := by
  have hc : Takes (counted (fun found => do return (← read) :: found) [])
      (Bytes.counted write xs) (xs.foldl (fun l a => a :: l) []) :=
    takes_counted hw fun before a after e =>
      (h a (by simp [e])).map fun a => a :: before.foldl (fun l a => a :: l) []
  have hr := hc.map List.reverse
  rwa [List.foldl_flip_cons_eq_append', List.append_nil, List.reverse_reverse] at hr

theorem takes_eachText (step : σ → String → σ) (s : σ) (words : List String) :
    Takes (counted (fun s => do return step s (← text)) s) (Bytes.texts words)
      (words.foldl step s) :=
  takes_counted (fun word _ => Bytes.text_ne_nil word) fun before word _ _ =>
    (takes_text word).map fun word => step (before.foldl step s) word

theorem Takes.complete {read : Reader α} {bytes : Bytes} {a : α} (h : Takes read bytes a)
    (hl : bytes.length < 0x10000000000000000) : read.complete bytes = .ok a := by
  have hr := h [] 0 (by omega)
  rw [List.append_nil] at hr
  simp [Reader.complete, hr, Cursor.isEmpty]

end Reader

end Fabula
