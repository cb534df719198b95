import Fabula.Proofs.Value.Canonical
import Fabula.Proofs.Value.Renaming
import Fabula.Session.Load

/-! Reading back saved values. Writer and reader walk over the lists in the same order. The writer
numbers every list when it first meets it, and the reader makes a new list for every number, so that
a list and the one made for its number correspond. A step of the walk only adds to the tables of
both sides, and each list that it adds is complete when the step is over. -/

namespace Fabula

namespace Bytes

variable {α : Type}

/-- The depth of the deepest of things met one after another, each with the numbers the ones before
left. -/
def deepest (visit : α → ListNumbers → Nat × ListNumbers) :
    List α → ListNumbers → Nat × ListNumbers
  | [], known => (0, known)
  | a :: rest, known =>
    let head := visit a known
    let tail := deepest visit rest head.2
    (max head.1 tail.1, tail.2)

/-- How many lists met for the first time stand inside one another in a value. -/
def nesting (heap : Heap) : Nat → Value → ListNumbers → Nat × ListNumbers
  | levels, .list h, known =>
    match known[h]? with
    | some _ => (0, known)
    | none =>
      match levels with
      | 0 => (1, known)
      | levels + 1 =>
        let items := deepest (nesting heap levels) (heap.items h) (known.insert h known.size)
        (items.1 + 1, items.2)
  | _, _, known => (0, known)

theorem deepest_snd {save : α → ListNumbers → Bytes × ListNumbers}
    {visit : α → ListNumbers → Nat × ListNumbers}
    (h : ∀ a known, (visit a known).2 = (save a known).2) (items : List α) (known : ListNumbers) :
    (deepest visit items known).2 = (inOrder save items known).2 := by
  induction items generalizing known with
  | nil => rfl
  | cons a items ih => simp only [deepest, inOrder, h, ih]

theorem nesting_snd (heap : Heap) (levels : Nat) (v : Value) (known : ListNumbers) :
    (nesting heap levels v known).2 = (savedValue heap levels v known).2 := by
  induction levels generalizing v known with
  | zero =>
    cases v with
    | list h => cases hk : known[h]? <;> simp [nesting, savedValue, hk]
    | _ => rfl
  | succ levels ih =>
    cases v with
    | list h =>
      cases hk : known[h]? with
      | some number => simp [nesting, savedValue, hk]
      | none => simp [nesting, savedValue, hk, deepest_snd ih]
    | _ => rfl

/-- What a writer of parts adds to the numbers is bounded by the bytes it writes. -/
theorem size_inOrder_le {save : α → ListNumbers → Bytes × ListNumbers}
    (h : ∀ a known, (save a known).2.size ≤ known.size + (save a known).1.length)
    (items : List α) (known : ListNumbers) :
    (inOrder save items known).2.size ≤ known.size + (inOrder save items known).1.length := by
  induction items generalizing known with
  | nil => simp [inOrder]
  | cons a items ih =>
    have h₁ := h a known
    have h₂ := ih (save a known).2
    simp only [inOrder, List.length_append]
    omega

theorem size_savedValue_le (heap : Heap) (levels : Nat) (v : Value) (known : ListNumbers) :
    (savedValue heap levels v known).2.size ≤
      known.size + (savedValue heap levels v known).1.length := by
  induction levels generalizing v known with
  | zero =>
    cases v with
    | list h => cases hk : known[h]? <;> simp [savedValue, hk]
    | _ => simp [savedValue]
  | succ levels ih =>
    cases v with
    | list h =>
      cases hk : known[h]? with
      | some number => simp [savedValue, hk]
      | none =>
        have h₁ := size_inOrder_le ih (heap.items h) (known.insert h known.size)
        have h₂ : (known.insert h known.size).size ≤ known.size + 1 :=
          Std.ExtTreeMap.size_insert_le
        simp only [savedValue, hk, List.length_append, List.length_cons]
        omega
    | _ => simp [savedValue]

end Bytes

namespace Rebuilt

def make (b : Rebuilt) (n : Nat) : Rebuilt :=
  ⟨(b.heap.alloc []).2, b.lists.insert n b.heap.size⟩

def fill (b : Rebuilt) (k : Handle) (items : List Value) : Rebuilt :=
  { b with heap := b.heap.put k items }

theorem size_make (b : Rebuilt) (n : Nat) : (b.make n).heap.size = b.heap.size + 1 :=
  Heap.size_alloc ..

theorem size_fill (b : Rebuilt) (k : Handle) (items : List Value) :
    (b.fill k items).heap.size = b.heap.size :=
  Heap.size_put ..

theorem items_make_of_lt (b : Rebuilt) (n : Nat) {k : Handle} (h : k < b.heap.size) :
    (b.make n).heap.items k = b.heap.items k := by
  rw [make, Heap.items_alloc, if_neg (Nat.ne_of_lt h)]

theorem items_fill_of_ne (b : Rebuilt) {k k' : Handle} (items : List Value) (h : k' ≠ k) :
    (b.fill k items).heap.items k' = b.heap.items k' := by
  rw [fill, Heap.items_put, if_neg fun hc => h hc.1]

theorem items_fill (b : Rebuilt) {k : Handle} (items : List Value) (h : k < b.heap.size) :
    (b.fill k items).heap.items k = items := by
  rw [fill, Heap.items_put, if_pos ⟨rfl, h⟩]

end Rebuilt

/-- The tables of writer and reader fit together: the numbers given out so far are the first ones,
each has its list on either side, and different numbers have different lists. -/
structure Matched (heap : Heap) (known : ListNumbers) (b : Rebuilt) : Prop where
  inside : ∀ {h : Handle} {n : Nat}, known[h]? = some n → h < heap.size ∧ n < known.size
  number_unique : ∀ {h h' : Handle} {n : Nat}, known[h]? = some n → known[h']? = some n → h = h'
  list : ∀ {n : Nat}, n < known.size → ∃ k, b.lists[n]? = some k
  made : ∀ {n : Nat} {k : Handle}, b.lists[n]? = some k → n < known.size ∧ k < b.heap.size
  list_unique : ∀ {n n' : Nat} {k : Handle}, b.lists[n]? = some k → b.lists[n']? = some k → n = n'

def Linked (known : ListNumbers) (b : Rebuilt) (h k : Handle) : Prop :=
  ∃ n, known[h]? = some n ∧ b.lists[n]? = some k

/-- Part of the walk: nothing that was there changes, and every list met for the first time has been
made with all its items. -/
structure Grows (heap : Heap) (known : ListNumbers) (b : Rebuilt) (known' : ListNumbers)
    (b' : Rebuilt) : Prop where
  matched : Matched heap known' b'
  known_le : known.size ≤ known'.size
  numbers : ∀ {h : Handle} {n : Nat}, known[h]? = some n → known'[h]? = some n
  lists : ∀ {n : Nat} {k : Handle}, b.lists[n]? = some k → b'.lists[n]? = some k
  heap_le : b.heap.size ≤ b'.heap.size
  items_old : ∀ {k : Handle}, k < b.heap.size → b'.heap.items k = b.heap.items k
  items_new : ∀ {h k : Handle}, Linked known' b' h k → known[h]? = none →
    List.Forall₂ (Value.Alike (Linked known' b')) (heap.items h) (b'.heap.items k)

namespace Grows

variable {heap : Heap} {known known' known'' : ListNumbers} {b b' b'' : Rebuilt}

theorem refl (h : Matched heap known b) : Grows heap known b known b where
  matched := h
  known_le := le_rfl
  numbers h := h
  lists h := h
  heap_le := le_rfl
  items_old _ := rfl
  items_new hl hn := by
    obtain ⟨n, hk, -⟩ := hl
    rw [hn] at hk
    cases hk

theorem linked (h : Grows heap known b known' b') {a k : Handle} (hl : Linked known b a k) :
    Linked known' b' a k := by
  obtain ⟨n, hn, hk⟩ := hl
  exact ⟨n, h.numbers hn, h.lists hk⟩

theorem alike (h : Grows heap known b known' b') {v w : Value}
    (hv : Value.Alike (Linked known b) v w) : Value.Alike (Linked known' b') v w :=
  hv.mono fun _ _ hl => h.linked hl

theorem trans (h₁ : Grows heap known b known' b') (h₂ : Grows heap known' b' known'' b'') :
    Grows heap known b known'' b'' where
  matched := h₂.matched
  known_le := h₁.known_le.trans h₂.known_le
  numbers h := h₂.numbers (h₁.numbers h)
  lists h := h₂.lists (h₁.lists h)
  heap_le := h₁.heap_le.trans h₂.heap_le
  items_old h := (h₂.items_old (h.trans_le h₁.heap_le)).trans (h₁.items_old h)
  items_new := by
    intro h k hl hn
    cases hm : known'[h]? with
    | none => exact h₂.items_new hl hm
    | some n =>
      -- the list was made in the first part, and the second left it alone
      obtain ⟨n', hn', hk⟩ := hl
      obtain rfl : n = n' := Option.some.inj ((h₂.numbers hm).symm.trans hn')
      obtain ⟨k', hk'⟩ := h₁.matched.list (h₁.matched.inside hm).2
      obtain rfl : k' = k := Option.some.inj ((h₂.lists hk').symm.trans hk)
      rw [h₂.items_old (h₁.matched.made hk').2]
      exact (h₁.items_new ⟨n, hm, hk'⟩ hn).imp fun _ _ hv => h₂.alike hv

end Grows

theorem size_insert_next {known : ListNumbers} {h : Handle} (hn : known[h]? = none) :
    (known.insert h known.size).size = known.size + 1 := by
  rw [Std.ExtTreeMap.size_insert, if_neg]
  rw [Std.ExtTreeMap.contains_eq_isSome_getElem?, hn]
  simp

/-- As long as a list of the heap has not been met, there are fewer numbers than lists. -/
theorem size_lt_of_unmet {known : ListNumbers} {size : Nat}
    (hin : ∀ {h : Handle} {n : Nat}, known[h]? = some n → h < size) {h : Handle} (hh : h < size)
    (hn : known[h]? = none) : known.size < size := by
  have hkeys : known.keys.Nodup := by
    refine List.Pairwise.imp ?_ Std.ExtTreeMap.distinct_keys
    intro a c hac he
    exact hac (Std.compare_eq_iff_eq.mpr he)
  have hd : (h :: known.keys).Nodup := by
    refine List.nodup_cons.mpr ⟨?_, hkeys⟩
    intro hmem
    rw [Std.ExtTreeMap.mem_keys, Std.ExtTreeMap.mem_iff_isSome_getElem?, hn] at hmem
    cases hmem
  have hlength := length_le_of_nodup hd fun a ha => by
    rcases List.mem_cons.mp ha with rfl | ha
    · exact hh
    · rw [Std.ExtTreeMap.mem_keys, Std.ExtTreeMap.mem_iff_isSome_getElem?] at ha
      obtain ⟨n, hn⟩ := Option.isSome_iff_exists.mp ha
      exact hin hn
  rwa [List.length_cons, Std.ExtTreeMap.length_keys] at hlength

namespace Matched

variable {heap : Heap} {known : ListNumbers} {b : Rebuilt}

theorem meet (hm : Matched heap known b) {h : Handle} (hh : h < heap.size)
    (hn : known[h]? = none) :
    Matched heap (known.insert h known.size) (b.make known.size) := by
  have hsize := size_insert_next hn
  have hold : ∀ {a n}, (known.insert h known.size)[a]? = some n →
      (a = h ∧ n = known.size) ∨ known[a]? = some n := by
    intro a n ha
    rw [Std.ExtTreeMap.getElem?_insert] at ha
    split at ha
    · rename_i he
      exact .inl ⟨(Std.compare_eq_iff_eq.mp he).symm, (Option.some.inj ha).symm⟩
    · exact .inr ha
  have hlist : ∀ {n k}, (b.lists.insert known.size b.heap.size)[n]? = some k →
      (n = known.size ∧ k = b.heap.size) ∨ b.lists[n]? = some k := by
    intro n k hk
    rw [Std.ExtTreeMap.getElem?_insert] at hk
    split at hk
    · rename_i he
      exact .inl ⟨(Std.compare_eq_iff_eq.mp he).symm, (Option.some.inj hk).symm⟩
    · exact .inr hk
  constructor
  · intro a n ha
    rw [hsize]
    rcases hold ha with ⟨rfl, rfl⟩ | ha
    · exact ⟨hh, by omega⟩
    · have hi := hm.inside ha
      exact ⟨hi.1, by omega⟩
  · intro a a' n ha ha'
    rcases hold ha with ⟨rfl, rfl⟩ | ho
    · rcases hold ha' with ⟨rfl, -⟩ | ho'
      · rfl
      · exact absurd (hm.inside ho').2 (lt_irrefl _)
    · rcases hold ha' with ⟨rfl, rfl⟩ | ho'
      · exact absurd (hm.inside ho).2 (lt_irrefl _)
      · exact hm.number_unique ho ho'
  · intro n hlt
    rw [hsize] at hlt
    rw [Rebuilt.make, Std.ExtTreeMap.getElem?_insert]
    split
    · exact ⟨_, rfl⟩
    · rename_i he
      have hne : known.size ≠ n := fun e => he (Std.compare_eq_iff_eq.mpr e)
      exact hm.list (by omega)
  · intro n k hk
    rw [hsize, Rebuilt.size_make]
    rcases hlist hk with ⟨rfl, rfl⟩ | hk
    · exact ⟨Nat.lt_succ_self _, Nat.lt_succ_self _⟩
    · have hi := hm.made hk
      exact ⟨Nat.lt_succ_of_lt hi.1, Nat.lt_succ_of_lt hi.2⟩
  · intro n n' k hk hk'
    rcases hlist hk with ⟨rfl, rfl⟩ | ho
    · rcases hlist hk' with ⟨rfl, -⟩ | ho'
      · rfl
      · exact absurd (hm.made ho').2 (lt_irrefl _)
    · rcases hlist hk' with ⟨rfl, rfl⟩ | ho'
      · exact absurd (hm.made ho).2 (lt_irrefl _)
      · exact hm.list_unique ho ho'

end Matched

/-- What was saved is read back: the reader takes exactly these bytes, and its tables grow along
with the writer's. -/
def ReadsBack {σ : Type} (heap : Heap) (known : ListNumbers) (b : Rebuilt)
    (saved : Bytes × ListNumbers) (read : Reader (σ × Rebuilt))
    (Done : (Handle → Handle → Prop) → σ → Prop) : Prop :=
  ∃ a b', read.Takes saved.1 (a, b') ∧ Grows heap known b saved.2 b' ∧ Done (Linked saved.2 b') a

theorem readsBack_inOrder {σ ι : Type} {heap : Heap} (least most : Nat) (all : List ι)
    (save : ι → ListNumbers → Bytes × ListNumbers) {visit : ι → ListNumbers → Nat × ListNumbers}
    (step : σ × Rebuilt → ι → Reader (σ × Rebuilt))
    (Done : (Handle → Handle → Prop) → List ι → σ → Prop)
    (hvisit : ∀ i known, (visit i known).2 = (save i known).2)
    (hsize : ∀ i known, (save i known).2.size ≤ known.size + (save i known).1.length)
    (hstep : ∀ before i after acc known b, all = before ++ i :: after → Matched heap known b →
      least ≤ known.size → (visit i known).1 ≤ most →
      known.size + (save i known).1.length < 0x10000000000000000 →
      Done (Linked known b) before acc →
      ReadsBack heap known b (save i known) (step (acc, b) i)
        fun R acc => Done R (before ++ [i]) acc)
    (after : List ι) : ∀ before acc known b, all = before ++ after → Matched heap known b →
      least ≤ known.size → (Bytes.deepest visit after known).1 ≤ most →
      known.size + (Bytes.inOrder save after known).1.length < 0x10000000000000000 →
      Done (Linked known b) before acc →
      ReadsBack heap known b (Bytes.inOrder save after known) (after.foldlM step (acc, b))
        fun R acc => Done R all acc := by
  induction after with
  | nil =>
    intro before acc known b hall hm _ _ _ hd
    rw [List.append_nil] at hall
    exact ⟨acc, b, Reader.takes_pure _, .refl hm, hall ▸ hd⟩
  | cons i after ih =>
    intro before acc known b hall hm hl hn hb hd
    have hs := hsize i known
    simp only [Bytes.deepest, hvisit] at hn
    simp only [Bytes.inOrder, List.length_append] at hb
    obtain ⟨acc₁, b₁, ht₁, hg₁, hd₁⟩ :=
      hstep before i after acc known b hall hm hl (le_of_max_le_left hn) (by omega) hd
    obtain ⟨acc₂, b₂, ht₂, hg₂, hd₂⟩ := ih (before ++ [i]) acc₁ (save i known).2 b₁
      (by rw [hall, List.append_assoc]; rfl) hg₁.matched (hl.trans hg₁.known_le)
      (le_of_max_le_right hn) (by omega) hd₁
    exact ⟨acc₂, b₂, ht₁.bind ht₂, hg₁.trans hg₂, hd₂⟩

namespace Bytes

theorem length_le_inOrder {ι : Type} {save : ι → ListNumbers → Bytes × ListNumbers}
    (h : ∀ i known, (save i known).1 ≠ []) (items : List ι) (known : ListNumbers) :
    items.length ≤ (inOrder save items known).1.length := by
  induction items generalizing known with
  | nil => simp
  | cons i items ih =>
    have h₁ := List.length_pos_iff.mpr (h i known)
    have h₂ := ih (save i known).2
    simp only [inOrder, List.length_append, List.length_cons]
    omega

theorem savedValue_ne_nil (heap : Heap) (levels : Nat) (v : Value) (known : ListNumbers) :
    (savedValue heap levels v known).1 ≠ [] := by
  cases v with
  | list h => cases levels <;> cases hk : known[h]? <;> simp [savedValue, hk]
  | _ => cases levels <;> simp [savedValue, constant]

end Bytes

theorem ReadsBack.counted {σ ι : Type} {heap : Heap} {known : ListNumbers} {b : Rebuilt} {a : σ}
    {save : ι → ListNumbers → Bytes × ListNumbers} {items : List ι}
    {step : σ × Rebuilt → Reader (σ × Rebuilt)} {Done : (Handle → Handle → Prop) → σ → Prop}
    (hs : ∀ i known, (save i known).1 ≠ [])
    (h : ReadsBack heap known b (Bytes.inOrder save items known)
      (items.foldlM (fun found _ => step found) (a, b)) Done) :
    ReadsBack heap known b
      (Bytes.natural items.length ++ (Bytes.inOrder save items known).1,
        (Bytes.inOrder save items known).2)
      (Reader.counted step (a, b)) Done := by
  obtain ⟨found, b', ht, hg, hd⟩ := h
  refine ⟨found, b', ?_, hg, hd⟩
  exact Reader.Takes.bind_natural (Bytes.length_le_inOrder hs items known)
    (ht.of_eq (Reader.iterate_eq_foldlM step items (a, b)))

def Value.Sound (P : Handle → Prop) (v : Value) : Prop :=
  v.Canonical ∧ ∀ h, v = .list h → P h

def Heap.SoundOn (heap : Heap) (P : Handle → Prop) : Prop :=
  ∀ h, P h → h < heap.size ∧ ∀ v ∈ heap.items h, v.Sound P

theorem Bytes.savedValue_scalar (heap : Heap) (levels : Nat) {v : Value} (known : ListNumbers)
    (h : v.isShared = false) : savedValue heap levels v known = (constant v, known) := by
  cases v with
  | list => cases h
  | _ => cases levels <;> rfl

theorem Bytes.savedValue_met (heap : Heap) (levels : Nat) {h : Handle} {n : Nat}
    {known : ListNumbers} (hn : known[h]? = some n) :
    savedValue heap levels (.list h) known =
      ([ValueKind.list.tag] ++ (natural n ++ [0]), known) := by
  cases levels <;> simp [savedValue, hn]

theorem Bytes.savedValue_unmet (heap : Heap) (levels : Nat) {h : Handle} {known : ListNumbers}
    (hn : known[h]? = none) :
    savedValue heap (levels + 1) (.list h) known =
      ([ValueKind.list.tag] ++ (natural known.size ++ ([1] ++ (natural (heap.items h).length ++
          (inOrder (savedValue heap levels) (heap.items h) (known.insert h known.size)).1))),
        (inOrder (savedValue heap levels) (heap.items h) (known.insert h known.size)).2) := by
  simp [savedValue, hn]

theorem readsBack_scalar {heap : Heap} {known : ListNumbers} {b : Rebuilt} {v : Value}
    (levels r : Nat) (hm : Matched heap known b) (hc : v.Canonical) (hs : v.isShared = false) :
    ReadsBack heap known b (Bytes.savedValue heap levels v known) (Reader.savedValue r b)
      fun R w => Value.Alike R v w := by
  rw [Bytes.savedValue_scalar heap levels known hs]
  refine ⟨v, b, ?_, .refl hm, .scalar hs⟩
  have hk := Value.isShared_eq_false_iff.mp hs
  unfold Reader.savedValue
  refine (Reader.Takes.tagged (ValueKind.ofTag?_tag v.kind)).bind ?_
  rw [if_pos hk]
  exact (Reader.takes_scalar hc hs).map fun v => (v, b)

/-- A list that has been met before is read back as the list of its number. -/
theorem readsBack_met {heap : Heap} {known : ListNumbers} {b : Rebuilt} {h : Handle} {n : Nat}
    (levels r : Nat) (hm : Matched heap known b) (hn : known[h]? = some n)
    (hb : known.size < 0x10000000000000000) :
    ReadsBack heap known b (Bytes.savedValue heap levels (.list h) known) (Reader.savedValue r b)
      fun R w => Value.Alike R (.list h) w := by
  have hlt := (hm.inside hn).2
  obtain ⟨k, hk⟩ := hm.list hlt
  rw [Bytes.savedValue_met heap levels hn]
  refine ⟨.list k, b, ?_, .refl hm, .list ⟨n, hn, hk⟩⟩
  unfold Reader.savedValue
  refine (Reader.Takes.tagged (ValueKind.ofTag?_tag .list)).bind ?_
  rw [if_neg (by simp)]
  refine (Reader.takes_natural (by omega)).bind ?_
  have hf : Reader.Takes (Reader.tagged "list reference" fun tag =>
      if tag = 0 then some false else if tag = 1 then some true else none) [0] false :=
    Reader.Takes.tagged rfl
  rw [← List.append_nil [(0 : UInt8)]]
  refine hf.bind ?_
  simp only [Bool.not_false, ↓reduceIte, hk]
  exact Reader.takes_pure _

/-- Filling the list made for a number completes the list that has the number. -/
theorem Grows.fill {heap : Heap} {known known' : ListNumbers} {b b' : Rebuilt} {h : Handle}
    {items : List Value} (hm : Matched heap known b) (hn : known[h]? = none)
    (hg : Grows heap (known.insert h known.size) (b.make known.size) known' b')
    (hd : List.Forall₂ (Value.Alike (Linked known' b')) (heap.items h) items) :
    Grows heap known b known' (b'.fill b.heap.size items) := by
  have hnum : known'[h]? = some known.size := hg.numbers Std.ExtTreeMap.getElem?_insert_self
  have hlist : b'.lists[known.size]? = some b.heap.size :=
    hg.lists Std.ExtTreeMap.getElem?_insert_self
  have hsize : b.heap.size + 1 ≤ b'.heap.size := (b.size_make _) ▸ hg.heap_le
  refine ⟨⟨hg.matched.inside, hg.matched.number_unique, hg.matched.list, ?_,
    hg.matched.list_unique⟩, ?_, ?_, ?_, ?_, ?_, ?_⟩
  · intro n k hk
    rw [Rebuilt.size_fill]
    exact hg.matched.made hk
  · exact Std.ExtTreeMap.size_le_size_insert.trans hg.known_le
  · intro a n ha
    refine hg.numbers ?_
    rw [Std.ExtTreeMap.getElem?_insert, if_neg]
    · exact ha
    · intro he
      rw [← Std.compare_eq_iff_eq.mp he, hn] at ha
      cases ha
  · intro n k hk
    refine hg.lists ?_
    rw [Rebuilt.make, Std.ExtTreeMap.getElem?_insert, if_neg]
    · exact hk
    · intro he
      have hlt := (hm.made hk).1
      rw [← Std.compare_eq_iff_eq.mp he] at hlt
      exact lt_irrefl _ hlt
  · rw [Rebuilt.size_fill]
    omega
  · intro k hk
    rw [Rebuilt.items_fill_of_ne _ _ (Nat.ne_of_lt hk),
      hg.items_old (b.size_make _ ▸ Nat.lt_succ_of_lt hk), Rebuilt.items_make_of_lt _ _ hk]
  · intro a k hl ha
    obtain ⟨n, hna, hk⟩ := hl
    by_cases he : a = h
    · subst he
      obtain rfl : known.size = n := Option.some.inj (hnum.symm.trans hna)
      obtain rfl : b.heap.size = k := Option.some.inj (hlist.symm.trans hk)
      rw [Rebuilt.items_fill _ _ hsize]
      exact hd
    · -- another list has another number, so filling this one leaves it alone
      have hne : k ≠ b.heap.size := by
        rintro rfl
        obtain rfl := hg.matched.list_unique hk hlist
        exact he (hg.matched.number_unique hna hnum)
      rw [Rebuilt.items_fill_of_ne _ _ hne]
      refine hg.items_new ⟨n, hna, hk⟩ ?_
      rw [Std.ExtTreeMap.getElem?_insert, if_neg (fun hc => he (Std.compare_eq_iff_eq.mp hc).symm)]
      exact ha

/-- A list that is met for the first time is read back as a new list, made before its items. -/
theorem readsBack_first {heap : Heap} {known : ListNumbers} {b : Rebuilt} {h : Handle}
    (levels r : Nat) (hm : Matched heap known b) (hn : known[h]? = none)
    (hb : known.size < 0x10000000000000000)
    (hitems : ReadsBack heap (known.insert h known.size) (b.make known.size)
      (Bytes.inOrder (Bytes.savedValue heap levels) (heap.items h) (known.insert h known.size))
      ((heap.items h).foldlM (fun found _ => Reader.savedItem (Reader.savedValue r) found)
        ([], b.make known.size))
      fun R found => List.Forall₂ (Value.Alike R) (heap.items h) found.reverse) :
    ReadsBack heap known b (Bytes.savedValue heap (levels + 1) (.list h) known)
      (Reader.savedValue (r + 1) b) fun R w => Value.Alike R (.list h) w := by
  obtain ⟨found, b', ht, hg, hd⟩ := hitems.counted (Bytes.savedValue_ne_nil heap levels)
  have hnew : b.lists.contains known.size = false := by
    rw [Std.ExtTreeMap.contains_eq_isSome_getElem?]
    cases hk : b.lists[known.size]? with
    | none => rfl
    | some k => exact absurd (hm.made hk).1 (lt_irrefl _)
  rw [Bytes.savedValue_unmet heap levels hn]
  refine ⟨.list b.heap.size, b'.fill b.heap.size found.reverse, ?_, hg.fill hm hn hd,
    .list ⟨known.size, hg.numbers Std.ExtTreeMap.getElem?_insert_self,
      hg.lists Std.ExtTreeMap.getElem?_insert_self⟩⟩
  unfold Reader.savedValue
  refine (Reader.Takes.tagged (ValueKind.ofTag?_tag .list)).bind ?_
  rw [if_neg (by simp)]
  refine (Reader.takes_natural hb).bind ?_
  have hf : Reader.Takes (Reader.tagged "list reference" fun tag =>
      if tag = 0 then some false else if tag = 1 then some true else none) [1] true :=
    Reader.Takes.tagged rfl
  refine hf.bind ?_
  simp only [Bool.not_true, Bool.false_eq_true, ↓reduceIte, hnew]
  exact (ht.map fun found => (found.1.reverse, found.2)).map fun p =>
    (Value.list b.heap.size, p.2.fill b.heap.size p.1)

theorem ReadsBack.savedItem {heap : Heap} {known : ListNumbers} {b : Rebuilt} {v : Value}
    {saved : Bytes × ListNumbers} {value : Rebuilt → Reader (Value × Rebuilt)}
    (h : ReadsBack heap known b saved (value b) fun R w => Value.Alike R v w)
    {before found : List Value}
    (hd : List.Forall₂ (Value.Alike (Linked known b)) before found.reverse) :
    ReadsBack heap known b saved (Reader.savedItem value (found, b))
      fun R found => List.Forall₂ (Value.Alike R) (before ++ [v]) found.reverse := by
  obtain ⟨w, b', ht, hg, hw⟩ := h
  refine ⟨w :: found, b', ht.map fun p => (p.1 :: found, p.2), hg, ?_⟩
  simp only [List.reverse_cons]
  exact List.rel_append (hd.imp fun _ _ ha => hg.alike ha) (.cons hw .nil)

/-- A value is read back: a scalar as itself, a list as the one that stands for it. The levels of
the writer suffice since every level meets another list of the heap. -/
theorem readsBack_savedValue {heap : Heap} {P : Handle → Prop} (hP : heap.SoundOn P)
    (levels : Nat) : ∀ (r : Nat) {v : Value} {known : ListNumbers} {b : Rebuilt},
      Matched heap known b → heap.size + 1 ≤ known.size + levels → v.Sound P →
      (Bytes.nesting heap levels v known).1 ≤ r →
      known.size + (Bytes.savedValue heap levels v known).1.length < 0x10000000000000000 →
      ReadsBack heap known b (Bytes.savedValue heap levels v known) (Reader.savedValue r b)
        fun R w => Value.Alike R v w := by
  induction levels with
  | zero =>
    intro r v known b hm hl hv _ hb
    cases hs : v.isShared with
    | false => exact readsBack_scalar 0 r hm hv.1 hs
    | true =>
      cases v with
      | list h =>
        cases hn : known[h]? with
        | some n => exact readsBack_met 0 r hm hn (by omega)
        | none =>
          have hlt := size_lt_of_unmet (fun hk => (hm.inside hk).1) (hP h (hv.2 h rfl)).1 hn
          omega
      | _ => cases hs
  | succ levels ih =>
    intro r v known b hm hl hv hr hb
    cases hs : v.isShared with
    | false => exact readsBack_scalar (levels + 1) r hm hv.1 hs
    | true =>
      cases v with
      | list h =>
        cases hn : known[h]? with
        | some n => exact readsBack_met (levels + 1) r hm hn (by omega)
        | none =>
          have hh := hP h (hv.2 h rfl)
          have hm' := hm.meet hh.1 hn
          have hk := size_insert_next hn
          simp only [Bytes.nesting, hn] at hr
          simp only [Bytes.savedValue, hn, List.length_append, List.length_cons] at hb
          obtain ⟨r, rfl⟩ : ∃ r', r = r' + 1 := ⟨r - 1, by omega⟩
          refine readsBack_first levels r hm hn (by omega) ?_
          refine readsBack_inOrder (known.size + 1) r (heap.items h) (Bytes.savedValue heap levels)
            (fun found _ => Reader.savedItem (Reader.savedValue r) found)
            (fun R before found => List.Forall₂ (Value.Alike R) before found.reverse)
            (Bytes.nesting_snd heap levels) (Bytes.size_savedValue_le heap levels) ?_ (heap.items h)
            [] [] _ _ rfl hm' hk.ge (by omega) (by omega) .nil
          intro before i after found known₁ b₁ hall hm₁ hl₁ hn₁ hb₁ hd₁
          have hi : i ∈ heap.items h := by rw [hall]; simp
          exact (ih r hm₁ (by omega) (hh.2 i hi) hn₁ hb₁).savedItem hd₁
      | _ => cases hs

end Fabula
