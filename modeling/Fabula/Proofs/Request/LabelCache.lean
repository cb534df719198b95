import Mathlib.Data.List.Induction
import Fabula.Proofs.Request.Labels

/-! Labels that are kept. A labelling looks a label up by element and name before it searches for
it, and the story it is asked about has no part in that. As long as it serves one story it answers
as if it were new each time; one that goes on to another story may answer with what it found in the
first. -/

namespace Fabula

namespace Labelling

inductive Query where
  | entry (story : Story) (heap : Heap) (element name : String)
  | function (story : Story) (element name : String)

def ask (l : Labelling) : Query → Option String × Labelling
  | .entry story heap element name => l.entry? story heap element name
  | .function story element name => l.function? story element name

def answers (l : Labelling) : List Query → List (Option String)
  | [] => []
  | q :: qs => (l.ask q).1 :: (l.ask q).2.answers qs

def asked (l : Labelling) (qs : List Query) : Labelling := qs.foldl (fun l q => (l.ask q).2) l

namespace Query

/-- What a label is kept by: whether it is that of a function, the element and the name. -/
def key : Query → Bool × String × String
  | entry _ _ element name => (false, element, name)
  | function _ element name => (true, element, name)

def fresh (q : Query) : Option String := (symbols.ask q).1

/-- The question is about this story, with the lists as they are. -/
def About (story : Story) (heap : Heap) : Query → Prop
  | entry s h _ _ => s = story ∧ h = heap
  | function s _ _ => s = story

/-- Of questions about one story, those with the same key are the same. -/
theorem About.eq_of_key {story : Story} {heap : Heap} {p q : Query} (hp : p.About story heap)
    (hq : q.About story heap) (h : p.key = q.key) : p = q := by
  cases p <;> cases q <;> simp_all [About, key]

/-- The first label that any of the questions with this key finds. -/
def recalled (qs : List Query) (key : Bool × String × String) : Option String :=
  qs.findSome? fun q => if q.key = key then q.fresh else none

end Query

theorem remember_fst (cache : LabelCache) (element name : String) (make : Option String) :
    (remember cache element name make).1 = (cache.lookup (element, name)).or make := by
  unfold remember
  cases cache.lookup (element, name) <;> cases make <;> rfl

theorem lookup_remember (cache : LabelCache) (element name : String) (make : Option String)
    (place : String × String) : (remember cache element name make).2.lookup place =
      (cache.lookup place).or (if (element, name) = place then make else none) := by
  unfold remember
  by_cases hplace : (element, name) = place
  · subst hplace
    cases hknown : cache.lookup (element, name) <;> cases make <;> simp [hknown]
  · have hother : (place == (element, name)) = false := beq_false_of_ne (Ne.symm hplace)
    cases cache.lookup (element, name) <;> cases make <;> simp [hplace, hother, List.lookup_cons]

def kept : Labelling → Bool × String × String → Option String
  | bySymbol entries _, (false, place) => entries.lookup place
  | bySymbol _ functions, (true, place) => functions.lookup place
  | byElement, _ => none

/-- The labelling is by symbols and keeps just what questions before have found. -/
structure Remembers (l : Labelling) (before : List Query) : Prop where
  bySymbol : ∃ entries functions, l = bySymbol entries functions
  kept_eq : ∀ key, l.kept key = Query.recalled before key

theorem remembers_symbols : symbols.Remembers [] where
  bySymbol := ⟨[], [], rfl⟩
  kept_eq
    | (false, _) => rfl
    | (true, _) => rfl

theorem recalled_concat (qs : List Query) (q : Query) (key : Bool × String × String) :
    Query.recalled (qs ++ [q]) key =
      (Query.recalled qs key).or (if q.key = key then q.fresh else none) := by
  rw [Query.recalled, List.findSome?_append]
  simp [Query.recalled]

theorem ask_fst (entries functions : LabelCache) (q : Query) :
    ((bySymbol entries functions).ask q).1 =
      ((bySymbol entries functions).kept q.key).or q.fresh := by
  cases q <;> simp [ask, entry?, function?, remember_fst, kept, Query.key, Query.fresh, symbols]

theorem kept_ask (entries functions : LabelCache) (q : Query) (key : Bool × String × String) :
    ((bySymbol entries functions).ask q).2.kept key =
      ((bySymbol entries functions).kept key).or (if q.key = key then q.fresh else none) := by
  obtain ⟨function, place⟩ := key
  cases q <;> cases function <;>
    simp [ask, entry?, function?, lookup_remember, remember_fst, kept, Query.key, Query.fresh,
      symbols]

/-- A question is answered with what is remembered of it, and what it finds is remembered. -/
theorem Remembers.ask {l : Labelling} {before : List Query} (h : l.Remembers before) (q : Query) :
    (l.ask q).1 = Query.recalled (before ++ [q]) q.key ∧ (l.ask q).2.Remembers (before ++ [q]) := by
  obtain ⟨entries, functions, rfl⟩ := h.bySymbol
  refine ⟨?_, ?_, fun key => ?_⟩
  · rw [ask_fst, h.kept_eq, recalled_concat, if_pos rfl]
  · cases q <;> exact ⟨_, _, rfl⟩
  · rw [kept_ask, h.kept_eq, recalled_concat]

theorem Remembers.asked {l : Labelling} {before : List Query} (h : l.Remembers before)
    (qs : List Query) : (l.asked qs).Remembers (before ++ qs) := by
  induction qs generalizing l before with
  | nil => simpa [Labelling.asked] using h
  | cons q qs ih => simpa [Labelling.asked] using ih (h.ask q).2

theorem answers_append (l : Labelling) (qs rs : List Query) :
    l.answers (qs ++ rs) = l.answers qs ++ (l.asked qs).answers rs := by
  induction qs generalizing l with
  | nil => rfl
  | cons q qs ih => exact congrArg _ (ih _)

theorem length_answers (l : Labelling) (qs : List Query) : (l.answers qs).length = qs.length := by
  induction qs generalizing l with
  | nil => rfl
  | cons q qs ih => exact congrArg (· + 1) (ih _)

/-- Each question is answered with the first label that it or one like it before has found. -/
theorem answers_split (before : List Query) (q : Query) (after : List Query) :
    symbols.answers (before ++ q :: after) = symbols.answers before ++
      Query.recalled (before ++ [q]) q.key :: (symbols.asked (before ++ [q])).answers after := by
  have hbefore : (symbols.asked before).Remembers before := remembers_symbols.asked before
  have hasked : ((symbols.asked before).ask q).2 = symbols.asked (before ++ [q]) := by
    simp [asked]
  rw [answers_append, answers, (hbefore.ask q).1, hasked]

/-- Of two questions with the same key, the later one finds what the earlier one has found. -/
def Agree (p q : Query) : Prop := p.key = q.key → p.fresh ≠ none → q.fresh = p.fresh

theorem recalled_of_mem {qs : List Query} (h : qs.Pairwise Agree) {p : Query} (hp : p ∈ qs)
    (hfound : p.fresh ≠ none) : Query.recalled qs p.key = p.fresh := by
  induction qs with
  | nil => cases hp
  | cons r qs ih =>
    obtain ⟨hr, hqs⟩ := List.pairwise_cons.mp h
    rw [Query.recalled, List.findSome?_cons]
    rcases List.mem_cons.mp hp with rfl | hp
    · rw [if_pos rfl]
      cases hfresh : p.fresh with
      | none => exact absurd hfresh hfound
      | some label => rfl
    · by_cases hkey : r.key = p.key
      · rw [if_pos hkey]
        cases hfresh : r.fresh with
        -- A question that finds nothing leaves nothing behind.
        | none => exact ih hqs hp
        | some label => rw [hr p hp hkey (by simp [hfresh]), hfresh]
      · rw [if_neg hkey]
        exact ih hqs hp

/-- After questions that agree, one more is answered afresh exactly if it agrees with them. -/
theorem recalled_concat_eq_fresh {qs : List Query} (h : qs.Pairwise Agree) (q : Query) :
    Query.recalled (qs ++ [q]) q.key = q.fresh ↔ ∀ p ∈ qs, Agree p q := by
  rw [recalled_concat, if_pos rfl]
  constructor
  · intro hfresh p hp hkey hfound
    rw [← hkey, recalled_of_mem h hp hfound] at hfresh
    cases hlabel : p.fresh with
    | none => exact absurd hlabel hfound
    | some label =>
      rw [hlabel, Option.some_or] at hfresh
      exact hfresh.symm
  · intro hagree
    cases hrecalled : Query.recalled qs q.key with
    | none => rfl
    | some label =>
      obtain ⟨p, hp, hfound⟩ := List.exists_of_findSome?_eq_some hrecalled
      split at hfound
      · rename_i hkey
        have hq := hagree p hp hkey (by simp [hfound])
        rw [hq, hfound]
        rfl
      · cases hfound

theorem answers_eq_fresh_iff (qs : List Query) :
    symbols.answers qs = qs.map Query.fresh ↔ qs.Pairwise Agree := by
  induction qs using List.reverseRecOn with
  | nil => simp [answers]
  | append_singleton qs q ih =>
    calc symbols.answers (qs ++ [q]) = (qs ++ [q]).map Query.fresh
        ↔ symbols.answers qs = qs.map Query.fresh ∧
            Query.recalled (qs ++ [q]) q.key = q.fresh := by
          simp [answers_split, answers]
      _ ↔ qs.Pairwise Agree ∧ ∀ p ∈ qs, Agree p q := by
          rw [ih]
          exact and_congr_right fun hqs => recalled_concat_eq_fresh hqs q
      _ ↔ (qs ++ [q]).Pairwise Agree := by simp [List.pairwise_append]

/-- A labelling that is asked again and again. Each answer is the first label that the question or
one before it with the same key finds when it is asked alone. So all answers are those of new
labellings exactly if no question finds something else than one of the same key before it has found,
and that is so as long as all questions are about one story. -/
theorem answers_fresh_iff (qs : List Query) :
    (∀ before q after, qs = before ++ q :: after → (symbols.answers qs)[before.length]? =
      some ((before ++ [q]).findSome? fun p => if p.key = q.key then p.fresh else none)) ∧
    (symbols.answers qs = qs.map Query.fresh ↔
      qs.Pairwise fun p q => p.key = q.key → p.fresh ≠ none → q.fresh = p.fresh) ∧
    ∀ story heap, (∀ q ∈ qs, q.About story heap) → symbols.answers qs = qs.map Query.fresh := by
  refine ⟨?_, answers_eq_fresh_iff qs, fun story heap habout => ?_⟩
  · rintro before q after rfl
    rw [answers_split, ← length_answers symbols before, List.getElem?_append_right (Nat.le_refl _)]
    simp [Query.recalled]
  · refine (answers_eq_fresh_iff qs).mpr (List.pairwise_of_forall_mem_list ?_)
    intro p hp q hq hkey _
    rw [(habout p hp).eq_of_key (habout q hq) hkey]

end Labelling

namespace Sample

def askLooking (s : Story) : Labelling.Query := .entry s .empty "hero" "ONACTION(look)"

def otherFamily : Story := family [(looking, [])] []

/-- A labelling that has served one story names the person in the other one, where the hero defines
the block. Asked about one story only, it answers as if it were new. -/
theorem otherFamily_mislabelled :
    (askLooking otherFamily).fresh = some "entry:hero:ONACTION(look)" ∧
    (Labelling.symbols.answers [askLooking plainFamily, askLooking otherFamily])[1]? =
      some (some "entry:person:ONACTION(look)") ∧
    Labelling.symbols.answers [askLooking plainFamily, askLooking otherFamily] ≠
      [askLooking plainFamily, askLooking otherFamily].map Labelling.Query.fresh ∧
    Labelling.symbols.answers [askLooking plainFamily, askLooking plainFamily] =
      [askLooking plainFamily, askLooking plainFamily].map Labelling.Query.fresh := by
  have hfirst : (askLooking plainFamily).fresh = some "entry:person:ONACTION(look)" := by
    show (Labelling.symbols.entry? _ _ _ _).1 = _
    rw [Labelling.entry?_symbols, Labelling.entryOwner?, plainFamily, lineage_family]
    rfl
  have hother : (askLooking otherFamily).fresh = some "entry:hero:ONACTION(look)" := by
    show (Labelling.symbols.entry? _ _ _ _).1 = _
    rw [Labelling.entry?_symbols, Labelling.entryOwner?, otherFamily, lineage_family]
    rfl
  obtain ⟨heach, hiff, -⟩ :=
    Labelling.answers_fresh_iff [askLooking plainFamily, askLooking otherFamily]
  obtain ⟨-, -, hone⟩ :=
    Labelling.answers_fresh_iff [askLooking plainFamily, askLooking plainFamily]
  refine ⟨hother, ?_, fun heq => ?_, hone plainFamily .empty ?_⟩
  · refine (heach [askLooking plainFamily] (askLooking otherFamily) [] rfl).trans ?_
    have hkey : (askLooking plainFamily).key = (askLooking otherFamily).key := rfl
    rw [List.singleton_append, List.findSome?_cons, if_pos hkey, hfirst]
  · obtain ⟨hagrees, -⟩ := List.pairwise_cons.mp (hiff.mp heq)
    have hagree := hagrees _ List.mem_cons_self rfl (by simp [hfirst])
    rw [hfirst, hother] at hagree
    exact absurd hagree (by decide)
  · simp [askLooking, Labelling.Query.About]

end Sample

end Fabula
