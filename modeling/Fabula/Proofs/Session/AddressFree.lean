import Fabula.Proofs.Machine.Blocks
import Fabula.Proofs.Session.Restoring
import Fabula.Session.Save

/-! Scripts see what lists hold and which lists are the same, but never where a list is. Two
sessions of a story whose variables hold the same up to the places of their lists answer every
sequence of requests alike, stay so after every request, and save the same bytes.

Both sides number their lists in the order in which they meet them. The levels that bound the
writing differ with the sizes of the heaps, but there are always enough of them for the lists that
have no number yet. -/

namespace Fabula

structure ListNumbers.Alike (R : Handle → Handle → Prop) (a b : Heap) (known known' : ListNumbers) :
    Prop where
  size_eq : known.size = known'.size
  paired : ∀ {h k : Handle}, R h k → known[h]? = known'[k]?
  inside : ∀ {h : Handle} {n : Nat}, known[h]? = some n → h < a.size
  inside' : ∀ {k : Handle} {n : Nat}, known'[k]? = some n → k < b.size

structure SavedAlike (R : Handle → Handle → Prop) (a b : Heap) (least : Nat)
    (x y : Bytes × ListNumbers) : Prop where
  bytes : x.1 = y.1
  numbers : ListNumbers.Alike R a b x.2 y.2
  least : least ≤ x.2.size

namespace ListNumbers.Alike

variable {R : Handle → Handle → Prop} {a b : Heap} {known known' : ListNumbers}

theorem empty : Alike R a b ∅ ∅ where
  size_eq := rfl
  paired _ := by rw [Std.ExtTreeMap.getElem?_empty, Std.ExtTreeMap.getElem?_empty]
  inside h := by simp at h
  inside' h := by simp at h

theorem keep (h : Alike R a b known known') (bytes : Bytes) :
    SavedAlike R a b known.size (bytes, known) (bytes, known') := ⟨rfl, h, le_rfl⟩

theorem meet (h : Alike R a b known known') (hab : a.Mirrors R b) {p q : Handle} (hr : R p q)
    (hn : known[p]? = none) :
    Alike R a b (known.insert p known.size) (known'.insert q known'.size) := by
  have hn' : known'[q]? = none := (h.paired hr).symm.trans hn
  constructor
  · rw [size_insert_next hn, size_insert_next hn', h.size_eq]
  · intro p' q' hr'
    rw [Std.ExtTreeMap.getElem?_insert, Std.ExtTreeMap.getElem?_insert, h.size_eq]
    simp only [Std.compare_eq_iff_eq, hab.eq_iff_eq hr hr', h.paired hr']
  · intro p' n hp
    rw [Std.ExtTreeMap.getElem?_insert] at hp
    split at hp
    · rename_i he
      exact Std.compare_eq_iff_eq.mp he ▸ (hab.inside hr).1
    · exact h.inside hp
  · intro q' n hq
    rw [Std.ExtTreeMap.getElem?_insert] at hq
    split at hq
    · rename_i he
      exact Std.compare_eq_iff_eq.mp he ▸ (hab.inside hr).2
    · exact h.inside' hq

end ListNumbers.Alike

theorem SavedAlike.after {R : Handle → Handle → Prop} {a b : Heap} {least : Nat}
    {x y : Bytes × ListNumbers} (h : SavedAlike R a b least x y) (bytes : Bytes) :
    SavedAlike R a b least (bytes ++ x.1, x.2) (bytes ++ y.1, y.2) :=
  ⟨by rw [h.bytes], h.numbers, h.least⟩

theorem savedAlike_inOrder {α β : Type} {R : Handle → Handle → Prop} {a b : Heap}
    {P : α → β → Prop} (save : α → ListNumbers → Bytes × ListNumbers)
    (save' : β → ListNumbers → Bytes × ListNumbers) (least : Nat)
    (hstep : ∀ x y known known', P x y → ListNumbers.Alike R a b known known' → least ≤ known.size →
      SavedAlike R a b known.size (save x known) (save' y known'))
    {xs : List α} {ys : List β} (hxy : List.Forall₂ P xs ys) {known known' : ListNumbers}
    (h : ListNumbers.Alike R a b known known') (hl : least ≤ known.size) :
    SavedAlike R a b known.size (Bytes.inOrder save xs known) (Bytes.inOrder save' ys known') := by
  induction hxy generalizing known known' with
  | nil => exact h.keep []
  | @cons x y xs ys hxy _ ih =>
    have hhead := hstep x y known known' hxy h hl
    have htail := ih hhead.numbers (hl.trans hhead.least)
    simp only [Bytes.inOrder]
    exact ⟨by rw [hhead.bytes, htail.bytes], htail.numbers, hhead.least.trans htail.least⟩

theorem savedAlike_known {R : Handle → Handle → Prop} {a b : Heap} {v w : Value}
    (hv : v.Alike R w) {known known' : ListNumbers} (h : ListNumbers.Alike R a b known known')
    (hk : ∀ p, v = .list p → known[p]? ≠ none) (levels levels' : Nat) :
    SavedAlike R a b known.size (Bytes.savedValue a levels v known)
      (Bytes.savedValue b levels' w known') := by
  cases hv with
  | scalar hs =>
    rw [Bytes.savedValue_scalar a levels known hs, Bytes.savedValue_scalar b levels' known' hs]
    exact h.keep _
  | @list p q hr =>
    obtain ⟨n, hn⟩ := Option.ne_none_iff_exists'.mp (hk p rfl)
    rw [Bytes.savedValue_met a levels hn,
      Bytes.savedValue_met b levels' ((h.paired hr).symm.trans hn)]
    exact h.keep _

/-- A value and its partner are written alike, given levels enough on both sides. -/
theorem savedAlike_value {R : Handle → Handle → Prop} {a b : Heap} (hab : a.Mirrors R b)
    (levels : Nat) : ∀ (levels' : Nat) (v w : Value) (known known' : ListNumbers), v.Alike R w →
      ListNumbers.Alike R a b known known' → a.size < levels + known.size →
      b.size < levels' + known.size →
      SavedAlike R a b known.size (Bytes.savedValue a levels v known)
        (Bytes.savedValue b levels' w known') := by
  induction levels with
  | zero =>
    intro levels' v w known known' hv h ha _
    refine savedAlike_known hv h ?_ 0 levels'
    rintro p rfl hn
    cases hv with
    | scalar hs => cases hs
    | list hr =>
      have hlt := size_lt_of_unmet h.inside (hab.inside hr).1 hn
      omega
  | succ levels ih =>
    intro levels' v w known known' hv h ha hb
    by_cases hk : ∃ p, v = .list p ∧ known[p]? = none
    · obtain ⟨p, rfl, hn⟩ := hk
      cases hv with
      | scalar hs => cases hs
      | @list _ q hr =>
        have hn' := (h.paired hr).symm.trans hn
        have hlt := size_lt_of_unmet h.inside' (hab.inside hr).2 hn'
        rw [← h.size_eq] at hlt
        obtain ⟨rest, rfl⟩ : ∃ rest, levels' = rest + 1 := ⟨levels' - 1, by omega⟩
        have hsize := size_insert_next hn
        have hitems := savedAlike_inOrder (Bytes.savedValue a levels) (Bytes.savedValue b rest)
          (known.size + 1)
          (fun v w c c' hv hc hl => ih rest v w c c' hv hc (by omega) (by omega))
          (hab.items hr) (h.meet hab hr hn) (by omega)
        rw [Bytes.savedValue_unmet a levels hn, Bytes.savedValue_unmet b rest hn']
        have hleast := hitems.least
        rw [hsize] at hleast
        refine ⟨?_, hitems.numbers, Nat.le_of_succ_le hleast⟩
        rw [hitems.bytes, ← h.size_eq, hab.length_eq hr]
    · exact savedAlike_known hv h (fun p hp hn => hk ⟨p, hp, hn⟩) _ _

section

variable {R : Handle → Handle → Prop} {s t : State}

theorem savedAlike_variable {a b : Heap} (hab : a.Mirrors R b) {x y : String × Value}
    (hxy : x.1 = y.1 ∧ x.2.Alike R y.2) {known known' : ListNumbers}
    (h : ListNumbers.Alike R a b known known') :
    SavedAlike R a b known.size (Bytes.savedVariable a x known)
      (Bytes.savedVariable b y known') := by
  unfold Bytes.savedVariable
  rw [hxy.1]
  exact (savedAlike_value hab (a.size + 1) (b.size + 1) x.2 y.2 known known' hxy.2 h (by omega)
    (by omega)).after (Bytes.text y.1)

theorem savedAlike_context {a b : Heap} (hab : a.Mirrors R b) {c d : Context} (hcd : c.Alike R d)
    {known known' : ListNumbers} (h : ListNumbers.Alike R a b known known') :
    SavedAlike R a b known.size (Bytes.savedContext a c known)
      (Bytes.savedContext b d known') := by
  have hvariables := savedAlike_inOrder (Bytes.savedVariable a) (Bytes.savedVariable b) 0
    (fun _ _ _ _ hxy hk _ => savedAlike_variable hab hxy hk) hcd.bindings.toList h (Nat.zero_le _)
  unfold Bytes.savedContext
  rw [← Std.ExtTreeMap.length_toList (t := c.bindings),
    ← Std.ExtTreeMap.length_toList (t := d.bindings), hcd.bindings.toList.length_eq]
  exact hvariables.after _

theorem savedAlike_element (hst : s.Alike R t) (story : Story) (e : ElementRef)
    {known known' : ListNumbers} (h : ListNumbers.Alike R s.heap t.heap known known') :
    SavedAlike R s.heap t.heap known.size (Bytes.savedElement s story e known)
      (Bytes.savedElement t story e known') := by
  unfold Bytes.savedElement
  rcases hst.context_cases story e.identity with ⟨c, d, hc, hd, hcd⟩ | ⟨error, hc, hd⟩
  · rw [hc, hd]
    exact (savedAlike_context hst.heap hcd h).after _
  · rw [hc, hd]
    exact h.keep _

theorem savedAlike_kind (hst : s.Alike R t) (story : Story) (kind : ElementKind)
    {known known' : ListNumbers} (h : ListNumbers.Alike R s.heap t.heap known known') :
    SavedAlike R s.heap t.heap known.size (Bytes.savedKind s story kind known)
      (Bytes.savedKind t story kind known') := by
  unfold Bytes.savedKind
  rw [← Exec.live_eq hst kind]
  refine (savedAlike_inOrder (P := Eq) _ _ 0 (fun e _ k k' he hk _ => ?_)
    (List.forall₂_refl (s.live kind)) h (Nat.zero_le _)).after _
  subst he
  exact savedAlike_element hst story e hk

theorem savedVariables_eq {c d : Session} (hstory : c.story = d.story)
    (hst : c.state.Alike R d.state) : c.savedVariables = d.savedVariables := by
  have hkinds : ∀ {known known' : ListNumbers},
      ListNumbers.Alike R c.state.heap d.state.heap known known' →
      (Bytes.inOrder (Bytes.savedKind c.state c.story) Story.fileKinds known).1 =
        (Bytes.inOrder (Bytes.savedKind d.state c.story) Story.fileKinds known').1 := by
    intro known known' h
    refine (savedAlike_inOrder (P := Eq) _ _ 0 (fun kind _ k k' he hk _ => ?_)
      (List.forall₂_refl Story.fileKinds) h (Nat.zero_le _)).bytes
    subst he
    exact savedAlike_kind hst c.story kind hk
  unfold Session.savedVariables
  rw [← hstory]
  rcases hst.context_cases c.story worldIdentity with ⟨x, y, hx, hy, hxy⟩ | ⟨error, hx, hy⟩
  · have hworld := savedAlike_context hst.heap hxy (ListNumbers.Alike.empty)
    rw [hx, hy]
    simp only [hworld.bytes, hkinds hworld.numbers]
  · rw [hx, hy]
    simp only [hkinds ListNumbers.Alike.empty]

end

/-- Sessions of one story that differ in nothing but the places of their lists. -/
structure Session.Isomorphic (s t : Session) : Prop where
  story : s.story = t.story
  digest : s.digest = t.digest
  limits : s.limits = t.limits
  bound : s.state.Isomorphic t.state
  ownership : s.state.ownership = t.state.ownership
  random : s.state.random = t.state.random

inductive Request where
  | setUp (options : RequestOptions)
  | act (i : Invocation) (options : RequestOptions)

namespace Session

def answer (s : Session) : Request → Option (Response × Session)
  | .setUp options => s.setUp options
  | .act i options => s.act i options

/-- The answers to requests made one after another, each with the session it leaves. A request
without an answer is the last one. -/
def play (s : Session) : List Request → List (Response × Session)
  | [] => []
  | r :: rest =>
    match s.answer r with
    | none => []
    | some (response, s') => (response, s') :: s'.play rest

theorem conclude_story (s : Session) (env : Env) (outcome : Outcome Unit) :
    ∀ x ∈ s.conclude env outcome, x.2.story = s.story := by
  intro x hx
  cases outcome with
  | exhausted => cases hx
  | done => obtain rfl := Option.some.inj hx; rfl
  | stopped => obtain rfl := Option.some.inj hx; rfl

theorem answer_story (s : Session) (r : Request) : ∀ x ∈ s.answer r, x.2.story = s.story := by
  cases r with
  | setUp options => exact conclude_story s _ _
  | act i options => exact conclude_story s _ _

theorem Isomorphic.alike {s t : Session} (h : s.Isomorphic t) : ∃ R, s.state.Alike R t.state := by
  obtain ⟨R, hR⟩ := h.bound
  exact ⟨R, hR.toMirrors, h.ownership, h.random⟩

theorem Isomorphic.of_alike {s t : Session} (h : s.Isomorphic t)
    {R : Handle → Handle → Prop} {a b : State} (hab : a.Alike R b) :
    Isomorphic { s with state := a } { t with state := b } where
  story := h.story
  digest := h.digest
  limits := h.limits
  bound := ⟨_, hab.toMirrors.correspond⟩
  ownership := hab.ownership
  random := hab.random

theorem Isomorphic.save_eq {s t : Session} (h : s.Isomorphic t) : s.save = t.save := by
  obtain ⟨R, hR⟩ := h.alike
  rw [save, save, h.digest, savedVariables_eq h.story hR, h.ownership]

theorem finishRequest_alike {R : Handle → Handle → Prop} {m n : Machine} (h : m.Alike R n)
    (env : Env) (failure : Option Signal) :
    (finishRequest env failure m).1 = (finishRequest env failure n).1 ∧
      (finishRequest env failure m).2.Alike R (finishRequest env failure n).2 := by
  have hcues : ∀ cue : Cue, { m with cues := m.cues.push cue }.Alike R
      { n with cues := n.cues.push cue } := fun cue => { h with cues := by rw [h.cues] }
  unfold finishRequest
  cases failure with
  | none =>
    have hw := h.watched env .requests (f := fun _ => .requestEnd none)
      (g := fun _ => .requestEnd none) rfl
    exact ⟨by simp only [hw.cues, hw.operations, hw.depthPeak, hw.events], hw.state⟩
  | some signal =>
    have hw := (hcues (failureCue signal)).watched env .requests
      (f := fun _ => .requestEnd (some signal)) (g := fun _ => .requestEnd (some signal)) rfl
    exact ⟨by simp only [hw.cues, hw.operations, hw.depthPeak, hw.events], hw.state⟩

def AnswersAlike (x y : Response × Session) : Prop := x.1 = y.1 ∧ x.2.Isomorphic y.2

theorem conclude_alike {s t : Session} (h : s.Isomorphic t) (env : Env)
    {R : Handle → Handle → Prop} {x y : Outcome Unit}
    (hxy : Outcome.Agree Machine.Alike Exec.Same R x y) :
    Option.Rel AnswersAlike (s.conclude env x) (t.conclude env y) := by
  cases hxy with
  | exhausted => exact .none
  | done _ _ machines =>
    have hended := finishRequest_alike machines env none
    exact .some ⟨hended.1, h.of_alike hended.2⟩
  | stopped _ machines =>
    have hended := finishRequest_alike machines env
    exact .some ⟨(hended _).1, h.of_alike (hended _).2⟩

theorem request_alike {s t : Session} (h : s.Isomorphic t) (options : RequestOptions)
    (label : String) {body : Env → Exec Unit}
    (hbody : ∀ R : Handle → Handle → Prop,
      Exec.RunsAlike R (body (s.env options)) (body (s.env options))) :
    Option.Rel AnswersAlike (s.request options label body) (t.request options label body) := by
  obtain ⟨R, hR⟩ := h.alike
  have henv : t.env options = s.env options := by rw [env, env, h.story, h.limits]
  have hstart : Machine.Alike R { state := s.state } { state := t.state } :=
    ⟨hR, .nil, .nil, .none, rfl, rfl, rfl, rfl, rfl, rfl, rfl⟩
  have hwatched := hstart.watched (s.env options) .requests
    (f := fun _ => .requestStart label) (g := fun _ => .requestStart label) rfl
  unfold request
  rw [henv]
  exact conclude_alike h _ (hbody R R _ _ le_rfl hwatched)

theorem answer_alike {s t : Session} (h : s.Isomorphic t) (hlists : s.story.listFree = true)
    (r : Request) : Option.Rel AnswersAlike (s.answer r) (t.answer r) := by
  cases r with
  | setUp options =>
    rw [answer, answer, setUp, setUp, ← h.limits]
    exact request_alike h options _ fun _ => Exec.alike_setUp hlists _
  | act i options =>
    rw [answer, answer, act, act, ← h.limits]
    exact request_alike h options _ fun _ => Exec.alike_command hlists _ i

/-- Play never shows where lists are: sessions that differ in nothing else give the same answers to
all requests, stay so after every one of them, and save the same bytes at any time. Stories with
list constants, which have no digest, cannot be played. -/
theorem play_eq_of_isomorphic {s t : Session} (h : s.Isomorphic t)
    (hlists : s.story.listFree = true) (requests : List Request) :
    s.save = t.save ∧
      List.Forall₂ (fun x y => x.1 = y.1 ∧ x.2.Isomorphic y.2 ∧ x.2.save = y.2.save)
        (s.play requests) (t.play requests) := by
  refine ⟨h.save_eq, ?_⟩
  induction requests generalizing s t with
  | nil => exact .nil
  | cons r requests ih =>
    have hr := answer_alike h hlists r
    have hstory := answer_story s r
    unfold play
    generalize s.answer r = x at hr hstory
    generalize t.answer r = y at hr
    cases hr with
    | none => exact .nil
    | @some x y hxy =>
      exact .cons ⟨hxy.1, hxy.2, hxy.2.save_eq⟩ (ih hxy.2 (by rw [hstory x rfl]; exact hlists))

end Session

namespace Sample

/-- The world and the lamp share the list at a place of the heap. -/
def sharing (heap : Heap) (h : Handle) : Session :=
  let s := cellarSession heap
  let shared := (∅ : Table Value).insert "knot" (.list h)
  { s with
    state := (s.state.putContext "world" ⟨.world, shared⟩).putContext "lamp"
      ⟨⟨.object, "lamp"⟩, shared⟩ }

/-- The list contains itself and is the only one. -/
def near : Session := sharing (Heap.empty.alloc [.list 0, .integer 7]).2 0

/-- The same after another list. -/
def far : Session := sharing ((Heap.empty.alloc [.boolean true]).2.alloc [.list 1, .integer 7]).2 1

theorem near_isomorphic_far : near.Isomorphic far where
  story := rfl
  digest := rfl
  limits := rfl
  ownership := rfl
  random := rfl
  bound := by
    have hshared : ∀ e : ElementRef, Context.Alike (fun p q => p = 0 ∧ q = 1)
        ⟨e, (∅ : Table Value).insert "knot" (.list 0)⟩
        ⟨e, (∅ : Table Value).insert "knot" (.list 1)⟩ :=
      fun _ => ⟨rfl, TablesAlike.empty.insert (.list ⟨rfl, rfl⟩) "knot"⟩
    have hstart : TablesAlike (Context.Alike fun p q => p = 0 ∧ q = 1)
        (Session.startContexts cellarStory.digest.2)
        (Session.startContexts cellarStory.digest.2) := by
      intro key
      cases hc : (Session.startContexts cellarStory.digest.2)[key]? with
      | none => exact .none
      | some c =>
        have hb : c.bindings = ∅ := Session.bindings_of_startContexts hc
        exact .some ⟨rfl, by rw [hb]; exact TablesAlike.empty⟩
    refine ⟨_, State.Mirrors.correspond (R := fun p q => p = 0 ∧ q = 1) ⟨⟨?_, ?_, ?_, ?_⟩, ?_⟩⟩
    · rintro p q q' ⟨-, rfl⟩ ⟨-, rfl⟩
      rfl
    · rintro p p' q ⟨rfl, -⟩ ⟨rfl, -⟩
      rfl
    · rintro p q ⟨rfl, rfl⟩
      decide +kernel
    · rintro p q ⟨rfl, rfl⟩
      exact .cons (.list ⟨rfl, rfl⟩) (.cons (.scalar rfl) .nil)
    · exact (hstart.insert (hshared .world) _).insert (hshared ⟨.object, "lamp"⟩) _

theorem play_near_far :
    let requests := [.setUp {}, .act (.general "look") {}, .act (.general "dance") {}]
    near.save = far.save ∧
      List.Forall₂ (fun x y => x.1 = y.1 ∧ x.2.Isomorphic y.2 ∧ x.2.save = y.2.save)
        (near.play requests) (far.play requests) := by
  have hnew : cellarStory.knownDigest = none := by decide +kernel
  have hlists : (cellarSession .empty).story.listFree = true :=
    Session.listFree_of_start hnew (start_cellarStory .empty)
  exact Session.play_eq_of_isomorphic near_isomorphic_far hlists _

end Sample

end Fabula
