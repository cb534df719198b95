import Fabula.Machine.Execute
import Fabula.Proofs.Machine.Relational
import Fabula.Proofs.Session.Cast
import Fabula.Proofs.Value.Renaming

/-! Machines that differ in nothing but the places of their lists. The world is the pairing of the
lists of one side with those of the other; it grows when both sides make a new list. What a machine
can do to its values in one step is to move them, to look into their lists, and to change a list,
and none of this tells the two sides apart. -/

namespace Fabula

/-- States that are the same up to a pairing of their lists. -/
structure State.Alike (R : Handle → Handle → Prop) (s t : State) : Prop
    extends State.Mirrors R s t where
  ownership : s.ownership = t.ownership
  random : s.random = t.random

structure Frame.Alike (R : Handle → Handle → Prop) (f g : Frame) : Prop where
  element : f.element = g.element
  scope : f.scope = g.scope
  locals : TablesAlike (Value.Alike R) f.locals g.locals

structure Machine.Alike (R : Handle → Handle → Prop) (m n : Machine) : Prop where
  state : m.state.Alike R n.state
  stack : List.Forall₂ (Value.Alike R) m.stack.values n.stack.values
  frames : List.Forall₂ (Frame.Alike R) m.frames n.frames
  pendingReturn : Option.Rel (Value.Alike R) m.pendingReturn n.pendingReturn
  queued : m.queued = n.queued
  served : m.served = n.served
  operations : m.operations = n.operations
  depth : m.depth = n.depth
  depthPeak : m.depthPeak = n.depthPeak
  cues : m.cues = n.cues
  events : m.events = n.events

theorem Context.Alike.mono {R S : Handle → Handle → Prop} (hRS : R ≤ S) {c d : Context}
    (h : c.Alike R d) : c.Alike S d :=
  ⟨h.element, h.bindings.mono fun _ _ hv => hv.mono hRS⟩

theorem Frame.Alike.mono {R S : Handle → Handle → Prop} (hRS : R ≤ S) {f g : Frame}
    (h : f.Alike R g) : f.Alike S g :=
  ⟨h.element, h.scope, h.locals.mono fun _ _ hv => hv.mono hRS⟩

/-- Lists that correspond, and the new lists of both sides. -/
def Heap.Paired (R : Handle → Handle → Prop) (a b : Heap) (p q : Handle) : Prop :=
  R p q ∨ p = a.size ∧ q = b.size

namespace Heap.Mirrors

variable {R : Handle → Handle → Prop} {a b : Heap}

theorem alloc (h : a.Mirrors R b) {xs ys : List Value} (hxy : List.Forall₂ (Value.Alike R) xs ys) :
    (a.alloc xs).2.Mirrors (Heap.Paired R a b) (b.alloc ys).2 where
  right_unique := by
    rintro p q q' (hr | ⟨rfl, rfl⟩) (hr' | ⟨hp, rfl⟩)
    · exact h.right_unique hr hr'
    · exact absurd hp (Nat.ne_of_lt (h.inside hr).1)
    · exact absurd rfl (Nat.ne_of_lt (h.inside hr').1)
    · rfl
  left_unique := by
    rintro p p' q (hr | ⟨rfl, rfl⟩) (hr' | ⟨rfl, hq⟩)
    · exact h.left_unique hr hr'
    · exact absurd hq (Nat.ne_of_lt (h.inside hr).2)
    · exact absurd rfl (Nat.ne_of_lt (h.inside hr').2)
    · rfl
  inside := by
    rintro p q (hr | ⟨rfl, rfl⟩)
    · rw [size_alloc, size_alloc]
      exact ⟨Nat.lt_succ_of_lt (h.inside hr).1, Nat.lt_succ_of_lt (h.inside hr).2⟩
    · simp
  items := by
    rintro p q (hr | ⟨rfl, rfl⟩)
    · rw [items_alloc, items_alloc, if_neg (Nat.ne_of_lt (h.inside hr).1),
        if_neg (Nat.ne_of_lt (h.inside hr).2)]
      exact (h.items hr).imp fun _ _ hv => hv.mono fun _ _ => .inl
    · rw [items_alloc, items_alloc, if_pos rfl, if_pos rfl]
      exact hxy.imp fun _ _ hv => hv.mono fun _ _ => .inl

theorem modify (h : a.Mirrors R b) {p q : Handle} (hr : R p q) {f g : Array Value → Array Value}
    (hf : List.Forall₂ (Value.Alike R) (f (a.cell p)).toList (g (b.cell q)).toList) :
    (a.modify p f).Mirrors R (b.modify q g) where
  right_unique := h.right_unique
  left_unique := h.left_unique
  inside hr' := by
    rw [size_modify, size_modify]
    exact h.inside hr'
  items := by
    intro p' q' hr'
    rw [Heap.items, Heap.items, cell_modify, cell_modify]
    by_cases hp : p' = p
    · have hq := (h.eq_iff_eq hr' hr).mp hp
      rw [if_pos ⟨hp, (h.inside hr).1⟩, if_pos ⟨hq, (h.inside hr).2⟩]
      exact hf
    · have hq : q' ≠ q := fun hq => hp ((h.eq_iff_eq hr' hr).mpr hq)
      rw [if_neg fun hc => hp hc.1, if_neg fun hc => hq hc.1]
      exact h.items hr'

end Heap.Mirrors

namespace State.Alike

variable {R : Handle → Handle → Prop} {s t : State}

theorem currentPlayer_eq (h : s.Alike R t) : s.currentPlayer = t.currentPlayer := by
  rw [currentPlayer, currentPlayer, h.ownership]

theorem currentRoom_eq (h : s.Alike R t) : s.currentRoom = t.currentRoom := by
  rw [currentRoom, currentRoom, h.ownership]

theorem context_cases (h : s.Alike R t) (story : Story) (identity : String) :
    (∃ c d, s.context story identity = .ok c ∧ t.context story identity = .ok d ∧ c.Alike R d) ∨
      ∃ e, s.context story identity = .error e ∧ t.context story identity = .error e := by
  have hk := h.contexts (Text.fold identity)
  unfold State.context
  generalize s.contexts[Text.fold identity]? = c at hk ⊢
  generalize t.contexts[Text.fold identity]? = d at hk ⊢
  cases hk with
  | some hcd => exact .inl ⟨_, _, rfl, rfl, hcd⟩
  | none =>
    simp only
    split
    · exact .inr ⟨_, rfl, rfl⟩
    · exact .inr ⟨_, rfl, rfl⟩

theorem resolve_eq (h : s.Alike R t) (story : Story) (kind : ElementKind) (identity : String) :
    s.resolve story kind identity = t.resolve story kind identity := by
  unfold State.resolve
  rw [h.currentPlayer_eq, h.currentRoom_eq]
  rcases h.context_cases story identity with ⟨c, d, hc, hd, hcd⟩ | ⟨e, hc, hd⟩
  · rw [hc, hd]
    simp only [hcd.element]
  · rw [hc, hd]

theorem resolveValue_self (h : s.Alike R t) (story : Story) (v : Value) :
    s.resolveValue story v = t.resolveValue story v := by
  cases v with
  | element kind identity => simp only [State.resolveValue, h.resolve_eq story kind identity]
  | _ => rfl

theorem resolveValue_eq (h : s.Alike R t) (story : Story) {v w : Value} (hv : v.Alike R w) :
    s.resolveValue story v = t.resolveValue story w := by
  cases hv with
  | list => rfl
  | scalar => exact h.resolveValue_self story v

end State.Alike

namespace Machine.Alike

variable {R S : Handle → Handle → Prop} {m n : Machine}

theorem heap (h : m.Alike R n) : m.state.heap.Mirrors R n.state.heap := h.state.heap

theorem height_eq (h : m.Alike R n) : m.stack.height = n.stack.height := by
  rw [m.stack.height_eq, n.stack.height_eq]
  exact h.stack.length_eq

theorem grow (h : m.Alike R n) (hRS : R ≤ S) {a b : Heap} (hab : a.Mirrors S b) :
    { m with state := { m.state with heap := a } }.Alike S
      { n with state := { n.state with heap := b } } :=
  { h with
    state :=
      { heap := hab
        contexts := h.state.contexts.mono fun _ _ hc => hc.mono hRS
        ownership := h.state.ownership
        random := h.state.random }
    stack := h.stack.imp fun _ _ hv => hv.mono hRS
    frames := h.frames.imp fun _ _ hf => hf.mono hRS
    pendingReturn := by
      have hp := h.pendingReturn
      generalize m.pendingReturn = v at hp
      generalize n.pendingReturn = w at hp
      cases hp with
      | some hv => exact .some (hv.mono hRS)
      | none => exact .none }

theorem traced (h : m.Alike R n) (env : Env) (topic : Topic) {f g : Machine → String}
    (hfg : f m = g n) : (m.traced env topic f).Alike R (n.traced env topic g) := by
  unfold Machine.traced
  split
  · exact { h with cues := by simp only [h.cues, hfg] }
  · exact h

theorem watched (h : m.Alike R n) (env : Env) (wanted : TraceMask) {f g : Machine → Event}
    (hfg : f m = g n) : (m.watched env wanted f).Alike R (n.watched env wanted g) := by
  unfold Machine.watched
  split
  · exact { h with events := by simp only [h.events, hfg] }
  · exact h

theorem bottom (h : m.Alike R n) (height : Nat) :
    { m with stack := m.stack.bottom height }.Alike R
      { n with stack := n.stack.bottom height } :=
  { h with
    stack := by
      simp only [Stack.bottom, Stack.values_drop, h.height_eq]
      exact List.forall₂_drop _ h.stack }

end Machine.Alike

theorem Stack.pop?_eq (s : Stack) :
    s.pop? = match s.values with
      | [] => none
      | v :: _ => some (v, s.drop 1) := by
  obtain ⟨values, height, h⟩ := s
  cases values with
  | nil => rfl
  | cons v rest => rfl

namespace Exec

variable {R : Handle → Handle → Prop}

abbrev RunsAlike {α : Type} (R : Handle → Handle → Prop) (x y : Exec α) : Prop :=
  Agree Machine.Alike Same R x y

theorem alike_pop (op : Opcode) : Agree Machine.Alike Value.Alike R (pop op) (pop op) := by
  intro S m n _ hm
  have hs := hm.stack
  unfold pop
  rw [Stack.pop?_eq, Stack.pop?_eq]
  cases hv : m.stack.values with
  | nil =>
    rw [hv] at hs
    rw [List.forall₂_nil_left_iff.mp hs]
    exact .stopped le_rfl hm
  | cons v vs =>
    rw [hv] at hs
    obtain ⟨w, ws, hvw, hrest, hw⟩ := List.forall₂_cons_left_iff.mp hs
    rw [hw]
    refine .done le_rfl hvw { hm with stack := ?_ }
    simpa [hv, hw] using hrest

theorem alike_push {v w : Value} (h : v.Alike R w) :
    RunsAlike R (push v) (push w) :=
  agree_change fun _ _ _ hS hm => { hm with stack := .cons (h.mono hS) hm.stack }

theorem alike_push_scalar {v : Value} (h : v.isShared = false) :
    RunsAlike R (push v) (push v) := alike_push (.scalar h)

theorem alike_popMany (op : Opcode) (k : Nat) :
    Agree Machine.Alike (fun R => List.Forall₂ (Value.Alike R)) R
      (popMany op k) (popMany op k) := by
  intro S m n _ hm
  unfold popMany
  rw [hm.height_eq]
  split
  · exact .stopped le_rfl hm
  · refine .done le_rfl ?_ { hm with stack := List.forall₂_drop k hm.stack }
    exact List.rel_reverse (List.forall₂_take k hm.stack)

theorem alike_withHeap {α β : Type} {A : (Handle → Handle → Prop) → α → β → Prop} {f : Heap → α}
    {g : Heap → β} (h : ∀ S a b, R ≤ S → a.Mirrors S b → A S (f a) (g b)) :
    Agree Machine.Alike A R (withHeap f) (withHeap g) :=
  agree_see fun S _ _ hS hm => h S _ _ hS hm.heap

theorem alike_ask {α : Type} {f g : State → Except Fault α}
    (h : ∀ S s t, R ≤ S → s.Alike S t → f s = g t) :
    RunsAlike R (ask f) (ask g) := by
  intro S m n hS hm
  unfold ask
  rw [h S _ _ hS hm.state]
  split
  · exact .done le_rfl rfl hm
  · exact .stopped le_rfl hm

theorem alike_ownership : RunsAlike R ownership ownership :=
  agree_see fun _ _ _ _ hm => hm.state.ownership

theorem alike_changeOwnership (f : Ownership → Ownership) :
    RunsAlike R (changeOwnership f) (changeOwnership f) :=
  agree_change fun _ _ _ _ hm =>
    { hm with state := { hm.state with ownership := congrArg f hm.state.ownership } }

theorem alike_emit (c : Cue) : RunsAlike R (emit c) (emit c) :=
  agree_change fun _ _ _ _ hm => { hm with cues := by rw [hm.cues] }

theorem alike_trace (env : Env) (topic : Topic) {f g : Machine → String}
    (h : ∀ S m n, R ≤ S → m.Alike S n → f m = g n) :
    RunsAlike R (trace env topic f) (trace env topic g) :=
  agree_change fun S m n hS hm => hm.traced env topic (h S m n hS hm)

theorem alike_record (env : Env) (wanted : TraceMask) {f g : Machine → Event}
    (h : ∀ S m n, R ≤ S → m.Alike S n → f m = g n) :
    RunsAlike R (record env wanted f) (record env wanted g) :=
  agree_change fun S m n hS hm => hm.watched env wanted (h S m n hS hm)

theorem alike_frame (op : Opcode) : Agree Machine.Alike Frame.Alike R (frame op) (frame op) := by
  intro S m n _ hm
  have hf := hm.frames
  unfold frame
  generalize m.frames = fs at hf
  generalize n.frames = gs at hf
  cases hf with
  | nil => exact .stopped le_rfl hm
  | cons hfg _ => exact .done le_rfl hfg hm

theorem alike_setLocals {t u : Table Value} (h : TablesAlike (Value.Alike R) t u) :
    RunsAlike R (setLocals t) (setLocals u) := by
  refine agree_change fun S m n hS hm => ?_
  have hf := hm.frames
  cases hm' : m.frames with
  | nil =>
    rw [hm'] at hf
    rw [List.forall₂_nil_left_iff.mp hf]
    exact hm
  | cons f fs =>
    rw [hm'] at hf
    obtain ⟨g, gs, hfg, hrest, hn'⟩ := List.forall₂_cons_left_iff.mp hf
    rw [hn']
    exact { hm with
      frames := .cons ⟨hfg.element, hfg.scope, h.mono fun _ _ hv => hv.mono hS⟩ hrest }

theorem alike_changeContext (env : Env) (identity : String) {f g : Context → Context}
    (h : ∀ S c d, R ≤ S → c.Alike S d → (f c).Alike S (g d)) :
    RunsAlike R (changeContext env identity f) (changeContext env identity g) := by
  intro S m n hS hm
  unfold changeContext
  rcases hm.state.context_cases env.story identity with ⟨c, d, hc, hd, hcd⟩ | ⟨e, hc, hd⟩
  · rw [hc, hd]
    refine .done le_rfl rfl { hm with state := { hm.state with contexts := ?_ } }
    exact hm.state.contexts.insert (h S c d hS hcd) _
  · rw [hc, hd]
    exact .stopped le_rfl hm

theorem alike_newList {xs ys : List Value} (h : List.Forall₂ (Value.Alike R) xs ys) :
    Agree Machine.Alike Value.Alike R (newList xs) (newList ys) := by
  intro S m n hS hm
  have hxy : List.Forall₂ (Value.Alike S) xs ys := h.imp fun _ _ hv => hv.mono hS
  have hgrow : S ≤ Heap.Paired S m.state.heap n.state.heap := fun _ _ => .inl
  exact .done hgrow (.list (.inr ⟨rfl, rfl⟩)) (hm.grow hgrow (hm.heap.alloc hxy))

theorem alike_changeList {p q : Handle} (hr : R p q) {f g : Array Value → Array Value}
    (h : ∀ (S : Handle → Handle → Prop) (xs ys : Array Value), R ≤ S →
      List.Forall₂ (Value.Alike S) xs.toList ys.toList →
      List.Forall₂ (Value.Alike S) (f xs).toList (g ys).toList) :
    RunsAlike R (changeList p f) (changeList q g) :=
  agree_change fun S _ _ hS hm =>
    hm.grow le_rfl (hm.heap.modify (hS _ _ hr) (h S _ _ hS (hm.heap.items (hS _ _ hr))))

theorem alike_draw {α : Type} (f : RandomSource → α × RandomSource) :
    RunsAlike R (draw f) (draw f) := by
  intro S m n _ hm
  unfold draw
  rw [hm.state.random]
  exact .done le_rfl rfl { hm with state := { hm.state with random := rfl } }

theorem alike_queue (env : Env) (i : Invocation) :
    RunsAlike R (queue env i) (queue env i) :=
  (alike_trace env _ fun _ _ _ _ _ => rfl).bind_same fun _ _ _ =>
    agree_change fun _ _ _ _ hm => { hm with queued := by rw [hm.queued] }

end Exec

end Fabula
