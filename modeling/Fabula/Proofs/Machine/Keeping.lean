import Fabula.Proofs.Machine.Rules

/-! Invariants of the machine. Two computations keep an invariant if from every machine that has it
both do the same and leave a machine that has it, however they end. What an invariant has to stand is
listed part by part of the machine, and whatever stands it is kept by all operations. That it holds
around every single operation, however deep blocks run inside one another, is said with guards. A
guard stands around each operation and may do anything in its place. -/

namespace Fabula

theorem Stack.of_pop? {s rest : Stack} {v : Value} (h : s.pop? = some (v, rest)) :
    v ∈ s.values ∧ rest = s.drop 1 := by
  obtain ⟨values, height, hheight⟩ := s
  cases values with
  | nil => cases h
  | cons w values =>
    cases h
    exact ⟨List.mem_cons_self, rfl⟩

namespace Outcome

variable {α : Type} {I : Machine → Prop} {P Q : α → Prop} {o : Outcome α}

def Keeps (I : Machine → Prop) (P : α → Prop) : Outcome α → Prop
  | .done a m => I m ∧ P a
  | .stopped _ m => I m
  | .exhausted => True

theorem Keeps.mono (h : o.Keeps I P) (hPQ : ∀ a, P a → Q a) : o.Keeps I Q := by
  cases o with
  | exhausted => trivial
  | done a m => exact ⟨h.1, hPQ a h.2⟩
  | stopped s m => exact h

theorem Keeps.imp {J : Machine → Prop} (h : o.Keeps I P) (hIJ : ∀ m, I m → J m) : o.Keeps J P := by
  cases o with
  | exhausted => trivial
  | done a m => exact ⟨hIJ m h.1, h.2⟩
  | stopped s m => exact hIJ m h

theorem Keeps.settle (h : o.Keeps I P)
    (hcut : ∀ m height, I m → I { m with stack := m.stack.bottom height }) (height : Nat) :
    (Exec.settle height o).Keeps I P := by
  cases o with
  | exhausted => trivial
  | done a m =>
    simp only [Exec.settle]
    split
    · exact h
    · exact hcut m height h.1
  | stopped s m =>
    simp only [Exec.settle]
    split
    · exact hcut m height h
    · split
      · exact h
      · exact hcut m height h

theorem Keeps.afterwards (h : o.Keeps I P) {after : Machine → Machine}
    (hafter : ∀ m, I m → I (after m)) : (Exec.afterwards after o).Keeps I P := by
  cases o with
  | exhausted => trivial
  | done a m => exact ⟨hafter m h.1, h.2⟩
  | stopped s m => exact hafter m h

theorem Keeps.weighed {o : Outcome Unit} (h : o.Keeps I Anything)
    (hcut : ∀ m height, I m → I { m with stack := m.stack.bottom height }) (height : Nat) :
    (Exec.weighed height o).Keeps I Anything := by
  cases o with
  | exhausted => trivial
  | stopped s m => exact h
  | done a m =>
    simp only [Exec.weighed]
    split
    · exact h
    · exact hcut m height h.1

theorem Keeps.returned {o : Outcome Unit} (h : o.Keeps I Anything) {V : Value → Prop}
    (hfalse : V (.boolean false)) (hreturn : ∀ m, I m →
      I { m with pendingReturn := none } ∧ V (m.pendingReturn.getD (.boolean false))) :
    (Exec.returned o).Keeps I V := by
  cases o with
  | exhausted => trivial
  | done a m => exact ⟨h.1, hfalse⟩
  | stopped s m =>
    cases s with
    | giveBack => exact hreturn m h
    | _ => exact h

theorem Keeps.goesOn {o : Outcome Unit} (h : o.Keeps I Anything) (env : Env)
    (htrace : ∀ m, I m → I (m.traced env .control fun _ => "BREAK")) :
    (Exec.goesOn env o).Keeps I Anything := by
  cases o with
  | exhausted => trivial
  | done a m => exact ⟨h.1, .intro⟩
  | stopped s m =>
    cases s with
    | nextRound => exact ⟨h, .intro⟩
    | leaveLoop => exact ⟨htrace m h, .intro⟩
    | _ => exact h

end Outcome

namespace Exec

variable {α β : Type} {I : Machine → Prop} {P : α → Prop} {Q : β → Prop}

/-- From a machine with the invariant both computations do the same and leave one that has it. -/
def Keeps (I : Machine → Prop) {α : Type} (P : α → Prop) (x y : Exec α) : Prop :=
  ∀ m, I m → y m = x m ∧ (x m).Keeps I P

theorem keeps_of {x : Exec α} (h : ∀ m, I m → (x m).Keeps I P) : Keeps I P x x :=
  fun m hm => ⟨rfl, h m hm⟩

theorem keeps_change {f : Machine → Machine} (h : ∀ m, I m → I (f m)) :
    Keeps I Anything (change f) (change f) :=
  keeps_of fun m hm => ⟨h m hm, .intro⟩

theorem Keeps.mono {P' : α → Prop} {x y : Exec α} (hP : ∀ a, P a → P' a) (hx : Keeps I P x y) :
    Keeps I P' x y :=
  fun m hm => ⟨(hx m hm).1, (hx m hm).2.mono hP⟩

theorem Keeps.bind {x y : Exec α} {f g : α → Exec β} (hx : Keeps I P x y)
    (hf : ∀ a, P a → Keeps I Q (f a) (g a)) : Keeps I Q (x >>= f) (y >>= g) := by
  intro m hm
  obtain ⟨hsame, hkept⟩ := hx m hm
  rw [bind_apply, bind_apply, hsame]
  cases hxm : x m with
  | exhausted => exact ⟨rfl, trivial⟩
  | stopped s n =>
    rw [hxm] at hkept
    exact ⟨rfl, hkept⟩
  | done a n =>
    rw [hxm] at hkept
    exact hf a hkept.2 n hkept.1

theorem Keeps.through {x y : Exec α} (hx : Keeps I P x y)
    {after : Machine → Outcome α → Outcome β}
    (hafter : ∀ m o, Outcome.Keeps I P o → (after m o).Keeps I Q) :
    Keeps I Q (fun m => after m (x m)) fun m => after m (y m) := by
  intro m hm
  obtain ⟨hsame, hkept⟩ := hx m hm
  exact ⟨by simp only [hsame], hafter m _ hkept⟩

theorem keeps_ask {S : State → Prop} (hS : ∀ m, I m → S m.state) {f : State → Except Fault α}
    (hf : ∀ st a, S st → f st = .ok a → P a) : Keeps I P (ask f) (ask f) := by
  refine keeps_of fun m hm => ?_
  unfold ask
  split
  · rename_i a ha
    exact ⟨hm, hf m.state a (hS m hm) ha⟩
  · exact hm

end Exec

/-- What an invariant has to stand. It looks at nothing but the state, the stack, the frames and the
value to be given back, finds good values and elements there, and good ones may be put there. -/
structure Invariant (story : Story) (S : State → Prop) (G : ElementRef → Prop) (V : Value → Prop)
    (I : Machine → Prop) : Prop where
  grounds : Grounds story S G V
  state : ∀ m, I m → S m.state
  unseen : ∀ {m n : Machine}, I m → n.state = m.state → n.stack = m.stack →
    n.frames = m.frames → n.pendingReturn = m.pendingReturn → I n
  values : ∀ {m : Machine}, I m → ∀ v ∈ m.stack.values, V v
  push : ∀ {m : Machine} {v : Value}, I m → V v → I { m with stack := m.stack.push v }
  drop : ∀ {m : Machine} (n : Nat), I m → I { m with stack := m.stack.drop n }
  running : ∀ {m : Machine}, I m → ∀ f ∈ m.frames, G f.element ∧ Holds V f.locals
  enter : ∀ {m : Machine} {f : Frame}, I m → G f.element → Holds V f.locals →
    I { m with frames := f :: m.frames }
  leave : ∀ {m : Machine}, I m → I { m with frames := m.frames.tail }
  pending : ∀ {m : Machine} {v : Value}, I m → m.pendingReturn = some v → V v
  giveBack : ∀ {m : Machine} {value : Option Value}, I m → (∀ v, value = some v → V v) →
    I { m with pendingReturn := value }
  putContext : ∀ {m : Machine} {identity : String} {c c' : Context}, I m →
    m.state.contexts[Text.fold identity]? = some c → c'.element = c.element →
    Holds V c'.bindings → I { m with state := m.state.putContext identity c' }
  alloc : ∀ {m : Machine} {items : List Value}, I m → (∀ v ∈ items, V v) →
    I { m with state := { m.state with heap := (m.state.heap.alloc items).2 } } ∧
      V (.list m.state.heap.size)
  modify : ∀ {m : Machine} {a : Handle} {f : Array Value → Array Value}, I m → V (.list a) →
    (∀ cell : Array Value, (∀ v ∈ cell, V v) → ∀ v ∈ f cell, V v) →
    I { m with state := { m.state with heap := m.state.heap.modify a f } }
  draw : ∀ {m : Machine} (random : RandomSource), I m →
    I { m with state := { m.state with random := random } }
  change : ∀ {m : Machine} {c : Ownership.Change}, I m → c.Fits G →
    I { m with state := { m.state with ownership := c.apply m.state.ownership } }

namespace Invariant

open Exec

variable {env : Env} {story : Story} {S : State → Prop} {G : ElementRef → Prop}
  {V : Value → Prop} {I : Machine → Prop} (h : Invariant story S G V I)

include h

theorem traced {m : Machine} (hm : I m) (topic : Topic) (message : Machine → String) :
    I (m.traced env topic message) := by
  obtain ⟨cues, hcues⟩ := m.traced_eq env topic message
  rw [hcues]
  exact h.unseen hm rfl rfl rfl rfl

theorem watched {m : Machine} (hm : I m) (wanted : TraceMask) (event : Machine → Event) :
    I (m.watched env wanted event) := by
  obtain ⟨events, hevents⟩ := m.watched_eq env wanted event
  rw [hevents]
  exact h.unseen hm rfl rfl rfl rfl

theorem keeps_aside {f : Machine → Machine} (hstate : ∀ m, (f m).state = m.state)
    (hstack : ∀ m, (f m).stack = m.stack) (hframes : ∀ m, (f m).frames = m.frames)
    (hpending : ∀ m, (f m).pendingReturn = m.pendingReturn) :
    Keeps I Anything (Exec.change f) (Exec.change f) :=
  keeps_change fun m hm => h.unseen hm (hstate m) (hstack m) (hframes m) (hpending m)

theorem keeps_trace (topic : Topic) (message : Machine → String) :
    Keeps I Anything (trace env topic message) (trace env topic message) :=
  keeps_change fun _ hm => h.traced hm topic message

theorem keeps_record (wanted : TraceMask) (event : Machine → Event) :
    Keeps I Anything (record env wanted event) (record env wanted event) :=
  keeps_change fun _ hm => h.watched hm wanted event

theorem keeps_count : Keeps I Anything (count env) (count env) := by
  refine keeps_of fun m hm => ?_
  unfold count
  simp only
  split
  · exact h.unseen hm rfl rfl rfl rfl
  · exact ⟨h.unseen hm rfl rfl rfl rfl, .intro⟩

theorem keeps_pop (op : Opcode) : Keeps I V (pop op) (pop op) := by
  refine keeps_of fun m hm => ?_
  unfold pop
  split
  · exact hm
  · rename_i v rest hpop
    obtain ⟨hv, hrest⟩ := m.stack.of_pop? hpop
    rw [hrest]
    exact ⟨h.drop 1 hm, h.values hm v hv⟩

theorem keeps_popMany (op : Opcode) (n : Nat) :
    Keeps I (fun values => ∀ v ∈ values, V v) (popMany op n) (popMany op n) := by
  refine keeps_of fun m hm => ?_
  unfold popMany
  split
  · exact hm
  · refine ⟨h.drop n hm, fun v hv => h.values hm v ?_⟩
    exact List.mem_of_mem_take (List.mem_reverse.mp hv)

theorem keeps_frame (op : Opcode) :
    Keeps I (fun f => G f.element ∧ Holds V f.locals) (frame op) (frame op) := by
  refine keeps_of fun m hm => ?_
  unfold frame
  split
  · exact hm
  · rename_i f rest hframes
    exact ⟨hm, h.running hm f (by rw [hframes]; exact List.mem_cons_self)⟩

theorem keeps_setLocals {locals : Table Value} (hlocals : Holds V locals) :
    Keeps I Anything (setLocals locals) (setLocals locals) := by
  refine keeps_change fun m hm => ?_
  split
  · exact hm
  · rename_i f rest hframes
    have hf := (h.running hm f (by rw [hframes]; exact List.mem_cons_self)).1
    have hleft := h.leave hm
    rw [hframes] at hleft
    exact h.enter (f := { f with locals := locals }) hleft hf hlocals

theorem keeps_changeContext (identity : String) {f : Context → Context}
    (hf : ∀ c, (f c).element = c.element ∧ (Holds V c.bindings → Holds V (f c).bindings)) :
    Keeps I Anything (changeContext env identity f) (changeContext env identity f) := by
  refine keeps_of fun m hm => ?_
  unfold changeContext
  split
  · exact hm
  · rename_i c hc
    have hbindings := (hf c).2 (h.grounds.bindings (h.state m hm) (State.of_context hc))
    exact ⟨h.putContext hm (State.of_context hc) (hf c).1 hbindings, .intro⟩

theorem keeps_callBlock {run run' : Block → Exec Unit} {f : Frame} (name : String)
    (block : Block) (hf : G f.element) (hlocals : Holds V f.locals)
    (hrun : Keeps I Anything (run block) (run' block)) :
    Keeps I Anything (callBlock env run f name block) (callBlock env run' f name block) := by
  intro m hm
  have hopen : I (openFrame env f name m) := by
    obtain ⟨cues, events, hopen⟩ := m.openFrame_eq env f name
    rw [hopen]
    exact h.unseen (h.enter hm hf hlocals) rfl rfl rfl rfl
  obtain ⟨hsame, hkept⟩ := hrun _ hopen
  refine ⟨by simp only [callBlock, hsame], ?_⟩
  refine Outcome.Keeps.settle (hkept.afterwards fun n hn => ?_) (fun n _ hn => h.drop _ hn) _
  obtain ⟨cues, events, hclose⟩ := n.closeFrame_eq env f.scope name
  rw [hclose]
  exact h.unseen (h.leave hn) rfl rfl rfl rfl

theorem returned {m : Machine} (hm : I m) :
    I { m with pendingReturn := none } ∧ V (m.pendingReturn.getD (.boolean false)) := by
  refine ⟨h.giveBack hm fun _ hv => (nomatch hv), ?_⟩
  cases hp : m.pendingReturn with
  | none => exact h.grounds.simple (Value.simple_boolean false)
  | some v => exact h.pending hm hp

theorem keeps_deeper {x y : Exec Unit} (hx : Keeps I Anything x y) :
    Keeps I V (deeper env x) (deeper env y) := by
  have hdescend : Keeps I Anything (descend env) (descend env) := by
    refine keeps_of fun m hm => ?_
    unfold descend
    split
    · exact hm
    · exact ⟨h.unseen hm rfl rfl rfl rfl, .intro⟩
  refine hdescend.bind fun _ _ m hm => ?_
  obtain ⟨hsame, hkept⟩ := hx m hm
  have hfalse : V (.boolean false) := h.grounds.simple (Value.simple_boolean false)
  refine ⟨by simp only [hsame], Outcome.Keeps.returned ?_ hfalse fun _ hm => h.returned hm⟩
  exact hkept.afterwards fun n hn => h.unseen hn rfl rfl rfl rfl

theorem rules (hstory : env.story = story) : Rules env env S G V (Keeps I) where
  story := rfl
  grounds := hstory ▸ h.grounds
  mono := Keeps.mono
  pure known := keeps_of fun m hm => ⟨hm, known⟩
  bind := Keeps.bind
  fault f := keeps_of fun m hm => hm
  see f hf := keeps_of fun m hm => ⟨hm, hf m.state (h.state m hm)⟩
  ask := keeps_ask h.state
  trace _ := h.keeps_trace _ _
  misuse message := keeps_of fun m hm => hm
  push hv := keeps_change fun m hm => h.push hm hv
  pop := h.keeps_pop
  popMany := h.keeps_popMany
  emit _ _ := h.keeps_aside (fun _ => rfl) (fun _ => rfl) (fun _ => rfl) fun _ => rfl
  frame := h.keeps_frame
  setLocals := h.keeps_setLocals
  changeContext identity _ := h.keeps_changeContext identity
  newList hitems := keeps_of fun m hm => h.alloc hm hitems
  changeList ha hf := keeps_change fun m hm => h.modify hm ha hf
  draw f := keeps_of fun m hm => ⟨h.draw _ hm, .intro⟩
  change c hfits := keeps_change fun m hm => h.change hm hfits
  exhausted := keeps_of fun m hm => trivial
  stop _ _ := keeps_of fun m hm => hm
  quit := keeps_of fun m hm => h.unseen hm rfl rfl rfl rfl
  queue i := (h.keeps_trace _ _).bind fun _ _ =>
    h.keeps_aside (fun _ => rfl) (fun _ => rfl) (fun _ => rfl) fun _ => rfl
  callBlock name block hf hlocals hrun := h.keeps_callBlock name block hf hlocals hrun
  giveBack hv := by
    refine Keeps.bind (P := Anything) ?_ fun _ _ => keeps_of fun m hm => hm
    refine keeps_change fun m hm => h.giveBack hm fun w hw => ?_
    cases hw
    exact hv
  deeper := h.keeps_deeper
  weigh hx := hx.through fun m _ hkept => hkept.weighed (fun n _ hn => h.drop _ hn) m.stack.height
  goesOn hx := hx.through fun _ _ hkept => hkept.goesOn env fun n hn => h.traced hn _ _

end Invariant

/-- What is done in the place of an operation, given what the operation would do. -/
abbrev Guard := Operation → Exec Unit → Exec Unit

namespace Exec

/-- Runs a block with a guard around every operation, those of the blocks inside included. -/
def runGuarded (guard : Guard) (env : Env) : Nat → Block → Exec Unit
  | 0, _ => fun _ => .exhausted
  | fuel + 1, block => fun m =>
    forEach (fun op => guard op (execute env (runGuarded guard env fuel) fuel op)) block m

theorem FlowRules.runGuarded {env : Env} {S : State → Prop} {G : ElementRef → Prop}
    {V : Value → Prop} {R : ExecRelation} (h : FlowRules env env S G V R) {guard : Guard}
    (hstep : ∀ {run run' : Block → Exec Unit} (limit : Nat) {op : Operation}, op.Fits V →
      (∀ {block : Block}, block.Fits V → R Anything (run block) (run' block)) →
      R Anything (Exec.execute env run limit op) (guard op (Exec.execute env run' limit op)))
    (fuel : Nat) {block : Block} (hblock : block.Fits V) :
    R Anything (Exec.runBlock env fuel block) (Exec.runGuarded guard env fuel block) := by
  induction fuel generalizing block with
  | zero => exact h.exhausted
  | succ fuel ih => exact h.forEach fun op hop => hstep fuel (.of_mem hblock hop) ih

/-- A guard that lets pass all operations that keep the invariant is never seen. -/
theorem keeps_runGuarded {story : Story} {env : Env} {I : Machine → Prop} {S : State → Prop}
    {G : ElementRef → Prop} {V : Value → Prop} (h : Invariant story S G V I)
    (hstory : env.story = story) {guard : Guard}
    (hguard : ∀ run limit op m, I m → (execute env run limit op m).Keeps I Anything →
      guard op (execute env run limit op) m = execute env run limit op m)
    (fuel : Nat) {block : Block} (hblock : block.Fits V) :
    Keeps I Anything (runBlock env fuel block) (runGuarded guard env fuel block) := by
  refine (h.rules hstory).runGuarded (fun limit op hop hrun m hm => ?_) fuel hblock
  obtain ⟨hsame, hkept⟩ := (h.rules hstory).execute hrun h.keeps_count limit hop
    (h.keeps_record _ _) m hm
  exact ⟨by rw [hguard _ _ _ m hm (hsame ▸ hkept), hsame], hkept⟩

end Exec

end Fabula
