import Fabula.Proofs.Request.Isolation
import Fabula.Proofs.Request.Progress

/-! Blocks are entered and left like brackets. What a block records lies between its own entering
and its leaving, and tells of blocks that run deeper only. -/

namespace Fabula

/-- The events of blocks that run one after another where `depth` blocks are running already. Each
is left as it was entered, and those it runs itself are one deeper. -/
inductive Nested : Nat → List Event → Prop
  | nil {depth : Nat} : Nested depth []
  | operation {depth : Nat} {op : Opcode} {count : Nat} {rest : List Event} :
      Nested depth rest → Nested depth (.operation op count :: rest)
  | block {depth : Nat} {scope : Scope} {element name : String} {inner rest : List Event} :
      Nested (depth + 1) inner → Nested depth rest →
      Nested depth (.enter scope (depth + 1) element name ::
        (inner ++ .leave scope (depth + 1) element name :: rest))

def Event.entersAt (depth : Nat) : Event → Bool
  | .enter _ d _ _ => d == depth
  | _ => false

namespace Nested

variable {depth : Nat} {xs ys : List Event}

theorem append (hx : Nested depth xs) (hy : Nested depth ys) : Nested depth (xs ++ ys) := by
  induction hx with
  | nil => exact hy
  | operation _ ih => exact .operation (ih hy)
  | block hinner _ _ ih => simpa using block hinner (ih hy)

theorem filter_entersAt (h : Nested depth xs) {k : Nat} (hk : k ≤ depth) :
    xs.filter (Event.entersAt k) = [] := by
  induction h with
  | nil => rfl
  | operation _ ih => simpa [Event.entersAt] using ih hk
  | @block d _ _ _ _ _ _ _ hinner hrest =>
    have hne : d + 1 ≠ k := by omega
    simp [Event.entersAt, hne, hinner (Nat.le_succ_of_le hk), hrest hk]

end Nested

namespace Machine

/-- The same blocks are running, and what was recorded since is of blocks that have ended. -/
structure Nests (m n : Machine) : Prop where
  running : n.running = m.running
  recorded : ∃ news, n.events.toList = m.events.toList ++ news ∧ Nested m.running.length news

structure Ran (f : Frame) (name : String) (m n : Machine) : Prop where
  running : n.running = m.running
  recorded : ∃ inner, Nested (m.running.length + 1) inner ∧ n.events.toList = m.events.toList ++
    .enter f.scope (m.running.length + 1) f.element.identity name ::
      (inner ++ [.leave f.scope (m.running.length + 1) f.element.identity name])

variable {m n : Machine} {env : Env}

theorem Ran.nests {f : Frame} {name : String} (h : Ran f name m n) : m.Nests n := by
  obtain ⟨inner, hinner, hevents⟩ := h.recorded
  exact ⟨h.running, _, hevents, .block hinner .nil⟩

theorem Ran.entered {f : Frame} {name : String} (h : Ran f name m n) :
    (n.events.toList.drop m.events.size).filter (Event.entersAt (m.running.length + 1)) =
      [.enter f.scope (m.running.length + 1) f.element.identity name] := by
  obtain ⟨inner, hinner, hevents⟩ := h.recorded
  rw [hevents]
  simp [← Array.length_toList, Event.entersAt, hinner.filter_entersAt (Nat.le_refl _)]

end Machine

namespace Exec

variable {env : Env} {m n : Machine}

section

variable (hscopes : env.watch.contains .scopes = true)

include hscopes

theorem openFrame_recorded (f : Frame) (name : String) (m : Machine) :
    ∃ cues, openFrame env f name m = { m with
      frames := f :: m.frames, cues := cues, events := m.events.push
        (.enter f.scope (m.frames.length + 1) f.element.identity name) } := by
  obtain ⟨cues, hcues⟩ := m.traced_eq env .context fun _ => "push frame " ++ f.element.text
  exact ⟨cues, by simp only [openFrame, hcues, Machine.watched, hscopes, if_true]⟩

theorem closeFrame_recorded (scope : Scope) (name : String) {f : Frame} {rest : List Frame}
    (hframes : m.frames = f :: rest) :
    ∃ cues, closeFrame env scope name m = { m with
      frames := rest, cues := cues, events := m.events.push
        (.leave scope (rest.length + 1) f.element.identity name) } := by
  let left : Machine := { m with
    frames := rest
    events := m.events.push (.leave scope (rest.length + 1) f.element.identity name) }
  obtain ⟨cues, hcues⟩ := left.traced_eq env .context fun _ => "pop frame " ++ f.element.text
  refine ⟨cues, ?_⟩
  simp only [closeFrame, hframes, Machine.watched, hscopes, if_true, List.length_cons]
  exact hcues

theorem ran_block {f : Frame} {name : String} (h : (openFrame env f name m).Nests n) :
    m.Ran f name (closeFrame env f.scope name n) := by
  obtain ⟨cues, hopen⟩ := openFrame_recorded hscopes f name m
  obtain ⟨hrunning, inner, hevents, hinner⟩ := h
  rw [hopen] at hrunning hevents hinner
  -- The frame on top is the one that was opened, at least as far as its element goes.
  obtain ⟨top, rest, hframes, htop, hrest⟩ := List.map_eq_cons_iff.mp hrunning
  have hdepth : rest.length = m.running.length := by
    rw [← List.length_map Frame.element, hrest]
    rfl
  obtain ⟨cues', hclose⟩ := closeFrame_recorded hscopes f.scope name hframes
  rw [hclose]
  refine ⟨hrest, inner, ?_, ?_⟩
  · simpa [Machine.running] using hinner
  · simp [hevents, hdepth, htop, Machine.running]

theorem progress_nests : Progress env Machine.Nests where
  trans h h' := by
    obtain ⟨hrunning, news, hnews, hnested⟩ := h
    obtain ⟨hrunning', news', hnews', hnested'⟩ := h'
    rw [hrunning] at hrunning' hnested'
    exact ⟨hrunning', news ++ news', by rw [hnews', hnews, List.append_assoc],
      hnested.append hnested'⟩
  unseen hrunning _ _ _ hevents := ⟨hrunning, [], by simp [hevents], .nil⟩
  emit m _ _ := ⟨rfl, [], by simp, .nil⟩
  queue m _ := ⟨rfl, [], by simp, .nil⟩
  operation m op := by
    unfold Machine.watched
    split
    · exact ⟨rfl, [.operation op m.operations], by simp, .operation .nil⟩
    · exact ⟨rfl, [], by simp, .nil⟩
  block _ _ h := (ran_block hscopes h).nests

theorem ran_callBlock (fuel : Nat) (f : Frame) (name : String) (block : Block) (m : Machine) :
    (callBlock env (runBlock env fuel) f name block m).Follows (Machine.Ran f name) m Anything := by
  have hnests := (progress_nests hscopes).follows_runBlock fuel block (openFrame env f name m)
  have hran := hnests.afterwards (U := Machine.Ran f name) fun _ hn => ran_block hscopes hn
  exact hran.settle m.stack.height fun _ hn => ⟨hn.running, hn.recorded⟩

/-- A handler for which there is a block runs that and nothing else. -/
theorem ran_runHandler (fuel : Nat) {e : ElementRef} {entry : Entry} {block : Block} {m : Machine}
    (hblock : env.story.resolveBlock? m.state.heap e.identity entry = some block)
    (locals : Table Value) :
    (runHandler env (runBlock env fuel) e entry locals m).Follows
      (Machine.Ran ⟨e, .entry entry.trigger, locals⟩ (entry.text m.state.heap)) m Anything := by
  refine Outcome.Follows.handled ?_ fun n hn => ⟨hn.running, hn.recorded⟩
  obtain ⟨cues, hcues⟩ := m.traced_eq env .entry
    fun _ => e.text ++ " runs " ++ entry.text m.state.heap
  simp only [runEntry_apply, hblock, hcues]
  refine Outcome.Follows.bind_pure ((ran_callBlock hscopes fuel _ _ block _).imp ?_)
    fun _ _ => .intro
  exact fun n hn => ⟨hn.running, hn.recorded⟩

end

end Exec

end Fabula
