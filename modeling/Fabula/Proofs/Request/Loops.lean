import Fabula.Proofs.Machine.Returning
import Fabula.Proofs.Request.Isolation

/-! Leaving a loop, and going on with its next round. The signal for it does not look at frames: it
comes out of the functions and entries that are running, as long as they are left with a stack as
high as they found it, and acts on the first loop whose body it comes to. A loop that goes on runs
its step and decides its condition again. With no loop to come to, the handler ends. -/

namespace Fabula

def Operation.loopStep (loop : Operation) : Option Block :=
  if loop.opcode = .control .forLoop then loop.step else none

/-- How a loop goes on after a round: with its step, and with as many more rounds as it may. -/
def Exec.goOn (env : Env) (run : Block → Exec Unit) (loop : Operation) (left : Nat) :
    Exec Unit := do
  runIfAny run loop.loopStep
  rounds (loopRound env run loop loop.loopStep) left

namespace Plan

variable {env : Env} {run : Block → Exec Unit} {m k : Machine} {block : Block} {limit : Nat}
  {loop : Operation} {step : Option Block}

theorem isLoop_of_starts {rest : Bool → Plan Unit}
    (h : Starts env run (operation env limit loop) m .body block k rest) :
    loop.opcode = .control .whileLoop ∨ loop.opcode = .control .forLoop := by
  by_cases hgive : loop.opcode = .call .giveBack
  · simp only [operation, hgive] at h
    cases h with
    | step hx h => cases h
  · have hsilent : (operation env limit loop).Silent fun link => link = .body →
        loop.opcode = .control .whileLoop ∨ loop.opcode = .control .forLoop :=
      silent_operation limit hgive Link.noConfusion Link.noConfusion (fun hloop _ => hloop)
        (fun _ _ => Link.noConfusion) fun _ _ => Link.noConfusion
    exact h.of_uses hsilent rfl

theorem not_starts_part {step : Option Block} {rest : Bool → Plan Unit} :
    ¬ Starts env run (ifAny step) m .body block k rest := by
  intro h
  cases step with
  | none => cases h
  | some block => cases h with
    | later hr h => cases h

theorem rest_of_loopRound {rest : Bool → Plan Bool}
    (h : Starts env run (loopRound env loop step) m .body block k rest) :
    rest = fun goesOn => if goesOn then (do ifAny step; return true) else return false := by
  have hcondition : (decideCondition env loop).Silent (· = .condition) :=
    silent_decideCondition rfl loop
  rcases h.of_bind with ⟨rest', hstarts, -⟩ | ⟨holds, n, -, h⟩
  · cases hstarts.of_uses hcondition
  · split at h
    · rcases h.of_bind with ⟨rest', hstarts, rfl⟩ | ⟨goesOn, n', -, h⟩
      · generalize loop.success = body at hstarts
        cases body with
        | none => cases hstarts
        | some body =>
          cases hstarts with
          | here => rfl
          | later hr h => cases h
      · split at h
        · rcases h.of_bind with ⟨rest', hstarts, -⟩ | ⟨_, n'', -, h⟩
          · exact absurd hstarts not_starts_part
          · cases h
        · cases h
    · cases h

/-- After its body a loop goes on with the step and fewer rounds than before, or is at its end. -/
theorem rest_of_rounds {rest : Bool → Plan Unit}
    (h : Starts env run (rounds (loopRound env loop step) limit) m .body block k rest) :
    ∃ left < limit, ∀ goesOn, (rest goesOn).exec env run = if goesOn then (do
        Exec.runIfAny run step
        Exec.rounds (Exec.loopRound env run loop step) left)
      else pure () := by
  induction limit generalizing m with
  | zero =>
    cases h with
    | step hx h => cases h
  | succ limit ih =>
    rcases h.of_bind with ⟨rest', hstarts, rfl⟩ | ⟨goesOn, n, -, h⟩
    · refine ⟨limit, Nat.lt_succ_self limit, fun goesOn => ?_⟩
      rw [rest_of_loopRound hstarts]
      cases goesOn with
      | false => rfl
      | true =>
        simp only [if_true, exec_bind, exec_ifAny, exec_pure, exec_ite, exec_rounds,
          exec_loopRound, bind_assoc]
        rfl
    · split at h
      · obtain ⟨left, hleft, hrest⟩ := ih h
        exact ⟨left, Nat.lt_succ_of_lt hleft, hrest⟩
      · cases h

theorem rest_of_loop {rest : Bool → Plan Unit}
    (h : Starts env run (operation env limit loop) m .body block k rest) :
    ∃ left < limit, ∀ goesOn, (rest goesOn).exec env run =
      if goesOn then Exec.goOn env run loop left else pure () := by
  unfold Exec.goOn Operation.loopStep
  rcases isLoop_of_starts h with hloop | hloop
  · simp only [operation, hloop, controlOp] at h
    simpa [hloop] using rest_of_rounds h
  · simp only [operation, hloop, controlOp] at h
    rcases h.of_bind with ⟨rest', hstarts, -⟩ | ⟨init, n, -, h⟩
    · cases hstarts with
      | step hx h => cases h
    · rcases h.of_bind with ⟨rest', hstarts, -⟩ | ⟨_, n', -, h⟩
      · cases hstarts with
        | later hr h => cases h
      · simpa [hloop] using rest_of_rounds h

end Plan

def Operation.loopSignal? (op : Operation) : Option Signal :=
  match op.opcode with
  | .control .leaveLoop => some .leaveLoop
  | .control .nextRound => some .nextRound
  | _ => none

section Unwinding

variable {env : Env} {fuel : Nat} {op : Operation} {s : Signal} {m n l : Machine}
  {starts : List Start} {block : Block}

theorem Operation.loopSignal?_cases (h : op.loopSignal? = some s) :
    (op.opcode = .control .leaveLoop ∧ s = .leaveLoop) ∨
      (op.opcode = .control .nextRound ∧ s = .nextRound) := by
  unfold loopSignal? at h
  split at h
  · rename_i hop
    exact .inl ⟨hop, (Option.some.inj h).symm⟩
  · rename_i hop
    exact .inr ⟨hop, (Option.some.inj h).symm⟩
  · cases h

theorem Operation.isFailure_of_loopSignal? (h : op.loopSignal? = some s) : s.isFailure = false := by
  rcases op.loopSignal?_cases h with ⟨-, rfl⟩ | ⟨-, rfl⟩ <;> rfl

theorem execute_of_loopSignal? (hop : op.loopSignal? = some s)
    (hcount : 0 < env.limits.operations → l.operations + 1 < env.limits.operations.toNat) :
    ∃ n, Machine.Unwound { l with operations := l.operations + 1 } n ∧
      ∀ run limit, Exec.execute env run limit op l = .stopped s n := by
  rcases Exec.announce_cases env op l with ⟨n, hn, -, hcounted⟩ | ⟨hpos, hreached, -⟩
  · refine ⟨n, hcounted, fun run limit => ?_⟩
    rw [Exec.execute_eq, Exec.bind_apply, hn]
    rcases op.loopSignal?_cases hop with ⟨hcode, rfl⟩ | ⟨hcode, rfl⟩
    · simp only [Exec.perform, hcode, Exec.controlOp, Exec.stop_apply]
    · simp only [Exec.perform, hcode, Exec.controlOp, Exec.stop_apply]
  · have hbelow := hcount hpos
    omega

theorem Link.not_catches {link : Link} (hop : op.loopSignal? = some s) (hlink : link ≠ .body) :
    link.catches s = false := by
  have hloop : s = .leaveLoop ∨ s = .nextRound := (op.loopSignal?_cases hop).imp And.right And.right
  cases link with
  | body => exact absurd rfl hlink
  | part | condition | entry f name | function f name => rcases hloop with rfl | rfl <;> rfl

/-- The signal comes out of the block that is running, if no loop is open in between. -/
theorem Inside.runBlock_of_loopSignal? (hop : op.loopSignal? = some s)
    (hcount : 0 < env.limits.operations → l.operations + 1 < env.limits.operations.toNat)
    (hopen : ∀ start ∈ starts, start.link ≠ .body) (h : Inside env fuel block m starts op l) :
    (Exec.runBlock env fuel block m).Unwinds (LevelWith starts l) s
      { l with operations := l.operations + 1 } := by
  obtain ⟨n, hraised, hexecute⟩ := execute_of_loopSignal? hop hcount
  have hunwinds := h.runBlock hexecute (op.isFailure_of_loopSignal? hop) fun start hstart =>
    Link.not_catches hop (hopen start hstart)
  have hlevel : LevelWith starts n ↔ LevelWith starts l := by
    unfold LevelWith
    rw [hraised.stack]
  rw [hlevel] at hunwinds
  exact hunwinds.of_unwound hraised

/-- A loop whose body is the innermost that is open is left, or goes on with the next round. -/
theorem perform_of_loopSignal? {loop : Operation} {body : Block} {k : Machine}
    {rest : Bool → Plan Unit} (hop : op.loopSignal? = some s)
    (hcount : 0 < env.limits.operations → l.operations + 1 < env.limits.operations.toNat)
    (hopen : ∀ start ∈ starts, start.link ≠ .body)
    (hbody : (Plan.operation env fuel loop).Starts env (Exec.runBlock env fuel) m .body body k rest)
    (h : Inside env fuel body k starts op l) :
    (LevelWith starts l → ∃ n left,
      Machine.Unwound { l with operations := l.operations + 1 } n ∧ left < fuel ∧
      Exec.perform env (Exec.runBlock env fuel) fuel loop m =
        if s = .leaveLoop then .done () n
        else Exec.goOn env (Exec.runBlock env fuel) loop left n) ∧
    (¬ LevelWith starts l →
      (Exec.perform env (Exec.runBlock env fuel) fuel loop m).Imbalanced) := by
  have hunwinds := h.runBlock_of_loopSignal? hop hcount hopen
  obtain ⟨left, hleft, hrest⟩ := Plan.rest_of_loop hbody
  rw [← Plan.exec_operation, hbody.exec_eq, Exec.bind_apply]
  constructor
  · intro hlevel
    obtain ⟨n, hn, hunwound⟩ := hunwinds.passes hlevel
    have hout : Link.around env (Exec.runBlock env fuel) .body body k =
        Exec.goesOn env (.stopped s n) := congrArg (Exec.goesOn env) hn
    rw [hout]
    rcases op.loopSignal?_cases hop with ⟨-, rfl⟩ | ⟨-, rfl⟩
    · refine ⟨n.traced env .control fun _ => "BREAK", left, hunwound.trans (.traced n env _ _),
        hleft, ?_⟩
      rw [if_pos rfl]
      exact congrFun (hrest false) _
    · refine ⟨n, left, hunwound, hleft, ?_⟩
      rw [if_neg Signal.noConfusion]
      exact congrFun (hrest true) n
  · intro hlevel
    obtain ⟨n, expected, actual, hn⟩ := hunwinds.fails hlevel
    have hout : Link.around env (Exec.runBlock env fuel) .body body k =
        Exec.goesOn env (.stopped _ n) := congrArg (Exec.goesOn env) hn
    rw [hout]
    exact ⟨n, expected, actual, rfl⟩

/-- With no loop open the signal ends the handler. -/
theorem runHandler_of_loopSignal? {e : ElementRef} {entry : Entry} {locals : Table Value}
    (hop : op.loopSignal? = some s)
    (hcount : 0 < env.limits.operations → l.operations + 1 < env.limits.operations.toNat)
    (hopen : ∀ start ∈ starts, start.link ≠ .body)
    (hblock : env.story.resolveBlock? m.state.heap e.identity entry = some block)
    (h : Inside env fuel block (Exec.openFrame env ⟨e, .entry entry.trigger, locals⟩
      (entry.text m.state.heap) (m.traced env .entry fun _ =>
        e.text ++ " runs " ++ entry.text m.state.heap)) starts op l) :
    (LevelWith starts l ∧ m.stack.height = l.stack.height → ∃ n,
      Machine.Unwound { l with operations := l.operations + 1 } n ∧
      Exec.runHandler env (Exec.runBlock env fuel) e entry locals m = .done true n) ∧
    (¬ (LevelWith starts l ∧ m.stack.height = l.stack.height) →
      (Exec.runHandler env (Exec.runBlock env fuel) e entry locals m).Imbalanced) := by
  obtain ⟨cues, hcues⟩ := m.traced_eq env .entry fun _ =>
    e.text ++ " runs " ++ entry.text m.state.heap
  rw [hcues] at h
  let f : Frame := ⟨e, .entry entry.trigger, locals⟩
  let name : String := entry.text m.state.heap
  have hout : (Exec.callBlock env (Exec.runBlock env fuel) f name block
      { m with cues := cues }).Unwinds
        (LevelWith starts l ∧ ((Link.entry f name).frame?.isSome →
          m.stack.height = l.stack.height)) s { l with operations := l.operations + 1 } :=
    Link.out_unwinds (op.isFailure_of_loopSignal? hop) (Link.not_catches hop Link.noConfusion)
      (h.runBlock_of_loopSignal? hop hcount hopen)
  have hhandler : Exec.runHandler env (Exec.runBlock env fuel) e entry locals m =
      Exec.handled ((Exec.callBlock env (Exec.runBlock env fuel) f name block >>= fun _ =>
        pure true) { m with cues := cues }) := by
    simp only [Exec.runHandler, Exec.runEntry_apply, hblock, hcues]
    rfl
  rw [hhandler, Exec.bind_apply]
  constructor
  · rintro ⟨hlevel, hheight⟩
    obtain ⟨k, hk, hunwound⟩ := hout.passes ⟨hlevel, fun _ => hheight⟩
    refine ⟨k, hunwound, ?_⟩
    rw [hk]
    rcases op.loopSignal?_cases hop with ⟨-, rfl⟩ | ⟨-, rfl⟩ <;> rfl
  · intro huneven
    obtain ⟨k, expected, actual, hk⟩ := hout.fails fun h => huneven ⟨h.1, h.2 rfl⟩
    rw [hk]
    exact ⟨k, expected, actual, rfl⟩

/-- Leaving a loop or a round acts on the innermost loop that is open, in whatever frame. The
operation raises its signal inside blocks that were started one in the other, none of them the body
of a loop but any number of them in frames of functions and of entries. If all of these frames were
opened on a stack as high as the one the signal finds, the loop around them is left at once, or goes
on with its step and its next round, and if no loop is open the handler ends. If one of the frames
was opened on a stack of another height, the request fails instead. -/
theorem loop_signal_meets_innermost (env : Env) (fuel : Nat) (op : Operation) (s : Signal)
    (l : Machine) (starts : List Start) (hop : op.loopSignal? = some s)
    (hcount : 0 < env.limits.operations → l.operations + 1 < env.limits.operations.toNat)
    (hopen : ∀ start ∈ starts, start.link ≠ .body) :
    (∀ (loop : Operation) (body : Block) (m k : Machine) (rest : Bool → Plan Unit),
      (Plan.operation env fuel loop).Starts env (Exec.runBlock env fuel) m .body body k rest →
      Inside env fuel body k starts op l →
      (LevelWith starts l → ∃ n left,
        Machine.Unwound { l with operations := l.operations + 1 } n ∧ left < fuel ∧
        Exec.perform env (Exec.runBlock env fuel) fuel loop m =
          if s = .leaveLoop then .done () n
          else Exec.goOn env (Exec.runBlock env fuel) loop left n) ∧
      (¬ LevelWith starts l →
        (Exec.perform env (Exec.runBlock env fuel) fuel loop m).Imbalanced)) ∧
    ∀ (e : ElementRef) (entry : Entry) (locals : Table Value) (block : Block) (m : Machine),
      env.story.resolveBlock? m.state.heap e.identity entry = some block →
      Inside env fuel block (Exec.openFrame env ⟨e, .entry entry.trigger, locals⟩
        (entry.text m.state.heap) (m.traced env .entry fun _ =>
          e.text ++ " runs " ++ entry.text m.state.heap)) starts op l →
      (LevelWith starts l ∧ m.stack.height = l.stack.height → ∃ n,
        Machine.Unwound { l with operations := l.operations + 1 } n ∧
        Exec.runHandler env (Exec.runBlock env fuel) e entry locals m = .done true n) ∧
      (¬ (LevelWith starts l ∧ m.stack.height = l.stack.height) →
        (Exec.runHandler env (Exec.runBlock env fuel) e entry locals m).Imbalanced) :=
  ⟨fun _ _ _ _ _ hbody h => perform_of_loopSignal? hop hcount hopen hbody h,
    fun _ _ _ _ _ hblock h => runHandler_of_loopSignal? hop hcount hopen hblock h⟩

end Unwinding

namespace Sample

/-- A function that leaves a loop, and has none. -/
def jump : Function := Function.of "jump" [] (Build.plain (.control .leaveLoop))

def callJump : Operation := { opcode := .call .function, first := Value.string "jump" }

def jumpingEnv : Env :=
  ⟨onLook (cellarStory.editWorld fun e => .ok (e.addFunction jump)).2 .empty [callJump], ⟨0, 0⟩,
    .none, .none⟩

/-- A loop that calls the function and never comes to its end by itself. -/
def endless : Operation :=
  { opcode := .control .whileLoop
    condition := some (Build.push (.boolean true))
    success := some [callJump] }

def waiting : Machine where
  state := ⟨.empty, ∅, .empty, .ofSeed seed⟩

def handling : Machine := { waiting with frames := [⟨.world, .entry .onAction, ∅⟩] }

def leaveLoop : Operation := { opcode := .control .leaveLoop }

theorem endless_starts : ∃ rest, (Plan.operation jumpingEnv 3 endless).Starts jumpingEnv
    (Exec.runBlock jumpingEnv 3) handling .body [callJump] { handling with operations := 1 } rest :=
  ⟨_, .step rfl (.later rfl (.step rfl (.step rfl (.step rfl .here))))⟩

theorem endless_holds (n : Machine) : ∃ n', Exec.decideCondition jumpingEnv
    (Exec.runBlock jumpingEnv 3) endless n = .done true n' := by
  have hweighed : Exec.weigh (Exec.runBlock jumpingEnv 3 (Build.push (.boolean true))) n = .done ()
      { n with operations := n.operations + 1, stack := n.stack.push (.boolean true) } := if_pos rfl
  refine ⟨{ n with operations := n.operations + 1 }, ?_⟩
  simp only [Exec.decideCondition, Exec.condition_eq, endless, Exec.required, Exec.bind_apply,
    Exec.pure_apply, hweighed]
  rfl

theorem jump_found : jumpingEnv.story.resolveFunction? ElementRef.world.identity
    (Text.fold "jump") = some jump := rfl

section

variable (m : Machine) {scope : Scope} {locals : Table Value} {frames : List Frame}
  (hframes : m.frames = ⟨.world, scope, locals⟩ :: frames)

include hframes

theorem callJump_starts : ∃ k rest, (Plan.operation jumpingEnv 2 callJump).Starts jumpingEnv
    (Exec.runBlock jumpingEnv 2) m (.function ⟨.world, .function, ∅⟩ "jump") jump.block k rest ∧
      k.stack = m.stack := by
  have hframe : Exec.frame callJump.opcode m = .done ⟨.world, scope, locals⟩ m := by
    simp only [Exec.frame, hframes]
  have hcall : ∃ k rest, (Plan.callFunction jumpingEnv callJump.opcode .world
      (Text.fold "jump")).Starts jumpingEnv (Exec.runBlock jumpingEnv 2) m
        (.function ⟨.world, .function, ∅⟩ "jump") jump.block k rest ∧ k.stack = m.stack := by
    unfold Plan.callFunction
    rw [jump_found]
    refine ⟨_, _, .step rfl (.step rfl (.step rfl .here)), ?_⟩
    rfl
  obtain ⟨k, rest, hstarts, hk⟩ := hcall
  refine ⟨k, rest, ?_, hk⟩
  change (Plan.callOp jumpingEnv callJump .function).Starts _ _ _ _ _ _ _
  unfold Plan.callOp
  exact .own_bind rfl (.own_bind hframe hstarts)

theorem jump_inside : ∃ k l,
    Inside jumpingEnv 3 [callJump] m [⟨.function ⟨.world, .function, ∅⟩ "jump", k⟩] leaveLoop l ∧
    LevelWith [⟨.function ⟨.world, .function, ∅⟩ "jump", k⟩] l ∧ l.stack = m.stack := by
  obtain ⟨k, rest, hstarts, hk⟩ := callJump_starts { m with operations := m.operations + 1 } hframes
  have hinside : Inside jumpingEnv 3 ([] ++ callJump :: []) m
      [⟨.function ⟨.world, .function, ∅⟩ "jump", k⟩] leaveLoop
      (Exec.openFrame jumpingEnv ⟨.world, .function, ∅⟩ "jump" k) :=
    .inner rfl rfl hstarts (show Inside jumpingEnv 2 ([] ++ leaveLoop :: []) _ _ _ _ from .here rfl)
  refine ⟨k, _, hinside, fun start hstart _ => ?_, hk⟩
  cases List.mem_singleton.mp hstart
  rfl

end

theorem jump_no_loop (k : Machine) :
    ∀ start ∈ [Start.mk (.function ⟨.world, .function, ∅⟩ "jump") k], start.link ≠ .body := by simp

/-- The function leaves the loop of its caller, though the condition of the loop still holds. -/
theorem jump_leaves_callers_loop : ∃ k l rest n n',
    (Plan.operation jumpingEnv 3 endless).Starts jumpingEnv (Exec.runBlock jumpingEnv 3) handling
      .body [callJump] { handling with operations := 1 } rest ∧
    Inside jumpingEnv 3 [callJump] { handling with operations := 1 }
      [⟨.function ⟨.world, .function, ∅⟩ "jump", k⟩] leaveLoop l ∧
    Exec.perform jumpingEnv (Exec.runBlock jumpingEnv 3) 3 endless handling = .done () n ∧
    Exec.decideCondition jumpingEnv (Exec.runBlock jumpingEnv 3) endless n = .done true n' := by
  obtain ⟨rest, hbody⟩ := endless_starts
  obtain ⟨k, l, hinside, hlevel, -⟩ := jump_inside { handling with operations := 1 } rfl
  obtain ⟨hleft, -⟩ := perform_of_loopSignal? rfl (fun hpos => absurd hpos (by decide))
    (jump_no_loop k) hbody hinside
  obtain ⟨n, left, -, -, hn⟩ := hleft hlevel
  obtain ⟨n', hholds⟩ := endless_holds n
  exact ⟨k, l, rest, n, n', hbody, hinside, hn, hholds⟩

/-- Nothing is caught on the way from the function to the loop, and the machine that is left is as
the function left it. Called outside of a loop, the function ends the handler. -/
theorem jump_meets_endless :
    (∃ k l n, Inside jumpingEnv 3 [callJump] { handling with operations := 1 }
        [⟨.function ⟨.world, .function, ∅⟩ "jump", k⟩] leaveLoop l ∧
      Machine.Unwound { l with operations := l.operations + 1 } n ∧
      Exec.perform jumpingEnv (Exec.runBlock jumpingEnv 3) 3 endless handling = .done () n) ∧
    ∃ n, Exec.runHandler jumpingEnv (Exec.runBlock jumpingEnv 3) .world (.onAction "look") ∅
      waiting = .done true n := by
  constructor
  · obtain ⟨rest, hbody⟩ := endless_starts
    obtain ⟨k, l, hinside, hlevel, -⟩ := jump_inside { handling with operations := 1 } rfl
    obtain ⟨hloop, -⟩ := loop_signal_meets_innermost jumpingEnv 3 leaveLoop .leaveLoop l _ rfl
      (fun hpos => absurd hpos (by decide)) (jump_no_loop k)
    obtain ⟨hleft, -⟩ := hloop endless _ handling _ rest hbody hinside
    obtain ⟨n, left, hunwound, -, hn⟩ := hleft hlevel
    exact ⟨k, l, n, hinside, hunwound, hn⟩
  · obtain ⟨k, l, hinside, hlevel, hstack⟩ := jump_inside handling rfl
    obtain ⟨-, hhandler⟩ := loop_signal_meets_innermost jumpingEnv 3 leaveLoop .leaveLoop l _ rfl
      (fun hpos => absurd hpos (by decide)) (jump_no_loop k)
    obtain ⟨hends, -⟩ := hhandler .world (.onAction "look") ∅ [callJump] waiting rfl hinside
    obtain ⟨n, -, hn⟩ := hends ⟨hlevel, by rw [hstack]; rfl⟩
    exact ⟨n, hn⟩

end Sample

end Fabula
