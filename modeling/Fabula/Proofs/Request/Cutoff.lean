import Fabula.Proofs.Request.Progress

/-! A limit of operations only cuts a run short. A computation under a limit runs beside the same
computation under a looser one. They do the same step by step until the first is refused the
operation that reaches its limit. From there the refusal runs outward and is caught nowhere, and the
other one goes on and only adds to what was told. -/

namespace Fabula

def Machine.told (m : Machine) : List Cue := m.cues.toList.filter fun c => !c.kind.isTrace

namespace Machine

variable (m : Machine)

@[simp] theorem told_traced (env : Env) (topic : Topic) (message : Machine → String) :
    (m.traced env topic message).told = m.told := by
  unfold traced
  split <;> simp [told, Cue.saying, CueKind.isTrace]

@[simp] theorem told_watched (env : Env) (wanted : TraceMask) (event : Machine → Event) :
    (m.watched env wanted event).told = m.told := by
  unfold watched
  split <;> simp [told]

theorem told_openFrame (env : Env) (f : Frame) (name : String) :
    (Exec.openFrame env f name m).told = m.told := by
  have hframes : ∀ n : Machine, told { n with frames := f :: n.frames } = n.told := fun _ => rfl
  simp [Exec.openFrame, hframes]

@[simp] theorem told_closeFrame (env : Env) (scope : Scope) (name : String) :
    (Exec.closeFrame env scope name m).told = m.told := by
  have hframes : ∀ (n : Machine) (rest : List Frame), told { n with frames := rest } = n.told :=
    fun _ _ => rfl
  unfold Exec.closeFrame
  split <;> simp [hframes]

end Machine

def ToldFirst (m n : Machine) : Prop := m.told <+: n.told

theorem progress_toldFirst (env : Env) : Progress env ToldFirst where
  trans := List.IsPrefix.trans
  unseen _ _ _ hcues _ := by simp [ToldFirst, Machine.told, hcues]
  emit m c _ := by simp [ToldFirst, Machine.told, List.filter_append]
  queue m i := List.prefix_rfl
  operation m op := by simp [ToldFirst]
  block f name h := by simpa [ToldFirst, Machine.told_openFrame] using h

variable {α β : Type} {P : α → Prop} {Q : β → Prop} {L : Nat}

/-- The outcomes of a computation from `m` under the limit `L` and under a looser one. They are the
same, or the first was refused an operation and told nothing but what the second told first. -/
inductive Outcome.Cut (L : Nat) (P : α → Prop) (m : Machine) : Outcome α → Outcome α → Prop
  | same {o : Outcome α} (follows : o.Follows ToldFirst m P) : Cut L P m o o
  | refused {n : Machine} {o : Outcome α} (first : ToldFirst m n)
      (follows : o.Follows ToldFirst n P) : Cut L P m (.stopped (.runaway (.operations L)) n) o

namespace Outcome.Cut

variable {m : Machine} {x y : Outcome α}

theorem follows (h : Cut L P m x y) : y.Follows ToldFirst m P := by
  cases h with
  | same follows => exact follows
  | refused first follows => exact follows.imp fun _ hn => first.trans hn

theorem mono {P' : α → Prop} (h : Cut L P m x y) (hP : ∀ a, P a → P' a) : Cut L P' m x y := by
  cases h with
  | same follows => exact .same (follows.mono hP)
  | refused first follows => exact .refused first (follows.mono hP)

theorem earlier {k : Machine} (hk : ToldFirst k m) (h : Cut L P m x y) : Cut L P k x y := by
  cases h with
  | same follows => exact .same (follows.imp fun _ hn => hk.trans hn)
  | refused first follows => exact .refused (hk.trans first) follows

/-- What is made of both outcomes alike. It keeps what was told and lets a refusal pass. -/
theorem through (h : Cut L P m x y) (after : Outcome α → Outcome β)
    (hfollows : ∀ k o, Follows ToldFirst k P o → (after o).Follows ToldFirst k Q)
    (hrefused : ∀ n, ∃ n' : Machine, n'.told = n.told ∧
      after (.stopped (.runaway (.operations L)) n) = .stopped (.runaway (.operations L)) n') :
    Cut L Q m (after x) (after y) := by
  cases h with
  | same follows => exact .same (hfollows m _ follows)
  | @refused n _ first follows =>
    obtain ⟨n', htold, hn'⟩ := hrefused n
    rw [hn']
    refine .refused ?_ ((hfollows n _ follows).imp fun k hk => ?_)
    · rwa [ToldFirst, htold]
    · rwa [ToldFirst, htold]

end Outcome.Cut

def Env.allowing (env : Env) (limit : UInt64) : Env :=
  { env with limits := { env.limits with operations := limit } }

namespace Exec

def Cut (L : Nat) (P : α → Prop) (x y : Exec α) : Prop := ∀ m, Outcome.Cut L P m (x m) (y m)

theorem Cut.bind {x y : Exec α} {f g : α → Exec β} (hx : Cut L P x y)
    (hf : ∀ a, P a → Cut L Q (f a) (g a)) : Cut L Q (x >>= f) (y >>= g) := by
  intro m
  have h := hx m
  rw [bind_apply, bind_apply]
  generalize x m = p at h ⊢
  generalize y m = q at h ⊢
  cases h with
  | same follows =>
    cases p with
    | exhausted => exact .same trivial
    | stopped s n => exact .same follows
    | done a n => exact (hf a follows.2 n).earlier follows.1
  | refused first follows =>
    -- the one that was not refused goes on, and what it tells comes after
    refine .refused first ?_
    cases q with
    | exhausted => trivial
    | stopped s n => exact follows
    | done a n => exact (hf a follows.2 n).follows.imp fun _ hk => follows.1.trans hk

theorem cut_of_follows {x : Exec α} (h : Follows ToldFirst P x x) : Cut L P x x :=
  fun m => .same (h m)

variable {env : Env} {limit : UInt64}

theorem cut_callBlock {run run' : Block → Exec Unit} (f : Frame) (name : String) (block : Block)
    (hrun : Cut L Anything (run block) (run' block)) :
    Cut L Anything (callBlock env run f name block)
      (callBlock (env.allowing limit) run' f name block) := by
  intro m
  have hopen : ToldFirst m (openFrame env f name m) := by
    simp [ToldFirst, m.told_openFrame]
  have hran := (hrun (openFrame env f name m)).earlier hopen
  let close := closeFrame env f.scope name
  refine hran.through (fun o => settle m.stack.height (afterwards close o)) (fun k o ho => ?_)
    fun n => ?_
  · refine (progress_toldFirst env).settle (ho.afterwards fun n hn => ?_) m.stack.height
    simpa [ToldFirst, close] using hn
  · exact ⟨{ close n with stack := (close n).stack.bottom m.stack.height },
      n.told_closeFrame env f.scope name, rfl⟩

theorem cut_deeper {x y : Exec Unit} (hx : Cut L Anything x y) :
    Cut L Anything (deeper env x) (deeper (env.allowing limit) y) := by
  have hlimits : (env.allowing limit).limits.depth = env.limits.depth := rfl
  intro m
  rw [deeper_apply, deeper_apply, hlimits]
  split
  · exact .same ((progress_toldFirst env).refl m)
  · let down : Machine :=
      { m with depth := m.depth + 1, depthPeak := max m.depthPeak (m.depth + 1) }
    let up (n : Machine) : Machine := { n with depth := n.depth - 1 }
    have hdown : ToldFirst m down := List.prefix_rfl
    refine ((hx down).earlier hdown).through (fun o => returned (afterwards up o))
      (fun k o ho => ?_) fun n => ⟨up n, rfl, rfl⟩
    exact (progress_toldFirst env).returned (ho.afterwards fun n hn => hn)

variable (env limit) in
/-- The parts of operations, except for counting them, do not know the limit. -/
theorem rules_cut : Rules env (env.allowing limit) Anything Anything Anything (Cut L) :=
  let rules := (progress_toldFirst env).rules
  { story := rfl
    grounds := .trivial env.story
    mono := fun hP hx m => (hx m).mono hP
    pure := fun known => cut_of_follows (rules.pure known)
    bind := Cut.bind
    fault := fun f => cut_of_follows (rules.fault f)
    see := fun f hf => cut_of_follows (rules.see f hf)
    ask := fun hf => cut_of_follows (rules.ask hf)
    trace := fun hsame => cut_of_follows (rules.trace hsame)
    misuse := fun message => cut_of_follows (rules.misuse message)
    push := fun hv => cut_of_follows (rules.push hv)
    pop := fun op => cut_of_follows (rules.pop op)
    popMany := fun op n => cut_of_follows (rules.popMany op n)
    emit := fun hc hquit => cut_of_follows (rules.emit hc hquit)
    frame := fun op => cut_of_follows (rules.frame op)
    setLocals := fun hlocals => cut_of_follows (rules.setLocals hlocals)
    changeContext := fun identity _ hf => cut_of_follows (rules.changeContext identity hf)
    newList := fun hitems => cut_of_follows (rules.newList hitems)
    changeList := fun ha hf => cut_of_follows (rules.changeList ha hf)
    draw := fun f => cut_of_follows (rules.draw f)
    change := fun c hc => cut_of_follows (rules.change c hc)
    exhausted := cut_of_follows rules.exhausted
    stop := fun hs hgive => cut_of_follows (rules.stop hs hgive)
    quit := cut_of_follows rules.quit
    queue := fun i => cut_of_follows (rules.queue i)
    callBlock := fun name block _ _ hrun => cut_callBlock _ name block hrun
    giveBack := fun hv => cut_of_follows (rules.giveBack hv)
    deeper := cut_deeper
    weigh := fun hx m => (hx m).through (weighed m.stack.height)
      (fun _ _ ho => (progress_toldFirst env).weighed ho m.stack.height) fun n => ⟨n, rfl, rfl⟩
    goesOn := fun hx m => (hx m).through (goesOn env)
      (fun _ _ ho => (progress_toldFirst env).goesOn ho) fun n => ⟨n, rfl, rfl⟩ }

section

variable (hlimit : 0 < env.limits.operations) (hL : env.limits.operations.toNat = L)
  (hlooser : limit = 0 ∨ env.limits.operations ≤ limit)

include hlimit hL hlooser

theorem cut_count : Cut L Anything (count env) (count (env.allowing limit)) := by
  intro m
  have hcounted : ToldFirst m { m with operations := m.operations + 1 } := List.prefix_rfl
  by_cases hspent : L ≤ m.operations + 1
  · have hrefused : count env m = .stopped (.runaway (.operations L))
        { m with operations := m.operations + 1 } := by
      simp [count, hL, hlimit, hspent]
    rw [hrefused]
    exact .refused hcounted ((progress_toldFirst (env.allowing limit)).follows_count m)
  · have hallowed : ¬ (0 < limit ∧ limit.toNat ≤ m.operations + 1) := by
      rintro ⟨hpos, hle⟩
      rcases hlooser with rfl | hlooser
      · exact absurd hpos (by decide)
      · have := UInt64.le_iff_toNat_le.mp hlooser
        omega
    have hdone : count env m = .done () { m with operations := m.operations + 1 } := by
      simp [count, hL, hspent]
    have hdone' : count (env.allowing limit) m =
        .done () { m with operations := m.operations + 1 } := if_neg hallowed
    rw [hdone, hdone']
    exact .same ⟨hcounted, .intro⟩

theorem cut_runBlock (fuel : Nat) (block : Block) :
    Cut L Anything (runBlock env fuel block) (runBlock (env.allowing limit) fuel block) := by
  refine (rules_cut env limit).runBlock (fun rounds op hop hrun => ?_) fuel fun _ _ _ => .intro
  refine (rules_cut env limit).execute hrun (cut_count hlimit hL hlooser) rounds hop ?_
  exact cut_of_follows (Progress.follows_change fun m =>
    (progress_toldFirst env).operation m op.opcode)

theorem cut_runEntry (fuel : Nat) (e : ElementRef) (entry : Entry) (locals : Table Value) :
    Cut L Anything (runEntry env (runBlock env fuel) e entry locals)
      (runEntry (env.allowing limit) (runBlock (env.allowing limit) fuel) e entry locals) :=
  (rules_cut env limit).runEntry (fun _ => cut_runBlock hlimit hL hlooser fuel _) .intro entry
    fun _ _ _ => .intro

theorem requestRules_cut (fuel : Nat) :
    RequestRules env (env.allowing limit) (runBlock env fuel) (runBlock (env.allowing limit) fuel)
      Anything Anything Anything (Cut L) where
  toBasics := (rules_cut env limit).toBasics
  grounds := .trivial env.story
  exhausted := (rules_cut env limit).exhausted
  runHandler {e} entry locals _ _ m := by
    have hran := cut_runEntry hlimit hL hlooser fuel e entry locals m
    exact hran.through handled (fun _ _ ho => (progress_toldFirst env).handled ho)
      fun n => ⟨n, rfl, rfl⟩
  next := by
    refine cut_of_follows fun m => ?_
    unfold nextInvocation
    split <;> exact ⟨List.prefix_rfl, .intro⟩
  enqueue i := cut_of_follows (Progress.follows_change fun m => List.prefix_rfl)

theorem cut_setUp (fuel : Nat) :
    Cut L Anything (setUp env fuel) (setUp (env.allowing limit) fuel) := by
  rw [setUp_eq, setUp_eq]
  exact (requestRules_cut hlimit hL hlooser fuel).setUpWith fuel

theorem cut_command (fuel : Nat) (i : Invocation) :
    Cut L Anything (command env fuel i) (command (env.allowing limit) fuel i) := by
  rw [command_eq, command_eq]
  exact (requestRules_cut hlimit hL hlooser fuel).commandWith fuel i

end

end Exec

end Fabula
