import Fabula.Proofs.Request.Endings
import Fabula.Proofs.Request.Progress
import Fabula.Proofs.Session.Runaway

/-! How handlers and requests end. An operation that ends the request ends it with no failure told
of, and one that ends the handler lets the request go on, unless a block on the way out has values
left on the stack, which is told of as an imbalance. -/

namespace Fabula

def Request.watching (watch : TraceMask) : Request → Request
  | .setUp options => .setUp { options with watch := watch }
  | .act i options => .act i { options with watch := watch }

def Dispatched (op : Opcode) (events : List Event) : Prop := ∃ count, .operation op count ∈ events

namespace Session

abbrev EndsRequest (s : Signal) : Prop := s = .finish ∨ s = .quit

/-- No failure is told of, or just an imbalance of the stack and that last. -/
def EndsCleanly (cues : List Cue) : Prop :=
  ∃ quiet told : List Cue, cues = quiet ++ told ∧ (∀ c ∈ quiet, c.kind.isFailure = false) ∧
    (told = [] ∨ ∃ expected actual : Nat, expected ≠ actual ∧
      told = [failureCue (.fatal (.stackImbalance expected actual))])

theorem finishRequest_state (env : Env) (failure : Option Signal) (m : Machine) :
    (finishRequest env failure m).2 = m.state := by
  have hwatched : ∀ (m : Machine) (wanted : TraceMask) (event : Machine → Event),
      (m.watched env wanted event).state = m.state := by
    intro m wanted event
    unfold Machine.watched
    split <;> rfl
  cases failure <;> simp [finishRequest, hwatched]

theorem mem_events_finishRequest {env : Env} {failure : Option Signal} {m : Machine} {v : Event}
    (h : v ∈ (finishRequest env failure m).1.events) :
    v ∈ m.events ∨ v = .requestEnd failure := by
  have hwatched : ∀ n : Machine, v ∈ (n.watched env .requests fun _ => .requestEnd failure).events →
      v ∈ n.events ∨ v = .requestEnd failure := by
    intro n hv
    unfold Machine.watched at hv
    split at hv
    · exact Array.mem_push.mp hv
    · exact .inl hv
  have hv := hwatched _ (Array.mem_toList_iff.mp h)
  cases failure with
  | none => exact hv
  | some signal => exact hv

theorem conclude_endings {s : Session} {env : Env} {watch : TraceMask} {o o' : Outcome Unit}
    (h : Outcome.Endings EndsRequest Anything { state := s.state } #[] o o')
    {t : Response} {s' : Session} (ht : s.conclude (env.watching watch) o' = some (t, s'))
    (hend : ∃ v ∈ t.events, ∃ signal, v.ending? = some signal ∧ EndsRequest signal) :
    ∃ r, s.conclude env o = some (r, s') ∧ r.cues = t.cues ∧ EndsCleanly r.cues := by
  obtain ⟨v, hv, signal, hsignal, hends⟩ := hend
  -- The event is one of those that came about, for neither the start nor the end of a request is one.
  have hnews : ∀ {failure : Option Signal} {n : Machine} {news : Array Event},
      v ∈ (finishRequest (env.watching watch) failure (n.withEvents (#[] ++ news))).1.events →
        v ∈ news := by
    intro failure n news hv
    rcases mem_events_finishRequest hv with hv | rfl
    · simpa [Machine.withEvents] using hv
    · cases hsignal
  cases h with
  | exhausted => cases ht
  | @done _ n n' news _ came free =>
    obtain ⟨rfl, -⟩ := came
    cases ht
    exact absurd hends (free v (hnews hv) signal hsignal)
  | @stopped stop n n' news came ends =>
    obtain ⟨rfl, quiet⟩ := came
    cases ht
    let failure := if stop.isFailure then some stop else none
    refine ⟨(finishRequest env failure n).1, ?_, ?_, n.cues.toList, _,
      finishRequest_cues env failure n, ?_, ?_⟩
    · simp only [conclude, finishRequest_state]
      rfl
    · rw [finishRequest_cues, finishRequest_cues]
      rfl
    · intro c hc
      rcases quiet c (Array.mem_toList_iff.mp hc) with hc | hc
      · simp at hc
      · exact hc
    · rcases ends v (hnews hv) signal hsignal hends with rfl | ⟨expected, actual, hne, rfl⟩
      · left
        rcases hends with rfl | rfl <;> rfl
      · exact .inr ⟨expected, actual, hne, rfl⟩

theorem request_endings {s : Session} {options : RequestOptions} {watch : TraceMask}
    {label : String} {body : Env → Exec Unit}
    (hbody : ∀ env : Env, Exec.Endings EndsRequest Anything (body env) (body (env.watching watch)))
    {t : Response} {s' : Session}
    (ht : s.request { options with watch := watch } label body = some (t, s'))
    (hend : ∃ v ∈ t.events, ∃ signal, v.ending? = some signal ∧ EndsRequest signal) :
    ∃ r, s.request options label body = some (r, s') ∧ r.cues = t.cues ∧ EndsCleanly r.cues := by
  let m : Machine := { state := s.state }
  let env := s.env options
  obtain ⟨news, hnews, hstart⟩ := Exec.beside_watched env watch .requests
    (fun _ => .requestStart label) (fun _ _ => rfl) m #[]
  have hran := (hbody env (m.watched env .requests fun _ => .requestStart label)
    (#[] ++ news)).after hstart.quiet (Exec.endingFree_of_forall_eq hnews rfl)
  rw [← hstart.beside] at hran
  exact conclude_endings hran ht hend

theorem answerWith_endings {s : Session} {allowed : Nat} {q : Request} {watch : TraceMask}
    {t : Response} {s' : Session} (ht : s.answerWith allowed (q.watching watch) = some (t, s'))
    (hend : ∃ v ∈ t.events, ∃ signal, v.ending? = some signal ∧ EndsRequest signal) :
    ∃ r, s.answerWith allowed q = some (r, s') ∧ r.cues = t.cues ∧ EndsCleanly r.cues := by
  cases q with
  | setUp options => exact request_endings (fun env => Exec.endings_setUp env watch allowed) ht hend
  | act i options =>
    exact request_endings (fun env => Exec.endings_command env watch allowed i) ht hend

end Session

namespace Exec

/-- A handler in which its end was dispatched comes to its end, or stops with an imbalance. -/
theorem handler_endings {x y : Exec Bool} {m m' : Machine}
    (h : Endings (fun s => s = .finish ∨ s = .quit ∨ s = .endHandler) Anything x y)
    (hm' : (handled (y m)).machine? = some m')
    (hend : ∃ v ∈ m'.events.toList.drop m.events.size, v.ending? = some .endHandler) :
    ∃ n, m.Quiet n ∧ (handled (x m) = .done true n ∨ ∃ expected actual : Nat, expected ≠ actual ∧
      handled (x m) = .stopped (.fatal (.stackImbalance expected actual)) n) := by
  obtain ⟨v, hv, hsignal⟩ := hend
  have ho := h m m.events
  have hsame : m.withEvents m.events = m := rfl
  rw [hsame] at ho
  generalize x m = p at ho ⊢
  generalize y m = q at ho hm'
  have hnews : ∀ {n : Machine} {news : Array Event},
      m'.events = (n.withEvents (m.events ++ news)).events → v ∈ news := by
    intro n news he
    rw [he] at hv
    simpa [Machine.withEvents] using hv
  cases ho with
  | exhausted => cases hm'
  | @done _ n n' news _ came free =>
    obtain ⟨rfl, -⟩ := came
    cases hm'
    exact absurd (.inr (.inr rfl)) (free v (hnews rfl) _ hsignal)
  | @stopped stop n n' news came ends =>
    obtain ⟨rfl, quiet⟩ := came
    have hevents : m'.events = (n.withEvents (m.events ++ news)).events := by
      cases stop <;> cases hm' <;> rfl
    have hstop := ends v (hnews hevents) _ hsignal (.inr (.inr rfl))
    rcases hstop with rfl | ⟨expected, actual, hne, rfl⟩
    · exact ⟨n, quiet, .inl rfl⟩
    · exact ⟨n, quiet, .inr ⟨expected, actual, hne, rfl⟩⟩

end Exec

namespace Session

/-- Endings are clean wherever they are raised, up to the balance of the stack. A request that a
session answers with operations watched, one of which ends the request, is answered with the same
cues when they are not watched, and these tell of no failure, unless it is an imbalance of the
stack, told last. A handler in which its end is dispatched comes to its end and the request goes on,
or else it stops with an imbalance. -/
theorem endings_are_clean (s : Session) (q : Request) (watch : TraceMask) :
    (∀ t s', s.answer (q.watching watch) = some (t, s') →
      Dispatched (.control .finish) t.events ∨ Dispatched (.control .quit) t.events →
      ∃ r, s.answer q = some (r, s') ∧ r.cues = t.cues ∧ EndsCleanly r.cues) ∧
    ∀ (env : Env) (fuel : Nat) (e : ElementRef) (entry : Entry) (locals : Table Value)
      (m m' : Machine),
      (Exec.runHandler (env.watching watch) (Exec.runBlock (env.watching watch) fuel) e entry locals
        m).machine? = some m' →
      Dispatched (.control .endHandler) (m'.events.toList.drop m.events.size) →
      ∃ n, m.Quiet n ∧
        (Exec.runHandler env (Exec.runBlock env fuel) e entry locals m = .done true n ∨
          ∃ expected actual : Nat, expected ≠ actual ∧
            Exec.runHandler env (Exec.runBlock env fuel) e entry locals m =
              .stopped (.fatal (.stackImbalance expected actual)) n) := by
  constructor
  · intro t s' ht hdispatched
    have hend : ∃ v ∈ t.events, ∃ signal, v.ending? = some signal ∧ EndsRequest signal := by
      rcases hdispatched with ⟨count, hv⟩ | ⟨count, hv⟩
      · exact ⟨_, hv, .finish, rfl, .inl rfl⟩
      · exact ⟨_, hv, .quit, rfl, .inr rfl⟩
    rw [answer_eq] at ht ⊢
    exact answerWith_endings ht hend
  · intro env fuel e entry locals m m' hm' hdispatched
    obtain ⟨count, hv⟩ := hdispatched
    have hentry := Exec.endings_runEntry env watch fuel e entry locals
    exact Exec.handler_endings hentry hm' ⟨_, hv, rfl⟩

end Session

namespace Sample

/-- The cellar where the hero calls a function to look, with what is pushed before. -/
def leaving (pending : Block) (op : ControlOp) : Session :=
  let leave := Function.of "leave" [] (Build.plain (.control op))
  { cellarSession .empty with
    story := onLook (cellarStory.editWorld fun e => .ok (e.addFunction leave)).2 .empty
      (pending ++ Build.call "leave")
    limits := ⟨50, 0⟩ }

def look : Request := .act (.general "look") {}

/-- A request that is finished inside a function ends with nothing told. With a value pending where
the function is called, an imbalance is told of instead. -/
theorem leaving_is_clean :
    (∃ r s', (leaving [] .finish).answer look = some (r, s') ∧ r.cues = [] ∧
      Session.EndsCleanly r.cues) ∧
    ((leaving (Build.push (.integer 1)) .finish).answer look).map (fun x => x.1.cues) =
      some [Session.failureCue (.fatal (.stackImbalance 0 1))] := by
  have hwatched : ((leaving [] .finish).answer (look.watching .operations)).map
      (fun x => (x.1.events, x.1.cues)) = some ([.operation (.call .function) 1,
        .operation (.control .finish) 2], []) := by decide +kernel
  obtain ⟨⟨t, s'⟩, ht, htold⟩ := Option.map_eq_some_iff.mp hwatched
  obtain ⟨hevents, hcues⟩ := Prod.mk.inj htold
  have hfinish : Dispatched (.control .finish) t.events := ⟨2, by rw [hevents]; simp⟩
  obtain ⟨r, hr, hsame, hclean⟩ :=
    ((leaving [] .finish).endings_are_clean look .operations).1 t s' ht (.inl hfinish)
  exact ⟨⟨r, s', hr, hsame.trans hcues, hclean⟩, by decide +kernel⟩

end Sample

end Fabula
