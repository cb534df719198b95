import Fabula.Proofs.Request.Attended
import Fabula.Proofs.Request.Nesting
import Fabula.Request.Profile

/-! A profiler that follows nested events never loses track. The scope that is left is always the
innermost one that is open, and there are as many open scopes as the machine has frames. -/

namespace Fabula

def Event.framesFrom (count : Nat) : Event → Nat
  | .enter _ depth _ _ => depth
  | .leave _ depth _ _ => depth - 1
  | _ => count

def framesAfter (events : List Event) : Nat := events.foldl Event.framesFrom 0

theorem Nested.foldl_framesFrom {depth : Nat} {events : List Event} (h : Nested depth events) :
    events.foldl Event.framesFrom depth = depth := by
  induction h with
  | nil => rfl
  | operation _ ih => simpa [Event.framesFrom] using ih
  | block _ _ hinner hrest => simp [Event.framesFrom, hinner, hrest]

theorem TraceMask.contains_left {a b c : TraceMask} (h : a.contains (b.union c) = true) :
    a.contains b = true := by
  simp only [contains, union, beq_iff_eq] at h ⊢
  have habsorb : (b.bits ||| c.bits) &&& b.bits = b.bits := by
    apply UInt32.toBitVec_inj.mp
    ext i hi
    simpa using Or.inl
  calc a.bits &&& b.bits
      = a.bits &&& (b.bits ||| c.bits) &&& b.bits := by rw [UInt32.and_assoc, habsorb]
    _ = b.bits := by rw [h, habsorb]

namespace Profiler

/-- The profiler after events, each taken with the lists that there were. -/
def follow (p : Profiler) (story : Story) (feed : List (Heap × Event)) : Profiler :=
  feed.foldl (fun p x => p.handle story x.1 x.2) p

/-- The profiler is ready for an event: a scope that is left is the innermost one that is open, and
at the end of a request none is open. -/
def Ready (p : Profiler) : Event → Prop
  | .leave scope depth _ _ => ∃ top rest, p.scopes = top :: rest ∧ top.scope = scope ∧
      top.depth = depth
  | .requestEnd _ => p.activeScopes = 0
  | _ => True

/-- The profiler keeps track of the events of a request. At each it is ready for it, and has then as
many open scopes as the machine has frames. -/
def KeepsTrack (p : Profiler) (story : Story) (events : List Event) : Prop :=
  ∀ (before : List (Heap × Event)) (heap : Heap) (e : Event) (after : List (Heap × Event)),
    (before ++ (heap, e) :: after).map Prod.snd = events →
    (p.follow story before).Ready e ∧
      (p.follow story (before ++ [(heap, e)])).activeScopes =
        framesAfter ((before ++ [(heap, e)]).map Prod.snd)

def Tracks (story : Story) : Profiler → Nat → List (Heap × Event) → Prop
  | _, _, [] => True
  | p, count, (heap, e) :: rest =>
    p.Ready e ∧ (p.handle story heap e).activeScopes = e.framesFrom count ∧
      Tracks story (p.handle story heap e) (e.framesFrom count) rest

variable {p : Profiler} {story : Story} {count : Nat} {xs ys : List (Heap × Event)}

@[simp] theorem follow_nil : p.follow story [] = p := rfl

@[simp] theorem follow_cons (x : Heap × Event) :
    p.follow story (x :: xs) = (p.handle story x.1 x.2).follow story xs := rfl

@[simp] theorem follow_append :
    p.follow story (xs ++ ys) = (p.follow story xs).follow story ys :=
  List.foldl_append

theorem tracks_append : Tracks story p count (xs ++ ys) ↔ Tracks story p count xs ∧
    Tracks story (p.follow story xs) ((xs.map Prod.snd).foldl Event.framesFrom count) ys := by
  induction xs generalizing p count with
  | nil => simp [Tracks]
  | cons x xs ih => simp [Tracks, ih, and_assoc]

theorem keepsTrack_of_tracks {events : List Event}
    (h : ∀ feed : List (Heap × Event), feed.map Prod.snd = events → Tracks story p 0 feed) :
    p.KeepsTrack story events := by
  intro before heap e after hfeed
  obtain ⟨-, hready, hactive, -⟩ := tracks_append.mp (h _ hfeed)
  exact ⟨hready, by simpa [framesAfter] using hactive⟩

theorem scopes_enter (p : Profiler) (story : Story) (heap : Heap) (scope : Scope) (depth : Nat)
    (element name : String) : ∃ label,
      (p.handle story heap (.enter scope depth element name)).scopes =
        ⟨scope, depth, label⟩ :: p.scopes :=
  ⟨_, rfl⟩

theorem scopes_leave {top : OpenScope} {rest : List OpenScope} (h : p.scopes = top :: rest)
    (story : Story) (heap : Heap) (element name : String) :
    (p.handle story heap (.leave top.scope top.depth element name)).scopes = rest := by
  simp [handle, leave, h]

/-- Through nested events a profiler keeps track, and the same scopes are open afterwards. -/
theorem tracks_of_nested {events : List Event} (h : Nested count events)
    (hfeed : xs.map Prod.snd = events) (hactive : p.activeScopes = count) :
    Tracks story p count xs ∧ (p.follow story xs).scopes = p.scopes := by
  induction h generalizing p xs with
  | nil =>
    obtain rfl := List.map_eq_nil_iff.mp hfeed
    exact ⟨.intro, rfl⟩
  | operation _ ih =>
    obtain ⟨⟨heap, e⟩, xs, rfl, rfl, hxs⟩ := List.map_eq_cons_iff.mp hfeed
    obtain ⟨htracks, hscopes⟩ := ih (p := p) hxs hactive
    exact ⟨⟨.intro, hactive, htracks⟩, hscopes⟩
  | @block depth scope element name inner rest _ _ hinner hafter =>
    obtain ⟨⟨heap, e⟩, zs, rfl, rfl, hzs⟩ := List.map_eq_cons_iff.mp hfeed
    obtain ⟨xs, ys, rfl, hxs, hys⟩ := List.map_eq_append_iff.mp hzs
    obtain ⟨⟨heap', e⟩, ys, rfl, rfl, hrest⟩ := List.map_eq_cons_iff.mp hys
    obtain ⟨label, henter⟩ := scopes_enter p story heap scope (depth + 1) element name
    have hentered : (p.handle story heap (.enter scope (depth + 1) element name)).activeScopes =
        depth + 1 := by simpa [activeScopes, henter] using hactive
    rw [Tracks, follow_cons]
    generalize p.handle story heap (.enter scope (depth + 1) element name) = q at henter hentered ⊢
    obtain ⟨htracks, hscopes⟩ := hinner hxs hentered
    rw [henter] at hscopes
    have hleft := scopes_leave hscopes story heap' element name
    have hdepth : ((q.follow story xs).handle story heap' (.leave scope (depth + 1) element
        name)).activeScopes = depth := by rwa [activeScopes, hleft]
    obtain ⟨htracks', hscopes'⟩ := hafter hrest hdepth
    refine ⟨⟨.intro, hentered, tracks_append.mpr ⟨htracks, ?_, hdepth, htracks'⟩⟩, ?_⟩
    · exact ⟨_, _, hscopes, rfl, rfl⟩
    · simpa [hleft] using hscopes'

/-- A profiler keeps track of a request whose events are nested between its start and its end,
whatever the profiler has followed before. -/
theorem keepsTrack_of_nested {body : List Event} (h : Nested 0 body) (label : String)
    (failure : Option Signal) :
    p.KeepsTrack story (.requestStart label :: (body ++ [.requestEnd failure])) := by
  refine keepsTrack_of_tracks fun feed hfeed => ?_
  obtain ⟨⟨heap, e⟩, zs, rfl, rfl, hzs⟩ := List.map_eq_cons_iff.mp hfeed
  obtain ⟨xs, ys, rfl, hxs, hys⟩ := List.map_eq_append_iff.mp hzs
  obtain ⟨⟨heap', e⟩, ys, rfl, rfl, hrest⟩ := List.map_eq_cons_iff.mp hys
  obtain rfl := List.map_eq_nil_iff.mp hrest
  have hstarted : (p.handle story heap (.requestStart label)).activeScopes = 0 := rfl
  obtain ⟨htracks, hscopes⟩ := tracks_of_nested h hxs hstarted
  refine ⟨.intro, hstarted, tracks_append.mpr ⟨htracks, ?_, ?_, .intro⟩⟩
  · rw [Ready, activeScopes, hscopes]
    exact hstarted
  · rw [hxs]
    simp [Event.framesFrom, h.foldl_framesFrom, handle, activeScopes]

end Profiler

namespace Machine

def Counted (m : Machine) : Prop := framesAfter m.events.toList = m.frames.length

variable {env : Env} {m n : Machine}

theorem Counted.nests (hm : m.Counted) (h : m.Nests n) : n.Counted := by
  obtain ⟨hrunning, news, hevents, hnested⟩ := h
  have hlength : n.frames.length = m.frames.length := by
    simpa [running] using congrArg List.length hrunning
  have hbefore : framesAfter m.events.toList = m.running.length := by
    simpa [running, Counted] using hm
  rw [Counted, hevents, framesAfter, List.foldl_append, ← framesAfter, hbefore,
    hnested.foldl_framesFrom, hlength, running, List.length_map]

variable (hscopes : env.watch.contains .scopes = true)

include hscopes

theorem counted_openFrame (f : Frame) (name : String) (m : Machine) :
    (Exec.openFrame env f name m).Counted := by
  obtain ⟨cues, hopen⟩ := Exec.openFrame_recorded hscopes f name m
  simp [hopen, Counted, framesAfter, Event.framesFrom]

theorem counted_closeFrame (scope : Scope) (name : String) (h : m.frames ≠ []) :
    (Exec.closeFrame env scope name m).Counted := by
  obtain ⟨f, rest, hframes⟩ := List.exists_cons_of_ne_nil h
  obtain ⟨cues, hclose⟩ := Exec.closeFrame_recorded hscopes scope name hframes
  simp [hclose, Counted, framesAfter, Event.framesFrom]

theorem attending_counted : Attending env Counted Nests where
  progress := Exec.progress_nests hscopes
  follow := Counted.nests
  enter f name _ := counted_openFrame hscopes f name _

end Machine

end Fabula
