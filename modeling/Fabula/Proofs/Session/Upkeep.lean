import Fabula.Proofs.Machine.Upkeep
import Fabula.Proofs.Session.Guarded

/-! Sessions are well kept through whole games: after every request, whether it came to its end or
was broken off, and around every operation on the way. -/

namespace Fabula

namespace Session

/-- A guard that spares what is in order is never seen in a game that starts well kept, and the game
stays so. -/
theorem playGuarded_upkeep {story : Story} (ho : Story.Orderly { story with knownDigest := none })
    {guard : Guard} (hguard : guard.Spares story) (requests : List Request) (s : Session)
    (hstory : s.story = story) (hs : s.state.WellKept story) :
    s.playGuarded guard requests = s.play requests ∧
      ∀ x ∈ s.play requests, x.2.state.WellKept story := by
  refine playGuarded_keeps (Machine.WellKept.invariant ho) ?_ ?_ requests s hstory hs
  · intro env run limit op m henv hm hkept
    subst henv
    refine hguard op _ m ⟨hm, Outcome.kept_iff.mpr hkept, fun hop => ?_⟩
    exact (Exec.finds_execute ho hop run limit m hm).2
  · exact fun st hst => ⟨hst, fun f hf => absurd hf List.not_mem_nil⟩

/-- Sessions are well kept over whole games. From the start of a story on, however it was made and
whatever is asked, ownership is coherent and names only live elements in their places after every
request. The same holds of the machine around every single operation, where only blocks of live
elements run and operations on variables of their own miss no element: a guard that would let pass
nothing else makes no difference. -/
theorem play_wellKept {heap : Heap} {story : Story} {seed : UInt64} {s : Session}
    (hmade : story.Made) (hs : start heap story seed = .ok s) (requests : List Request) :
    s.state.WellKept s.story ∧ (∀ x ∈ s.play requests, x.2.state.WellKept s.story) ∧
      ∀ guard : Guard, guard.Spares s.story →
        s.playGuarded guard requests = s.play requests := by
  obtain ⟨ho, hkept⟩ := wellKept_of_start hmade hs
  refine ⟨hkept, ?_, fun guard hguard => ?_⟩
  · exact (playGuarded_upkeep ho (Guard.alarm_spares s.story) requests s rfl hkept).2
  · exact (playGuarded_upkeep ho hguard requests s rfl hkept).1

end Session

namespace Sample

/-- The cellar where whoever looks takes the lamp and then drops a thing that is not there. -/
def lampTaken : Story :=
  onLook cellarStory .empty
    (Build.push (.player "player") ++ Build.push (.object "lamp") ++ Build.plain (.holding .give) ++
      Build.push (.object "nothing") ++ Build.plain (.holding .remove))

theorem lampTaken_made : lampTaken.Made :=
  .built lampTaken.knownDigest (cellarStory_built.editWorld (.block .empty (.onAction "look") _))

/-- The hero keeps the lamp although the request is broken off, and all is still in order. -/
theorem play_lampTaken : ∃ s, Session.start .empty lampTaken seed = .ok s ∧
    s.state.WellKept s.story ∧ (∀ x ∈ s.play [.setUp {}, look], x.2.state.WellKept s.story) ∧
    s.playGuarded (.alarm s.story) [.setUp {}, look] = s.play [.setUp {}, look] ∧
    (s.play [.setUp {}, look]).map (fun x =>
      (x.1.cues.map fun c => c.kind, x.2.state.ownership.owner.toList)) =
        [([], []), ([.fatal], [("lamp", ⟨.player, "hero"⟩)])] := by
  have hplay : (Session.start .empty lampTaken seed).toOption.map (fun s =>
      (s.play [.setUp {}, look]).map fun x =>
        (x.1.cues.map fun c => c.kind, x.2.state.ownership.owner.toList)) =
      some [([], []), ([.fatal], [("lamp", ⟨.player, "hero"⟩)])] := by decide +kernel
  cases hs : Session.start .empty lampTaken seed with
  | error e =>
    rw [hs] at hplay
    cases hplay
  | ok s =>
    rw [hs] at hplay
    obtain ⟨hstart, hafter, hguarded⟩ :=
      Session.play_wellKept lampTaken_made hs [.setUp {}, look]
    exact ⟨s, rfl, hstart, hafter, hguarded _ (Guard.alarm_spares s.story), Option.some.inj hplay⟩

end Sample

end Fabula
