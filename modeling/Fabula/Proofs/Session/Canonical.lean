import Fabula.Proofs.Machine.Canonical
import Fabula.Proofs.Session.Guarded

/-! Values stay canonical over whole games. Whatever a session is asked, every value that it can come
across, on the stack, in variables or inside lists, is in the one form in which it would be read from
a file, and none of them names a variable. -/

namespace Fabula

namespace Session

theorem since_of_start {heap : Heap} {story : Story} {seed : UInt64} {s : Session}
    (hs : start heap story seed = .ok s) : s.state.Since heap.size := by
  unfold start at hs
  split at hs
  · cases hs
  · obtain rfl := Except.ok.inj hs
    refine ⟨Nat.le_refl _, fun hc => ?_, fun {a} ha v hv => ?_⟩
    · rw [bindings_of_startContexts hc]
      exact holds_empty _
    · have hnone : heap.cells[a]? = none := Array.getElem?_eq_none ha
      simp [Heap.items, Heap.cell, hnone] at hv

theorem digest_of_start {heap : Heap} {story : Story} {seed : UInt64} {s : Session}
    (hs : start heap story seed = .ok s) : story.digest = (.ok s.digest, s.story) := by
  unfold start at hs
  split at hs
  · cases hs
  · rename_i digest remembered hd
    obtain rfl := Except.ok.inj hs
    exact hd

theorem contexts_of_start {heap : Heap} {story : Story} {seed : UInt64} {s : Session}
    (hs : start heap story seed = .ok s) : s.state.contexts = startContexts s.story := by
  unfold start at hs
  split at hs
  · cases hs
  · obtain rfl := Except.ok.inj hs
    rfl

/-- A session plays the story it was started with, with its digest remembered. -/
theorem story_of_digest {story : Story} {s : Session}
    (hd : story.digest = (.ok s.digest, s.story)) :
    s.story = { story with knownDigest := s.story.knownDigest } := by
  have hsame := story.digest_snd
  rwa [hd] at hsame

/-- A guard that spares canonical values is never seen in a game that holds no others, and the game
goes on so. -/
theorem playGuarded_canonical {story : Story} (hlists : story.listFree = true)
    (hconstants : story.Constants Value.Canonical) {base : Nat} {guard : Guard}
    (hguard : guard.SparesCanonical) (requests : List Request) (s : Session)
    (hstory : s.story = story) (hs : s.state.Since base) :
    s.playGuarded guard requests = s.play requests ∧
      ∀ x ∈ s.play requests, x.2.state.Since base := by
  refine playGuarded_keeps (Machine.Since.invariant hlists hconstants) ?_ ?_ requests s hstory hs
  · intro env run limit op m _ hm hkept
    exact hguard op _ m hm.canonical (hkept.imp fun _ hn => hn.canonical)
  · exact fun st hst => Machine.since_of_state hst

/-- Values stay canonical. The constants of a story from a file are canonical. In a session of any
story with canonical constants, whatever is asked, all values that the session holds are canonical
and name no variable, after every request and around every single operation: a guard that would let
pass nothing else makes no difference. -/
theorem play_canonical (story : Story) :
    (∀ bytes, Story.decode bytes = .ok story →
      story.Obtained ∧ story.Constants Value.Canonical) ∧
    (story.Obtained → story.Constants Value.Canonical →
      ∀ (heap : Heap) (seed : UInt64) (s : Session), start heap story seed = .ok s →
      ∀ requests : List Request,
        Machine.Canonical { state := s.state } ∧
        (∀ x ∈ s.play requests, Machine.Canonical { state := x.2.state }) ∧
        ∀ guard : Guard, guard.SparesCanonical →
          s.playGuarded guard requests = s.play requests) := by
  refine ⟨fun bytes hread => ⟨.decoded hread, ?_⟩, ?_⟩
  · exact (Story.constants_of_decode hread).mono fun _ hv => hv.canonical
  · intro ho hconstants heap seed s hs requests
    have hdigest := digest_of_start hs
    have hsame := story_of_digest hdigest
    have hlists : s.story.listFree = true :=
      (congrArg Story.listFree hsame).trans (ho.listFree_of_digest (congrArg Prod.fst hdigest))
    have hconstants : s.story.Constants Value.Canonical := by
      rw [hsame]
      exact ⟨hconstants.world, hconstants.elements⟩
    have hstart := since_of_start hs
    refine ⟨(Machine.since_of_state hstart).canonical, fun x hx => ?_, fun guard hguard => ?_⟩
    · have hplay := (playGuarded_canonical hlists hconstants Guard.canonicalOnly_spares
        requests s rfl hstart).2
      exact (Machine.since_of_state (hplay x hx)).canonical
    · exact (playGuarded_canonical hlists hconstants hguard requests s rfl hstart).1

end Session

namespace Sample

/-- The cellar where looking puts a product and the lamp into a list that the world keeps. -/
def inventory : Story :=
  onLook cellarStory .empty
    (Build.push (.real 0.0) ++ Build.push (.real (-1.0)) ++ Build.apply .multiply ++
      Build.push (.object "lamp") ++ Build.push (.integer 2) ++
      Build.plain (.stack .pushInitList) ++ Build.popValue "seen")

theorem inventory_obtained : inventory.Obtained :=
  cellarStory_built.obtained.editWorld fun e => .ok (e.addBlock .empty (.onAction "look") _)

/-- The product of zero and a negative number is kept as a zero without a sign. -/
theorem play_inventory : ∃ s, Session.start .empty inventory seed = .ok s ∧
    Machine.Canonical { state := s.state } ∧
    (∀ x ∈ s.play [.setUp {}, look], Machine.Canonical { state := x.2.state }) ∧
    s.playGuarded .canonicalOnly [.setUp {}, look] = s.play [.setUp {}, look] ∧
    (s.play [.setUp {}, look]).map (fun x =>
      (x.2.state.contexts[worldIdentity]?.bind (fun c => c.get? "seen"), x.2.state.heap.items 0)) =
        [(none, []), (some (.list 0), [.float 0.0, .element .object "lamp"])] := by
  have hplay : (Session.start .empty inventory seed).toOption.map (fun s =>
      (s.play [.setUp {}, look]).map fun x =>
        (x.2.state.contexts[worldIdentity]?.bind (fun c => c.get? "seen"),
          x.2.state.heap.items 0)) =
      some [(none, []), (some (.list 0), [.float 0.0, .element .object "lamp"])] := by
    decide +kernel
  have hconstants : inventory.Constants Value.Canonical := by decide +kernel
  cases hs : Session.start .empty inventory seed with
  | error e =>
    rw [hs] at hplay
    cases hplay
  | ok s =>
    rw [hs] at hplay
    obtain ⟨hstart, hafter, hguarded⟩ := (Session.play_canonical inventory).2 inventory_obtained
      hconstants .empty seed s hs [.setUp {}, look]
    exact ⟨s, rfl, hstart, hafter, hguarded _ Guard.canonicalOnly_spares, Option.some.inj hplay⟩

end Sample

end Fabula
