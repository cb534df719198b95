import Fabula.Block.Builder
import Fabula.Request.Basic

/-! A small story to try things on: a hero in a cellar with a lamp, who can look. -/

namespace Fabula.Sample

def cellarStart : Block :=
  Build.push (.player "hero") ++ Build.plain (.focus .setPlayer) ++
    Build.push (.room "cellar") ++ Build.plain (.focus .pushRoom)

def cellar : Except StoryError Story := do
  let s ← Story.empty.addAction (← Action.create "look" .general)
  let s ← s.addElement (← Element.create .player "hero")
  let s ← s.addElement (← Element.create .room "cellar")
  let lamp ← Element.create .object "lamp"
  let s ← s.addElement (← lamp.addName "lamp")
  return (s.editWorld fun e => .ok (e.addBlock .empty ⟨.start, []⟩ cellarStart)).2

def cellarStory : Story := cellar.toOption.getD .empty

/-- What the world does when the hero looks. -/
def onLook (s : Story) (heap : Heap) (block : Block) : Story :=
  (s.editWorld fun e => .ok (e.addBlock heap (.onAction "look") block)).2

/-- The seed of sessions that are played the same way every time. -/
def seed : UInt64 := 0x7a3e

/-- A new session of a story with the game started. -/
def play (heap : Heap) (s : Story) : Except StoryError (Option (Response × Session)) :=
  match Session.start heap s seed with
  | .error e => .error e
  | .ok session => .ok (session.setUp {})

end Fabula.Sample
