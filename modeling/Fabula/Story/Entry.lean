import Fabula.Value.Equality
import Fabula.Value.Printing

/-! Entries: what makes a block of an element run. An entry is a trigger with the values it must
match, such as the action and the object of a command. -/

namespace Fabula

inductive Trigger where
  | init | start | onAction | onActionWith | onActionWithOther | onModalAction
  | onUnhandledAction | onForbiddenAction | onFocus | onUnfocus | onWorldBrowse | onPlayerBrowse
  | onRoomBrowse | onContainerBrowse | onElementBrowse | afterSuccessfulCommand
  | afterFailedCommand | afterEveryCommand
deriving DecidableEq, Inhabited

namespace Trigger

/-- All triggers; the place of a trigger is its tag. -/
def all : List Trigger :=
  [.init, .start, .onAction, .onActionWith, .onActionWithOther, .onModalAction,
   .onUnhandledAction, .onForbiddenAction, .onFocus, .onUnfocus, .onWorldBrowse, .onPlayerBrowse,
   .onRoomBrowse, .onContainerBrowse, .onElementBrowse, .afterSuccessfulCommand,
   .afterFailedCommand, .afterEveryCommand]

def tag (t : Trigger) : UInt8 := (all.idxOf t).toUInt8

def ofTag? (tag : UInt8) : Option Trigger := all[tag.toNat]?

@[simp] theorem ofTag?_tag (t : Trigger) : ofTag? t.tag = some t := by cases t <;> rfl

theorem tag_injective {a b : Trigger} (h : a.tag = b.tag) : a = b := by
  have ha := ofTag?_tag a
  rw [h, ofTag?_tag b] at ha
  exact (Option.some.inj ha).symm

def name : Trigger → String
  | init => "INIT" | start => "START" | onAction => "ONACTION" | onActionWith => "ONACTIONWITH"
  | onActionWithOther => "ONACTIONWITHOTHER" | onModalAction => "ONMODALACTION"
  | onUnhandledAction => "ONUNHANDLEDACTION" | onForbiddenAction => "ONFORBIDDENACTION"
  | onFocus => "ONFOCUS" | onUnfocus => "ONUNFOCUS" | onWorldBrowse => "ONWORLDBROWSE"
  | onPlayerBrowse => "ONPLAYERBROWSE" | onRoomBrowse => "ONROOMBROWSE"
  | onContainerBrowse => "ONCONTAINERBROWSE" | onElementBrowse => "ONELEMENTBROWSE"
  | afterSuccessfulCommand => "AFTERSUCCESSFULCOMMAND"
  | afterFailedCommand => "AFTERFAILEDCOMMAND" | afterEveryCommand => "AFTEREVERYCOMMAND"

def ofName? (name : String) : Option Trigger := all.find? fun t => t.name == name

end Trigger

structure Entry where
  trigger : Trigger
  values : List Value := []
deriving DecidableEq, Inhabited

namespace Entry

def onAction (action : String) : Entry := ⟨.onAction, [.actionNamed action]⟩

def onActionWith (action object : String) : Entry :=
  ⟨.onActionWith, [.actionNamed action, .object object]⟩

def onActionWithOther (action : String) : Entry := ⟨.onActionWithOther, [.actionNamed action]⟩

def onModalAction (action mode : String) : Entry :=
  ⟨.onModalAction, [.actionNamed action, .string (Text.fold mode)]⟩

/-- One key: the same trigger and strictly equal values. -/
def same (heap : Heap) (a b : Entry) : Bool :=
  a.trigger == b.trigger && Value.allPairs (Value.equals heap) a.values b.values

def text (heap : Heap) (e : Entry) : String :=
  e.trigger.name ++ "(" ++ String.intercalate ", " (e.values.map (Value.text heap)) ++ ")"

end Entry

end Fabula
