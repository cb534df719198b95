import Fabula.Value.Basic
import Fabula.Number.Written
import Fabula.Text.Quoted

/-! Values as text, in two styles: the text scripts see and the text for inspection. A list that is
already being printed further out is printed as `[...]`. -/

namespace Fabula.Value

/-- How a style writes scalars and what it puts around lists. -/
structure Style where
  scalar : Value → String
  beforeList : String
  afterList : String

def bracketed (items : List String) : String := "[" ++ String.intercalate ", " items ++ "]"

/-- The text of a value inside the lists `openLists`; `depth` bounds how many more may open. -/
def printInside (style : Style) (heap : Heap) : Nat → List Handle → Value → String
  | 0, _, _ => ""
  | depth + 1, openLists, list h =>
    let inner :=
      if openLists.contains h then "[...]"
      else bracketed ((heap.items h).map (printInside style heap depth (h :: openLists)))
    style.beforeList ++ inner ++ style.afterList
  | _ + 1, _, v => style.scalar v

def print (style : Style) (heap : Heap) (v : Value) : String :=
  printInside style heap (heap.size + 2) [] v

def scalarText : Value → String
  | boolean b => if b then "true" else "false"
  | integer i => toString i.toInt
  | float x => Number.floatText x
  | string s => s
  | element _ identity => identity
  | action identity => identity
  | varName name => name
  | list _ => ""

def plain : Style := ⟨scalarText, "", ""⟩

/-- The text scripts see. -/
def text (heap : Heap) (v : Value) : String := print plain heap v

def kindLabel : ValueKind → String
  | .boolean => "Boolean" | .integer => "Integer" | .float => "Float" | .string => "String"
  | .list => "List" | .object => "Object" | .player => "Player" | .room => "Room"
  | .container => "Container" | .world => "World" | .action => "Action" | .varName => "Variable"

def inspectPayload : Value → String
  | float x => Number.floatInspect x
  | string s => Text.quoted s
  | element _ identity => Text.quoted identity
  | action identity => Text.quoted identity
  | varName name => Text.quoted name
  | v => scalarText v

def detailed : Style :=
  ⟨fun v => kindLabel v.kind ++ "(" ++ inspectPayload v ++ ")", "List(", ")"⟩

/-- The text for inspection, with the kind of every value. -/
def inspect (heap : Heap) (v : Value) : String := print detailed heap v

end Fabula.Value
