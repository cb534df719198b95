/-! The operations of blocks, by family. A family has a row of sixteen bytes of its own, and an
operation its place in the row; the mnemonic is what traces and messages call it. -/

namespace Fabula

inductive StackOp where
  | noop | pop | pushValue | popValue | popLocalValue | clearValue | pushElementValue
  | popElementValue | clearElementValue | pushThis | pushNewList | pushInitList
deriving DecidableEq

inductive ControlOp where
  | branch | whileLoop | forLoop | leaveLoop | nextRound | endHandler | finish | quit | error
deriving DecidableEq

inductive CallOp where
  | function | elementFunction | giveBack
deriving DecidableEq

inductive CueOp where
  | text | textLine | formatted | formattedLine | pause | wait | tip | info | save | load
deriving DecidableEq

inductive QueueOp where
  | action | withText | withObject | withObjects
deriving DecidableEq

inductive HoldingOp where
  | give | remove | moveAll | has | hasNoOwner | count | addName | removeName | hasName | addTag
  | removeTag | hasTag | browse
deriving DecidableEq

inductive FocusOp where
  | setPlayer | pushRoom | popRoom | swapRoom | playerIs | roomIs | noPlayer | noRoom
deriving DecidableEq

inductive ListOp where
  | add | addAt | get | set | removeAt | remove | indexOf | contains
deriving DecidableEq

inductive ConvertOp where
  | length | upper | lower | trim | substring | asBoolean | asInteger | asFloat | asString
  | identity
deriving DecidableEq

inductive RandomOp where
  | integer | float | normal
deriving DecidableEq

def StackOp.mnemonic : StackOp → String
  | noop => "NOOP" | pop => "POP" | pushValue => "PUSHVALUE" | popValue => "POPVALUE"
  | popLocalValue => "POPLOCALVALUE" | clearValue => "CLEARVALUE"
  | pushElementValue => "PUSHELEMENTVALUE" | popElementValue => "POPELEMENTVALUE"
  | clearElementValue => "CLEARELEMENTVALUE" | pushThis => "PUSHTHIS"
  | pushNewList => "PUSHNEWLIST" | pushInitList => "PUSHINITLIST"

def ControlOp.mnemonic : ControlOp → String
  | branch => "IF" | whileLoop => "WHILE" | forLoop => "FOR" | leaveLoop => "BREAK"
  | nextRound => "CONTINUE" | endHandler => "END" | finish => "FINISH" | quit => "QUIT"
  | error => "ERROR"

def CallOp.mnemonic : CallOp → String
  | function => "CALLFUNCTION" | elementFunction => "CALLELEMENTFUNCTION"
  | giveBack => "FUNCTIONRETURN"

def CueOp.mnemonic : CueOp → String
  | text => "TEXT" | textLine => "TEXTLN" | formatted => "TEXTF" | formattedLine => "TEXTFLN"
  | pause => "PAUSE" | wait => "WAIT" | tip => "TIP" | info => "INFO" | save => "SAVE"
  | load => "LOAD"

def QueueOp.mnemonic : QueueOp → String
  | action => "QUEUEACTION" | withText => "QUEUEACTIONSTRING" | withObject => "QUEUEACTIONOBJECT"
  | withObjects => "QUEUEACTIONOBJECT2"

def HoldingOp.mnemonic : HoldingOp → String
  | give => "GIVEOBJECT" | remove => "REMOVEOBJECT" | moveAll => "MOVEOBJECTSTO"
  | has => "HASOBJECT" | hasNoOwner => "OBJECTHASNOOWNER" | count => "OBJECTCOUNT"
  | addName => "ADDOBJECTNAME" | removeName => "REMOVEOBJECTNAME" | hasName => "OBJECTHASNAME"
  | addTag => "ADDOBJECTTAG" | removeTag => "REMOVEOBJECTTAG" | hasTag => "OBJECTHASTAG"
  | browse => "BROWSE"

def FocusOp.mnemonic : FocusOp → String
  | setPlayer => "SETPLAYER" | pushRoom => "PUSHROOM" | popRoom => "POPROOM"
  | swapRoom => "SWAPROOM" | playerIs => "CURRENTPLAYERIS" | roomIs => "CURRENTROOMIS"
  | noPlayer => "NOCURRENTPLAYER" | noRoom => "NOCURRENTROOM"

def ListOp.mnemonic : ListOp → String
  | add => "LISTADD" | addAt => "LISTADDAT" | get => "LISTGET" | set => "LISTSET"
  | removeAt => "LISTREMOVEINDEX" | remove => "LISTREMOVE" | indexOf => "LISTINDEXOF"
  | contains => "LISTCONTAINS"

def ConvertOp.mnemonic : ConvertOp → String
  | length => "LENGTH" | upper => "STRUPPER" | lower => "STRLOWER" | trim => "STRTRIM"
  | substring => "STRSUBSTRING" | asBoolean => "ASBOOLEAN" | asInteger => "ASINT"
  | asFloat => "ASFLOAT" | asString => "ASSTRING" | identity => "IDENTITY"

def RandomOp.mnemonic : RandomOp → String
  | integer => "IRANDOM" | float => "FRANDOM" | normal => "GRANDOM"

inductive Opcode where
  | stack (op : StackOp)
  | arithmetic
  | control (op : ControlOp)
  | call (op : CallOp)
  | cue (op : CueOp)
  | queue (op : QueueOp)
  | holding (op : HoldingOp)
  | focus (op : FocusOp)
  | list (op : ListOp)
  | convert (op : ConvertOp)
  | random (op : RandomOp)
deriving DecidableEq

namespace Opcode

instance : Inhabited Opcode := ⟨stack .noop⟩

def stackRow : List StackOp :=
  [.noop, .pop, .pushValue, .popValue, .popLocalValue, .clearValue, .pushElementValue,
   .popElementValue, .clearElementValue, .pushThis, .pushNewList, .pushInitList]

def controlRow : List ControlOp :=
  [.branch, .whileLoop, .forLoop, .leaveLoop, .nextRound, .endHandler, .finish, .quit, .error]

def callRow : List CallOp := [.function, .elementFunction, .giveBack]

def cueRow : List CueOp :=
  [.text, .textLine, .formatted, .formattedLine, .pause, .wait, .tip, .info, .save, .load]

def queueRow : List QueueOp := [.action, .withText, .withObject, .withObjects]

def holdingRow : List HoldingOp :=
  [.give, .remove, .moveAll, .has, .hasNoOwner, .count, .addName, .removeName, .hasName, .addTag,
   .removeTag, .hasTag, .browse]

def focusRow : List FocusOp :=
  [.setPlayer, .pushRoom, .popRoom, .swapRoom, .playerIs, .roomIs, .noPlayer, .noRoom]

def listRow : List ListOp := [.add, .addAt, .get, .set, .removeAt, .remove, .indexOf, .contains]

def convertRow : List ConvertOp :=
  [.length, .upper, .lower, .trim, .substring, .asBoolean, .asInteger, .asFloat, .asString,
   .identity]

def randomRow : List RandomOp := [.integer, .float, .normal]

/-- Every operation, in the order of bytes. -/
def all : List Opcode :=
  stackRow.map stack ++ [arithmetic] ++ controlRow.map control ++ callRow.map call ++
    cueRow.map cue ++ queueRow.map queue ++ holdingRow.map holding ++ focusRow.map focus ++
    listRow.map list ++ convertRow.map convert ++ randomRow.map random

/-- The first byte of the family's row and the place in it. -/
def byte : Opcode → UInt8
  | stack op => (0x00 + stackRow.idxOf op).toUInt8
  | arithmetic => 0x10
  | control op => (0x20 + controlRow.idxOf op).toUInt8
  | call op => (0x30 + callRow.idxOf op).toUInt8
  | cue op => (0x40 + cueRow.idxOf op).toUInt8
  | queue op => (0x50 + queueRow.idxOf op).toUInt8
  | holding op => (0x60 + holdingRow.idxOf op).toUInt8
  | focus op => (0x70 + focusRow.idxOf op).toUInt8
  | list op => (0x80 + listRow.idxOf op).toUInt8
  | convert op => (0x90 + convertRow.idxOf op).toUInt8
  | random op => (0xa0 + randomRow.idxOf op).toUInt8

def ofByte? (b : UInt8) : Option Opcode :=
  let place := b.toNat % 16
  match b.toNat / 16 with
  | 0 => stackRow[place]?.map stack
  | 1 => if place = 0 then some arithmetic else none
  | 2 => controlRow[place]?.map control
  | 3 => callRow[place]?.map call
  | 4 => cueRow[place]?.map cue
  | 5 => queueRow[place]?.map queue
  | 6 => holdingRow[place]?.map holding
  | 7 => focusRow[place]?.map focus
  | 8 => listRow[place]?.map list
  | 9 => convertRow[place]?.map convert
  | 10 => randomRow[place]?.map random
  | _ => none

@[simp] theorem ofByte?_byte (op : Opcode) : ofByte? op.byte = some op := by
  cases op with
  | arithmetic => rfl
  | stack op | control op | call op | cue op | queue op | holding op | focus op | list op
  | convert op | random op => cases op <;> rfl

theorem byte_injective {a b : Opcode} (h : a.byte = b.byte) : a = b := by
  have ha := ofByte?_byte a
  rw [h, ofByte?_byte b] at ha
  exact (Option.some.inj ha).symm

/-- What traces and messages call the operation. -/
def mnemonic : Opcode → String
  | stack op => op.mnemonic
  | arithmetic => "ARITHMETICFUNC"
  | control op => op.mnemonic
  | call op => op.mnemonic
  | cue op => op.mnemonic
  | queue op => op.mnemonic
  | holding op => op.mnemonic
  | focus op => op.mnemonic
  | list op => op.mnemonic
  | convert op => op.mnemonic
  | random op => op.mnemonic

def ofMnemonic? (s : String) : Option Opcode := all.find? fun op => op.mnemonic == s

end Opcode

end Fabula
