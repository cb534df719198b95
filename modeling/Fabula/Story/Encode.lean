import Fabula.Bytes.Digest
import Fabula.Story.Basic

/-! Story files. A file is the header, then the digest of the payload and the payload. The payload
is the content of a story with every table in a fixed order, so that equal contents have equal
payloads. -/

namespace Fabula

namespace Bytes

/-- The payload of a value that is no list; the tag of its kind stands before it. -/
def scalar : Value → Bytes
  | .boolean b => flag b
  | .integer i => integer i
  | .float x => float x
  | .string s => text s
  | .list _ => []
  | .element _ identity => text identity
  | .action identity => text identity
  | .varName name => text name

/-- A constant. There are no list constants: a list is written as its bare tag. -/
def constant (v : Value) : Bytes := v.kind.tag :: scalar v

def entry (e : Entry) : Bytes := e.trigger.tag :: counted constant e.values

def operand (v : Option Value) : Bytes :=
  match v with
  | none => []
  | some v => constant v

mutual

def operation : Operation → Bytes
  | ⟨opcode, first, second, init, condition, step, success, failure⟩ =>
    let op : Operation := ⟨opcode, first, second, init, condition, step, success, failure⟩
    op.opcode.byte :: op.operandFlags :: op.mask ::
      (operand first ++ operand second ++ innerBlock init ++ innerBlock condition ++
        innerBlock step ++ innerBlock success ++ innerBlock failure)

/-- The operations of a block one after another. -/
def operations : List Operation → Bytes
  | [] => []
  | op :: rest => operation op ++ operations rest

def innerBlock : Option (List Operation) → Bytes
  | none => []
  | some ops => natural ops.length ++ operations ops

end

def block (b : Block) : Bytes := natural b.length ++ operations b

/-- The blocks of an element in the order of the bytes of their entries. -/
def sortedBlocks (blocks : List (Entry × Block)) : List (Bytes × Block) :=
  (blocks.map fun item => (entry item.1, item.2)).mergeSort fun a b => decide (a.1 ≤ b.1)

def function (f : Function) : Bytes := text f.name ++ texts f.arguments ++ block f.block

def words (w : Words) : Bytes := texts w.toList

def permissionMode : PermissionMode → UInt8
  | .forbid => 0
  | .allow => 1

def permissions : Option PermissionTable → Bytes
  | none => [0]
  | some t => 1 :: permissionMode t.mode :: words t.actions

/-- All of an element but its identity, kind and parent. -/
def elementBody (e : Element) : Bytes :=
  flag e.archetype ++
    counted (fun item => item.1 ++ block item.2) (sortedBlocks e.blocks) ++
    counted function e.functions.values ++
    permissions e.permissions ++ words e.names ++ words e.tags

def element (e : Element) : Bytes := text e.identity ++ elementBody e

def action (a : Action) : Bytes :=
  text a.identity ++ [a.kind.tag] ++ flag a.strict ++ flag a.reversed ++ words a.names ++
    texts a.extra

/-- The parents of elements, by child. -/
def parents (elements : List Element) : Bytes :=
  counted (fun link => text link.1 ++ text link.2)
    (elements.filterMap fun e => e.parent.map fun parent => (e.identity, parent))

end Bytes

mutual

/-- No operand is a list. -/
def Operation.listFree : Operation → Bool
  | ⟨_, first, second, init, condition, step, success, failure⟩ =>
    first.all (fun v => !v.isShared) && second.all (fun v => !v.isShared) &&
      innerListFree init && innerListFree condition && innerListFree step &&
      innerListFree success && innerListFree failure

def operationsListFree : List Operation → Bool
  | [] => true
  | op :: rest => op.listFree && operationsListFree rest

def innerListFree : Option (List Operation) → Bool
  | none => true
  | some ops => operationsListFree ops

end

def Entry.listFree (e : Entry) : Bool := e.values.all fun v => !v.isShared

/-- No entry and no operand is a list. -/
def Element.listFree (e : Element) : Bool :=
  e.blocks.all (fun item => item.1.listFree && operationsListFree item.2) &&
    e.functions.values.all fun f => operationsListFree f.block

namespace Story

/-- The kinds of elements in the order in which a file lists them. -/
def fileKinds : List ElementKind := [.player, .room, .object, .container]

/-- Whether the story can be written: it holds no list constant. -/
def listFree (s : Story) : Bool :=
  s.world.listFree && s.elements.values.all fun e => e.listFree

/-- The bytes of the content of a story. -/
def payload (s : Story) : Bytes :=
  Bytes.elementBody s.world ++
    Bytes.counted Bytes.action s.actions.values ++
    fileKinds.flatMap (fun kind => Bytes.counted Bytes.element (s.elementsOf kind)) ++
    fileKinds.flatMap fun kind => Bytes.parents (s.elementsOf kind)

def payload? (s : Story) : Except StoryError Bytes :=
  if s.listFree then .ok s.payload else .error .listConstant

def fileMagic : Bytes := Bytes.utf8 "TAME"

def fileVersion : UInt8 := 1

/-- A story file of the given header and payload. -/
def file (header : Table String) (payload : Bytes) : Bytes :=
  fileMagic ++ Bytes.counted (fun item => Bytes.text item.1 ++ Bytes.text item.2) header.toList ++
    [fileVersion] ++ Digest.of payload ++ Bytes.natural payload.length ++ payload

def encode (s : Story) : Except StoryError Bytes :=
  match s.payload? with
  | .ok payload => .ok (file s.header payload)
  | .error e => .error e

/-- The digest of the content, and the story that remembers it. -/
def digest (s : Story) : Except StoryError Digest × Story :=
  match s.knownDigest with
  | some d => (.ok d, s)
  | none =>
    match s.payload? with
    | .ok payload => (.ok (Digest.of payload), { s with knownDigest := some (Digest.of payload) })
    | .error e => (.error e, s)

end Story

end Fabula
