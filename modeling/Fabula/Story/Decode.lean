import Fabula.Story.Encode

/-! Reading story files. The digest in a file has to be that of its payload, and nothing may follow
the payload or stand in it unread. -/

namespace Fabula

namespace Reader

/-- The payload of a value of a kind other than list. Identities are folded, and the world has one
spelling only. -/
def scalar (kind : ValueKind) : Reader Value :=
  match kind with
  | .boolean => do return .boolean (← flag)
  | .integer => do return .integer (← integer)
  | .float => do return .real (← float)
  | .string => do return .string (← text)
  | .object => do return .reference .object (← text)
  | .player => do return .reference .player (← text)
  | .room => do return .reference .room (← text)
  | .container => do return .reference .container (← text)
  | .world => do
    let identity ← text
    if identity = worldIdentity then return .world else fail (.unknownElement identity)
  | .action => do return .actionNamed (← text)
  | .varName => do return .variableNamed (← text)
  | .list => fail (.unknownTag "scalar value" kind.tag)

def constant : Reader Value := do
  let kind ← tagged "value" ValueKind.ofTag?
  if kind = .list then fail (.malformed .listConstant) else scalar kind

def entry : Reader Entry := do
  let trigger ← tagged "block entry" Trigger.ofTag?
  return ⟨trigger, ← items constant⟩

/-- A byte with no bits outside the given ones. -/
def bits (what : String) (allowed : UInt8) : Reader UInt8 :=
  tagged what fun b => if b &&& ~~~allowed = 0 then some b else none

def operand (there : Bool) : Reader (Option Value) :=
  if there then do return some (← constant) else pure none

/-- An operation whose own blocks are read by `block`. -/
def operation (block : Reader Block) : Reader Operation := do
  let opcode ← tagged "opcode" Opcode.ofByte?
  let operands ← bits "operand flags" 3
  let mask ← bits "sub-block mask" 31
  let first ← operand (operands &&& 1 != 0)
  let second ← operand (operands &&& 2 != 0)
  Slot.all.foldlM (fun op slot => if slot.inMask mask then do return op.withBlock slot (← block)
    else pure op) { opcode := opcode, first := first, second := second }

/-- A block with fewer than `levels` blocks inside one another. -/
def nestedBlock : Nat → Reader Block
  | 0 => fail .nestingTooDeep
  | levels + 1 => items (operation (nestedBlock levels))

def block : Reader Block := nestedBlock (maxNesting + 1)

def function : Reader Function := do
  let name ← text
  let arguments ← items text
  return ⟨name, arguments, ← block⟩

def permissionMode : Reader PermissionMode :=
  tagged "permission mode" fun tag =>
    if tag = 0 then some .forbid else if tag = 1 then some .allow else none

def permissions : Reader (Option PermissionTable) := do
  let there ← tagged "permission flag" fun tag =>
    if tag = 0 then some false else if tag = 1 then some true else none
  if there then
    let mode ← permissionMode
    let actions ← counted (fun (set : Words) => do return set.insert (← text)) ∅
    return some ⟨mode, actions⟩
  else return none

def archetype (e : Element) : Reader Element := do
  if ← flag then ofStory (e.setArchetype true) else pure e

def restrictions (e : Element) : Reader Element := do
  match ← permissions with
  | none => pure e
  | some table => ofStory (e.setPermissions table)

/-- All of an element but its identity, kind and parent, put on the bare element. -/
def elementBody (e : Element) : Reader Element := do
  let e ← archetype e
  let e ← counted (fun e => do
    let entry ← entry
    return e.addBlock Heap.empty entry (← block)) e
  let e ← counted (fun e => do return e.addFunction (← function)) e
  let e ← restrictions e
  let e ← counted (fun e => do ofStory (e.addName (← text))) e
  counted (fun e => do ofStory (e.addTag (← text))) e

def element (kind : ElementKind) : Reader Element := do
  let e ← ofStory (Element.create kind (← text))
  elementBody e

def action : Reader Action := do
  let identity ← text
  let kind ← tagged "action kind" ActionKind.ofTag?
  let a ← ofStory (Action.create identity kind)
  let strict ← flag
  let reversed ← flag
  let a ← counted (fun a => do return a.withName (← text))
    { a with strict := strict, reversed := reversed }
  counted (fun a => do return a.withExtra (← text)) a

/-- A child of the given kind and its parent, linked in the story. -/
def parent (kind : ElementKind) (s : Story) : Reader Story := do
  let child ← text
  let parent ← text
  if (s.element? child).any fun e => e.kind = kind then ofStory (s.linkParent child parent)
  else fail (.unknownElement child)

/-- The payload of a story with the given header. -/
def payload (header : Table String) : Reader Story := do
  let world ← elementBody Element.world
  let s : Story := { header := header, world := world }
  let s ← counted (fun s => do ofStory (s.addAction (← action))) s
  let s ← Story.fileKinds.foldlM
    (fun s kind => counted (fun s => do ofStory (Story.addElement s (← element kind))) s) s
  Story.fileKinds.foldlM (fun s kind => counted (parent kind) s) s

/-- The header, digest and payload of a story file. -/
def storyFile : Reader (Table String × Digest × Bytes) := do
  magic Story.fileMagic
  let header ← counted (fun (header : Table String) => do
    let key ← text
    return header.insert (Text.fold key) (← text)) ∅
  let version ← byte
  if version ≠ Story.fileVersion then fail (.unsupportedVersion version)
  else
    let digest ← digest
    return (header, digest, ← take (← natural))

end Reader

/-- The story in a story file. -/
def Story.decode (bytes : Bytes) : Except DecodeError Story :=
  match Reader.storyFile.complete bytes with
  | .error e => .error e
  | .ok (header, digest, payload) =>
    if Digest.of payload ≠ digest then .error .digestMismatch
    else
      match (Reader.payload header).complete payload with
      | .error e => .error e
      | .ok s => .ok { s with knownDigest := some digest }

end Fabula
