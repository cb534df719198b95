import Fabula.Bytes.Error
import Fabula.Bytes.Writer

/-! Reading bytes front to back. A reader gives a result or an error, and in either case the cursor
after the bytes it took. -/

namespace Fabula

structure Cursor where
  rest : Bytes
  offset : Nat := 0

def Cursor.isEmpty (c : Cursor) : Bool := c.rest.isEmpty

def Reader (α : Type) := Cursor → Except DecodeError α × Cursor

namespace Reader

variable {α β σ : Type}

@[inline] def fail (e : DecodeError) : Reader α := fun c => (.error e, c)

@[always_inline, inline] protected def bind (x : Reader α) (f : α → Reader β) : Reader β := fun c =>
  match x c with
  | (.ok a, c) => f a c
  | (.error e, c) => (.error e, c)

@[always_inline] instance : Monad Reader where
  pure a := fun c => (.ok a, c)
  bind := Reader.bind

@[simp] theorem pure_apply (a : α) (c : Cursor) : (pure a : Reader α) c = (.ok a, c) := rfl

theorem bind_apply (x : Reader α) (f : α → Reader β) (c : Cursor) :
    (x >>= f) c = match x c with
      | (.ok a, c) => f a c
      | (.error e, c) => (.error e, c) := rfl

@[inline] def ofExcept : Except DecodeError α → Reader α
  | .ok a => pure a
  | .error e => fail e

/-- A story error in what was read makes the bytes malformed. -/
def ofStory : Except StoryError α → Reader α
  | .ok a => pure a
  | .error e => fail (.malformed e)

/-- The next `n` bytes. Offsets stay below `2 ^ 64`. -/
def take (n : Nat) : Reader Bytes := fun c =>
  let taken := c.rest.take n
  if 0x10000000000000000 ≤ c.offset + n then (.error .outOfBounds, c)
  else if taken.length < n then (.error .unexpectedEnd, c)
  else (.ok taken, ⟨c.rest.drop n, c.offset + n⟩)

def byte : Reader UInt8 := fun c =>
  match c.rest with
  | [] => (.error .unexpectedEnd, c)
  | b :: rest => (.ok b, ⟨rest, c.offset + 1⟩)

/-- Every byte but zero is true. -/
def flag : Reader Bool := do return (← byte) != 0

/-- Eight bytes, lowest first. -/
def word : Reader UInt64 := do
  let bytes ← take 8
  return (bytes.foldr (fun (b : UInt8) (n : Nat) => n * 256 + b.toNat) 0).toUInt64

/-- The bits of a `Float` do not tell one NaN from another, so all of them are read as one. -/
def float : Reader Float := do return Float.ofBits (← word)

/-- The low seven bits of a byte put into a word at their place. -/
def putGroup (value : UInt64) (place : Nat) (b : UInt8) : UInt64 :=
  value ||| (b &&& 0x7f).toUInt64 <<< (7 * place).toUInt64

/-- The groups of a natural number from the given place on, `left` of them at most; the tenth may
hold one bit only. -/
def naturalFrom : Nat → Nat → UInt64 → Reader UInt64
  | 0, _, _ => fail .invalidVarint
  | left + 1, place, value => do
    let b ← byte
    if left = 0 ∧ 1 < b &&& 0x7f then fail .invalidVarint
    else if b &&& 0x80 = 0 then return putGroup value place b
    else naturalFrom left (place + 1) (putGroup value place b)

def natural : Reader Nat := do return (← naturalFrom 10 0 0).toNat

/-- Sets all bits from a place on, if there are any, in a number whose last byte has the sign. -/
def extendSign (value : UInt64) (place : Nat) (b : UInt8) : UInt64 :=
  if 7 * place < 64 ∧ b &&& 0x40 ≠ 0 then value ||| ~~~0 <<< (7 * place).toUInt64 else value

/-- The groups of an integer; the tenth may only repeat the sign. -/
def integerFrom : Nat → Nat → UInt64 → Reader UInt64
  | 0, _, _ => fail .invalidVarint
  | left + 1, place, value => do
    let b ← byte
    if left = 0 ∧ b &&& 0x7f ≠ 0 ∧ b &&& 0x7f ≠ 0x7f then fail .invalidVarint
    else if b &&& 0x80 = 0 then return extendSign (putGroup value place b) (place + 1) b
    else integerFrom left (place + 1) (putGroup value place b)

def integer : Reader Int64 := do return (← integerFrom 10 0 0).toInt64

def text : Reader String := do
  let bytes ← take (← natural)
  match String.fromUTF8? ⟨bytes.toArray⟩ with
  | some s => return s
  | none => fail .invalidText

/-- Bytes that must stand next. -/
def magic (expected : Bytes) : Reader Unit := fun c =>
  match take expected.length c with
  | (.ok bytes, c') => if bytes = expected then (.ok (), c') else (.error .badMagic, c')
  | (.error .unexpectedEnd, c') => (.error .badMagic, c')
  | (.error e, c') => (.error e, c')

/-- Runs a step the given number of times, each on the state the one before left. -/
def iterate (step : σ → Reader σ) : Nat → σ → Reader σ
  | 0, s => pure s
  | n + 1, s => fun c =>
    match step s c with
    | (.ok s, c) => iterate step n s c
    | (.error e, c) => (.error e, c)

/-- A count and then that many steps. -/
def counted (step : σ → Reader σ) (s : σ) : Reader σ := do iterate step (← natural) s

/-- A count and then that many items. -/
def items (read : Reader α) : Reader (List α) := do
  let found ← counted (fun found => do return (← read) :: found) []
  return found.reverse

/-- What `tag?` finds for the next byte. -/
def tagged (what : String) (tag? : UInt8 → Option α) : Reader α := do
  let b ← byte
  match tag? b with
  | some a => return a
  | none => fail (.unknownTag what b)

/-- The reader has to take all bytes. -/
def complete (read : Reader α) (bytes : Bytes) : Except DecodeError α :=
  match read ⟨bytes, 0⟩ with
  | (.ok a, c) => if c.isEmpty then .ok a else .error .trailingBytes
  | (.error e, _) => .error e

end Reader

end Fabula
