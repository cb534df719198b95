/-! Bytes of numbers and texts. A natural number is written in groups of seven bits, lowest first,
with the high bit set on every byte but the last; an integer likewise in two's complement. A text is
its length in bytes and its UTF-8 bytes. -/

namespace Fabula

abbrev Bytes := List UInt8

namespace Bytes

/-- The groups of a natural number; `fuel` at least the number is always enough. -/
def naturalGroups : Nat → Nat → Bytes
  | 0, n => [n.toUInt8]
  | fuel + 1, n =>
    if n < 128 then [n.toUInt8] else (n % 128 + 128).toUInt8 :: naturalGroups fuel (n / 128)

def natural (n : Nat) : Bytes := naturalGroups n n

/-- The groups of an integer; the last group's bit 6 is the sign. Ten groups cover 64 bits. -/
def integerGroups : Nat → Int → Bytes
  | 0, _ => []
  | fuel + 1, i =>
    let low := (i % 128).toNat
    let rest := i / 128
    if (rest = 0 ∧ low < 64) ∨ (rest = -1 ∧ 64 ≤ low) then [low.toUInt8]
    else (low + 128).toUInt8 :: integerGroups fuel rest

def integer (i : Int64) : Bytes := integerGroups 10 i.toInt

def flag (b : Bool) : Bytes := [if b then 1 else 0]

/-- Eight bytes, lowest first. -/
def word (w : UInt64) : Bytes := (List.range 8).map fun i => (w >>> (8 * i).toUInt64).toUInt8

/-- Every NaN is written with the same bits. -/
def float (x : Float) : Bytes := word x.toBits

def utf8 (s : String) : Bytes := s.toByteArray.data.toList

def text (s : String) : Bytes := natural (utf8 s).length ++ utf8 s

/-- A count and then the bytes of every item. -/
def counted {α : Type} (write : α → Bytes) (items : List α) : Bytes :=
  natural items.length ++ items.flatMap write

def texts (items : List String) : Bytes := counted text items

end Bytes

end Fabula
