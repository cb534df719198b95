import Fabula.Bytes.Reader

/-! The digest that ties a saved state to its story: SHA-1, twenty bytes. -/

namespace Fabula

abbrev Digest := Bytes

namespace Digest

def size : Nat := 20

/-- The five words a block of sixty-four bytes is mixed into. -/
structure Words5 where
  a : UInt32
  b : UInt32
  c : UInt32
  d : UInt32
  e : UInt32

def start : Words5 := ⟨0x67452301, 0xefcdab89, 0x98badcfe, 0x10325476, 0xc3d2e1f0⟩

def rotateLeft (w : UInt32) (n : UInt32) : UInt32 := (w <<< n) ||| (w >>> (32 - n))

/-- Words of four bytes, highest first. -/
def wordsOf : Bytes → List UInt32
  | a :: b :: c :: d :: rest =>
    ((a.toUInt32 <<< 24) ||| (b.toUInt32 <<< 16) ||| (c.toUInt32 <<< 8) ||| d.toUInt32) ::
      wordsOf rest
  | _ => []

def bytesOfWord (w : UInt32) : Bytes :=
  [(w >>> 24).toUInt8, (w >>> 16).toUInt8, (w >>> 8).toUInt8, w.toUInt8]

/-- The eighty words of the rounds, from the sixteen of the block. -/
def schedule (words : List UInt32) : Array UInt32 :=
  (List.range 64).foldl (fun w t =>
    w.push (rotateLeft (w.getD (t + 13) 0 ^^^ w.getD (t + 8) 0 ^^^ w.getD (t + 2) 0 ^^^
      w.getD t 0) 1)) words.toArray

def choice (t : Nat) (b c d : UInt32) : UInt32 × UInt32 :=
  if t < 20 then ((b &&& c) ||| (~~~b &&& d), 0x5a827999)
  else if t < 40 then (b ^^^ c ^^^ d, 0x6ed9eba1)
  else if t < 60 then ((b &&& c) ||| (b &&& d) ||| (c &&& d), 0x8f1bbcdc)
  else (b ^^^ c ^^^ d, 0xca62c1d6)

def round (w : Array UInt32) (s : Words5) (t : Nat) : Words5 :=
  let mix := choice t s.b s.c s.d
  ⟨rotateLeft s.a 5 + mix.1 + s.e + mix.2 + w.getD t 0, s.a, rotateLeft s.b 30, s.c, s.d⟩

def compress (s : Words5) (block : Bytes) : Words5 :=
  let r := (List.range 80).foldl (round (schedule (wordsOf block))) s
  ⟨s.a + r.a, s.b + r.b, s.c + r.c, s.d + r.d, s.e + r.e⟩

def compressBlocks : Nat → Words5 → Bytes → Words5
  | 0, s, _ => s
  | n + 1, s, bytes => compressBlocks n (compress s (bytes.take 64)) (bytes.drop 64)

/-- The message, a one bit, zeros, and the length in bits as the last eight bytes. -/
def padded (message : Bytes) : Bytes :=
  let n := message.length
  message ++ [0x80] ++ List.replicate ((119 - n % 64) % 64) 0 ++
    (Bytes.word (8 * n).toUInt64).reverse

def of (message : Bytes) : Digest :=
  let bytes := padded message
  let s := compressBlocks (bytes.length / 64) start bytes
  [s.a, s.b, s.c, s.d, s.e].flatMap bytesOfWord

@[simp] theorem length_of (message : Bytes) : (of message).length = size := rfl

end Digest

def Reader.digest : Reader Digest := Reader.take Digest.size

end Fabula
