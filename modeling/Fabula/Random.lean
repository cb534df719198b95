/-! The random numbers of a session: the xoshiro256++ generator on four words, seeded from one. -/

namespace Fabula

structure RandomSource where
  s0 : UInt64
  s1 : UInt64
  s2 : UInt64
  s3 : UInt64
deriving DecidableEq, Inhabited

namespace RandomSource

def rotateLeft (w n : UInt64) : UInt64 := (w <<< n) ||| (w >>> (64 - n))

/-- A step of the generator that spreads a seed, and the half word it gives. -/
def spread (state : UInt64) : UInt32 × UInt64 :=
  let state := state * 6364136223846793005 + 11634580027462260723
  let half := (((state >>> 18) ^^^ state) >>> 27).toUInt32
  let turn := (state >>> 59).toUInt32
  ((half >>> turn) ||| (half <<< ((32 - turn) % 32)), state)

/-- Two half words, the lower one first. -/
def spreadWord (state : UInt64) : UInt64 × UInt64 :=
  let low := spread state
  let high := spread low.2
  ((high.1.toUInt64 <<< 32) ||| low.1.toUInt64, high.2)

def ofSeed (seed : UInt64) : RandomSource :=
  let w0 := spreadWord seed
  let w1 := spreadWord w0.2
  let w2 := spreadWord w1.2
  let w3 := spreadWord w2.2
  ⟨w0.1, w1.1, w2.1, w3.1⟩

def next (r : RandomSource) : UInt64 × RandomSource :=
  let t := r.s1 <<< 17
  let s2 := r.s2 ^^^ r.s0
  let s3 := r.s3 ^^^ r.s1
  (rotateLeft (r.s0 + r.s3) 23 + r.s0,
    ⟨r.s0 ^^^ s3, r.s1 ^^^ s2, s2 ^^^ t, rotateLeft s3 45⟩)

/-- The number of words. -/
def wordCount : Nat := 0x10000000000000000

/-- How often a draw that misses its range is repeated. -/
def maxDraws : Nat := wordCount

/-- Draws until the word times `range` has a low half of at most `zone`; the high half is the
result. -/
def drawBelow (range zone : Nat) : Nat → RandomSource → Nat × RandomSource
  | 0, r => (0, r)
  | draws + 1, r =>
    let word := r.next
    let product := word.1.toNat * range
    if product % wordCount ≤ zone then (product / wordCount, word.2)
    else drawBelow range zone draws word.2

/-- A number below `range`, all equally likely. -/
def below (range : Nat) (r : RandomSource) : Nat × RandomSource :=
  drawBelow range ((range <<< (63 - range.log2)) - 1) maxDraws r

/-- A number from zero to one less than the bound, or from one more than a negative bound to zero. A
bound of zero draws nothing. -/
def integer (bound : Int64) (r : RandomSource) : Int64 × RandomSource :=
  let b := bound.toInt
  if b = 0 then (0, r)
  else
    let drawn := r.below b.natAbs
    (Int64.ofInt (if 0 < b then (drawn.1 : Int) else b + 1 + drawn.1), drawn.2)

/-- Draws until the number in the range stays below its upper end. -/
def drawFloat (low high : Float) : Nat → RandomSource → Float × RandomSource
  | 0, r => (low, r)
  | draws + 1, r =>
    let word := r.next
    let unit := Float.ofBits ((word.1 >>> 12) ||| 0x3ff0000000000000) - 1.0
    let x := unit * (high - low) + low
    if x < high then (x, word.2) else drawFloat low high draws word.2

def float (low high : Float) (r : RandomSource) : Float × RandomSource :=
  drawFloat low high maxDraws r

end RandomSource

end Fabula
