/-! Sources of fair coins. A source is a value: a flip answers a side together with the source that
is left. -/
namespace StreamQuantiles

class Coin (κ : Type) where
  flip : κ → Bool × κ

/-- A fixed sequence of sides, repeated without end. -/
structure CyclicBits where
  bits : List Bool
  position : Nat := 0
  deriving Repr

namespace CyclicBits

def flip (c : CyclicBits) : Bool × CyclicBits :=
  (c.bits.getD (c.position % c.bits.length) false, { c with position := c.position + 1 })

instance : Coin CyclicBits := ⟨flip⟩

example : (flip ⟨[true, false], 3⟩).1 = false := by decide

end CyclicBits

/-- The generator xoshiro256++, started from a single word. All arithmetic is modulo `2 ^ 64`. -/
structure Xoshiro where
  s0 : UInt64
  s1 : UInt64
  s2 : UInt64
  s3 : UInt64
  deriving Repr, DecidableEq

namespace Xoshiro

def rotateLeft (x k : UInt64) : UInt64 := x <<< k ||| x >>> (64 - k)

def rotateRight (x k : UInt32) : UInt32 := x >>> k ||| x <<< (32 - k)

/-- The next word of output. -/
def next (g : Xoshiro) : UInt64 × Xoshiro :=
  let s2 := g.s2 ^^^ g.s0
  let s3 := g.s3 ^^^ g.s1
  (rotateLeft (g.s0 + g.s3) 23 + g.s0,
    { s0 := g.s0 ^^^ s3
      s1 := g.s1 ^^^ s2
      s2 := s2 ^^^ (g.s1 <<< 17)
      s3 := rotateLeft s3 45 })

/-- One step of the linear congruence that spreads a seed. -/
def spread (state : UInt64) : UInt64 := state * 6364136223846793005 + 11634580027462260723

/-- The half word read off a state: its high bits, rotated by its highest five. -/
def halfWord (state : UInt64) : UInt32 :=
  rotateRight (((state >>> 18) ^^^ state) >>> 27).toUInt32 (state >>> 59).toUInt32

/-- Two successive half words, the first one low, and the state after them. -/
def word (state : UInt64) : UInt64 × UInt64 :=
  let low := spread state
  let high := spread low
  ((halfWord low).toUInt64 ||| (halfWord high).toUInt64 <<< 32, high)

def ofSeed (seed : UInt64) : Xoshiro :=
  let (s0, state) := word seed
  let (s1, state) := word state
  let (s2, state) := word state
  let (s3, _) := word state
  { s0, s1, s2, s3 }

/-- The side shown is the highest bit of the next word. -/
def flip (g : Xoshiro) : Bool × Xoshiro :=
  let (word, rest) := g.next
  (word >>> 63 == 1, rest)

instance : Coin Xoshiro := ⟨flip⟩

end Xoshiro
end StreamQuantiles
