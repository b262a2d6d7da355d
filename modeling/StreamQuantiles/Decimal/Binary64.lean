/-! What the 64 bits of a floating-point number say: not a number, an infinity, or a sign with a
whole multiple of a power of two. -/
namespace StreamQuantiles

inductive Binary64 where
  | nan
  | infinite (negative : Bool)
  /-- The number of magnitude `mantissa * 2 ^ exponent`. -/
  | finite (negative : Bool) (mantissa : Nat) (exponent : Int)
  deriving Repr, DecidableEq

namespace Binary64

/-- Bits below the leading one of a normal mantissa. -/
def fractionBits : Nat := 52

/-- The exponent of every number too small to have a leading one. -/
def leastExponent : Int := -1074

def ofBits (bits : UInt64) : Binary64 :=
  let word := bits.toNat
  let negative := word.testBit 63
  let biased := (word >>> fractionBits) % 2048
  let fraction := word % Nat.pow 2 fractionBits
  if biased = 2047 then
    if fraction = 0 then infinite negative else nan
  else if biased = 0 then
    finite negative fraction leastExponent
  else
    finite negative (Nat.pow 2 fractionBits + fraction) (leastExponent + (biased - 1 : Nat))

example : ofBits 0x3fe0000000000000 = finite false (2 ^ 52) (-53) := by decide
example : ofBits 0x8000000000000001 = finite true 1 (-1074) := by decide
example : ofBits 0xfff0000000000000 = infinite true := by decide

end Binary64
end StreamQuantiles
