/-! JSON numbers as written: a sign, the digits before and after the point, and an exponent. What a
numeral means is asked separately, once as a whole number and once as a float. -/
namespace StreamQuantiles.Json

structure Numeral where
  negative : Bool
  whole : List Char
  /-- Empty where there is no point. -/
  fraction : List Char
  /-- Whether the exponent is negative, and its digits. -/
  exponent : Option (Bool × List Char)
  deriving Repr, DecidableEq

namespace Numeral

/-- The number written by a list of digits. -/
def value (digits : List Char) : Nat := Nat.ofDigitChars 10 digits 0

/-- The digits of a number, without leading zeros. -/
def digits (n : Nat) : List Char := Nat.toDigits 10 n

@[simp] theorem value_digits (n : Nat) : value (digits n) = n :=
  Nat.ofDigitChars_toDigits (by decide) (by decide)

/-- A whole number has neither point nor exponent, and zero has no sign. -/
def toInt? (n : Numeral) : Option Int :=
  if n.fraction = [] ∧ n.exponent = none then
    if n.negative then
      if value n.whole = 0 then none else some (-(value n.whole : Int))
    else some (value n.whole)
  else none

def ofInt (i : Int) : Numeral := ⟨i < 0, digits i.natAbs, [], none⟩

@[simp] theorem toInt?_ofInt (i : Int) : (ofInt i).toInt? = some i := by
  simp only [toInt?, ofInt, value_digits, and_self, if_true, decide_eq_true_eq]
  split
  · rw [if_neg (by omega)]
    exact congrArg some (by omega)
  · exact congrArg some (by omega)

/-! ### The float nearest to a numeral, up to the rounding of each step -/

/-- Leading digits as one word, and the power of ten they are to be multiplied by. -/
structure Significand where
  word : UInt64 := 0
  exponent : Int := 0
  /-- No further digit is taken in. -/
  full : Bool := false
  deriving Repr

namespace Significand

/-- One more digit at the end of the word, if it fits. -/
def push? (word : UInt64) (digit : Char) : Option UInt64 :=
  let longer := Nat.ofDigitChars 10 [digit] word.toNat
  if longer < UInt64.size then some (UInt64.ofNat longer) else none

/-- Before the point a digit that does not fit is counted, as are all after it. -/
def takeWhole (s : Significand) (digit : Char) : Significand :=
  match if s.full then none else push? s.word digit with
  | some word => { s with word }
  | none => { s with exponent := s.exponent + 1, full := true }

/-- After the point a digit that does not fit is dropped, as are all after it. -/
def takeFraction (s : Significand) (digit : Char) : Significand :=
  match if s.full then none else push? s.word digit with
  | some word => { s with word, exponent := s.exponent - 1 }
  | none => { s with full := true }

end Significand

def significand (n : Numeral) : Significand :=
  let whole := n.whole.foldl Significand.takeWhole {}
  n.fraction.foldl Significand.takeFraction { whole with full := false }

/-- The float nearest to a power of ten. -/
def powerOfTen (exponent : Nat) : Float := Float.ofScientific 1 false exponent

/-- The largest power of ten that a float holds. -/
def largestPower : Nat := 308

/-- Division by a power of ten, by the largest as often as needed. The second such division brings
any word to zero. -/
def scaleDown (exponent : Nat) : Nat → Float → Float
  | 0, f => f / powerOfTen exponent
  | rounds + 1, f =>
    if exponent ≤ largestPower then f / powerOfTen exponent
    else if f == 0.0 then f
    else scaleDown (exponent - largestPower) rounds (f / powerOfTen largestPower)

/-- The word times a power of ten. Too large a result is no float. -/
def scale (word : UInt64) (exponent : Int) : Option Float :=
  let f := word.toFloat
  if exponent < 0 then some (scaleDown (-exponent).toNat 3 f)
  else if word = 0 then some f
  else if exponent ≤ largestPower then
    let scaled := f * powerOfTen exponent.toNat
    if scaled.isInf then none else some scaled
  else none

def toFloat? (n : Numeral) : Option Float := do
  let s := n.significand
  let shift : Int := match n.exponent with
    | none => 0
    | some (negative, digits) => if negative then -(value digits : Int) else value digits
  let magnitude ← scale s.word (s.exponent + shift)
  return if n.negative then -magnitude else magnitude

end Numeral
end StreamQuantiles.Json
