import StreamQuantiles.Decimal.Binary64

/-! The shortest decimal that reads back to a given floating-point number, written without an
exponent. All arithmetic is exact: a number `m * 2 ^ q` stands for every real nearer to it than to
its neighbours, ends included exactly when `m` is even. -/
namespace StreamQuantiles

/-- The number `digits * 10 ^ exponent`. -/
structure Decimal where
  digits : Nat
  exponent : Int
  deriving Repr, DecidableEq

namespace Decimal

/-- The reals that round to `m * 2 ^ q`, scaled by a common positive factor. Below a power of two
the gap is half as wide. -/
structure Neighbourhood where
  low : Nat
  value : Nat
  high : Nat
  closed : Bool
  deriving Repr, DecidableEq

namespace Neighbourhood

/-- In units of a quarter of the last place. -/
def ofMantissa (m : Nat) (q : Int) : Neighbourhood :=
  let narrow := m = Nat.pow 2 Binary64.fractionBits ∧ Binary64.leastExponent < q
  { low := 4 * m - (if narrow then 1 else 2)
    value := 4 * m
    high := 4 * m + 2
    closed := m % 2 = 0 }

def scale (factor : Nat) (r : Neighbourhood) : Neighbourhood :=
  { r with low := factor * r.low, value := factor * r.value, high := factor * r.high }

def Holds (r : Neighbourhood) (x : Nat) : Prop :=
  if r.closed then r.low ≤ x ∧ x ≤ r.high else r.low < x ∧ x < r.high

instance (r : Neighbourhood) (x : Nat) : Decidable (r.Holds x) := by
  unfold Holds; infer_instance

/-- Of the two multiples of `step` around the value, the nearer one that reads back; the upper one
where both are equally near. The answer counts steps. -/
def nearestMultiple (r : Neighbourhood) (step : Nat) : Option Nat :=
  let below := r.value / step
  let above := below + 1
  let fromBelow := r.value - below * step
  let fromAbove := above * step - r.value
  match decide (r.Holds (below * step)), decide (r.Holds (above * step)) with
  | true, true => some (if fromBelow < fromAbove then below else above)
  | true, false => some below
  | false, true => some above
  | false, false => none

end Neighbourhood

/-- The number of decimal digits of a positive number, less one. -/
def magnitude (n : Nat) : Nat := (Nat.toDigits 10 n).length - 1

/-- Trailing zeros move into the exponent. The fuel bounds the number of digits. -/
def dropZeros : Nat → Decimal → Decimal
  | 0, d => d
  | fuel + 1, d =>
    if d.digits % 10 = 0 then dropZeros fuel ⟨d.digits / 10, d.exponent + 1⟩ else d

/-- Seventeen digits always suffice to tell two numbers apart. -/
def enoughDigits : Nat := 17

/-- Tries ever finer grids, from `10 ^ (top)` down, until one holds a decimal that reads back. The
value is `r.value / unit`. -/
def search (r : Neighbourhood) (unit : Nat) : Nat → Int → Decimal
  | 0, exponent => ⟨0, exponent⟩
  | fuel + 1, exponent =>
    let step := if 0 ≤ exponent then unit * Nat.pow 10 exponent.toNat else unit
    let fine := if 0 ≤ exponent then r else r.scale (Nat.pow 10 (-exponent).toNat)
    match fine.nearestMultiple step with
    | some digits => ⟨digits, exponent⟩
    | none => search r unit fuel (exponent - 1)

/-- The leading decimal exponent of the positive number `value / unit`. Below one, the exponent is
counted on the reciprocal rounded up. -/
def leadingExponent (value unit : Nat) : Int :=
  if unit ≤ value then magnitude (value / unit)
  else -((magnitude ((unit - 1) / value) : Int) + 1)

/-- The shortest decimal that reads back to the positive number `m * 2 ^ q`, and of several the
nearest. -/
def shortest (m : Nat) (q : Int) : Decimal :=
  let quarter := q - 2
  let r := (Neighbourhood.ofMantissa m q).scale (Nat.pow 2 quarter.toNat)
  let unit := Nat.pow 2 (-quarter).toNat
  dropZeros enoughDigits (search r unit enoughDigits (leadingExponent r.value unit))

/-- Positional notation: a point only where a fraction follows, a zero before a leading point. -/
def positional (d : Decimal) : List Char :=
  let digits := Nat.toDigits 10 d.digits
  if 0 ≤ d.exponent then digits ++ List.replicate d.exponent.toNat '0'
  else
    let places := (-d.exponent).toNat
    let padded := List.replicate (places + 1 - digits.length) '0' ++ digits
    let whole := padded.length - places
    padded.take whole ++ '.' :: padded.drop whole

/-- The text of a number. The sign of a zero is kept, that of a missing number is not. -/
def ofBinary64 : Binary64 → String
  | .nan => "NaN"
  | .infinite negative => if negative then "-inf" else "inf"
  | .finite negative m q =>
    let magnitude := if m = 0 then ['0'] else (shortest m q).positional
    String.ofList (if negative then '-' :: magnitude else magnitude)

def ofFloat (x : Float) : String := ofBinary64 (Binary64.ofBits x.toBits)

end Decimal
end StreamQuantiles
