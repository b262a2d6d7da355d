import StreamQuantiles.Fault

/-! The accuracy a summary works to: how far the rank of an answer may be off, as a fraction of the
number of observations, and the whole numbers that follow from it. -/
namespace StreamQuantiles

/-- Accuracies are taken as they come and checked where a summary is made. -/
structure Accuracy where
  epsilon : Float := 0.01
  deriving Repr, Inhabited

namespace Accuracy

/-- A fraction strictly between zero and one. -/
def valid (a : Accuracy) : Bool := a.epsilon.isFinite && 0.0 < a.epsilon && a.epsilon < 1.0

def check (a : Accuracy) : Except Fault Unit :=
  if a.valid then .ok () else .error (.epsilonOutOfRange a.epsilon)

def ofEpsilon (epsilon : Float) : Except Fault Accuracy := do
  check ⟨epsilon⟩
  return ⟨epsilon⟩

@[simp] theorem check_eq_ok_iff (a : Accuracy) : a.check = .ok () ↔ a.valid = true := by
  unfold check
  split <;> simp_all

/-- The least whole number at or above a float, as a count. -/
def roundUp (x : Float) : Count :=
  let whole := x.toUInt64
  if whole.toFloat < x then Count.addSat whole 1 else whole

/-- The inserts from one sweep to the next: half the reciprocal of the accuracy, rounded up. -/
def period (a : Accuracy) : Count := max (roundUp (1.0 / (2.0 * a.epsilon))) 1

/-- The rank uncertainty that may gather in one entry among `n` observations. -/
def budget (a : Accuracy) (n : Count) : Count := (2.0 * a.epsilon * n.toFloat).toUInt64

/-- The rank error allowed to an answer among `n` observations. -/
def slack (a : Accuracy) (n : Count) : Count := (a.epsilon * n.toFloat).toUInt64

/-- Equal up to a relative tolerance, so that an accuracy that went through a text still counts as
the same. -/
def compatible (a b : Accuracy) : Bool :=
  let mean := (a.epsilon + b.epsilon) * 0.5
  let gap := (a.epsilon - b.epsilon).abs
  mean ≤ 0.0 || gap / mean ≤ 1e-9

/-- Equal as numbers: a NaN differs from itself, and the zeros are the same. -/
instance : BEq Accuracy := ⟨fun a b => a.epsilon == b.epsilon⟩

def describe (a : Accuracy) : String := "epsilon=" ++ Decimal.ofFloat a.epsilon

example : ({} : Accuracy).period = 50 := by decide +kernel
example : ({} : Accuracy).budget 150 = 3 := by decide +kernel

end Accuracy

end StreamQuantiles
