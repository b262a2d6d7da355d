import StreamQuantiles.Decimal.Shortest

/-! What a caller can do wrong, and what a broken store would do: the ways an operation stops short
of an answer. Observation counts are 64-bit words, and never wrap: sums either stop at the largest
count or are refused, and differences stop at zero or are refused. -/
namespace StreamQuantiles

inductive Fault where
  /-- An accuracy that is no fraction strictly between zero and one. -/
  | epsilonOutOfRange (epsilon : Float)
  /-- A handle whose element has been removed. -/
  | vacantSlot (slot : Nat)
  /-- A removal of what was already removed. -/
  | alreadyRemoved (slot : Nat)
  | outOfBounds (size index : Nat)
  /-- The chain of free slots runs into a slot in use. -/
  | occupiedFreeSlot (slot : Nat)
  /-- A walk passed more elements than there are. -/
  | cyclicLinks
  /-- A count past the largest word. -/
  | overflow
  /-- A count below zero. -/
  | underflow
  deriving Repr

namespace Fault

def message : Fault → String
  | epsilonOutOfRange epsilon => "epsilon must be in (0, 1), got " ++ Decimal.ofFloat epsilon
  | vacantSlot slot => s!"skiplist slot {slot} is not occupied"
  | alreadyRemoved slot => s!"skiplist handle {slot} was already removed"
  | outOfBounds size index => s!"index out of bounds: the len is {size} but the index is {index}"
  | occupiedFreeSlot slot => s!"free slot {slot} is occupied"
  | cyclicLinks => "links form a cycle"
  | overflow => "count past the largest word"
  | underflow => "count below zero"

end Fault

/-- What follows an answer goes on from it. -/
theorem ok_bind {ε α β : Type} (a : α) (f : α → Except ε β) : (Except.ok a >>= f) = f a := rfl

/-- Where all of a computation answers, its first part does. -/
theorem exists_of_bind_eq_ok {ε α β : Type} {x : Except ε α} {f : α → Except ε β} {b : β}
    (h : (x >>= f) = .ok b) : ∃ a, x = .ok a ∧ f a = .ok b := by
  cases x with
  | error e => cases h
  | ok a => exact ⟨a, rfl, h⟩

abbrev Count := UInt64

namespace Count

def largest : Count := 0xFFFFFFFFFFFFFFFF

/-- The sum, or the largest count where the sum does not fit. -/
def addSat (a b : Count) : Count :=
  if a.toNat + b.toNat < UInt64.size then a + b else largest

/-- The difference, or zero where the second count is the larger. -/
def subSat (a b : Count) : Count := if b ≤ a then a - b else 0

/-- The sum, refused where it does not fit. -/
def add? (a b : Count) : Option Count :=
  if a.toNat + b.toNat < UInt64.size then some (a + b) else none

/-- The sum of a list of counts, refused where it does not fit. -/
def sum? (counts : List Count) : Option Count := counts.foldlM add? 0

/-- The sum, or a fault where it does not fit. -/
def add (a b : Count) : Except Fault Count :=
  match add? a b with
  | some c => .ok c
  | none => .error .overflow

/-- The difference, or a fault where the second count is the larger. -/
def sub (a b : Count) : Except Fault Count := if b ≤ a then .ok (a - b) else .error .underflow

/-- The sum of a list, or a fault where it does not fit. -/
def sum (counts : List Count) : Except Fault Count :=
  match sum? counts with
  | some c => .ok c
  | none => .error .overflow

end Count
end StreamQuantiles
