import StreamQuantiles.Entry
import StreamQuantiles.Error

/-! A summary laid flat: its entries in ascending order and the number of observations. Levels,
coins and cadence are no part of it. -/
namespace StreamQuantiles

structure Snapshot where
  data : List Entry := []
  n : Count := 0
  deriving Repr, DecidableEq

namespace Snapshot

def ascending (entries : List Entry) : Bool :=
  (entries.zip entries.tail).all fun (below, above) => below.value ≤ above.value

/-- Accepts what a summary could hold: entries in ascending order, each of at least one observation
and a `delta` of at most `n`, with weights that add up to `n`. -/
def check (s : Snapshot) : Except Corruption Unit := do
  unless ascending s.data do throw .outOfOrder
  if s.data.any (·.g == 0) then throw .zeroWeight
  match s.data.find? (s.n < ·.delta) with
  | some e => throw (.deltaExceedsCount e.delta s.n)
  | none => pure ()
  match Count.sum? (s.data.map Entry.g) with
  | none => throw .weightsOverflow
  | some mass => unless mass = s.n do throw (.weightMismatch mass s.n)

example : check {} = .ok () := rfl
example : check ⟨[⟨2, 1, 0, []⟩, ⟨1, 0, 0, []⟩], 1⟩ = .error .outOfOrder := rfl

end Snapshot
end StreamQuantiles
