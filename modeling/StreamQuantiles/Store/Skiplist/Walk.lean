import StreamQuantiles.Store.Skiplist.Basic

/-! Reading a list from end to end, all at once or element by element. -/
namespace StreamQuantiles
namespace Skiplist

variable {α σ : Type}

/-- Every handle met from a place on, step after step. The fuel bounds their number. -/
def trail (step : Handle → Except Fault Link) : Nat → Link → Except Fault (List Handle)
  | _, none => return []
  | 0, some _ => throw .cyclicLinks
  | fuel + 1, some h => do
    let rest ← trail step fuel (← step h)
    return h :: rest

/-- From the first element to the last. -/
def handles (s : Skiplist α σ) : Except Fault (List Handle) := trail s.next s.nodes.size s.first

/-- From the last element to the first. -/
def handlesBackward (s : Skiplist α σ) : Except Fault (List Handle) :=
  trail s.prev s.nodes.size s.last

/-- The elements in ascending order of their keys. -/
def items (s : Skiplist α σ) : Except Fault (List α) := do (← s.handles).mapM s.get

end Skiplist

/-- A reader part of the way through a list. -/
structure Cursor where
  position : Link
  /-- The elements still to come. -/
  remaining : Nat
  deriving Repr, DecidableEq

namespace Cursor

variable {α σ : Type}

def start (s : Skiplist α σ) : Cursor := ⟨s.first, s.size⟩

/-- The element ahead and the cursor behind it, or nothing at the end. -/
def next? (s : Skiplist α σ) (c : Cursor) : Except Fault (Option (α × Cursor)) :=
  match c.position with
  | none => return none
  | some h => do
    let position ← s.next h
    let item ← s.get h
    return some (item, ⟨position, c.remaining - 1⟩)

/-- Reads the given number of elements, or as many as there are. -/
def take (s : Skiplist α σ) : Nat → Cursor → Except Fault (List α × Cursor)
  | 0, c => return ([], c)
  | count + 1, c => do
    match ← c.next? s with
    | none => return ([], c)
    | some (item, c) =>
      let (items, c) ← take s count c
      return (item :: items, c)

end Cursor
end StreamQuantiles
