import StreamQuantiles.Store.Skiplist.Edit
import StreamQuantiles.Summary.Basic

/-! Compression: one sweep from the lowest entry to the highest that folds an entry into its
successor wherever the pair stays within the error budget. -/
namespace StreamQuantiles
namespace Summary

variable {σ κ : Type} [Coin κ]

/-- Whether an entry folds into its successor: equal values always do; otherwise the entry must not
be the first, and what the pair leaves uncertain must stay below the budget. -/
def Folds (budget : Count) (isFirst : Bool) (cur next : Entry) : Prop :=
  cur.value = next.value ∨
    isFirst = false ∧ Count.addSat (Count.addSat cur.g next.g) next.delta < budget

instance (budget : Count) (isFirst : Bool) (cur next : Entry) :
    Decidable (Folds budget isFirst cur next) := by
  unfold Folds; infer_instance

/-- The successor takes over the weight of the folded entry, and its samples if the coin says so. -/
def absorb (s : Summary σ κ) (cur next : Handle) : Except Fault (Summary σ κ) := do
  let (folded, store) ← s.store.remove cur
  let (keepFolded, coin) := Coin.flip s.coin
  let target ← store.get next
  let g ← Count.add target.g folded.g
  let store ← store.modify next fun e =>
    { e with g, samples := if keepFolded then folded.samples else e.samples }
  return { s with store, coin }

/-- Folds an entry into its successor, or leaves both. -/
def foldOrPass (budget : Count) (cur next : Handle) (s : Summary σ κ) :
    Except Fault (Summary σ κ) := do
  let isFirst := (← s.store.prev cur).isNone
  if Folds budget isFirst (← s.store.get cur) (← s.store.get next) then s.absorb cur next
  else return s

/-- Goes from an entry to its successor, which the store is asked for at each step. A fold takes out
the entry passed, so the one ahead stays good. The fuel bounds the entries passed. -/
def sweep (budget : Count) : Nat → Handle → Summary σ κ → Except Fault (Summary σ κ)
  | fuel, cur, s => do
    match ← s.store.next cur with
    | none => return s
    | some next =>
      match fuel with
      | 0 => throw .cyclicLinks
      | fuel + 1 => sweep budget fuel next (← s.foldOrPass budget cur next)

/-- The rank of an end is known exactly. -/
def pin (link : Link) (s : Summary σ κ) : Except Fault (Summary σ κ) :=
  match link with
  | none => return s
  | some h => return { s with store := ← s.store.modify h ({ · with delta := 0 }) }

/-- Never adds an entry, and keeps the number of observations. -/
def compress (s : Summary σ κ) : Except Fault (Summary σ κ) :=
  match s.store.first with
  | none => return s
  | some first => do
    let s ← s.sweep s.budget s.store.nodes.size first
    let s ← s.pin s.store.first
    s.pin s.store.last

end Summary
end StreamQuantiles
