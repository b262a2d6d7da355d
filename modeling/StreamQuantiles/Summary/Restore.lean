import StreamQuantiles.Snapshot
import StreamQuantiles.Summary.Record

/-! From a summary to a snapshot and back. -/
namespace StreamQuantiles
namespace Summary

variable {σ κ : Type}

def snapshot (s : Summary σ κ) : Except Fault Snapshot := do
  return { data := ← s.entries, n := s.n }

variable [LevelSource σ]

/-- Replaces the contents by entries taken as they are. -/
def load (s : Summary σ κ) (snapshot : Snapshot) : Except Fault (Summary σ κ) := do
  let store ← insertEntries s.store.clear snapshot.data
  return { s with store, n := snapshot.n, sinceSweep := 0 }

/-- Replaces the contents by a snapshot, once it has passed its check. Coins go on from where they
were. -/
def restore (s : Summary σ κ) (snapshot : Snapshot) : Except Error (Summary σ κ) := do
  snapshot.check.mapError (.decode ∘ .corrupted)
  s.load snapshot

/-- A restoration step by step. -/
def restoring (snapshot : Snapshot) : InPlace σ κ Unit := do
  snapshot.check.mapError (Error.decode ∘ .corrupted)
  modify fun s => { s with store := s.store.clear }
  snapshot.data.forM inserting
  modify fun s => { s with n := snapshot.n, sinceSweep := 0 }

/-- A summary made anew from a snapshot. The accuracy is checked first. -/
def ofSnapshot (accuracy : Accuracy) (levels : σ) (coin : κ) (snapshot : Snapshot) :
    Except Error (Summary σ κ) := do
  (← empty accuracy levels coin).restore snapshot

end Summary
end StreamQuantiles
