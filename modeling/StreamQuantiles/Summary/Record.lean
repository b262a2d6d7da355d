import StreamQuantiles.Error
import StreamQuantiles.Summary.Compress

/-! Taking observations in, one at a time or all those of another summary. -/
namespace StreamQuantiles
namespace Summary

variable {σ κ σ' κ' : Type}

/-- Steps that change a summary in place. Where they fail, what was changed before stays changed. -/
abbrev InPlace (σ κ : Type) := ExceptT Error (StateM (Summary σ κ))

/-- The outcome of steps, with what they leave of a summary. -/
def InPlace.on {α : Type} (steps : InPlace σ κ α) (s : Summary σ κ) :
    Except Error α × Summary σ κ :=
  steps.run.run s

section Insert

variable [LevelSource σ]

/-- Puts an entry into the store as it is. -/
def inserting (e : Entry) : InPlace σ κ Unit := do
  let s ← get
  let (_, store) ← s.store.insert e
  set { s with store }

/-- Puts entries into the store as they are. -/
def insertEntries (store : Skiplist Entry σ) (entries : List Entry) :
    Except Fault (Skiplist Entry σ) :=
  entries.foldlM (fun store e => return (← store.insert e).2) store

end Insert

variable [LevelSource σ] [Coin κ]

/-- Records one observation. Between two others its rank is uncertain by the budget, though by no
more than the observations before it; a new minimum or maximum is exact. -/
def insert (s : Summary σ κ) (value : Measurement) (id : SampleId) :
    Except Fault (Summary σ κ) := do
  let (h, store) ← s.store.insert (Entry.single value id)
  let n ← Count.add s.n 1
  let isInterior := (← store.prev h).isSome && (← store.next h).isSome
  let store ←
    if isInterior then do
      let before ← Count.sub n 1
      store.modify h ({ · with delta := min (s.accuracy.budget n) before })
    else pure store
  if s.period.toNat ≤ s.sinceSweep + 1 then
    compress { s with store, n, sinceSweep := 0 }
  else return { s with store, n, sinceSweep := s.sinceSweep + 1 }

/-- Records a measurement under the number of observations before it. -/
def add (s : Summary σ κ) (value : Measurement) : Except Fault (Summary σ κ) := s.insert value s.n

def update (s : Summary σ κ) (observation : Measurement × SampleId) : Except Fault (Summary σ κ) :=
  s.insert observation.1 observation.2

def insertAll (s : Summary σ κ) (observations : List (Measurement × SampleId)) :
    Except Fault (Summary σ κ) :=
  observations.foldlM update s

/-- Adds the entries of another summary and compresses once. An empty one changes nothing, whatever
its accuracy; one of another accuracy is refused. -/
def merge (s : Summary σ κ) (other : Summary σ' κ') : Except Error (Summary σ κ) :=
  if other.isEmpty then .ok s
  else if !s.accuracy.compatible other.accuracy then
    .error (.merge (.incompatible s.accuracy.describe other.accuracy.describe))
  else do
    let n ← Count.add s.n other.n
    let store ← insertEntries s.store (← other.entries)
    compress { s with n, store }

/-- A merge step by step. The compression at the end is one step. -/
def merging (other : Summary σ' κ') : InPlace σ κ Unit := do
  let s ← get
  if other.isEmpty then return ()
  else if !s.accuracy.compatible other.accuracy then
    throw (.merge (.incompatible s.accuracy.describe other.accuracy.describe))
  else
    let n ← Count.add s.n other.n
    modify fun s => { s with n }
    (← other.entries).forM inserting
    set (← (← get).compress)

end Summary
end StreamQuantiles
