import StreamQuantiles.Summary.Basic

/-! Questions to a summary. None of them changes it. -/
namespace StreamQuantiles
namespace Summary

variable {σ κ : Type}

/-- The entry whose rank is close to `q * n`, and its samples. Nothing answers for an empty summary
or a quantile that is no number. -/
def query (s : Summary σ κ) (q : Float) : Except Fault (Option Estimate) := do
  return (Quantile.entry? s.accuracy s.n q (← s.entries)).map Entry.estimate

def quantile (s : Summary σ κ) (q : Float) : Except Fault (Option Measurement) := do
  return (← s.query q).map Estimate.value

def median (s : Summary σ κ) : Except Fault (Option Measurement) := s.quantile 0.5

def queries (s : Summary σ κ) (qs : List Float) : Except Fault (List (Option Estimate)) := do
  let entries ← s.entries
  return qs.map fun q => (Quantile.entry? s.accuracy s.n q entries).map Entry.estimate

def quantiles (s : Summary σ κ) (qs : List Float) : Except Fault (List (Option Measurement)) := do
  return (← s.queries qs).map (Option.map Estimate.value)

/-- The fraction of observations at or below a measurement, by least rank. -/
def rank (s : Summary σ κ) (value : Measurement) : Except Fault Float := do
  if s.isEmpty then return 0.0
  let below ← Quantile.weightUpTo value (← s.entries)
  return below.toFloat / s.n.toFloat

def minimum (s : Summary σ κ) : Except Fault (Option Measurement) :=
  s.store.first.mapM fun h => return (← s.store.get h).value

def maximum (s : Summary σ κ) : Except Fault (Option Measurement) :=
  s.store.last.mapM fun h => return (← s.store.get h).value

/-- A histogram over the observed range, one bucket to each pair of adjacent entries. -/
def slices (s : Summary σ κ) (most : Nat) : Except Fault (List Slice) := do
  return Quantile.slices most (← s.entries)

/-- One sample for each rung of a ladder of `k` quantiles, each sample once, in ladder order. -/
def representatives (s : Summary σ κ) (k : Nat) : Except Fault (List SampleId) := do
  return Quantile.representatives s.accuracy s.n k (← s.entries)

end Summary
end StreamQuantiles
