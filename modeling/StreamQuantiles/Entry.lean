import StreamQuantiles.Store.Skiplist.Basic

/-! Weighted entries: what a summary keeps of its observations. The least rank of an entry is the
weight of all entries up to and including it, and its greatest rank exceeds that by at most its
`delta`. -/
namespace StreamQuantiles

abbrev Measurement := Int64

/-- Names the record an observation came from. -/
abbrev SampleId := UInt64

/-- A run of one or more observations. -/
structure Entry where
  /-- The largest measurement of the run. -/
  value : Measurement
  /-- The number of observations in the run. -/
  g : Count
  /-- How far the greatest rank of the value may exceed its least. -/
  delta : Count
  samples : List SampleId
  deriving Repr, DecidableEq

namespace Entry

/-- A single fresh observation. -/
def single (value : Measurement) (id : SampleId) : Entry := ⟨value, 1, 0, [id]⟩

instance : HasKey Entry Measurement := ⟨Entry.value⟩

@[simp] theorem key_eq_value (e : Entry) : HasKey.key e = e.value := rfl

end Entry

/-- An answer: a measurement, and the observations known to stand behind it. -/
structure Estimate where
  value : Measurement
  samples : List SampleId
  deriving Repr, DecidableEq

def Entry.estimate (e : Entry) : Estimate := ⟨e.value, e.samples⟩

/-- A bucket of a histogram: the measurements above `lower`, up to and including `upper`. -/
structure Slice where
  lower : Measurement
  upper : Measurement
  /-- The most observations that can lie strictly between the bounds. -/
  weight : Count
  samples : List SampleId
  deriving Repr, DecidableEq

/-- The bucket between two adjacent entries, with at most `most` samples of the upper one. -/
def Slice.between (most : Nat) (below above : Entry) : Slice :=
  { lower := below.value
    upper := above.value
    weight := Count.subSat (Count.addSat above.g above.delta) 1
    samples := above.samples.take most }

end StreamQuantiles
