import StreamQuantiles.Accuracy
import StreamQuantiles.Entry

/-! Which entry answers for a quantile, rank or bucket, as a question about the list of entries
alone. -/
namespace StreamQuantiles
namespace Quantile

/-- The rank that the quantile `q` stands for among `n` observations, halves rounded up. -/
def targetRank (q : Float) (n : Count) : Count := (q * n.toFloat + 0.5).toUInt64

/-- `k` quantiles from zero to one in equal steps. A single one is the median. -/
def ladder (k : Nat) : List Float :=
  match k with
  | 0 => []
  | 1 => [0.5]
  | k + 2 => (List.range (k + 2)).map fun i => i.toFloat / (k + 1).toFloat

@[simp] theorem length_ladder (k : Nat) : (ladder k).length = k := by
  unfold ladder
  split <;> simp

/-- The walk along the entries, counted in steps from the first one of the list. `passed` is the
weight before it. It stops at the first pair whose upper entry may lie beyond the target, and takes
the lower entry where that one is near enough. -/
def walk (target slack : Count) : Count → List Entry → Nat
  | passed, cur :: next :: rest =>
    let least := Count.addSat passed cur.g
    let greatest := Count.addSat (Count.addSat least next.g) next.delta
    if Count.addSat target slack < greatest then
      if target ≤ Count.addSat least slack then 0 else 1
    else walk target slack least (next :: rest) + 1
  | _, _ => 0

/-- The position of the entry that answers for `q`, among entries of `n` observations. Outside the
open unit interval it is an end of the list. -/
def position? (a : Accuracy) (n : Count) (q : Float) (entries : List Entry) : Option Nat :=
  if q.isNaN || entries.isEmpty then none
  else if q ≤ 0.0 then some 0
  else if 1.0 ≤ q then some (entries.length - 1)
  else some (walk (targetRank q n) (a.slack n) 0 entries)

def entry? (a : Accuracy) (n : Count) (q : Float) (entries : List Entry) : Option Entry := do
  entries[← position? a n q entries]?

/-- The weight of the entries at or below a measurement. -/
def weightUpTo (value : Measurement) (entries : List Entry) : Except Fault Count :=
  Count.sum ((entries.takeWhile (·.value ≤ value)).map Entry.g)

def slices (most : Nat) (entries : List Entry) : List Slice :=
  entries.zipWith (Slice.between most) entries.tail

/-- Keeps the first of equal IDs. -/
def firstOccurrences (ids : List SampleId) : List SampleId :=
  ids.foldl (fun kept id => if kept.contains id then kept else kept ++ [id]) []

/-- The first samples of the entries that answer for the rungs of a ladder, each once. -/
def representatives (a : Accuracy) (n : Count) (k : Nat) (entries : List Entry) : List SampleId :=
  firstOccurrences ((ladder k).filterMap fun q => do (← entry? a n q entries).samples.head?)

theorem walk_lt_length (target slack passed : Count) {entries : List Entry} (h : entries ≠ []) :
    walk target slack passed entries < entries.length := by
  fun_induction walk target slack passed entries with
  | case1 => simp
  | case2 => simp
  | case3 _ _ _ _ _ _ _ ih => simpa using ih (by simp)
  | case4 => exact List.length_pos_iff.2 h

/-- A position that answers is a position of the list. -/
theorem position?_lt_length {a : Accuracy} {n : Count} {q : Float} {entries : List Entry} {i : Nat}
    (h : position? a n q entries = some i) : i < entries.length := by
  unfold position? at h
  split at h
  · cases h
  · rename_i hne
    have hne : entries ≠ [] := by
      intro he
      simp [he] at hne
    have hpos := List.length_pos_iff.2 hne
    split at h
    · cases h; exact hpos
    · split at h
      · cases h; omega
      · cases h; exact walk_lt_length _ _ _ hne

end Quantile
end StreamQuantiles
