import StreamQuantiles.Quantile
import StreamQuantiles.Store.Skiplist.Walk

/-! The summary of a stream: its entries in a sorted store, and the number of observations behind
them. It is generic in where levels and coins come from. -/
namespace StreamQuantiles

structure Summary (σ κ : Type) where
  accuracy : Accuracy
  store : Skiplist Entry σ
  /-- The observations represented, merged ones included. -/
  n : Count
  /-- The inserts since the last sweep that they set off. -/
  sinceSweep : Nat
  /-- The inserts that set off a sweep. -/
  period : Count
  coin : κ

namespace Summary

variable {σ κ : Type}

/-- An empty summary in the given store, which is cleared. -/
def ofStore (accuracy : Accuracy) (store : Skiplist Entry σ) (coin : κ) :
    Except Fault (Summary σ κ) := do
  accuracy.check
  return {
    accuracy, store := store.clear, n := 0, sinceSweep := 0, period := accuracy.period, coin }

def empty (accuracy : Accuracy) (levels : σ) (coin : κ) : Except Fault (Summary σ κ) :=
  ofStore accuracy (.empty levels) coin

/-- An empty summary whose levels and coins follow from one word. The coins are seeded apart from
the levels, so that the two do not repeat each other. -/
def seeded (accuracy : Accuracy) (seed : UInt64) : Except Fault (Summary LevelRule Xoshiro) :=
  empty accuracy (LevelRule.seeded seed) (Xoshiro.ofSeed (seed ^^^ 0x9E3779B97F4A7C15))

def epsilon (s : Summary σ κ) : Float := s.accuracy.epsilon

/-- The number of entries kept. -/
def size (s : Summary σ κ) : Nat := s.store.size

def isEmpty (s : Summary σ κ) : Bool := s.n == 0

/-- The entries in ascending order. -/
def entries (s : Summary σ κ) : Except Fault (List Entry) := s.store.items

def budget (s : Summary σ κ) : Count := s.accuracy.budget s.n

/-- Drops every observation. Coins and levels go on from where they were. -/
def clear (s : Summary σ κ) : Summary σ κ :=
  { s with store := s.store.clear, n := 0, sinceSweep := 0 }

/-- What the store and the samples take. -/
def footprint (s : Summary σ κ) : Except Fault Nat := do
  let samples := (← s.entries).map (·.samples.length)
  return samples.foldl (· + ·) s.store.footprint

end Summary
end StreamQuantiles
