import StreamQuantiles.Proofs.Store.Insertion
import StreamQuantiles.Proofs.Summary.Compress
import StreamQuantiles.Summary.Record

/-! An insertion into the store leaves the entries that an insertion into the list leaves. -/
namespace StreamQuantiles

namespace Entries

variable {κ : Type} [Coin κ]

/-- The entries after an insertion, the `n`th, that sets off a sweep if it is due. -/
def inserted (a : Accuracy) (n : Count) (due : Bool) (value : Measurement) (id : SampleId)
    (es : List Entry) (coin : κ) : List Entry × κ :=
  let es := recorded value id (min (a.budget n) (n - 1)) es
  if due then compressed (a.budget n) es coin else (es, coin)

end Entries

lemma Cell.ascending_iff {cells : List (Cell Entry)} :
    Cell.Ascending cells ↔ Entries.Sorted (cells.map Cell.item) := by
  rw [Entries.Sorted, List.pairwise_map]
  rfl

namespace Summary

open Entries

variable {σ κ : Type} [LevelSource σ] {s : Summary σ κ} {es : List Entry}

/-- The store after an insertion, before any sweep. -/
lemma exists_record (hs : s.store.Holds es) (ha : Sorted es) (value : Measurement) (id : SampleId)
    (delta : Count) :
    ∃ h store before after store', s.store.insert (Entry.single value id) = .ok (h, store) ∧
      store.prev h = .ok before ∧ store.next h = .ok after ∧
      (if before.isSome && after.isSome then store.modify h ({ · with delta }) else pure store) =
        .ok store' ∧
      store'.Holds (recorded value id delta es) := by
  obtain ⟨cells, hr, rfl⟩ := hs
  obtain ⟨h, store, levels, hins, -, hr'⟩ :=
    hr.exists_insert (Cell.ascending_iff.2 ha) (Entry.single value id)
  let below := cells.takeWhile (·.item.value ≤ value)
  let above := cells.dropWhile (·.item.value ≤ value)
  let c : Cell Entry := ⟨h, .single value id, levels⟩
  have hr' : store.Represents (below ++ c :: above) := hr'
  have hrec : recorded value id delta (cells.map Cell.item) =
      below.map Cell.item ++ { Entry.single value id with
        delta := if below.isEmpty || above.isEmpty then 0 else delta } :: above.map Cell.item := by
    simp only [recorded, List.takeWhile_map, List.dropWhile_map, List.isEmpty_map]
    rfl
  have hinterior : ((below.map Cell.handle).getLast?.isSome && (above.map Cell.handle).head?.isSome) =
      !(below.isEmpty || above.isEmpty) := by
    cases below <;> cases above <;> simp
  refine ⟨h, store, (below.map Cell.handle).getLast?, (above.map Cell.handle).head?, ?_⟩
  suffices hmod : ∃ store',
      (if !(below.isEmpty || above.isEmpty) then store.modify h ({ · with delta }) else pure store) =
        Except.ok store' ∧ store'.Holds (recorded value id delta (cells.map Cell.item)) by
    obtain ⟨store', hs, hh⟩ := hmod
    exact ⟨store', hins, hr'.prev, hr'.next, by rw [hinterior, hs], hh⟩
  rw [hrec]
  cases below.isEmpty || above.isEmpty with
  | true => exact ⟨store, rfl, _, hr', List.map_append⟩
  | false =>
    obtain ⟨store', hs, hr''⟩ := hr'.exists_modify ({ · with delta })
    exact ⟨store', hs, _, hr'', List.map_append⟩

/-- An insertion whose count does not fit a word fails. -/
theorem insert_eq_error [Coin κ] (hs : s.store.Holds es) (ha : Sorted es)
    (hn : 2 ^ 64 ≤ s.n.toNat + 1) (value : Measurement) (id : SampleId) :
    s.insert value id = .error .overflow := by
  obtain ⟨h, store, -, -, -, hins, -⟩ := exists_record hs ha value id 0
  unfold insert
  rw [hins, ok_bind, Count.add_eq_error hn]
  rfl

/-- Whether the next insertion sets off a sweep. -/
def due (s : Summary σ κ) : Bool := s.period.toNat ≤ s.sinceSweep + 1

variable [Coin κ]

/-- An insertion answers, as long as the mass of the entries and the count fit a word. -/
theorem insert_eq_ok (hs : s.store.Holds es) (ha : Sorted es) (hm : mass es + 1 < 2 ^ 64)
    (hn : s.n.toNat + 1 < 2 ^ 64) (value : Measurement) (id : SampleId) :
    ∃ store,
      s.insert value id = .ok { s with
        store
        n := s.n + 1
        sinceSweep := if s.due then 0 else s.sinceSweep + 1
        coin := (inserted s.accuracy (s.n + 1) s.due value id es s.coin).2 } ∧
      store.Holds (inserted s.accuracy (s.n + 1) s.due value id es s.coin).1 := by
  obtain ⟨h, store, before, after, store', hins, hprev, hnext, hmod, hh⟩ :=
    exists_record hs ha value id (min (s.accuracy.budget (s.n + 1)) (s.n + 1 - 1))
  have hadd : Count.add s.n 1 = .ok (s.n + 1) := Count.add_eq_ok hn
  have hsub : Count.sub (s.n + 1) 1 = .ok (s.n + 1 - 1) := by
    apply Count.sub_eq_ok
    rw [Count.toNat_add_of_lt hn]
    exact Nat.le_add_left _ _
  have hinsert : s.insert value id =
      if s.period.toNat ≤ s.sinceSweep + 1 then
        compress { s with store := store', n := s.n + 1, sinceSweep := 0 }
      else return { s with store := store', n := s.n + 1, sinceSweep := s.sinceSweep + 1 } := by
    unfold insert
    rw [hins, ok_bind]
    simp only [hadd, hsub, hprev, hnext, ok_bind]
    split at hmod
    · next hi => rw [if_pos hi, hmod, ok_bind]
    · next hi => rw [if_neg hi, hmod, ok_bind]
  have hdue : s.due = decide (s.period.toNat ≤ s.sinceSweep + 1) := rfl
  rw [hinsert, inserted, hdue]
  by_cases hd : s.period.toNat ≤ s.sinceSweep + 1
  · have hmass : mass (recorded value id (min (s.accuracy.budget (s.n + 1)) (s.n + 1 - 1)) es) =
        mass es + 1 := mass_recorded _ _ _ _
    obtain ⟨store, hc, hh'⟩ :=
      compress_eq_ok (s := { s with store := store', n := s.n + 1, sinceSweep := 0 }) hh (by omega)
    simp only [hd, if_true, decide_true]
    exact ⟨store, hc, hh'⟩
  · simp only [hd, if_false, decide_false]
    exact ⟨store', rfl, hh⟩

end Summary
end StreamQuantiles
