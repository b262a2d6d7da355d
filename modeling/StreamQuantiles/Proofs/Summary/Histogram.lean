import StreamQuantiles.Proofs.Summary.Streams

/-! The buckets between neighbouring entries. What is known of the least rank of the lower entry and
of the greatest rank of the upper one leaves no more observations between their values than the
weight of the bucket says. -/
namespace StreamQuantiles

namespace Slice

variable {most : Nat} {below above : Entry}

lemma toNat_weight_between :
    (between most below above).weight.toNat =
      min (above.g.toNat + above.delta.toNat) (2 ^ 64 - 1) - 1 := by
  simp [between]

end Slice

namespace Quantile

open Entries

variable {most i : Nat} {es : List Entry} {slice : Slice}

@[simp] lemma length_slices : (slices most es).length = es.length - 1 := by
  simp [slices]

/-- A bucket lies between the entry at its place and the one after it. -/
lemma getElem?_slices :
    (slices most es)[i]? = some slice ↔
      ∃ below above, es[i]? = some below ∧ es[i + 1]? = some above ∧
        Slice.between most below above = slice := by
  simp only [slices, List.getElem?_zipWith_eq_some, List.getElem?_tail]

lemma exists_cut_of_mem_slices (h : slice ∈ slices most es) :
    ∃ xs below above ys, es = xs ++ below :: above :: ys ∧
      Slice.between most below above = slice := by
  induction es with
  | nil => cases h
  | cons e es ih =>
    cases es with
    | nil => cases h
    | cons next rest =>
      rcases List.mem_cons.1 h with rfl | h
      · exact ⟨[], e, next, rest, rfl, rfl⟩
      · obtain ⟨xs, below, above, ys, hcut, hslice⟩ := ih h
        exact ⟨e :: xs, below, above, ys, by rw [hcut, List.cons_append], hslice⟩

/-- Each entry but the first is within the weight of its bucket and one more. -/
lemma mass_le_slices (most : Nat) (e : Entry) (es : List Entry) :
    mass (e :: es) ≤ e.g.toNat + ((slices most (e :: es)).map (·.weight.toNat + 1)).sum := by
  induction es generalizing e with
  | nil => exact Nat.le_refl _
  | cons next rest ih =>
    have hg := next.g.toNat_lt
    have hw : (Slice.between most e next).weight.toNat = _ := Slice.toNat_weight_between
    have hrest := ih next
    have hsplit : slices most (e :: next :: rest) =
        .between most e next :: slices most (next :: rest) := rfl
    rw [mass_cons, hsplit, List.map_cons, List.sum_cons]
    omega

end Quantile

namespace Entries

variable {M : Multiset Measurement} {b c : Nat} {es xs ys : List Entry} {e below above : Entry}
  {v w : Measurement}

/-- The observations below a value are those at or below a lower one, and those between the two. -/
lemma countP_le_add_countP_between (M : Multiset Measurement) (h : v < w) :
    M.countP (· ≤ v) + M.countP (fun x => v < x ∧ x < w) = M.countP (· < w) := by
  rw [Multiset.countP_eq_countP_filter_add M (· < w) (· ≤ v), Multiset.countP_filter,
    Multiset.countP_filter]
  congr 1
  · refine Multiset.countP_congr rfl fun x _ => ?_
    exact eq_iff_iff.2 ⟨fun hx => ⟨Int64.lt_of_le_of_lt hx h, hx⟩, And.right⟩
  · refine Multiset.countP_congr rfl fun x _ => ?_
    rw [Int64.not_le, and_comm]

/-- Between two neighbours there are no more observations than their bucket weighs, but for what
merges have blurred. -/
lemma Ranks.countP_between_le (hr : Ranks b c M (xs ++ below :: above :: ys)) (most : Nat)
    (hM : M.card < 2 ^ 64) :
    M.countP (fun x => below.value < x ∧ x < above.value) ≤
      (Slice.between most below above).weight.toNat + c := by
  by_cases hlt : below.value < above.value
  · -- Observations in between are past the least rank below, and short of the greatest above.
    have hsplit := countP_le_add_countP_between M hlt
    have hleast := (hr.ranked xs below (above :: ys) rfl).least
    have hgreatest := (hr.ranked (xs ++ [below]) above ys (by simp)).greatest
    have hcard := countP_lt_lt_card (hr.observed above (by simp))
    simp only [mass_append, mass_cons, mass_nil] at hgreatest
    rw [Slice.toNat_weight_between]
    omega
  · have hnone : M.countP (fun x => below.value < x ∧ x < above.value) = 0 :=
      Multiset.countP_eq_zero.2 fun x _ hx => hlt (Int64.lt_trans hx.1 hx.2)
    omega

/-- No observation is below the first entry. -/
lemma Ranks.first_least (hr : Ranks b c M (e :: ys)) : e.value ∈ M ∧ ∀ v ∈ M, e.value ≤ v := by
  have hgap : M.countP (· < e.value) ≤ 0 := (hr.ranked [] e ys rfl).gap
  have hnone := Multiset.countP_eq_zero.1 (Nat.le_zero.1 hgap)
  exact ⟨hr.observed e List.mem_cons_self, fun v hv => Int64.not_lt.1 (hnone v hv)⟩

/-- No observation is above the last entry. -/
lemma Ranks.last_greatest (hr : Ranks b c M (xs ++ [e])) : e.value ∈ M ∧ ∀ v ∈ M, v ≤ e.value := by
  have hleast := (hr.ranked xs e [] rfl).least
  have htotal := hr.total
  have hcard := Multiset.countP_le_card (· ≤ e.value) M
  simp only [mass_append, mass_cons, mass_nil] at htotal
  have hall : M.countP (· ≤ e.value) = M.card := by omega
  exact ⟨hr.observed e (by simp), Multiset.countP_eq_card.1 hall⟩

end Entries

open Entries Quantile

/-- What the buckets between the entries `es` say about the observations `M`. -/
structure Histogram (M : Multiset Measurement) (most : Nat) (es : List Entry)
    (slices : List Slice) : Prop where
  /-- No bucket where there are no entries. -/
  length : slices.length = es.length - 1
  samples : ∀ i slice, slices[i]? = some slice →
    ∃ above, es[i + 1]? = some above ∧ slice.upper = above.value ∧
      slice.samples = above.samples.take most
  adjoining : ∀ i slice next, slices[i]? = some slice → slices[i + 1]? = some next →
    slice.upper = next.lower
  ordered : ∀ slice ∈ slices, slice.lower ≤ slice.upper
  least : ∀ slice, slices.head? = some slice → slice.lower ∈ M ∧ ∀ v ∈ M, slice.lower ≤ v
  greatest : ∀ slice, slices.getLast? = some slice → slice.upper ∈ M ∧ ∀ v ∈ M, v ≤ slice.upper
  between : ∀ slice ∈ slices,
    M.countP (fun v => slice.lower < v ∧ v < slice.upper) ≤ slice.weight.toNat
  /-- Each entry but the first stands for the observations in the bucket below it, and its own. -/
  covered : M ≠ 0 → ∃ first, es.head? = some first ∧
    M.card ≤ first.g.toNat + (slices.map (·.weight.toNat + 1)).sum

/-- Entries that know their ranks make such buckets. -/
theorem Entries.Ranks.histogram {M : Multiset Measurement} {b : Nat} {es : List Entry}
    (hr : Ranks b 0 M es) (hM : M.card < 2 ^ 64) (most : Nat) :
    Histogram M most es (slices most es) where
  length := length_slices
  samples := by
    intro i slice h
    obtain ⟨below, above, -, habove, rfl⟩ := getElem?_slices.1 h
    exact ⟨above, habove, rfl, rfl⟩
  adjoining := by
    intro i slice next h h'
    obtain ⟨below, above, -, habove, rfl⟩ := getElem?_slices.1 h
    obtain ⟨below', above', hbelow', -, rfl⟩ := getElem?_slices.1 h'
    obtain rfl := Option.some.inj (habove.symm.trans hbelow')
    rfl
  ordered := by
    intro slice h
    obtain ⟨xs, below, above, ys, rfl, rfl⟩ := exists_cut_of_mem_slices h
    obtain ⟨-, hcut, -⟩ := List.pairwise_append.1 hr.sorted
    exact (List.pairwise_cons.1 hcut).1 above List.mem_cons_self
  least := by
    intro slice h
    rw [List.head?_eq_getElem?, getElem?_slices] at h
    obtain ⟨below, above, hbelow, -, rfl⟩ := h
    obtain ⟨ys, rfl⟩ := List.head?_eq_some_iff.1 ((List.head?_eq_getElem? ..).trans hbelow)
    exact hr.first_least
  greatest := by
    intro slice h
    rw [List.getLast?_eq_getElem?, length_slices, getElem?_slices] at h
    obtain ⟨below, above, -, habove, rfl⟩ := h
    have hend : es.length - 1 - 1 + 1 = es.length - 1 := by
      have := (List.getElem?_eq_some_iff.1 habove).1
      omega
    rw [hend, ← List.getLast?_eq_getElem?, List.getLast?_eq_some_iff] at habove
    obtain ⟨xs, rfl⟩ := habove
    exact hr.last_greatest
  between := by
    intro slice h
    obtain ⟨xs, below, above, ys, rfl, rfl⟩ := exists_cut_of_mem_slices h
    exact hr.countP_between_le most hM
  covered := by
    intro hne
    have htotal := hr.total
    cases es with
    | nil => exact absurd (Multiset.card_eq_zero.1 htotal.symm) hne
    | cons e es => exact ⟨e, rfl, htotal ▸ mass_le_slices most e es⟩

namespace Summary

variable {σ κ : Type} [LevelSource σ] [Coin κ]

/-- After a run the buckets go from the minimum to the maximum, each from where the last one ends,
and no bucket has more observations between its bounds than it weighs. -/
theorem exists_histogram_of_run {a : Accuracy} (ha : a.valid) (store : Skiplist Entry σ) (coin : κ)
    {ops : List Op} (hfits : ∀ k, (gathered (ops.take k)).card < 2 ^ 64)
    {n : Count} (hn : n.toNat = (gathered ops).card) (hgrows : a.BudgetGrowsTo n) (most : Nat) :
    ∃ s es slices, (ofStore a store coin >>= run ops) = .ok s ∧ s.entries = .ok es ∧
      s.size = es.length ∧ s.slices most = .ok slices ∧
      Histogram (gathered ops) most es slices := by
  obtain ⟨s, hs, ⟨es, hh, -, hcard, hr⟩, rfl⟩ := exists_run_ofStore ha store coin hfits
  obtain rfl : s.n = n := UInt64.toNat_inj.1 (hcard.trans hn.symm)
  have hentries : s.entries = .ok es := hh.items
  have hslices : s.slices most = .ok (Quantile.slices most es) := by
    unfold slices
    rw [hentries]
    rfl
  exact ⟨s, es, _, hs, hentries, hh.size, hslices,
    (hr hgrows).histogram (hcard ▸ s.n.toNat_lt) most⟩

/-- Ties at a bound, a clearing and compressions on the way. -/
theorem exists_histogram_of_run_cyclic :
    ∃ s es slices,
      (ofStore ⟨0.25⟩ (Skiplist.empty ⟨[40, 0, 3], 0⟩ : Skiplist Entry CyclicLevels)
        (⟨[true, false], 0⟩ : CyclicBits) >>=
          run [.insert 9 0, .clear, .insert 5 1, .add 3, .update (5, 2), .compress, .add 7]) =
        .ok s ∧
      s.entries = .ok es ∧ s.size = es.length ∧ s.slices 1 = .ok slices ∧
      Histogram {7, 5, 3, 5} 1 es slices :=
  exists_histogram_of_run (by decide +kernel) _ _ (card_gathered_lt (by decide)) (n := 4) rfl
    (by decide +kernel) 1

end Summary
end StreamQuantiles
