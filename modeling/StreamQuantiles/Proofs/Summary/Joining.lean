import StreamQuantiles.Proofs.Summary.Blocks
import StreamQuantiles.Proofs.Summary.InPlace

/-! A merge as the compression of one list: the entries of both summaries in ascending order, among
equals those of the receiving one first, and on either side in their own order. -/
namespace StreamQuantiles
namespace Entries

variable {as bs joined : List Entry}

/-- The ascending list of the entries of two, in which the first goes first among equals and both
keep their order. -/
structure Joins (as bs joined : List Entry) : Prop where
  sorted : Sorted joined
  perm : joined.Perm (as ++ bs)
  left : as.Sublist joined
  right : bs.Sublist joined
  ties : ∀ v, joined.filter (·.value = v) = as.filter (·.value = v) ++ bs.filter (·.value = v)

/-- Entries above a value leave none of that value. -/
lemma filter_eq_nil_of_lt {v : Measurement} (h : ∀ a ∈ as, v < a.value) :
    as.filter (·.value = v) = [] := by
  refine List.filter_eq_nil_iff.2 fun a ha => ?_
  simpa using (Int64.ne_of_lt (h a ha)).symm

/-- Equal values stand in the order of the two lists. -/
lemma filter_merged (ha : Sorted as) (v : Measurement) :
    (merged as bs).filter (·.value = v) = as.filter (·.value = v) ++ bs.filter (·.value = v) := by
  induction as generalizing bs with
  | nil =>
    rw [merged, List.nil_merge]
    rfl
  | cons a as iha =>
    obtain ⟨hle, ha'⟩ := List.pairwise_cons.1 ha
    induction bs with
    | nil => rw [merged, List.merge_right, List.filter_nil, List.append_nil]
    | cons b bs ihb =>
      by_cases hab : a.value ≤ b.value
      · have hstep : merged (a :: as) (b :: bs) = a :: merged as (b :: bs) :=
          List.cons_merge_cons_pos _ _ _ (decide_eq_true hab)
        rw [hstep, List.filter_cons, iha ha', List.filter_cons (x := a)]
        split <;> rfl
      · have hstep : merged (a :: as) (b :: bs) = b :: merged (a :: as) bs :=
          List.cons_merge_cons_neg _ _ _ (by simpa using hab)
        rw [hstep, List.filter_cons, ihb, List.filter_cons (x := b)]
        split
        · next hv =>
          -- What is left of the first list lies above `b`, so it holds nothing of its value.
          obtain rfl := of_decide_eq_true hv
          have hlt : b.value < a.value := Int64.not_le.1 hab
          rw [filter_eq_nil_of_lt (List.forall_mem_cons.2
            ⟨hlt, fun c hc => Int64.lt_of_lt_of_le hlt (hle c hc)⟩)]
          rfl
        · rfl

lemma sublist_merged {zs : List Entry} (h : merged as bs = zs) :
    as.Sublist zs ∧ bs.Sublist zs := by
  induction zs generalizing as bs with
  | nil =>
    have hperm : (merged as bs).Perm (as ++ bs) := merged_perm
    rw [h] at hperm
    obtain ⟨rfl, rfl⟩ := List.append_eq_nil_iff.1 hperm.symm.eq_nil
    exact ⟨.slnil, .slnil⟩
  | cons e zs ih =>
    rcases eq_cons_of_merged_eq_cons h with ⟨as', rfl, h'⟩ | ⟨bs', rfl, h'⟩
    · obtain ⟨hleft, hright⟩ := ih h'
      exact ⟨hleft.cons_cons e, hright.cons e⟩
    · obtain ⟨hleft, hright⟩ := ih h'
      exact ⟨hleft.cons e, hright.cons_cons e⟩

lemma joins_merged (ha : Sorted as) (hb : Sorted bs) : Joins as bs (merged as bs) where
  sorted := ha.merged hb
  perm := merged_perm
  left := (sublist_merged rfl).1
  right := (sublist_merged rfl).2
  ties := filter_merged ha

end Entries

namespace Summary

open Entries

variable {σ κ σ' κ' : Type} [LevelSource σ] [Coin κ] {s : Summary σ κ} {other : Summary σ' κ'}

/-- What a merge with entries `es'` of `added` observations makes of a summary with entries `es`. -/
structure MergesInto (s : Summary σ κ) (es es' : List Entry) (added : Count) (s' : Summary σ κ) :
    Prop where
  joins : Joins es es' (merged es es')
  /-- It is the compression of a store of all entries under the new count. -/
  compress : ∃ store, store.items = .ok (merged es es') ∧
    Summary.compress { s with n := s.n + added, store } = .ok s'
  entries : ∃ es'', s'.entries = .ok es'' ∧
    Compacts (s.accuracy.budget s'.n) (merged es es') es''
  n : s'.n.toNat = s.n.toNat + added.toNat
  accuracy : s'.accuracy = s.accuracy
  period : s'.period = s.period
  sinceSweep : s'.sinceSweep = s.sinceSweep

lemma Contains.exists_mergesInto {t t' : Snapshot} (h : s.Contains t) (ho : other.Contains t')
    (hne : ¬ other.isEmpty) (hc : s.accuracy.compatible other.accuracy)
    (hn : s.n.toNat + other.n.toNat < 2 ^ 64) :
    ∃ s', s.merge other = .ok s' ∧ s.MergesInto t.data t'.data other.n s' := by
  obtain ⟨store, hstore, hmerge⟩ := merge_eq_compress h.holds h.consistent.ascending ho.holds
    ho.consistent.ascending hne hc hn
  have hboth : Contains { s with n := s.n + other.n, store } ⟨merged t.data t'.data, _⟩ :=
    ⟨hstore, rfl, h.consistent_n.merged ho.consistent_n hn⟩
  obtain ⟨s', hs', hb⟩ := hboth.exists_compress
  have hfits : mass (merged t.data t'.data) < 2 ^ 64 := by
    rw [hboth.mass_eq]
    exact UInt64.toNat_lt _
  have hcount : s'.n = s.n + other.n := hb.contains.count
  refine ⟨s', by rw [hmerge, hs', liftM_ok], ?_⟩
  exact
    { joins := joins_merged h.consistent.ascending ho.consistent.ascending
      compress := ⟨store, hstore.items, hs'⟩
      entries := by
        refine ⟨_, hb.contains.entries, ?_⟩
        rw [hcount]
        exact compacts_compressed _ hboth.consistent.ascending hfits s.coin
      n := by rw [hcount, Count.toNat_add_of_lt hn]
      accuracy := hb.accuracy
      period := hb.period
      sinceSweep := hb.sinceSweep }

variable [LevelSource σ'] [Coin κ']

/-- A merge changes nothing if there is nothing to take in, is refused with nothing changed if the
accuracies differ, and else leaves what a compression leaves of all entries in one list. The other
summary is only read. -/
theorem Reachable.merge_joins (hr : Reachable s) (ho : Reachable other) :
    ∃ es es', s.entries = .ok es ∧ other.entries = .ok es' ∧ (other.isEmpty ↔ es' = []) ∧
      (other.isEmpty → s.merge other = .ok s ∧ (merging other).on s = (.ok (), s)) ∧
      (¬ other.isEmpty → ¬ s.accuracy.compatible other.accuracy →
        ∃ e, e = .merge (.incompatible s.accuracy.describe other.accuracy.describe) ∧
          s.merge other = .error e ∧ (merging other).on s = (.error e, s) ∧
          s.settle (s.merge other) = .ok s) ∧
      (¬ other.isEmpty → s.accuracy.compatible other.accuracy →
        s.n.toNat + other.n.toNat < 2 ^ 64 →
        ∃ s', s.merge other = .ok s' ∧ (merging other).on s = (.ok (), s') ∧
          s.MergesInto es es' other.n s') := by
  obtain ⟨-, t, hc⟩ := hr.exists_contains
  obtain ⟨-, t', hc'⟩ := ho.exists_contains
  refine ⟨t.data, t'.data, hc.entries, hc'.entries, ?_, ?_, ?_, ?_⟩
  · rw [isEmpty, beq_iff_eq, hc'.n_eq_zero_iff]
  · intro hempty
    exact ⟨merge_empty hempty, on_merging_of_isEmpty hempty⟩
  · intro hne hincompatible
    have hrefused := merge_eq_refusal hne hincompatible
    refine ⟨_, rfl, hrefused, on_merging_of_not_compatible hne hincompatible, ?_⟩
    rw [hrefused]
    rfl
  · intro hne hcompatible hn
    obtain ⟨s', hs', hinto⟩ := hc.exists_mergesInto hc' hne hcompatible hn
    exact ⟨s', hs', on_merging_of_ok hs', hinto⟩

/-- Ties within a summary and across both, of which one draws its levels at random. -/
theorem Reachable.merge_joins_ties :
    ∃ (s s' : Summary CyclicLevels CyclicBits) (other : Summary LevelRule Xoshiro)
      (es'' : List Entry),
      ofSnapshot ⟨0.25⟩ ⟨[40, 0], 0⟩ ⟨[true, false], 0⟩
        ⟨[⟨1, 1, 0, [4]⟩, ⟨2, 1, 0, [7]⟩, ⟨4, 1, 0, [9]⟩], 3⟩ = .ok s ∧
      ofSnapshot ⟨0.25⟩ (LevelRule.seeded 7) (Xoshiro.ofSeed 7)
        ⟨[⟨2, 1, 0, [5]⟩, ⟨2, 2, 0, [6]⟩, ⟨3, 1, 0, []⟩], 4⟩ = .ok other ∧
      s.merge other = .ok s' ∧ s'.n.toNat = 7 ∧ s'.entries = .ok es'' ∧
      Compacts (s.accuracy.budget s'.n)
        [⟨1, 1, 0, [4]⟩, ⟨2, 1, 0, [7]⟩, ⟨2, 1, 0, [5]⟩, ⟨2, 2, 0, [6]⟩, ⟨3, 1, 0, []⟩,
          ⟨4, 1, 0, [9]⟩] es'' := by
  obtain ⟨s, hs, hc, ha⟩ := exists_ofSnapshot (a := ⟨0.25⟩)
    (t := ⟨[⟨1, 1, 0, [4]⟩, ⟨2, 1, 0, [7]⟩, ⟨4, 1, 0, [9]⟩], 3⟩)
    (⟨[40, 0], 0⟩ : CyclicLevels) (⟨[true, false], 0⟩ : CyclicBits) (by decide +kernel) (by decide)
  obtain ⟨other, ho, hc', ha'⟩ := exists_ofSnapshot (a := ⟨0.25⟩)
    (t := ⟨[⟨2, 1, 0, [5]⟩, ⟨2, 2, 0, [6]⟩, ⟨3, 1, 0, []⟩], 4⟩)
    (LevelRule.seeded 7) (Xoshiro.ofSeed 7) (by decide +kernel) (by decide)
  obtain ⟨es, es', hes, hes', hempty, -, -, hmerge⟩ :=
    (Reachable.loaded hs).merge_joins (Reachable.loaded ho)
  obtain rfl := Except.ok.inj (hc.entries.symm.trans hes)
  obtain rfl := Except.ok.inj (hc'.entries.symm.trans hes')
  have hmerged : merged [⟨1, 1, 0, [4]⟩, ⟨2, 1, 0, [7]⟩, ⟨4, 1, 0, [9]⟩]
      [⟨2, 1, 0, [5]⟩, ⟨2, 2, 0, [6]⟩, ⟨3, 1, 0, []⟩] =
        [⟨1, 1, 0, [4]⟩, ⟨2, 1, 0, [7]⟩, ⟨2, 1, 0, [5]⟩, ⟨2, 2, 0, [6]⟩, ⟨3, 1, 0, []⟩,
          ⟨4, 1, 0, [9]⟩] := by
    simp [merged]
  have hn : s.n.toNat = 3 := congrArg UInt64.toNat hc.count
  have hn' : other.n.toNat = 4 := congrArg UInt64.toNat hc'.count
  obtain ⟨s', hs', -, hinto⟩ :=
    hmerge (mt hempty.1 (by decide)) (by rw [ha, ha']; decide +kernel) (by omega)
  obtain ⟨es'', hes'', hcompacts⟩ := hinto.entries
  have hcount := hinto.n
  exact ⟨s, s', other, es'', hs, ho, hs', by omega, hes'', hmerged ▸ hcompacts⟩

end Summary
end StreamQuantiles
