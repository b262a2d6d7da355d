import Mathlib.Data.List.TakeWhile
import StreamQuantiles.Proofs.Summary.Credit

/-! The number of observations at or below a measurement, as far as the entries tell. The weight of
the entries there is never more than that number, and falls short of it by no more than the budget
and what merges have blurred. -/
namespace StreamQuantiles

open Entries

namespace Quantile

variable {es : List Entry} {v : Measurement} {below : Count}

lemma weightUpTo_eq_ok_iff :
    weightUpTo v es = .ok below ↔ below.toNat = mass (es.takeWhile (·.value ≤ v)) := by
  rw [weightUpTo, Count.sum_eq_ok_iff, List.map_map]
  rfl

/-- The entries at or below a measurement weigh no more than all of them, so their weight fits. -/
lemma exists_weightUpTo (hm : mass es < 2 ^ 64) (v : Measurement) :
    ∃ below, weightUpTo v es = .ok below := by
  have hsplit := congrArg mass
    (List.takeWhile_append_dropWhile (p := fun e : Entry => decide (e.value ≤ v)) (l := es))
  rw [mass_append] at hsplit
  have hfits : mass (es.takeWhile (·.value ≤ v)) < UInt64.size := by
    rw [Count.size_eq]
    omega
  exact ⟨_, weightUpTo_eq_ok_iff.2 (UInt64.toNat_ofNat_of_lt' hfits)⟩

end Quantile

namespace Entries

variable {M : Multiset Measurement} {b c : Nat} {es xs ys : List Entry} {v w : Measurement}

lemma mass_takeWhile_le (es : List Entry) (h : v ≤ w) :
    mass (es.takeWhile (·.value ≤ v)) ≤ mass (es.takeWhile (·.value ≤ w)) := by
  have hboth : es.takeWhile (·.value ≤ v) =
      (es.takeWhile (·.value ≤ w)).takeWhile (·.value ≤ v) := by
    rw [List.takeWhile_takeWhile]
    congr 1
    funext e
    have himp : e.value ≤ v → e.value ≤ w := fun he => Int64.le_trans he h
    simpa using himp
  obtain ⟨more, hmore⟩ := List.takeWhile_prefix (l := es.takeWhile (·.value ≤ w)) (·.value ≤ v)
  rw [hboth, ← hmore, mass_append, hmore]
  exact Nat.le_add_right _ _

/-- Observations between two entries are among those that the upper one may hide. -/
lemma Ranks.countP_le_mass_of_lt (hr : Ranks b c M (xs ++ ys)) (hy : ∀ y ∈ ys, v < y.value) :
    M.countP (· ≤ v) ≤ mass xs + (b + c) := by
  cases ys with
  | nil =>
    have htotal := hr.total
    rw [List.append_nil] at htotal
    have := Multiset.countP_le_card (· ≤ v) M
    omega
  | cons y ys =>
    have hgap := (hr.ranked xs y ys rfl).gap
    have hle : M.countP (· ≤ v) ≤ M.countP (· < y.value) :=
      countP_le_of_imp M fun x hx => Int64.lt_of_le_of_lt hx (hy y List.mem_cons_self)
    split at hgap <;> omega

end Entries

/-- How the weights at or below the measurements tell the numbers of observations there: never too
high, too low by no more than `error`, and exact outside the observed range. -/
structure Cumulates (error : Nat) (M : Multiset Measurement) (below : Measurement → Count) :
    Prop where
  low : ∀ v, (below v).toNat ≤ M.countP (· ≤ v)
  high : ∀ v, M.countP (· ≤ v) ≤ (below v).toNat + error
  mono : ∀ v w, v ≤ w → below v ≤ below w
  least : ∀ v, (∀ x ∈ M, v < x) → below v = 0
  greatest : ∀ v, (∀ x ∈ M, x ≤ v) → (below v).toNat = M.card

/-- Entries that know their ranks tell the numbers, up to the budget and the credit. -/
lemma Entries.Ranks.cumulates {M : Multiset Measurement} {b c : Nat} {es : List Entry}
    (hr : Ranks b c M es) {below : Measurement → Count}
    (hbelow : ∀ v, Quantile.weightUpTo v es = .ok (below v)) : Cumulates (b + c) M below := by
  have hmass : ∀ v, (below v).toNat = mass (es.takeWhile (·.value ≤ v)) :=
    fun v => Quantile.weightUpTo_eq_ok_iff.1 (hbelow v)
  have hcut : ∀ v, Ranks b c M (es.takeWhile (·.value ≤ v) ++ es.dropWhile (·.value ≤ v)) := by
    intro v
    rwa [List.takeWhile_append_dropWhile]
  have hlow : ∀ v, (below v).toNat ≤ M.countP (· ≤ v) := by
    intro v
    rw [hmass]
    exact (hcut v).mass_le_countP fun e he => key_le_of_mem_takeWhile Entry.value he
  refine ⟨hlow, ?_, ?_, ?_, ?_⟩
  · intro v
    rw [hmass]
    exact (hcut v).countP_le_mass_of_lt fun e he =>
      Int64.not_le.1 (not_key_le_of_mem_dropWhile Entry.value hr.sorted he)
  · intro v w h
    rw [UInt64.le_iff_toNat_le, hmass, hmass]
    exact mass_takeWhile_le es h
  · intro v h
    have hnone : M.countP (· ≤ v) = 0 :=
      Multiset.countP_eq_zero.2 fun x hx => Int64.not_le.2 (h x hx)
    exact UInt64.toNat_inj.1 (Nat.le_zero.1 (hnone ▸ hlow v))
  · intro v h
    have hall : es.takeWhile (·.value ≤ v) = es :=
      List.takeWhile_eq_self_iff.2 fun e he => decide_eq_true (h _ (hr.observed e he))
    rw [hmass, hall, hr.total]

/-- The rank of a measurement is the weight of the entries there over that of all. -/
lemma Summary.rank_of_weightUpTo {σ κ : Type} {s : Summary σ κ} {es : List Entry} {v : Measurement}
    {below : Count} (hentries : s.entries = .ok es) (hne : ¬ s.isEmpty)
    (hbelow : Quantile.weightUpTo v es = .ok below) :
    s.rank v = .ok (below.toFloat / s.n.toFloat) := by
  unfold rank
  rw [if_neg hne, hentries, ok_bind, hbelow]
  rfl

namespace Lineage

variable {σ κ : Type}

def Unmerged : Lineage σ κ → Prop
  | fresh _ _ _ => True
  | call before _ => before.Unmerged
  | merge _ _ => False
  | reload before _ _ _ | resend before _ _ _ => before.Unmerged

/-- Only merges blur the ranks. -/
lemma credit_of_unmerged {lineage : Lineage σ κ} (h : lineage.Unmerged) (a : Accuracy) :
    lineage.credit a = 0 := by
  induction lineage with
  | fresh => rfl
  | call before op ih =>
    cases op with
    | clear => rfl
    | insert | update | add | compress => exact ih h
  | merge => cases h
  | reload _ _ _ _ ih | resend _ _ _ _ ih => exact ih h

variable [LevelSource σ] [Coin κ]

/-- The rank of a measurement is a number of observations over that of all: no more than those at or
below the measurement, and less by no more than the budget and the credit. It grows with the
measurement, from zero below the minimum to all of them from the maximum on. -/
theorem rank_cumulates {a : Accuracy} (ha : a.valid) {lineage : Lineage σ κ}
    (hfits : lineage.Fits a) {n : Count} (hn : n.toNat = lineage.values.card) (hpos : 1 ≤ n)
    (hgrows : a.BudgetGrowsTo n) :
    ∃ s es below, lineage.summary = .ok s ∧ s.entries = .ok es ∧
      (∀ v, Quantile.weightUpTo v es = .ok (below v) ∧
        s.rank v = .ok ((below v).toFloat / n.toFloat)) ∧
      Cumulates ((a.budget n).toNat + lineage.credit a) lineage.values below ∧
      (lineage.Unmerged → Cumulates (a.budget n).toNat lineage.values below) := by
  obtain ⟨s, hs, -⟩ := exists_summary ha hfits
  obtain ⟨rfl, hk⟩ := keeps ha hfits.worksTo hs
  have hne : ¬ s.isEmpty := by
    rw [hk.isEmpty_iff, ← Multiset.card_eq_zero, ← hn]
    rw [UInt64.le_iff_toNat_le] at hpos
    exact Nat.ne_of_gt hpos
  obtain ⟨es, hh, hac, hcard, hr⟩ := hk
  obtain rfl : s.n = n := UInt64.toNat_inj.1 (hcard.trans hn.symm)
  have hr := hr hgrows
  have hentries : s.entries = .ok es := hh.items
  choose below hbelow using Quantile.exists_weightUpTo (hac.total ▸ hcard ▸ s.n.toNat_lt)
  refine ⟨s, es, below, hs, hentries, fun v => ⟨hbelow v, ?_⟩, hr.cumulates hbelow, fun hu => ?_⟩
  · exact Summary.rank_of_weightUpTo hentries hne (hbelow v)
  · rw [credit_of_unmerged hu] at hr
    exact hr.cumulates hbelow

/-- A shard merged with one of a tie that was cleared before. -/
theorem rank_cumulates_of_shards :
    ∃ (s : Summary CyclicLevels CyclicBits) (below : Measurement → Count),
      (merge
        (call (call (fresh ⟨0.25⟩ (.empty ⟨[40, 0], 0⟩) ⟨[true, false], 0⟩) (.add 5)) (.add 3))
        (call (call (call (fresh ⟨0.25⟩ (.empty ⟨[2], 0⟩) ⟨[false], 0⟩) (.add 9)) .clear)
          (.insert 5 9))).summary = .ok s ∧
      (∀ v, s.rank v = .ok ((below v).toFloat / (3 : Count).toFloat)) ∧
      Cumulates 2 {5, 3, 5} below := by
  have hfits : (merge
      (call (call (fresh ⟨0.25⟩ (.empty ⟨[40, 0], 0⟩) ⟨[true, false], 0⟩) (.add 5)) (.add 3))
      (call (call (call (fresh ⟨0.25⟩ (.empty ⟨[2], 0⟩) ⟨[false], 0⟩) (.add 9)) .clear)
        (.insert 5 9)) : Lineage CyclicLevels CyclicBits).Fits ⟨0.25⟩ :=
    ⟨⟨⟨rfl, by decide⟩, by decide⟩, ⟨⟨⟨rfl, by decide⟩, by decide⟩, by decide⟩, by decide⟩
  obtain ⟨s, es, below, hs, -, hrank, hcumulates, -⟩ :=
    rank_cumulates (a := ⟨0.25⟩) (by decide +kernel) hfits (n := 3) rfl (by decide)
      (by decide +kernel)
  have herror : ((⟨0.25⟩ : Accuracy).budget 3).toNat +
      Summary.mergedCredit ⟨0.25⟩ {5, 3} {5} 0 0 = 2 := by decide +kernel
  refine ⟨s, below, hs, fun v => (hrank v).2, ?_⟩
  rw [← herror]
  exact hcumulates

end Lineage
end StreamQuantiles
