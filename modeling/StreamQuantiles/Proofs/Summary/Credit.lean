import StreamQuantiles.Proofs.Summary.Lineage

/-! What merges blur. In the entries of two summaries the ranks of either side are known only as far
as those of the other allow, which adds up to a credit that the answers to queries may be off by. -/
namespace StreamQuantiles

open Entries

namespace Summary

variable {σ κ : Type} {s s' other : Summary σ κ} {t : Snapshot} {M N : Multiset Measurement}
  {c d : Nat}

/-- A summary that contains the same keeps as much. -/
lemma Keeps.congr (hs : s.Keeps c M) (hc : s.Contains t) (hc' : s'.Contains t)
    (ha : s'.accuracy = s.accuracy) : s'.Keeps c M := by
  obtain ⟨es, hh, hac, hn, hr⟩ := hs
  obtain rfl : es = t.data := Except.ok.inj (hh.items.symm.trans hc.entries)
  have hcount : s'.n = s.n := hc'.count.trans hc.count.symm
  refine ⟨t.data, hc'.holds, hac, by rw [hcount, hn], ?_⟩
  rw [ha, hcount]
  exact hr

/-- What a merge adds up: the credits of both sides and the larger of their budgets, unless one of
them is empty. -/
def mergedCredit (a : Accuracy) (M N : Multiset Measurement) (c d : Nat) : Nat :=
  if N = 0 then c
  else if M = 0 then d
  else c + d + max (a.budget (UInt64.ofNat M.card)).toNat (a.budget (UInt64.ofNat N.card)).toNat

/-- Merged entries know their ranks up to the merged credit. -/
lemma Ranks.merged_of_grows {a : Accuracy} {m n : Count} {as bs : List Entry}
    (hm : m.toNat = M.card) (hn : n.toNat = N.card) (hN : N ≠ 0) (hfits : (M + N).card < 2 ^ 64)
    (hgrows : a.BudgetGrowsTo (m + n)) (hr : Ranks (a.budget m).toNat c M as)
    (hr' : Ranks (a.budget n).toNat d N bs) :
    Ranks (a.budget (m + n)).toNat (mergedCredit a M N c d) (M + N) (merged as bs) := by
  rw [Multiset.card_add] at hfits
  have hsum : (m + n).toNat = m.toNat + n.toNat := Count.toNat_add_of_lt (by omega)
  have h₁ : (a.budget m).toNat ≤ (a.budget (m + n)).toNat :=
    hgrows.toNat_le (by omega) (Nat.le_refl _)
  have h₂ : (a.budget n).toNat ≤ (a.budget (m + n)).toNat :=
    hgrows.toNat_le (by omega) (Nat.le_refl _)
  rw [mergedCredit, if_neg hN]
  by_cases hM : M = 0
  · subst hM
    have hnil : as = [] := by
      rw [List.eq_nil_iff_forall_not_mem]
      intro e he
      exact Multiset.notMem_zero _ (hr.observed e he)
    rw [if_pos rfl, hnil, Multiset.zero_add, Entries.merged, List.nil_merge]
    exact hr'.mono h₂ (Nat.le_refl d)
  · rw [if_neg hM, ← hm, ← hn, UInt64.ofNat_toNat, UInt64.ofNat_toNat]
    exact hr.merged hr' h₁ h₂

variable [LevelSource σ] [Coin κ]

lemma Keeps.exists_merge (hs : s.Keeps c M) (ho : other.Keeps d N) (ha : s.accuracy.valid)
    (he : other.accuracy = s.accuracy) (hfits : (M + N).card < 2 ^ 64) :
    ∃ s', s.merge other = .ok s' ∧ s'.Keeps (mergedCredit s.accuracy M N c d) (M + N) ∧
      s'.accuracy = s.accuracy := by
  by_cases hN : N = 0
  · have hempty := ho.isEmpty_iff.2 hN
    subst hN
    rw [mergedCredit, if_pos rfl, Multiset.add_zero]
    exact ⟨s, merge_empty hempty, hs, rfl⟩
  · have hne := ho.isEmpty_iff.not.2 hN
    have hcard := Multiset.card_add M N
    obtain ⟨es, hh, hac, hn, hr⟩ := hs
    obtain ⟨es', hh', hac', hn', hr'⟩ := ho
    have hsum : (s.n + other.n).toNat = s.n.toNat + other.n.toNat :=
      Count.toNat_add_of_lt (by omega)
    obtain ⟨store, hmerge, hh''⟩ := merge_eq_ok hh hac.sorted hh' hac'.sorted hne
      (Accuracy.compatible_of_eq ha he) (by rw [hac.total, hac'.total]; omega) (by omega)
    refine ⟨_, hmerge, ⟨_, hh'', (hac.merged hac').compressed hfits _ _, ?_, fun hg => ?_⟩, rfl⟩
    · change (s.n + other.n).toNat = _
      omega
    · have hg : s.accuracy.BudgetGrowsTo (s.n + other.n) := hg
      have hg₁ : s.accuracy.BudgetGrowsTo s.n := hg.mono (by omega)
      have hg₂ : s.accuracy.BudgetGrowsTo other.n := hg.mono (by omega)
      rw [he] at hr'
      have hm := Ranks.merged_of_grows hn hn' hN hfits hg (hr hg₁) (hr' hg₂)
      exact hm.compressed hfits (Nat.le_refl _) _

end Summary

namespace Lineage

variable {σ κ : Type}

/-- How far merges may have blurred the ranks, where all summaries work to one accuracy. -/
def credit (a : Accuracy) : Lineage σ κ → Nat
  | fresh _ _ _ => 0
  | call _ .clear => 0
  | call before _ => before.credit a
  | merge before partner =>
    Summary.mergedCredit a before.values partner.values (before.credit a) (partner.credit a)
  | reload before _ _ _ | resend before _ _ _ => before.credit a

variable [LevelSource σ] [Coin κ] {a : Accuracy}

/-- The entries of a summary know the ranks of its observations up to the credit of its lineage. -/
theorem keeps (ha : a.valid) {lineage : Lineage σ κ} {s : Summary σ κ}
    (hw : lineage.WorksTo (· = a)) (h : lineage.summary = .ok s) :
    s.accuracy = a ∧ s.Keeps (lineage.credit a) lineage.values := by
  have hcard : ∀ {l : Lineage σ κ} {s : Summary σ κ}, l.summary = .ok s →
      l.values.card < 2 ^ 64 := fun h => card_values _ ▸ length_log_lt h
  induction lineage generalizing s with
  | fresh b store coin =>
    obtain rfl : b = a := hw
    obtain ⟨s₀, hs₀, hk, he⟩ := Summary.exists_ofStore ha store coin
    cases hs₀.symm.trans (Summary.liftM_eq_ok h)
    exact ⟨he, hk⟩
  | call before op ih =>
    obtain ⟨s₀, hs₀, hs⟩ := exists_of_bind_eq_ok (x := before.summary) h
    obtain ⟨rfl, hk⟩ := ih hw hs₀
    obtain ⟨s₁, hs₁, hk₁, he⟩ := hk.exists_apply op (hcard hs₀) (values_call before op ▸ hcard h)
    cases hs₁.symm.trans (Summary.liftM_eq_ok hs)
    refine ⟨he, ?_⟩
    rw [values_call]
    cases op with
    | clear =>
      cases hs₁
      exact s₀.keeps_clear
    | insert | update | add | compress => exact hk₁
  | merge before partner ih ih' =>
    obtain ⟨s₀, hs₀, hrest⟩ := exists_of_bind_eq_ok (x := before.summary) h
    obtain ⟨s₁, hs₁, hs⟩ := exists_of_bind_eq_ok (x := partner.summary) hrest
    obtain ⟨rfl, hk⟩ := ih hw.1 hs₀
    obtain ⟨he, hk'⟩ := ih' hw.2 hs₁
    obtain ⟨r, hr, hkr, her⟩ := hk.exists_merge hk' ha he (values_merge before partner ▸ hcard h)
    cases hr.symm.trans hs
    rw [values_merge]
    exact ⟨her, hkr⟩
  | reload before b levels coin ih =>
    obtain ⟨s₀, hs₀, hrest⟩ := exists_of_bind_eq_ok (x := before.summary) h
    obtain ⟨t', ht', hs⟩ := exists_of_bind_eq_ok hrest
    obtain ⟨he, hk⟩ := ih hw.1 hs₀
    obtain ⟨t, hc, -⟩ := tracks (tracked_traced κ) hs₀
    obtain ⟨hc', rfl⟩ := hc.of_reload (Summary.liftM_eq_ok ht') hs
    exact ⟨hw.2, hk.congr hc hc' (hw.2.trans he.symm)⟩
  | resend before b levels coin ih =>
    obtain ⟨s₀, hs₀, hrest⟩ := exists_of_bind_eq_ok (x := before.summary) h
    obtain ⟨bytes, hb, hs⟩ := exists_of_bind_eq_ok hrest
    obtain ⟨he, hk⟩ := ih hw.1 hs₀
    obtain ⟨t, hc, -, htraced⟩ := tracks (tracked_traced κ) hs₀
    obtain ⟨-, -, -, -, rfl⟩ := Summary.ofBytes_eq_ok hs
    have hc' := hc.of_resend ((tracked_traced κ).writable htraced) (Summary.liftM_eq_ok hb) hs
    exact ⟨hw.2, hk.congr hc hc' (hw.2.trans he.symm)⟩

/-- A query after merges misses its target by no more than the slack, and from above by no more than
the slack and the credit. -/
theorem exists_near (ha : a.valid) {lineage : Lineage σ κ} (hfits : lineage.Fits a)
    {n : Count} (hn : n.toNat = lineage.values.card) (hpos : 1 ≤ n) (hgrows : a.BudgetGrowsTo n)
    (hbudget : (a.budget n).toNat ≤ 2 * (a.slack n).toNat + 1)
    {q : Float} (h₀ : 0.0 < q) (h₁ : q < 1.0) (ht : Quantile.targetRank q n ≤ n) :
    ∃ s answer, lineage.summary = .ok s ∧ s.query q = .ok (some answer) ∧
      answer.value ∈ lineage.values ∧
      (Quantile.targetRank q n).toNat ≤
        lineage.values.countP (· ≤ answer.value) + (a.slack n).toNat ∧
      lineage.values.countP (· < answer.value) ≤
        (Quantile.targetRank q n).toNat + (a.slack n).toNat + lineage.credit a := by
  obtain ⟨s, hs, -⟩ := exists_summary ha hfits
  obtain ⟨rfl, es, hh, -, hcard, hr⟩ := keeps ha hfits.worksTo hs
  obtain rfl : s.n = n := UInt64.toNat_inj.1 (hcard.trans hn.symm)
  rw [UInt64.le_iff_toNat_le] at hpos ht
  rw [hn] at hpos ht
  obtain ⟨answer, hq, hnear⟩ :=
    Summary.exists_query hh (hr hgrows) hpos (hcard ▸ s.n.toNat_lt) h₀ h₁ ht hbudget
  refine ⟨s, answer, hs, hq, hnear.observed, hnear.reached, ?_⟩
  rcases hnear.close with h | h | h <;> omega

/-- A shard merged with its clone, and with another shard. -/
theorem exists_near_of_shards :
    ∃ (s : Summary CyclicLevels CyclicBits) (answer : Estimate),
      (merge
        (merge
          (call (call (fresh ⟨0.25⟩ (.empty ⟨[40, 0], 0⟩) ⟨[true, false], 0⟩) (.add 5)) (.add 3))
          (call (call (fresh ⟨0.25⟩ (.empty ⟨[40, 0], 0⟩) ⟨[true, false], 0⟩) (.add 5)) (.add 3)))
        (call (fresh ⟨0.25⟩ (.empty ⟨[2], 0⟩) ⟨[false], 0⟩) (.insert 7 9))).summary = .ok s ∧
      s.query 0.5 = .ok (some answer) ∧ answer.value ∈ ({5, 3, 5, 3, 7} : Multiset Measurement) ∧
      3 ≤ ({5, 3, 5, 3, 7} : Multiset Measurement).countP (· ≤ answer.value) + 1 ∧
      ({5, 3, 5, 3, 7} : Multiset Measurement).countP (· < answer.value) ≤ 3 + 1 + 3 := by
  refine exists_near (a := ⟨0.25⟩) (by decide +kernel) ?_ (n := 5) rfl (by decide)
    (by decide +kernel) (by decide +kernel) (by decide +kernel) (by decide +kernel)
    (by decide +kernel)
  exact ⟨⟨⟨⟨rfl, by decide⟩, by decide⟩, ⟨⟨rfl, by decide⟩, by decide⟩, by decide⟩,
    ⟨rfl, by decide⟩, by decide⟩

end Lineage
end StreamQuantiles
