import StreamQuantiles.Proofs.Summary.Answers

/-! Runs of calls on one summary. Whatever the order of the calls, and wherever levels and coins come
from, the entries account for the observations since the last clearing and know their ranks. -/
namespace StreamQuantiles

open Entries

/-- The budget does not shrink as observations come in, up to some number of them. -/
def Accuracy.BudgetGrowsTo (a : Accuracy) (n : Count) : Prop :=
  ∀ l m, l ≤ m → m ≤ n → a.budget l ≤ a.budget m

section BudgetGrowsTo

variable {a : Accuracy} {l m n : Count}

lemma Accuracy.BudgetGrowsTo.toNat_le (h : a.BudgetGrowsTo n) (hl : l.toNat ≤ m.toNat)
    (hm : m.toNat ≤ n.toNat) : (a.budget l).toNat ≤ (a.budget m).toNat := by
  rw [← UInt64.le_iff_toNat_le] at hl hm ⊢
  exact h l m hl hm

lemma Accuracy.BudgetGrowsTo.mono (h : a.BudgetGrowsTo n) (hm : m.toNat ≤ n.toNat) :
    a.BudgetGrowsTo m := by
  rw [← UInt64.le_iff_toNat_le] at hm
  intro k l hk hl
  exact h k l hk (UInt64.le_trans hl hm)

/-- It is enough to compare neighbours. -/
theorem Accuracy.budgetGrowsTo_iff :
    a.BudgetGrowsTo n ↔
      ∀ m < n.toNat, a.budget (UInt64.ofNat m) ≤ a.budget (UInt64.ofNat (m + 1)) := by
  have hn := n.toNat_lt
  have hsize : UInt64.size = 2 ^ 64 := rfl
  constructor
  · intro h m hm
    refine h _ _ ?_ ?_ <;> rw [UInt64.le_iff_toNat_le]
    · rw [UInt64.toNat_ofNat_of_lt' (by omega), UInt64.toNat_ofNat_of_lt' (by omega)]
      omega
    · rw [UInt64.toNat_ofNat_of_lt' (by omega)]
      omega
  · intro h l m hl hm
    rw [UInt64.le_iff_toNat_le] at hl hm
    have hchain : ∀ k, l.toNat + k ≤ n.toNat →
        a.budget l ≤ a.budget (UInt64.ofNat (l.toNat + k)) := by
      intro k hk
      induction k with
      | zero => simp
      | succ k ih => exact UInt64.le_trans (ih (by omega)) (h _ (by omega))
    have hm' := hchain (m.toNat - l.toNat) (by omega)
    rwa [Nat.add_sub_cancel' hl, UInt64.ofNat_toNat] at hm'

instance (a : Accuracy) (n : Count) : Decidable (a.BudgetGrowsTo n) :=
  decidable_of_iff' _ Accuracy.budgetGrowsTo_iff

end BudgetGrowsTo

namespace Summary

variable {σ κ : Type} {s : Summary σ κ} {M : Multiset Measurement} {c : Nat}

/-- The entries of the summary account for the observations, and know their ranks up to a credit
if the budget has only grown. -/
def Keeps (s : Summary σ κ) (c : Nat) (M : Multiset Measurement) : Prop :=
  ∃ es, s.store.Holds es ∧ Accounts M es ∧ s.n.toNat = M.card ∧
    (s.accuracy.BudgetGrowsTo s.n → Ranks (s.accuracy.budget s.n).toNat c M es)

lemma Keeps.mono {c' : Nat} (hs : s.Keeps c M) (hc : c ≤ c') : s.Keeps c' M := by
  obtain ⟨es, hh, ha, hn, hr⟩ := hs
  exact ⟨es, hh, ha, hn, fun hg => (hr hg).mono (Nat.le_refl _) hc⟩

lemma Keeps.isEmpty_iff (hs : s.Keeps c M) : s.isEmpty ↔ M = 0 := by
  obtain ⟨es, -, -, hn, -⟩ := hs
  rw [isEmpty, beq_iff_eq, ← UInt64.toNat_inj, hn, ← Multiset.card_eq_zero]
  rfl

lemma keeps_clear (s : Summary σ κ) : s.clear.Keeps 0 0 :=
  ⟨[], Skiplist.holds_empty _, accounts_nil, rfl, fun _ => ranks_nil _ 0⟩

/-- A summary of valid accuracy starts out empty in any store. -/
lemma exists_ofStore {a : Accuracy} (ha : a.valid) (store : Skiplist Entry σ) (coin : κ) :
    ∃ s, ofStore a store coin = .ok s ∧ s.Keeps 0 0 ∧ s.accuracy = a := by
  let s : Summary σ κ :=
    { accuracy := a, store := store.clear, n := 0, sinceSweep := 0, period := a.period, coin }
  refine ⟨s, ?_, keeps_clear s, rfl⟩
  unfold ofStore
  rw [(Accuracy.check_eq_ok_iff a).2 ha]
  rfl

variable [Coin κ]

lemma Keeps.exists_compress (hs : s.Keeps c M) (hM : M.card < 2 ^ 64) :
    ∃ s', s.compress = .ok s' ∧ s'.Keeps c M ∧ s'.accuracy = s.accuracy := by
  obtain ⟨es, hh, ha, hn, hr⟩ := hs
  obtain ⟨store, hs, hh'⟩ := compress_eq_ok hh (by rwa [ha.total])
  refine ⟨_, hs, ⟨_, hh', ha.compressed hM _ _, hn, fun hg => ?_⟩, rfl⟩
  exact (hr hg).compressed hM (Nat.le_refl _) _

variable [LevelSource σ]

lemma Keeps.exists_insert (hs : s.Keeps c M) (v : Measurement) (id : SampleId)
    (hM : (v ::ₘ M).card < 2 ^ 64) :
    ∃ s', s.insert v id = .ok s' ∧ s'.Keeps c (v ::ₘ M) ∧ s'.accuracy = s.accuracy := by
  have hcard := Multiset.card_cons v M
  obtain ⟨es, hh, ha, hn, hr⟩ := hs
  obtain ⟨store, hs, hh'⟩ := insert_eq_ok hh ha.sorted (by rw [ha.total]; omega) (by omega) v id
  have hone : (1 : Count).toNat = 1 := rfl
  have hn' : (s.n + 1).toNat = M.card + 1 := by
    rw [Count.toNat_add_of_lt (by omega), hn, hone]
  refine ⟨_, hs, ⟨_, hh', ha.inserted hM .., by rw [hn', hcard], fun hg => ?_⟩, rfl⟩
  have hg : s.accuracy.BudgetGrowsTo (s.n + 1) := hg
  have hle : s.n.toNat ≤ (s.n + 1).toNat := by omega
  exact (hr (hg.mono hle)).inserted hM (hg.toNat_le hle (Nat.le_refl _)) hn ..

end Summary

/-- A call that takes in no other summary. -/
inductive Op where
  | insert (value : Measurement) (id : SampleId)
  | update (observation : Measurement × SampleId)
  | add (value : Measurement)
  | compress
  | clear

/-- The observations represented after a call. -/
def Op.gather (M : Multiset Measurement) : Op → Multiset Measurement
  | insert value _ => value ::ₘ M
  | update observation => observation.1 ::ₘ M
  | add value => value ::ₘ M
  | compress => M
  | clear => 0

/-- The observations since the last clearing. -/
def gathered (ops : List Op) : Multiset Measurement := ops.foldl Op.gather 0

lemma card_foldl_gather_le (ops : List Op) (M : Multiset Measurement) :
    (ops.foldl Op.gather M).card ≤ M.card + ops.length := by
  induction ops generalizing M with
  | nil => exact Nat.le_refl _
  | cons op ops ih =>
    have hstep : (op.gather M).card ≤ M.card + 1 := by
      cases op <;> simp [Op.gather]
    have := ih (op.gather M)
    simp only [List.foldl_cons, List.length_cons]
    omega

/-- Counts fit a word on every run of fewer calls than a word can count. -/
theorem card_gathered_lt {ops : List Op} (h : ops.length < 2 ^ 64) (k : Nat) :
    (gathered (ops.take k)).card < 2 ^ 64 := by
  have hle := card_foldl_gather_le (ops.take k) 0
  have := List.length_take_le' k ops
  rw [Multiset.card_zero] at hle
  unfold gathered
  omega

namespace Summary

variable {σ κ : Type} [LevelSource σ] [Coin κ] {s : Summary σ κ} {M : Multiset Measurement} {c : Nat}

def apply (s : Summary σ κ) : Op → Except Fault (Summary σ κ)
  | .insert value id => s.insert value id
  | .update observation => s.update observation
  | .add value => s.add value
  | .compress => s.compress
  | .clear => .ok s.clear

def run (ops : List Op) (s : Summary σ κ) : Except Fault (Summary σ κ) := ops.foldlM apply s

lemma Keeps.exists_apply (hs : s.Keeps c M) (op : Op) (hM : M.card < 2 ^ 64)
    (hfits : (op.gather M).card < 2 ^ 64) :
    ∃ s', s.apply op = .ok s' ∧ s'.Keeps c (op.gather M) ∧ s'.accuracy = s.accuracy := by
  cases op with
  | insert value id => exact hs.exists_insert value id hfits
  | update observation => exact hs.exists_insert observation.1 observation.2 hfits
  | add value => exact hs.exists_insert value s.n hfits
  | compress => exact hs.exists_compress hM
  | clear => exact ⟨s.clear, rfl, s.keeps_clear.mono (Nat.zero_le c), rfl⟩

/-- A run answers as long as every count on the way fits a word. -/
lemma Keeps.exists_run (hs : s.Keeps c M) (ops : List Op)
    (hfits : ∀ k, ((ops.take k).foldl Op.gather M).card < 2 ^ 64) :
    ∃ s', s.run ops = .ok s' ∧ s'.Keeps c (ops.foldl Op.gather M) ∧ s'.accuracy = s.accuracy := by
  induction ops generalizing s M with
  | nil => exact ⟨s, rfl, hs, rfl⟩
  | cons op ops ih =>
    obtain ⟨s₁, hs₁, hk₁, ha₁⟩ := hs.exists_apply op (hfits 0) (hfits 1)
    obtain ⟨s₂, hs₂, hk₂, ha₂⟩ := ih hk₁ fun k => hfits (k + 1)
    refine ⟨s₂, ?_, hk₂, ha₂.trans ha₁⟩
    rw [run, List.foldlM_cons, hs₁, ok_bind]
    exact hs₂

lemma Keeps.apply_eq_error (hs : s.Keeps c M) (op : Op) (hM : M.card < 2 ^ 64)
    (hfull : ¬ (op.gather M).card < 2 ^ 64) : s.apply op = .error .overflow := by
  obtain ⟨es, hh, ha, hn, -⟩ := hs
  have hcons : ∀ v : Measurement, (v ::ₘ M).card = s.n.toNat + 1 := by
    intro v
    rw [Multiset.card_cons, hn]
  cases op with
  | insert value id =>
    apply insert_eq_error hh ha.sorted
    rwa [← hcons value, ← Nat.not_lt]
  | update observation =>
    apply insert_eq_error hh ha.sorted
    rwa [← hcons observation.1, ← Nat.not_lt]
  | add value =>
    apply insert_eq_error hh ha.sorted
    rwa [← hcons value, ← Nat.not_lt]
  | compress => exact absurd hM hfull
  | clear => exact absurd (Nat.two_pow_pos 64) hfull

lemma Keeps.card_lt_of_run (hs : s.Keeps c M) (hM : M.card < 2 ^ 64) {ops : List Op}
    {s' : Summary σ κ} (h : s.run ops = .ok s') (k : Nat) :
    ((ops.take k).foldl Op.gather M).card < 2 ^ 64 := by
  induction ops generalizing s M k with
  | nil =>
    rw [List.take_nil]
    exact hM
  | cons op ops ih =>
    rw [run, List.foldlM_cons] at h
    by_cases hfits : (op.gather M).card < 2 ^ 64
    · obtain ⟨s₁, hs₁, hk₁, -⟩ := hs.exists_apply op hM hfits
      rw [hs₁, ok_bind] at h
      cases k with
      | zero => exact hM
      | succ k => exact ih hk₁ hfits h k
    · rw [hs.apply_eq_error op hM hfits] at h
      cases h

/-- A run from an empty summary leaves entries that account for the observations gathered. -/
lemma exists_run_ofStore {a : Accuracy} (ha : a.valid) (store : Skiplist Entry σ) (coin : κ)
    {ops : List Op} (hfits : ∀ k, (gathered (ops.take k)).card < 2 ^ 64) :
    ∃ s, (ofStore a store coin >>= run ops) = .ok s ∧ s.Keeps 0 (gathered ops) ∧ s.accuracy = a := by
  obtain ⟨s₀, hs₀, hk₀, rfl⟩ := exists_ofStore ha store coin
  obtain ⟨s, hs, hk, ha'⟩ := hk₀.exists_run ops hfits
  exact ⟨s, by rw [hs₀, ok_bind, hs], hk, ha'⟩

/-- A run answers exactly when every count on the way fits a word. -/
theorem exists_run_iff {a : Accuracy} (ha : a.valid) (store : Skiplist Entry σ) (coin : κ)
    (ops : List Op) :
    (∃ s, (ofStore a store coin >>= run ops) = .ok s) ↔
      ∀ k, (gathered (ops.take k)).card < 2 ^ 64 := by
  constructor
  · rintro ⟨s, hs⟩
    obtain ⟨s₀, hs₀, hk₀, -⟩ := exists_ofStore ha store coin
    rw [hs₀, ok_bind] at hs
    exact hk₀.card_lt_of_run (Nat.two_pow_pos 64) hs
  · intro hfits
    obtain ⟨s, hs, -⟩ := exists_run_ofStore ha store coin hfits
    exact ⟨s, hs⟩

/-- A query after a run answers with a measurement that was taken in, whose rank misses the target by
no more than the slack from below, and than the rest of the budget from above. -/
theorem exists_near_of_run {a : Accuracy} (ha : a.valid) (store : Skiplist Entry σ) (coin : κ)
    {ops : List Op} (hfits : ∀ k, (gathered (ops.take k)).card < 2 ^ 64)
    {n : Count} (hn : n.toNat = (gathered ops).card) (hpos : 1 ≤ n) (hgrows : a.BudgetGrowsTo n)
    (hlow : 2 * (a.slack n).toNat ≤ (a.budget n).toNat)
    (hhigh : (a.budget n).toNat ≤ 2 * (a.slack n).toNat + 1)
    {q : Float} (h₀ : 0.0 < q) (h₁ : q < 1.0) (ht : Quantile.targetRank q n ≤ n) :
    ∃ s answer, (ofStore a store coin >>= run ops) = .ok s ∧ s.query q = .ok (some answer) ∧
      answer.value ∈ gathered ops ∧
      (Quantile.targetRank q n).toNat ≤
        (gathered ops).countP (· ≤ answer.value) + (a.slack n).toNat ∧
      (gathered ops).countP (· < answer.value) + 1 ≤
        max 1 ((Quantile.targetRank q n).toNat + (a.budget n).toNat - (a.slack n).toNat) := by
  obtain ⟨s, hs, ⟨es, hh, -, hcard, hr⟩, rfl⟩ := exists_run_ofStore ha store coin hfits
  obtain rfl : s.n = n := UInt64.toNat_inj.1 (hcard.trans hn.symm)
  rw [UInt64.le_iff_toNat_le] at hpos ht
  rw [hn] at hpos ht
  have hM := hcard ▸ s.n.toNat_lt
  obtain ⟨answer, hq, hnear⟩ := exists_query hh (hr hgrows) hpos hM h₀ h₁ ht hhigh
  refine ⟨s, answer, hs, hq, hnear.observed, hnear.reached, ?_⟩
  rcases hnear.close with h | h | h <;> omega

/-- Ties, a clearing and compressions on the way. -/
theorem exists_near_of_run_cyclic :
    ∃ s answer,
      (ofStore ⟨0.25⟩ (Skiplist.empty ⟨[40, 0, 3], 0⟩ : Skiplist Entry CyclicLevels)
        (⟨[true, false], 0⟩ : CyclicBits) >>=
          run [.insert 9 0, .clear, .insert 5 1, .add 3, .update (5, 2), .compress, .add 7]) = .ok s ∧
      s.query 0.5 = .ok (some answer) ∧ answer.value ∈ ({7, 5, 3, 5} : Multiset Measurement) ∧
      2 ≤ ({7, 5, 3, 5} : Multiset Measurement).countP (· ≤ answer.value) + 1 ∧
      ({7, 5, 3, 5} : Multiset Measurement).countP (· < answer.value) + 1 ≤ 3 :=
  exists_near_of_run (by decide +kernel) _ _ (card_gathered_lt (by decide)) (n := 4) rfl (by decide)
    (by decide +kernel) (by decide +kernel) (by decide +kernel) (by decide +kernel)
    (by decide +kernel) (by decide +kernel)

/-- After a run some rank of the value of each entry lies between the mass up to it and `delta`
more. -/
theorem exists_ranked_of_run {a : Accuracy} (ha : a.valid) (store : Skiplist Entry σ) (coin : κ)
    {ops : List Op} (hfits : ∀ k, (gathered (ops.take k)).card < 2 ^ 64)
    {n : Count} (hn : n.toNat = (gathered ops).card) (hgrows : a.BudgetGrowsTo n) :
    ∃ s es, (ofStore a store coin >>= run ops) = .ok s ∧ s.entries = .ok es ∧
      ∀ xs e ys, es = xs ++ e :: ys →
        mass xs + e.g.toNat ≤ (gathered ops).countP (· ≤ e.value) ∧
        (gathered ops).countP (· < e.value) + 1 ≤ mass xs + e.g.toNat + e.delta.toNat := by
  obtain ⟨s, hs, ⟨es, hh, -, hcard, hr⟩, rfl⟩ := exists_run_ofStore ha store coin hfits
  obtain rfl : s.n = n := UInt64.toNat_inj.1 (hcard.trans hn.symm)
  refine ⟨s, es, hs, hh.items, ?_⟩
  intro xs e ys he
  obtain ⟨-, hleast, hgreatest, -⟩ := (hr hgrows).ranked xs e ys he
  exact ⟨hleast, hgreatest⟩

theorem exists_ranked_of_run_cyclic :
    ∃ s es,
      (ofStore ⟨0.25⟩ (Skiplist.empty ⟨[40, 0, 3], 0⟩ : Skiplist Entry CyclicLevels)
        (⟨[true, false], 0⟩ : CyclicBits) >>=
          run [.insert 9 0, .clear, .insert 5 1, .add 3, .update (5, 2), .compress, .add 7]) = .ok s ∧
      s.entries = .ok es ∧
      ∀ xs e ys, es = xs ++ e :: ys →
        mass xs + e.g.toNat ≤ ({7, 5, 3, 5} : Multiset Measurement).countP (· ≤ e.value) ∧
        ({7, 5, 3, 5} : Multiset Measurement).countP (· < e.value) + 1 ≤
          mass xs + e.g.toNat + e.delta.toNat :=
  exists_ranked_of_run (by decide +kernel) _ _ (card_gathered_lt (by decide)) (n := 4) rfl
    (by decide +kernel)

end Summary
end StreamQuantiles
