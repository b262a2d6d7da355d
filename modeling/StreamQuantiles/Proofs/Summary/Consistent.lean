import StreamQuantiles.Proofs.Summary.Ranks
import StreamQuantiles.Snapshot

/-! What a snapshot must satisfy to be taken for a summary. The check accepts exactly that, and
whatever a summary does to its entries keeps it. -/
namespace StreamQuantiles

/-- Entries of at least one observation each are no more than the observations. -/
lemma Entries.length_le_mass {es : List Entry} (h : ∀ e ∈ es, 1 ≤ e.g.toNat) :
    es.length ≤ mass es := by
  induction es with
  | nil => exact Nat.le_refl 0
  | cons e es ih =>
    obtain ⟨he, hes⟩ := List.forall_mem_cons.1 h
    have hle := ih hes
    rw [List.length_cons, mass_cons]
    omega

namespace Snapshot

open Entries

/-- Entries in ascending order, each of at least one observation and with a `delta` of no more than
all of them, that stand for `n` observations together. -/
structure Consistent (s : Snapshot) : Prop where
  ascending : s.data.Pairwise (·.value ≤ ·.value)
  positive : ∀ e ∈ s.data, 1 ≤ e.g.toNat
  delta_le : ∀ e ∈ s.data, e.delta.toNat ≤ s.n.toNat
  total : (s.data.map (·.g.toNat)).sum = s.n.toNat

variable {s : Snapshot} {es es' : List Entry} {n n' : Count}

lemma ascending_iff : Snapshot.ascending es = true ↔ Sorted es := by
  induction es with
  | nil => exact iff_of_true rfl List.Pairwise.nil
  | cons e es ih =>
    cases es with
    | nil => exact iff_of_true rfl (List.pairwise_singleton _ e)
    | cons f es =>
      have hstep : Snapshot.ascending (e :: f :: es) =
        (decide (e.value ≤ f.value) && Snapshot.ascending (f :: es)) := rfl
      rw [hstep, Bool.and_eq_true, ih, decide_eq_true_iff]
      constructor
      · rintro ⟨hle, hs⟩
        refine List.pairwise_cons.2 ⟨List.forall_mem_cons.2 ⟨hle, fun x hx => ?_⟩, hs⟩
        exact Int64.le_trans hle ((List.pairwise_cons.1 hs).1 x hx)
      · intro hs
        obtain ⟨he, hs⟩ := List.pairwise_cons.1 hs
        exact ⟨he f List.mem_cons_self, hs⟩

/-- The check accepts exactly the consistent snapshots. -/
theorem check_eq_ok_iff : s.check = .ok () ↔ s.Consistent := by
  have hpositive : s.data.any (·.g == 0) = false ↔ ∀ e ∈ s.data, 1 ≤ e.g.toNat := by
    simp only [List.any_eq_false, beq_iff_eq, ← UInt64.toNat_inj, Nat.one_le_iff_ne_zero]
    rfl
  have hdelta : s.data.find? (s.n < ·.delta) = none ↔ ∀ e ∈ s.data, e.delta.toNat ≤ s.n.toNat := by
    simp only [List.find?_eq_none, decide_eq_true_iff, UInt64.not_lt, UInt64.le_iff_toNat_le]
  have htotal : Count.sum? (s.data.map Entry.g) = some s.n ↔
      (s.data.map (·.g.toNat)).sum = s.n.toNat := by
    rw [Count.sum?_eq_some_iff, List.map_map]
    exact eq_comm
  have hcheck : s.check = .ok () ↔
      Snapshot.ascending s.data = true ∧ s.data.any (·.g == 0) = false ∧
        s.data.find? (s.n < ·.delta) = none ∧ Count.sum? (s.data.map Entry.g) = some s.n := by
    unfold check
    cases Snapshot.ascending s.data with
    | false => exact iff_of_false (by intro h; cases h) (by intro h; cases h.1)
    | true =>
      cases s.data.any (·.g == 0) with
      | true => exact iff_of_false (by intro h; cases h) (by intro h; cases h.2.1)
      | false =>
        cases s.data.find? (s.n < ·.delta) with
        | some e => exact iff_of_false (by intro h; cases h) (by intro h; cases h.2.2.1)
        | none =>
          cases Count.sum? (s.data.map Entry.g) with
          | none => exact iff_of_false (by intro h; cases h) (by intro h; cases h.2.2.2)
          | some mass =>
            change (if mass = s.n then pure ()
              else throw (Corruption.weightMismatch mass s.n)) = _ ↔ _
            by_cases hm : mass = s.n
            · rw [if_pos hm]
              exact iff_of_true rfl ⟨rfl, rfl, rfl, congrArg some hm⟩
            · rw [if_neg hm]
              exact iff_of_false (by intro h; cases h) fun h => hm (Option.some.inj h.2.2.2)
  rw [hcheck, ascending_iff, hpositive, hdelta, htotal]
  exact ⟨fun ⟨ha, hp, hd, ht⟩ => ⟨ha, hp, hd, ht⟩, fun ⟨ha, hp, hd, ht⟩ => ⟨ha, hp, hd, ht⟩⟩

instance : Decidable s.Consistent := decidable_of_iff _ check_eq_ok_iff

lemma consistent_nil : Consistent ⟨[], 0⟩ where
  ascending := .nil
  positive := by simp
  delta_le := by simp
  total := rfl

/-- Consistent entries account for some observations: each for as many of its value as it weighs. -/
lemma Consistent.exists_accounts (hs : s.Consistent) :
    ∃ M : Multiset Measurement, M.card = s.n.toNat ∧ Accounts M s.data := by
  have htotal : mass s.data = s.n.toNat := hs.total
  have hobserved : ∀ es : List Entry, (∀ e ∈ es, 1 ≤ e.g.toNat) →
      ∃ M : Multiset Measurement, M.card = mass es ∧ ∀ e ∈ es, e.value ∈ M := by
    intro es hpositive
    induction es with
    | nil => exact ⟨0, rfl, by simp⟩
    | cons e es ih =>
      obtain ⟨he, hes⟩ := List.forall_mem_cons.1 hpositive
      obtain ⟨M, hcard, hM⟩ := ih hes
      refine ⟨Multiset.replicate e.g.toNat e.value + M, ?_, ?_⟩
      · rw [Multiset.card_add, Multiset.card_replicate, hcard, mass_cons]
      · refine List.forall_mem_cons.2 ⟨?_, fun f hf => Multiset.mem_add.2 (.inr (hM f hf))⟩
        exact Multiset.mem_add.2 (.inl (Multiset.mem_replicate.2 ⟨by omega, rfl⟩))
  obtain ⟨M, hcard, hM⟩ := hobserved s.data hs.positive
  exact ⟨M, hcard.trans htotal, hs.ascending, hs.positive, hM, hcard.symm⟩

lemma consistent_of_accounts {M : Multiset Measurement} (ha : Accounts M es)
    (hn : M.card = n.toNat) (hd : ∀ e ∈ es, e.delta.toNat ≤ n.toNat) : Consistent ⟨es, n⟩ where
  ascending := ha.sorted
  positive := ha.positive
  delta_le := hd
  total := ha.total.trans hn

lemma delta_le_of_compressed {κ : Type} [Coin κ] {b : Nat} (hd : ∀ e ∈ es, e.delta.toNat ≤ b)
    (budget : Count) (coin : κ) : ∀ e ∈ (compressed budget es coin).1, e.delta.toNat ≤ b := by
  apply compressed_induction (P := fun es => ∀ e ∈ es, e.delta.toNat ≤ b) _ _ coin hd
  · intro xs cur next ys keep _ h
    simp only [List.forall_mem_append, List.forall_mem_cons] at h ⊢
    exact ⟨h.1, h.2.2⟩
  · intro xs e ys _ h
    simp only [List.forall_mem_append, List.forall_mem_cons] at h ⊢
    exact ⟨h.1, Nat.zero_le b, h.2.2⟩

theorem Consistent.compressed {κ : Type} [Coin κ] (h : Consistent ⟨es, n⟩) (budget : Count)
    (coin : κ) : Consistent ⟨(compressed budget es coin).1, n⟩ := by
  obtain ⟨M, hM, ha⟩ := h.exists_accounts
  have hfits : M.card < 2 ^ 64 := hM ▸ n.toNat_lt
  exact consistent_of_accounts (ha.compressed hfits budget coin) hM
    (delta_le_of_compressed h.delta_le budget coin)

/-- A further observation, whose rank may be uncertain by as much as there were before. -/
lemma delta_le_of_recorded {b : Nat} (hs : Sorted es) (hd : ∀ e ∈ es, e.delta.toNat ≤ b)
    (v : Measurement) (id : SampleId) {delta : Count} (hdelta : delta.toNat ≤ b) :
    ∀ e ∈ recorded v id delta es, e.delta.toNat ≤ b := by
  obtain ⟨below, above, x, rfl, hrec, -, -, -, -, hx⟩ := hs.exists_recorded v id delta
  rw [hrec]
  simp only [List.forall_mem_append, List.forall_mem_cons] at hd ⊢
  refine ⟨hd.1, ?_, hd.2⟩
  rw [hx]
  split
  · exact Nat.zero_le b
  · exact hdelta

theorem Consistent.inserted {κ : Type} [Coin κ] (h : Consistent ⟨es, n⟩)
    (hn : n.toNat + 1 < 2 ^ 64) (a : Accuracy) (due : Bool) (v : Measurement) (id : SampleId)
    (coin : κ) : Consistent ⟨(inserted a (n + 1) due v id es coin).1, n + 1⟩ := by
  obtain ⟨M, hM, ha⟩ := h.exists_accounts
  have hsum : (n + 1).toNat = n.toNat + 1 := Count.toNat_add_of_lt hn
  have hcard : (v ::ₘ M).card = (n + 1).toNat := by rw [Multiset.card_cons, hM, hsum]
  have hfits : (v ::ₘ M).card < 2 ^ 64 := hcard ▸ (n + 1).toNat_lt
  refine consistent_of_accounts (ha.inserted hfits a (n + 1) due id coin) hcard ?_
  have hbefore : ∀ e ∈ es, e.delta.toNat ≤ (n + 1).toNat := by
    intro e he
    have hle := h.delta_le e he
    rw [hsum]
    exact Nat.le_succ_of_le hle
  have hnew : (min (a.budget (n + 1)) (n + 1 - 1)).toNat ≤ (n + 1).toNat := by
    rw [Count.toNat_min, UInt64.add_sub_cancel, hsum]
    omega
  have hrec := delta_le_of_recorded ha.sorted hbefore v id hnew
  unfold Entries.inserted
  split
  · exact delta_le_of_compressed hrec _ coin
  · exact hrec

theorem Consistent.merged (h : Consistent ⟨es, n⟩) (h' : Consistent ⟨es', n'⟩)
    (hn : n.toNat + n'.toNat < 2 ^ 64) : Consistent ⟨merged es es', n + n'⟩ := by
  obtain ⟨M, hM, ha⟩ := h.exists_accounts
  obtain ⟨N, hN, hb⟩ := h'.exists_accounts
  have hsum : (n + n').toNat = n.toNat + n'.toNat := Count.toNat_add_of_lt hn
  refine consistent_of_accounts (ha.merged hb) (by rw [Multiset.card_add, hM, hN, hsum]) ?_
  intro e he
  rw [hsum]
  rcases List.mem_append.1 (merged_perm.mem_iff.1 he) with h₁ | h₂
  · exact (h.delta_le e h₁).trans (Nat.le_add_right _ _)
  · exact (h'.delta_le e h₂).trans (Nat.le_add_left _ _)

end Snapshot
end StreamQuantiles
