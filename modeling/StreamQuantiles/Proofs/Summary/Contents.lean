import StreamQuantiles.Proofs.Summary.Consistent
import StreamQuantiles.Proofs.Summary.Streams
import StreamQuantiles.Summary.Restore

/-! What a summary contains, as a snapshot. Each call takes a summary that contains a consistent
snapshot to one that contains another, or is refused. -/
namespace StreamQuantiles

open Entries

/-- The observations that a call adds. -/
def Op.added : Op → Nat
  | insert _ _ | update _ | add _ => 1
  | compress | clear => 0

namespace Summary

variable {σ κ σ' κ' : Type} {s s' : Summary σ κ} {other : Summary σ' κ'} {t t' : Snapshot}

/-- The entries and the count are those of a snapshot, which is consistent. -/
structure Contains (s : Summary σ κ) (t : Snapshot) : Prop where
  holds : s.store.Holds t.data
  count : s.n = t.n
  consistent : t.Consistent

namespace Contains

lemma entries (h : s.Contains t) : s.entries = .ok t.data := h.holds.items

lemma snapshot (h : s.Contains t) : s.snapshot = .ok t := by
  unfold Summary.snapshot
  rw [h.entries, h.count]
  rfl

/-- Summaries that hand out one snapshot contain the same. -/
lemma eq_of_snapshot_eq (h : s.Contains t) (h' : other.Contains t')
    (hsame : other.snapshot = s.snapshot) : t' = t := by
  rw [h'.snapshot, h.snapshot] at hsame
  exact Except.ok.inj hsame

lemma size (h : s.Contains t) : s.size = t.data.length := h.holds.size

lemma mass_eq (h : s.Contains t) : mass t.data = s.n.toNat := by
  rw [h.count]
  exact h.consistent.total

lemma consistent_n (h : s.Contains t) : Snapshot.Consistent ⟨t.data, s.n⟩ := by
  rw [h.count]
  exact h.consistent

/-- The minimum is the value of the first entry, if there is any. -/
lemma minimum (h : s.Contains t) : s.minimum = .ok (t.data.head?.map Entry.value) := by
  obtain ⟨cells, hr, hc⟩ := h.holds
  unfold Summary.minimum
  rw [hr.first, ← hc]
  cases cells with
  | nil => rfl
  | cons c cells =>
    change (do return some (← (do return (← s.store.get c.handle).value : Except Fault _))) = _
    rw [hr.get (by simp)]
    rfl

/-- The maximum is the value of the last entry, if there is any. -/
lemma maximum (h : s.Contains t) : s.maximum = .ok (t.data.getLast?.map Entry.value) := by
  obtain ⟨cells, hr, hc⟩ := h.holds
  unfold Summary.maximum Skiplist.last
  rw [hr.tail, ← hc]
  rcases List.eq_nil_or_concat cells with rfl | ⟨cells, c, rfl⟩
  · rfl
  · rw [List.concat_eq_append, List.map_append, List.map_singleton, List.getLast?_concat,
      List.map_append, List.map_singleton, List.getLast?_concat]
    change (do return some (← (do return (← s.store.get c.handle).value : Except Fault _))) = _
    rw [hr.get (by simp)]
    rfl

/-- There are no more entries than observations. -/
lemma length_le (h : s.Contains t) : t.data.length ≤ s.n.toNat := by
  rw [← h.mass_eq]
  exact length_le_mass h.consistent.positive

/-- There are observations exactly when there are entries. -/
lemma n_eq_zero_iff (h : s.Contains t) : s.n = 0 ↔ t.data = [] := by
  rw [← UInt64.toNat_inj]
  constructor
  · intro hzero
    have hle := h.length_le
    rw [hzero] at hle
    exact List.length_eq_zero_iff.1 (Nat.le_zero.1 hle)
  · intro hnil
    rw [← h.mass_eq, hnil]
    rfl

end Contains

/-- The summary after a call that may be refused: a refused call leaves it as it was. -/
def settle (s : Summary σ κ) : Except Error (Summary σ κ) → Except Fault (Summary σ κ)
  | .ok s' => .ok s'
  | .error (.fault f) => .error f
  | .error _ => .ok s

lemma ok_or_eq_of_settle {x : Except Error (Summary σ κ)} (h : s.settle x = .ok s') :
    x = .ok s' ∨ s' = s := by
  cases x with
  | ok =>
    cases h
    exact .inl rfl
  | error e => cases e with
    | fault => cases h
    | merge | decode | malformed =>
      cases h
      exact .inr rfl

lemma liftM_eq_ok {α : Type} {x : Except Fault α} {b : α}
    (h : (liftM x : Except Error α) = .ok b) : x = .ok b := by
  cases x with
  | error f => cases h
  | ok c =>
    rw [liftM_ok] at h
    cases h
    rfl

lemma contains_clear (s : Summary σ κ) : s.clear.Contains ⟨[], 0⟩ :=
  ⟨Skiplist.holds_empty _, rfl, Snapshot.consistent_nil⟩

/-- A summary is made only to a valid accuracy, and is empty. -/
lemma ofStore_eq_ok {a : Accuracy} {store : Skiplist Entry σ} {coin : κ}
    (h : ofStore a store coin = .ok s) : a.valid ∧ s.Contains ⟨[], 0⟩ ∧ s.accuracy = a := by
  obtain ⟨⟨⟩, hcheck, h⟩ := exists_of_bind_eq_ok h
  cases h
  exact ⟨(Accuracy.check_eq_ok_iff a).1 hcheck,
    ⟨Skiplist.holds_empty _, rfl, Snapshot.consistent_nil⟩, rfl⟩

/-- What a call makes of a summary: what it contains then, the inserts since the last sweep, and the
state of the coins. -/
structure Becomes (s s' : Summary σ κ) (t : Snapshot) (since : Nat) (coin : κ) : Prop where
  contains : s'.Contains t
  accuracy : s'.accuracy = s.accuracy
  period : s'.period = s.period
  sinceSweep : s'.sinceSweep = since
  coin : s'.coin = coin

section Coin

variable [Coin κ]

lemma Contains.exists_compress (h : s.Contains t) :
    ∃ s', s.compress = .ok s' ∧
      s.Becomes s' ⟨(compressed s.budget t.data s.coin).1, t.n⟩ s.sinceSweep
        (compressed s.budget t.data s.coin).2 := by
  obtain ⟨store, hs, hh⟩ := compress_eq_ok h.holds (h.mass_eq ▸ s.n.toNat_lt)
  exact ⟨_, hs, ⟨hh, h.count, h.consistent.compressed _ _⟩, rfl, rfl, rfl, rfl⟩

/-- What a compression leaves. -/
lemma Contains.of_compress (h : s.Contains t) (hs : s.compress = .ok s') :
    s.Becomes s' ⟨(compressed s.budget t.data s.coin).1, t.n⟩ s.sinceSweep
      (compressed s.budget t.data s.coin).2 := by
  obtain ⟨r, hr, hb⟩ := h.exists_compress
  cases hr.symm.trans hs
  exact hb

variable [LevelSource σ]

lemma Contains.exists_insert (h : s.Contains t) (hn : s.n.toNat + 1 < 2 ^ 64) (v : Measurement)
    (id : SampleId) :
    ∃ s', s.insert v id = .ok s' ∧
      s.Becomes s' ⟨(inserted s.accuracy (s.n + 1) s.due v id t.data s.coin).1, s.n + 1⟩
        (if s.due then 0 else s.sinceSweep + 1)
        (inserted s.accuracy (s.n + 1) s.due v id t.data s.coin).2 := by
  obtain ⟨store, hs, hh⟩ :=
    insert_eq_ok h.holds h.consistent.ascending (h.mass_eq ▸ hn) hn v id
  exact ⟨_, hs, ⟨hh, rfl, h.consistent_n.inserted hn _ _ _ _ _⟩, rfl, rfl, rfl, rfl⟩

lemma Contains.insert_eq_error (h : s.Contains t) (hn : 2 ^ 64 ≤ s.n.toNat + 1) (v : Measurement)
    (id : SampleId) : s.insert v id = .error .overflow :=
  Summary.insert_eq_error h.holds h.consistent.ascending hn v id

/-- What an insertion that answered leaves. -/
lemma Contains.of_insert (h : s.Contains t) {v : Measurement} {id : SampleId}
    (hs : s.insert v id = .ok s') :
    s.n.toNat + 1 < 2 ^ 64 ∧
      s.Becomes s' ⟨(inserted s.accuracy (s.n + 1) s.due v id t.data s.coin).1, s.n + 1⟩
        (if s.due then 0 else s.sinceSweep + 1)
        (inserted s.accuracy (s.n + 1) s.due v id t.data s.coin).2 := by
  by_cases hn : s.n.toNat + 1 < 2 ^ 64
  · obtain ⟨r, hr, hb⟩ := h.exists_insert hn v id
    cases hr.symm.trans hs
    exact ⟨hn, hb⟩
  · cases (h.insert_eq_error (Nat.not_lt.1 hn) v id).symm.trans hs

/-- A call answers, as long as the count fits a word. -/
lemma Contains.exists_apply (h : s.Contains t) (op : Op) (hn : s.n.toNat + op.added < 2 ^ 64) :
    ∃ s' t', s.apply op = .ok s' ∧ s'.Contains t' ∧ s'.accuracy = s.accuracy := by
  have hinsert : s.n.toNat + 1 < 2 ^ 64 → ∀ v id,
      ∃ s' t', s.insert v id = .ok s' ∧ s'.Contains t' ∧ s'.accuracy = s.accuracy := by
    intro hfits v id
    obtain ⟨s', hs, hb⟩ := h.exists_insert hfits v id
    exact ⟨s', _, hs, hb.contains, hb.accuracy⟩
  cases op with
  | insert value id => exact hinsert hn value id
  | update observation => exact hinsert hn observation.1 observation.2
  | add value => exact hinsert hn value s.n
  | compress =>
    obtain ⟨s', hs, hb⟩ := h.exists_compress
    exact ⟨s', _, hs, hb.contains, hb.accuracy⟩
  | clear => exact ⟨s.clear, _, rfl, contains_clear s, rfl⟩

/-- A call whose count does not fit a word fails. -/
lemma Contains.apply_eq_error (h : s.Contains t) (op : Op)
    (hn : 2 ^ 64 ≤ s.n.toNat + op.added) : s.apply op = .error .overflow := by
  have hlt := s.n.toNat_lt
  cases op with
  | insert value id => exact h.insert_eq_error hn value id
  | update observation => exact h.insert_eq_error hn observation.1 observation.2
  | add value => exact h.insert_eq_error hn value s.n
  | compress => exact absurd hlt (Nat.not_lt.2 hn)
  | clear => exact absurd hlt (Nat.not_lt.2 hn)

/-- A summary of another accuracy is refused, unless it is empty. -/
lemma merge_eq_refusal (hne : ¬ other.isEmpty) (hc : ¬ s.accuracy.compatible other.accuracy) :
    s.merge other =
      .error (.merge (.incompatible s.accuracy.describe other.accuracy.describe)) := by
  rw [merge, if_neg hne, if_pos (by simpa using hc)]

/-- A merge with what is not empty leaves all of it, compressed. -/
lemma Contains.exists_merge (h : s.Contains t) (ho : other.Contains t') (hne : ¬ other.isEmpty)
    (hc : s.accuracy.compatible other.accuracy) (hn : s.n.toNat + other.n.toNat < 2 ^ 64) :
    ∃ s', s.merge other = .ok s' ∧
      s.Becomes s' ⟨(compressed (s.accuracy.budget (s.n + other.n)) (merged t.data t'.data)
        s.coin).1, s.n + other.n⟩ s.sinceSweep
        (compressed (s.accuracy.budget (s.n + other.n)) (merged t.data t'.data) s.coin).2 := by
  have hmass : mass t.data + mass t'.data < 2 ^ 64 := by rwa [h.mass_eq, ho.mass_eq]
  obtain ⟨store, hs, hh⟩ := merge_eq_ok h.holds h.consistent.ascending ho.holds
    ho.consistent.ascending hne hc hmass hn
  have hmerged := h.consistent_n.merged ho.consistent_n hn
  exact ⟨_, hs, ⟨hh, rfl, hmerged.compressed _ _⟩, rfl, rfl, rfl, rfl⟩

/-- A merge has nothing to take in, or takes all of it, or is refused, unless the count does not fit
a word. -/
lemma Contains.merge_cases (h : s.Contains t) (ho : other.Contains t') :
    other.n = 0 ∧ s.merge other = .ok s ∨
      s.n.toNat + other.n.toNat < 2 ^ 64 ∧ (∃ s', s.merge other = .ok s' ∧
        s.Becomes s' ⟨(compressed (s.accuracy.budget (s.n + other.n)) (merged t.data t'.data)
          s.coin).1, s.n + other.n⟩ s.sinceSweep
          (compressed (s.accuracy.budget (s.n + other.n)) (merged t.data t'.data) s.coin).2) ∨
      (∃ e, s.merge other = .error (.merge e)) ∨
      2 ^ 64 ≤ s.n.toNat + other.n.toNat ∧ s.merge other = .error (.fault .overflow) := by
  by_cases hempty : other.isEmpty
  · exact .inl ⟨beq_iff_eq.1 hempty, merge_empty hempty⟩
  by_cases hc : s.accuracy.compatible other.accuracy
  · by_cases hn : s.n.toNat + other.n.toNat < 2 ^ 64
    · exact .inr (.inl ⟨hn, h.exists_merge ho hempty hc hn⟩)
    · have hfull := Nat.not_lt.1 hn
      exact .inr (.inr (.inr ⟨hfull, merge_eq_error hempty hc hfull⟩))
  · exact .inr (.inr (.inl ⟨_, merge_eq_refusal hempty hc⟩))

/-- A merge is refused, or it leaves a consistent summary, unless the count does not fit a word. -/
lemma Contains.settle_merge (h : s.Contains t) (ho : other.Contains t') :
    (∃ s' u, s.settle (s.merge other) = .ok s' ∧ s'.Contains u ∧ s'.accuracy = s.accuracy) ∨
      2 ^ 64 ≤ s.n.toNat + other.n.toNat ∧
        s.settle (s.merge other) = .error .overflow := by
  rcases h.merge_cases ho with ⟨-, hm⟩ | ⟨-, s', hm, hb⟩ | ⟨e, hm⟩ | ⟨hfull, hm⟩
  · rw [hm]
    exact .inl ⟨s, t, rfl, h, rfl⟩
  · rw [hm]
    exact .inl ⟨s', _, rfl, hb.contains, hb.accuracy⟩
  · rw [hm]
    exact .inl ⟨s, t, rfl, h, rfl⟩
  · rw [hm]
    exact .inr ⟨hfull, rfl⟩

/-- What a merge that answered leaves: what there was if there was nothing to take in, and else all
of it, compressed. -/
lemma Contains.of_merge (h : s.Contains t) (ho : other.Contains t') (hs : s.merge other = .ok s') :
    other.n = 0 ∧ s' = s ∨
      s.n.toNat + other.n.toNat < 2 ^ 64 ∧
        s.Becomes s' ⟨(compressed (s.accuracy.budget (s.n + other.n)) (merged t.data t'.data)
          s.coin).1, s.n + other.n⟩ s.sinceSweep
          (compressed (s.accuracy.budget (s.n + other.n)) (merged t.data t'.data) s.coin).2 := by
  rcases h.merge_cases ho with ⟨hzero, hm⟩ | ⟨hn, r, hm, hb⟩ | ⟨e, hm⟩ | ⟨-, hm⟩
  · cases hm.symm.trans hs
    exact .inl ⟨hzero, rfl⟩
  · cases hm.symm.trans hs
    exact .inr ⟨hn, hb⟩
  · cases hm.symm.trans hs
  · cases hm.symm.trans hs

end Coin

variable [LevelSource σ]

/-- A consistent snapshot takes the place of what was there, and the cadence starts over. -/
theorem restore_eq_ok (s : Summary σ κ) (ht : t.Consistent) :
    ∃ s', s.restore t = .ok s' ∧ s.Becomes s' t 0 s.coin := by
  have hempty : s.store.clear.Holds [] := (contains_clear s).holds
  obtain ⟨store, hs, hh⟩ := insertEntries_eq_ok hempty List.Pairwise.nil ht.ascending
  rw [merged, List.nil_merge] at hh
  have hload : s.load t = .ok { s with store, n := t.n, sinceSweep := 0 } := by
    unfold load
    rw [hs]
    rfl
  have hrestore : s.restore t = .ok { s with store, n := t.n, sinceSweep := 0 } := by
    unfold restore
    rw [Snapshot.check_eq_ok_iff.2 ht, hload]
    rfl
  exact ⟨_, hrestore, ⟨hh, rfl, ht⟩, rfl, rfl, rfl, rfl⟩

lemma exists_restore (s : Summary σ κ) (ht : t.Consistent) :
    ∃ s', s.restore t = .ok s' ∧ s'.Contains t ∧ s'.accuracy = s.accuracy := by
  obtain ⟨s', hs, hb⟩ := restore_eq_ok s ht
  exact ⟨s', hs, hb.contains, hb.accuracy⟩

/-- A restoration is refused as the check of the snapshot is. -/
lemma restore_of_check_eq_error (s : Summary σ κ) {c : Corruption} (h : t.check = .error c) :
    s.restore t = .error (.decode (.corrupted c)) := by
  unfold restore
  rw [h]
  rfl

theorem restore_eq_error (s : Summary σ κ) (ht : ¬ t.Consistent) :
    ∃ c, s.restore t = .error (.decode (.corrupted c)) := by
  cases hcheck : t.check with
  | ok => exact absurd (Snapshot.check_eq_ok_iff.1 hcheck) ht
  | error c => exact ⟨c, restore_of_check_eq_error s hcheck⟩

/-- What a restoration that answered leaves. -/
lemma of_restore (hs : s.restore t = .ok s') : s.Becomes s' t 0 s.coin := by
  by_cases ht : t.Consistent
  · obtain ⟨r, hr, hb⟩ := restore_eq_ok s ht
    cases hr.symm.trans hs
    exact hb
  · obtain ⟨c, hr⟩ := restore_eq_error s ht
    cases hr.symm.trans hs

/-- A restoration is refused, or it leaves the snapshot. -/
lemma Contains.settle_restore (h : s.Contains t) (u : Snapshot) :
    ∃ s' t', s.settle (s.restore u) = .ok s' ∧ s'.Contains t' ∧ s'.accuracy = s.accuracy := by
  by_cases hu : u.Consistent
  · obtain ⟨s', hs, hc, ha⟩ := exists_restore s hu
    exact ⟨s', u, by rw [hs]; rfl, hc, ha⟩
  · obtain ⟨c, hs⟩ := restore_eq_error s hu
    exact ⟨s, t, by rw [hs]; rfl, h, rfl⟩

section ofSnapshot

variable {a : Accuracy} (levels : σ) (coin : κ)

/-- A summary made from a snapshot is an empty one restored from it. -/
lemma ofSnapshot_eq (ha : a.valid) (t : Snapshot) :
    ∃ s : Summary σ κ, s.accuracy = a ∧ ofSnapshot a levels coin t = s.restore t := by
  obtain ⟨s, hs, -, he⟩ := exists_ofStore ha (.empty levels) coin
  have hempty : empty a levels coin = .ok s := hs
  refine ⟨s, he, ?_⟩
  unfold ofSnapshot
  rw [hempty, liftM_ok, ok_bind]

lemma exists_ofSnapshot (ha : a.valid) (ht : t.Consistent) :
    ∃ s, ofSnapshot a levels coin t = .ok s ∧ s.Contains t ∧ s.accuracy = a := by
  obtain ⟨s₀, rfl, hs₀⟩ := ofSnapshot_eq levels coin ha t
  rw [hs₀]
  exact exists_restore s₀ ht

lemma ofSnapshot_eq_error (ha : a.valid) (ht : ¬ t.Consistent) :
    ∃ c, ofSnapshot a levels coin t = .error (.decode (.corrupted c)) := by
  obtain ⟨s₀, -, hs₀⟩ := ofSnapshot_eq levels coin ha t
  rw [hs₀]
  exact restore_eq_error s₀ ht

variable {levels coin}

/-- A snapshot is refused only for what it says. -/
lemma ofSnapshot_eq_decode_error {e : DecodeError}
    (h : ofSnapshot a levels coin t = .error (.decode e)) : ∃ c, e = .corrupted c := by
  unfold ofSnapshot at h
  cases hempty : (empty a levels coin : Except Fault (Summary σ κ)) with
  | error f =>
    rw [hempty] at h
    cases h
  | ok s₀ =>
    rw [hempty, liftM_ok, ok_bind] at h
    by_cases ht : t.Consistent
    · obtain ⟨s, hs, -⟩ := restore_eq_ok s₀ ht
      cases hs.symm.trans h
    · obtain ⟨c, hs⟩ := restore_eq_error s₀ ht
      cases hs.symm.trans h
      exact ⟨c, rfl⟩

/-- A summary is made from a snapshot only to a valid accuracy, and contains it. -/
lemma ofSnapshot_eq_ok (h : ofSnapshot a levels coin t = .ok s) :
    a.valid ∧ s.Contains t ∧ s.accuracy = a := by
  obtain ⟨s₀, hempty, hrestore⟩ := exists_of_bind_eq_ok h
  obtain ⟨ha, -, rfl⟩ := ofStore_eq_ok (liftM_eq_ok hempty)
  have hb := of_restore hrestore
  exact ⟨ha, hb.contains, hb.accuracy⟩

/-- A summary made of the snapshot of another contains the same. -/
lemma Contains.of_reload {r : Summary σ κ} (h : s.Contains t) (ht : s.snapshot = .ok t')
    (hr : ofSnapshot a levels coin t' = .ok r) : r.Contains t ∧ r.accuracy = a := by
  cases h.snapshot.symm.trans ht
  exact (ofSnapshot_eq_ok hr).2

end ofSnapshot

end Summary
end StreamQuantiles
