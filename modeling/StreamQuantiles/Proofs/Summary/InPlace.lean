import StreamQuantiles.Proofs.Summary.Contents

/-! Merges and restorations change a summary in place. What they refuse is refused before the first
step that changes anything, and no step after it fails. So a call that is refused leaves the summary
as it was, and a restoration that is not leaves exactly the snapshot. -/
namespace StreamQuantiles
namespace Summary

variable {σ κ σ' κ' : Type} {s s' : Summary σ κ} {other : Summary σ' κ'} {t : Snapshot}

namespace InPlace

variable {α β : Type} {steps : InPlace σ κ α} {next : α → InPlace σ κ β} {a : α} {e : Error}

/-- Steps after one that answered go on from what it left. -/
lemma on_bind_of_ok (h : steps.on s = (.ok a, s')) : (steps >>= next).on s = (next a).on s' := by
  unfold on at h ⊢
  rw [ExceptT.run_bind, StateT.run_bind, h]
  rfl

/-- Steps after one that failed are not taken. -/
lemma on_bind_of_error (h : steps.on s = (.error e, s')) :
    (steps >>= next).on s = (.error e, s') := by
  unfold on at h ⊢
  rw [ExceptT.run_bind, StateT.run_bind, h]
  rfl

lemma on_liftM (x : Except Error α) : on (liftM x) s = (x, s) := rfl

lemma on_liftM_ok (a : α) : on (liftM (Except.ok a : Except Fault α)) s = (.ok a, s) := rfl

lemma on_pure (a : α) : on (pure a) s = (.ok a, s) := rfl

lemma on_throw (e : Error) : on (throw e : InPlace σ κ α) s = (.error e, s) := rfl

lemma on_get : on get s = (.ok s, s) := rfl

lemma on_set (s' : Summary σ κ) : on (set s') s = (.ok ⟨⟩, s') := rfl

lemma on_modify (f : Summary σ κ → Summary σ κ) : on (modify f) s = (.ok (), f s) := rfl

end InPlace

open InPlace

variable [LevelSource σ]

lemma on_inserting {e : Entry} {r : Handle × Skiplist Entry σ} (h : s.store.insert e = .ok r) :
    (inserting e).on s = (.ok (), { s with store := r.2 }) := by
  change InPlace.on (do
    let r ← (s.store.insert e : InPlace σ κ _)
    set { s with store := r.2 }) s = _
  rw [h]
  rfl

/-- Entries that the store takes together it takes one after another. -/
lemma on_forM_inserting {es : List Entry} {store store' : Skiplist Entry σ}
    (h : insertEntries store es = .ok store') :
    (es.forM inserting).on { s with store } = (.ok (), { s with store := store' }) := by
  induction es generalizing store with
  | nil =>
    cases h
    rfl
  | cons e es ih =>
    obtain ⟨store₁, hfirst, hrest⟩ := exists_of_bind_eq_ok h
    obtain ⟨r, hinsert, hr⟩ := exists_of_bind_eq_ok hfirst
    cases hr
    exact (on_bind_of_ok (on_inserting hinsert)).trans (ih hrest)

section Merge

variable [Coin κ]

/-- A merge with what is empty takes no step. -/
lemma on_merging_of_isEmpty (h : other.isEmpty) : (merging other).on s = (.ok (), s) := by
  unfold merging
  rw [on_bind_of_ok on_get, if_pos h, on_pure]

/-- A merge across accuracies is refused before its first step. -/
lemma on_merging_of_not_compatible (hne : ¬ other.isEmpty)
    (hc : ¬ s.accuracy.compatible other.accuracy) :
    (merging other).on s =
      (.error (.merge (.incompatible s.accuracy.describe other.accuracy.describe)), s) := by
  unfold merging
  rw [on_bind_of_ok on_get, if_neg hne, if_pos (by simpa using hc), on_throw]

/-- A merge that answers takes each of its steps. -/
lemma on_merging_of_ok (h : s.merge other = .ok s') : (merging other).on s = (.ok (), s') := by
  unfold merge at h
  split at h
  · next hempty =>
    cases h
    exact on_merging_of_isEmpty hempty
  · next hne =>
    split at h
    · cases h
    · next hc =>
      obtain ⟨n, hn, h⟩ := exists_of_bind_eq_ok h
      obtain ⟨es, hes, h⟩ := exists_of_bind_eq_ok h
      obtain ⟨store, hstore, h⟩ := exists_of_bind_eq_ok h
      have hloop := on_forM_inserting (s := { s with n }) (liftM_eq_ok hstore)
      unfold merging
      rw [on_bind_of_ok on_get, if_neg hne, if_neg hc, liftM_eq_ok hn, liftM_eq_ok hes,
        on_bind_of_ok (on_liftM_ok _), on_bind_of_ok (on_modify _), on_bind_of_ok (on_liftM_ok _),
        on_bind_of_ok hloop, on_bind_of_ok on_get, liftM_eq_ok h, on_bind_of_ok (on_liftM_ok _),
        on_set]

end Merge

/-- A restoration that answers takes each of its steps. -/
lemma on_restoring_of_ok (h : s.restore t = .ok s') : (restoring t).on s = (.ok (), s') := by
  obtain ⟨⟨⟩, hcheck, hload⟩ := exists_of_bind_eq_ok h
  obtain ⟨store, hstore, hs'⟩ := exists_of_bind_eq_ok (liftM_eq_ok hload)
  cases hs'
  unfold restoring
  rw [hcheck, on_bind_of_ok (on_liftM _), on_bind_of_ok (on_modify _),
    on_bind_of_ok (on_forM_inserting hstore), on_modify]

/-- A restoration whose check fails has changed nothing by then. -/
lemma on_restoring_of_check_eq_error {c : Corruption} (h : t.check = .error c) :
    (restoring t).on s = (.error (.decode (.corrupted c)), s) := by
  unfold restoring
  rw [h]
  exact on_bind_of_error (on_liftM _)

/-- A restoration answers exactly for a consistent snapshot. Then the summary hands out that very
snapshot and the cadence starts over, and the accuracy, the period and the coins are as they were.
Otherwise the check has refused the snapshot, and the summary is as it was. -/
theorem restore_exact_or_unchanged (s : Summary σ κ) (t : Snapshot) :
    ∃ outcome s', (restoring t).on s = (outcome, s') ∧
      s.restore t = outcome.map (fun _ => s') ∧
      (outcome = .ok () ↔ t.Consistent) ∧
      (outcome = .ok () → s'.snapshot = .ok t ∧ s'.sinceSweep = 0 ∧
        s'.accuracy = s.accuracy ∧ s'.period = s.period ∧ s'.coin = s.coin) ∧
      ∀ e, outcome = .error e → s' = s ∧ ∃ c, t.check = .error c ∧ e = .decode (.corrupted c) := by
  by_cases ht : t.Consistent
  · obtain ⟨s', hs, hb⟩ := restore_eq_ok s ht
    refine ⟨.ok (), s', on_restoring_of_ok hs, hs, iff_of_true rfl ht, fun _ => ?_, fun e he => ?_⟩
    · exact ⟨hb.contains.snapshot, hb.sinceSweep, hb.accuracy, hb.period, hb.coin⟩
    · cases he
  · cases hcheck : t.check with
    | ok => exact absurd (Snapshot.check_eq_ok_iff.1 hcheck) ht
    | error c =>
      refine ⟨_, s, on_restoring_of_check_eq_error hcheck, restore_of_check_eq_error s hcheck,
        iff_of_false (fun h => ?_) ht, fun h => ?_, fun e he => ?_⟩
      · cases h
      · cases h
      · cases he
        exact ⟨rfl, c, rfl, rfl⟩

end Summary
end StreamQuantiles
