import StreamQuantiles.Proofs.Quantile
import StreamQuantiles.Proofs.Summary.Payload
import StreamQuantiles.Summary.Query

/-! The summaries that calls can lead to: from an empty one, a snapshot or a payload, by calls,
merges and restorations, refused ones among them. All of them contain a consistent snapshot, so each
of them can be restored from what it hands out. -/
namespace StreamQuantiles

namespace Summary

variable {σ κ σ' κ' : Type} {s s' : Summary σ κ} {r : Summary σ' κ'} {t : Snapshot}

lemma Contains.query_eq (h : s.Contains t) (q : Float) :
    s.query q = .ok ((Quantile.entry? s.accuracy s.n q t.data).map Entry.estimate) := by
  unfold query
  rw [h.entries]
  rfl

lemma Contains.slices_eq (h : s.Contains t) (most : Nat) :
    s.slices most = .ok (Quantile.slices most t.data) := by
  unfold slices
  rw [h.entries]
  rfl

lemma Contains.representatives_eq (h : s.Contains t) (k : Nat) :
    s.representatives k = .ok (Quantile.representatives s.accuracy s.n k t.data) := by
  unfold representatives
  rw [h.entries]
  rfl

/-- A quantile that is a number has an answer exactly when there are entries. -/
lemma Contains.query_eq_none_iff (h : s.Contains t) {q : Float} (hq : q.isNaN = false) :
    s.query q = .ok none ↔ t.data = [] := by
  rw [h.query_eq, Except.ok.injEq, Option.map_eq_none_iff, Quantile.entry?_eq_none_iff hq]

/-- Summaries of one accuracy that contain the same answer alike. -/
lemma Contains.answers_eq (h : s.Contains t) (h' : r.Contains t) (ha : r.accuracy = s.accuracy) :
    (∀ q, r.query q = s.query q) ∧ (∀ v, r.rank v = s.rank v) ∧
      ∀ most, r.slices most = s.slices most := by
  have hn : r.n = s.n := h'.count.trans h.count.symm
  refine ⟨?_, ?_, ?_⟩
  · intro q
    rw [h'.query_eq, h.query_eq, ha, hn]
  · intro v
    unfold rank isEmpty
    rw [h'.entries, h.entries, hn]
  · intro most
    rw [h'.slices_eq, h.slices_eq]

/-- The entries `es` and all that is said of them and of their number agree. -/
structure Coherent (s : Summary σ κ) (es : List Entry) : Prop where
  entries : s.entries = .ok es
  snapshot : s.snapshot = .ok ⟨es, s.n⟩
  consistent : Snapshot.Consistent ⟨es, s.n⟩
  checked : Snapshot.check ⟨es, s.n⟩ = .ok ()
  size : s.size = es.length
  n_eq_zero_iff : s.n = 0 ↔ es = []
  /-- There is nothing to answer with exactly when there are no entries. -/
  eq_nil_iff : es = [] ↔ ∀ q : Float, q.isNaN = false → s.query q = .ok none
  answers : ∀ q : Float, q.isNaN = false → es ≠ [] → ∃ answer, s.query q = .ok (some answer)

lemma Contains.coherent (h : s.Contains t) : s.Coherent t.data where
  entries := h.entries
  snapshot := by rw [h.snapshot, h.count]
  consistent := h.consistent_n
  checked := Snapshot.check_eq_ok_iff.2 h.consistent_n
  size := h.size
  n_eq_zero_iff := h.n_eq_zero_iff
  eq_nil_iff := by
    constructor
    · intro hnil q hq
      exact (h.query_eq_none_iff hq).2 hnil
    · intro hnone
      exact (h.query_eq_none_iff (by decide +kernel)).1 (hnone 0.5 (by decide +kernel))
  answers := by
    intro q hq hne
    cases he : Quantile.entry? s.accuracy s.n q t.data with
    | none => exact absurd ((Quantile.entry?_eq_none_iff hq).1 he) hne
    | some e => exact ⟨e.estimate, by rw [h.query_eq, he]; rfl⟩

variable [LevelSource σ] [Coin κ]

/-- What calls can lead to. One that is refused leads on from where it was, and one that faults
leads nowhere. -/
inductive Reachable : Summary σ κ → Prop
  | fresh {a : Accuracy} {store : Skiplist Entry σ} {coin : κ} {s : Summary σ κ} :
      ofStore a store coin = .ok s → Reachable s
  | loaded {a : Accuracy} {levels : σ} {coin : κ} {t : Snapshot} {s : Summary σ κ} :
      ofSnapshot a levels coin t = .ok s → Reachable s
  | decoded {a : Accuracy} {levels : σ} {coin : κ} {bytes : List UInt8} {s : Summary σ κ} :
      ofBytes a levels coin bytes = .ok s → Reachable s
  | call {s s' : Summary σ κ} {op : Op} : Reachable s → s.apply op = .ok s' → Reachable s'
  | merge {s other s' : Summary σ κ} :
      Reachable s → Reachable other → s.settle (s.merge other) = .ok s' → Reachable s'
  | restore {s s' : Summary σ κ} {t : Snapshot} :
      Reachable s → s.settle (s.restore t) = .ok s' → Reachable s'

lemma Reachable.exists_contains (hr : Reachable s) : s.accuracy.valid ∧ ∃ t, s.Contains t := by
  induction hr with
  | fresh h =>
    obtain ⟨ha, hc, rfl⟩ := ofStore_eq_ok h
    exact ⟨ha, _, hc⟩
  | loaded h =>
    obtain ⟨ha, hc, rfl⟩ := ofSnapshot_eq_ok h
    exact ⟨ha, _, hc⟩
  | decoded h =>
    obtain ⟨t, -, ha, hc, rfl⟩ := ofBytes_eq_ok h
    exact ⟨ha, t, hc⟩
  | @call s s' op _ h ih =>
    obtain ⟨ha, t, hc⟩ := ih
    by_cases hn : s.n.toNat + op.added < 2 ^ 64
    · obtain ⟨s₁, t₁, hs, hc₁, he⟩ := hc.exists_apply op hn
      cases hs.symm.trans h
      exact ⟨he ▸ ha, t₁, hc₁⟩
    · cases (hc.apply_eq_error op (Nat.not_lt.1 hn)).symm.trans h
  | merge _ _ h ih ih' =>
    obtain ⟨ha, t, hc⟩ := ih
    obtain ⟨-, t', hc'⟩ := ih'
    rcases hc.settle_merge hc' with ⟨s₁, t₁, hs, hc₁, he⟩ | ⟨-, hs⟩
    · cases hs.symm.trans h
      exact ⟨he ▸ ha, t₁, hc₁⟩
    · cases hs.symm.trans h
  | @restore _ _ t _ h ih =>
    obtain ⟨ha, t₀, hc⟩ := ih
    obtain ⟨s₁, t₁, hs, hc₁, he⟩ := hc.settle_restore t
    cases hs.symm.trans h
    exact ⟨he ▸ ha, t₁, hc₁⟩

lemma Reachable.of_run {ops : List Op} (hr : Reachable s) (h : s.run ops = .ok s') :
    Reachable s' := by
  induction ops generalizing s with
  | nil =>
    cases h
    exact hr
  | cons op ops ih =>
    obtain ⟨s₁, hs, hrest⟩ := exists_of_bind_eq_ok (x := s.apply op) h
    exact ih (hr.call hs) hrest

/-- Calls on an empty summary lead to the observations gathered. -/
lemma exists_reachable {a : Accuracy} (ha : a.valid) (store : Skiplist Entry σ) (coin : κ)
    (ops : List Op) (hfits : ∀ k, (gathered (ops.take k)).card < 2 ^ 64) :
    ∃ s, (ofStore a store coin >>= run ops) = .ok s ∧ Reachable s ∧
      s.n.toNat = (gathered ops).card := by
  obtain ⟨s, hs, ⟨_, _, _, hn, _⟩, _⟩ := exists_run_ofStore ha store coin hfits
  obtain ⟨s₀, hs₀, hrun⟩ := exists_of_bind_eq_ok hs
  exact ⟨s, hs, (Reachable.fresh hs₀).of_run hrun, hn⟩

/-- Calls go on to answer, or are refused, as long as the count fits a word. -/
structure Proceeds (s : Summary σ κ) : Prop where
  apply : ∀ op : Op, s.n.toNat + op.added < 2 ^ 64 → ∃ s', s.apply op = .ok s'
  merge : ∀ other : Summary σ κ, Reachable other → s.n.toNat + other.n.toNat < 2 ^ 64 →
    ∃ s', s.settle (s.merge other) = .ok s'
  restore : ∀ t, ∃ s', s.settle (s.restore t) = .ok s'

lemma Contains.proceeds (h : s.Contains t) : s.Proceeds where
  apply := by
    intro op hn
    obtain ⟨s', -, hs, -⟩ := h.exists_apply op hn
    exact ⟨s', hs⟩
  merge := by
    intro other hr hn
    obtain ⟨-, t', hc⟩ := hr.exists_contains
    rcases h.settle_merge hc with ⟨s', -, hs, -⟩ | ⟨hfull, -⟩
    · exact ⟨s', hs⟩
    · exact absurd hn (Nat.not_lt.2 hfull)
  restore := by
    intro u
    obtain ⟨s', -, hs, -⟩ := h.settle_restore u
    exact ⟨s', hs⟩

/-- What a summary contains that calls can lead to is consistent, and passes the check of a
snapshot. It is empty exactly when no quantile has an answer. Calls go on to answer as long as the
count fits a word. -/
theorem Reachable.consistent (hr : Reachable s) : (∃ es, s.Coherent es) ∧ s.Proceeds := by
  obtain ⟨-, t, hc⟩ := hr.exists_contains
  exact ⟨⟨t.data, hc.coherent⟩, hc.proceeds⟩

/-- A refused restoration and a merge with itself, after ties, a clearing and compressions. -/
theorem Reachable.consistent_cyclic :
    ∃ s s₁ s₂ : Summary CyclicLevels CyclicBits,
      (ofStore ⟨0.25⟩ (Skiplist.empty ⟨[40, 0, 3], 0⟩ : Skiplist Entry CyclicLevels)
        (⟨[true, false], 0⟩ : CyclicBits) >>=
        run [.insert 9 0, .clear, .insert 5 1, .add 3, .update (5, 2), .compress, .add 7]) = .ok s ∧
      s.settle (s.restore ⟨[⟨2, 1, 0, []⟩, ⟨1, 0, 0, []⟩], 1⟩) = .ok s₁ ∧
      s₁.settle (s₁.merge s) = .ok s₂ ∧
      ∃ es, s₂.entries = .ok es ∧ Snapshot.Consistent ⟨es, s₂.n⟩ ∧ s₂.size = es.length := by
  obtain ⟨s, hs, hr, hn⟩ := exists_reachable (a := ⟨0.25⟩) (by decide +kernel)
    (Skiplist.empty ⟨[40, 0, 3], 0⟩ : Skiplist Entry CyclicLevels)
    (⟨[true, false], 0⟩ : CyclicBits)
    [.insert 9 0, .clear, .insert 5 1, .add 3, .update (5, 2), .compress, .add 7]
    (card_gathered_lt (by decide))
  obtain ⟨c, hrefused⟩ := restore_eq_error s (t := ⟨[⟨2, 1, 0, []⟩, ⟨1, 0, 0, []⟩], 1⟩) (by decide)
  have hfour : s.n.toNat = 4 := hn
  obtain ⟨-, hproceeds⟩ := hr.consistent
  obtain ⟨s₂, hs₂⟩ := hproceeds.merge s hr (by omega)
  obtain ⟨⟨es, hcoherent⟩, -⟩ := (hr.merge hr hs₂).consistent
  exact ⟨s, s, s₂, hs, by rw [hrefused]; rfl, hs₂, es, hcoherent.entries, hcoherent.consistent,
    hcoherent.size⟩

/-- The bytes of a summary make one that contains the same, to any accuracy, exactly when every
number of samples fits its field. To the accuracy of the summary it answers alike. -/
theorem Reachable.roundTrip [LevelSource σ'] (hr : Reachable s) (levels : σ') (coin : κ') :
    ∃ bytes es, s.toBytes = .ok bytes ∧ s.entries = .ok es ∧
      (∀ a : Accuracy, a.valid →
        ((∃ r, ofBytes a levels coin bytes = .ok r ∧ r.accuracy = a ∧
            r.snapshot = s.snapshot) ↔
          ∀ e ∈ es, e.samples.length < 2 ^ 32)) ∧
      ((∀ e ∈ es, e.samples.length < 2 ^ 32) →
        ∃ r, ofBytes s.accuracy levels coin bytes = .ok r ∧
          (∀ q, r.query q = s.query q) ∧ (∀ v, r.rank v = s.rank v) ∧
          ∀ most, r.slices most = s.slices most) := by
  obtain ⟨hvalid, t, hc⟩ := hr.exists_contains
  refine ⟨Wire.encode t, t.data, hc.toBytes, hc.entries, ?_, ?_⟩
  · intro a ha
    constructor
    · rintro ⟨r, hs, -, hsame⟩
      obtain ⟨t', hw, -, hc', -⟩ := ofBytes_eq_ok hs
      obtain rfl := hc.eq_of_snapshot_eq hc' hsame
      exact hc.written_iff.1 hw
    · intro hsamples
      obtain ⟨r, hs, hc', he⟩ :=
        exists_ofBytes ha levels coin (hc.written_iff.2 hsamples) hc.consistent
      exact ⟨r, hs, he, hc'.snapshot.trans hc.snapshot.symm⟩
  · intro hsamples
    obtain ⟨r, hs, hc', he⟩ :=
      exists_ofBytes hvalid levels coin (hc.written_iff.2 hsamples) hc.consistent
    exact ⟨r, hs, hc.answers_eq hc' he⟩

/-- Equal values keep their order, whatever levels they are given. -/
theorem Reachable.roundTrip_ties :
    ∃ (s : Summary CyclicLevels CyclicBits) (bytes : List UInt8) (r : Summary LevelRule Xoshiro),
      ofSnapshot ⟨0.25⟩ ⟨[40, 0], 0⟩ ⟨[true], 0⟩ ⟨[⟨-5, 1, 0, [9, 2]⟩, ⟨-5, 2, 3, []⟩], 3⟩ = .ok s ∧
      s.toBytes = .ok bytes ∧
      ofBytes ⟨0.125⟩ (LevelRule.seeded 7) (Xoshiro.ofSeed 7) bytes = .ok r ∧
      r.accuracy = ⟨0.125⟩ ∧
      r.snapshot = .ok ⟨[⟨-5, 1, 0, [9, 2]⟩, ⟨-5, 2, 3, []⟩], 3⟩ := by
  obtain ⟨s, hs, hc, -⟩ := exists_ofSnapshot (a := ⟨0.25⟩)
    (t := ⟨[⟨-5, 1, 0, [9, 2]⟩, ⟨-5, 2, 3, []⟩], 3⟩)
    (⟨[40, 0], 0⟩ : CyclicLevels) (⟨[true], 0⟩ : CyclicBits) (by decide +kernel) (by decide)
  obtain ⟨bytes, es, hbytes, hes, hread, -⟩ :=
    (Reachable.loaded hs).roundTrip (LevelRule.seeded 7) (Xoshiro.ofSeed 7)
  obtain rfl := Except.ok.inj (hc.entries.symm.trans hes)
  obtain ⟨r, hr, ha, hsame⟩ := (hread ⟨0.125⟩ (by decide +kernel)).2 (by decide)
  exact ⟨s, bytes, r, hs, hbytes, hr, ha, hsame.trans hc.snapshot⟩

end Summary
end StreamQuantiles
