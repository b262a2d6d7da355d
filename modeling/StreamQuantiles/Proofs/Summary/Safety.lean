import StreamQuantiles.Proofs.Summary.Cumulative
import StreamQuantiles.Proofs.Summary.Reachable

/-! No call faults on a summary that calls can lead to: every handle followed is that of an element,
every count fits a word, and no difference falls below zero. That holds of snapshots too whose
weights and counts are near the largest word. -/
namespace StreamQuantiles

open Entries

lemma Accuracy.period_pos (a : Accuracy) : 0 < a.period.toNat := by
  change 0 < (if roundUp (1.0 / (2.0 * a.epsilon)) ≤ 1 then 1 else _ : Count).toNat
  split
  · decide
  · next h => exact Nat.zero_lt_of_lt (UInt64.lt_iff_toNat_lt.1 (UInt64.not_le.1 h))

namespace Summary

variable {σ κ σ' κ' : Type} {s s' : Summary σ κ} {other : Summary σ' κ'} {t u : Snapshot}

lemma Contains.exists_rank (h : s.Contains t) (v : Measurement) : ∃ r, s.rank v = .ok r := by
  unfold rank
  split
  · exact ⟨_, rfl⟩
  · obtain ⟨below, hb⟩ := Quantile.exists_weightUpTo (h.mass_eq ▸ s.n.toNat_lt) v
    rw [h.entries, ok_bind, hb]
    exact ⟨_, rfl⟩

/-- The fields of a summary fill the buffer laid out for them, to its end. -/
lemma Contains.exists_filled (h : s.Contains t) :
    ∃ b, (Wire.headerFields s.n s.size ++ t.data.flatMap Wire.entryFields).foldlM Wire.Buffer.put
        (.zeros (Wire.headerLength + s.size * Wire.entryLength +
          (t.data.map (·.samples.length)).sum * 8)) = .ok b ∧
      b.written.size = b.total ∧ s.toBytes = .ok b.bytes := by
  have htotal := Wire.length_encode t
  rw [← Wire.flatten_fields, Nat.mul_comm Wire.entryLength, Nat.mul_comm 8] at htotal
  obtain ⟨b, hput, hfull, hbytes⟩ := Wire.Buffer.exists_put htotal
  rw [h.size, h.count]
  refine ⟨b, hput, hfull, ?_⟩
  rw [h.toBytes, hbytes, Wire.flatten_fields]

/-- The inserts since the last sweep are fewer than those that set one off, so they fit a word. -/
def Paced (s : Summary σ κ) : Prop := s.sinceSweep < s.period.toNat

lemma paced_ofStore {a : Accuracy} {store : Skiplist Entry σ} {coin : κ}
    (h : ofStore a store coin = .ok s) : s.Paced := by
  obtain ⟨⟨⟩, -, h⟩ := exists_of_bind_eq_ok h
  cases h
  exact a.period_pos

lemma Becomes.paced {since : Nat} {coin : κ} (hb : s.Becomes s' t since coin)
    (hsince : since < s.period.toNat) : s'.Paced := by
  rw [Paced, hb.sinceSweep, hb.period]
  exact hsince

section Coin

variable [LevelSource σ] [Coin κ]

lemma Contains.paced_insert (h : s.Contains t) (hp : s.Paced) {v : Measurement} {id : SampleId}
    (hs : s.insert v id = .ok s') : s'.Paced := by
  obtain ⟨-, hb⟩ := h.of_insert hs
  refine hb.paced ?_
  split
  · exact Nat.zero_lt_of_lt hp
  · next hd => simpa [due] using hd

lemma Contains.paced_apply (h : s.Contains t) (hp : s.Paced) {op : Op}
    (hs : s.apply op = .ok s') : s'.Paced := by
  cases op with
  | insert value id => exact h.paced_insert hp hs
  | update observation => exact h.paced_insert hp hs
  | add value => exact h.paced_insert hp hs
  | compress => exact (h.of_compress hs).paced hp
  | clear =>
    cases hs
    exact Nat.zero_lt_of_lt hp

lemma Contains.paced_merge (h : s.Contains t) (ho : other.Contains u) (hp : s.Paced)
    (hs : s.settle (s.merge other) = .ok s') : s'.Paced := by
  rcases ok_or_eq_of_settle hs with hs | rfl
  · rcases h.of_merge ho hs with ⟨-, rfl⟩ | ⟨-, hb⟩
    · exact hp
    · exact hb.paced hp
  · exact hp

end Coin

variable [LevelSource σ]

lemma exists_restore_or_refused (s : Summary σ κ) (t : Snapshot) :
    (∃ s', s.restore t = .ok s' ∧ s'.n = t.n) ∨ ∃ e, s.restore t = .error (.decode e) := by
  by_cases ht : t.Consistent
  · obtain ⟨s', hs, hb⟩ := restore_eq_ok s ht
    exact .inl ⟨s', hs, hb.contains.count⟩
  · obtain ⟨c, hs⟩ := restore_eq_error s ht
    exact .inr ⟨_, hs⟩

lemma paced_restore (hp : s.Paced) (hs : s.settle (s.restore t) = .ok s') : s'.Paced := by
  rcases ok_or_eq_of_settle hs with hs | rfl
  · exact (of_restore hs).paced (Nat.zero_lt_of_lt hp)
  · exact hp

lemma paced_ofSnapshot {a : Accuracy} {levels : σ} {coin : κ}
    (h : ofSnapshot a levels coin t = .ok s) : s.Paced := by
  obtain ⟨s₀, hempty, hrestore⟩ := exists_of_bind_eq_ok h
  have hp := paced_ofStore (liftM_eq_ok hempty)
  exact (of_restore hrestore).paced (Nat.zero_lt_of_lt hp)

variable [Coin κ]

lemma Reachable.paced (hr : Reachable s) : s.Paced := by
  induction hr with
  | fresh h => exact paced_ofStore h
  | loaded h => exact paced_ofSnapshot h
  | decoded h =>
    obtain ⟨t, -, hs⟩ := exists_of_bind_eq_ok h
    exact paced_ofSnapshot hs
  | call hr h ih =>
    obtain ⟨-, t, hc⟩ := hr.exists_contains
    exact hc.paced_apply ih h
  | merge hr ho h ih _ =>
    obtain ⟨-, t, hc⟩ := hr.exists_contains
    obtain ⟨-, u, hc'⟩ := ho.exists_contains
    exact hc.paced_merge hc' ih h
  | restore _ h ih => exact paced_restore ih h

/-- Every call answers, or is refused for what it was given, as long as the count fits a word. -/
structure Faultless (s : Summary σ κ) : Prop where
  insert : s.n.toNat + 1 < 2 ^ 64 →
    ∀ v id, ∃ s', s.insert v id = .ok s' ∧ s'.n.toNat = s.n.toNat + 1
  add : s.n.toNat + 1 < 2 ^ 64 → ∀ v, ∃ s', s.add v = .ok s'
  update : s.n.toNat + 1 < 2 ^ 64 → ∀ o, ∃ s', s.update o = .ok s'
  merge : ∀ other : Summary σ κ, Reachable other → s.n.toNat + other.n.toNat < 2 ^ 64 →
    (∃ s', s.merge other = .ok s' ∧ s'.n.toNat = s.n.toNat + other.n.toNat) ∨
      ∃ e, s.merge other = .error (.merge e)
  compress : ∃ s', s.compress = .ok s' ∧ s'.n = s.n
  restore : ∀ t, (∃ s', s.restore t = .ok s' ∧ s'.n = t.n) ∨ ∃ e, s.restore t = .error (.decode e)
  clear : s.clear.entries = .ok []
  query : ∀ q, ∃ answer, s.query q = .ok answer
  rank : ∀ v, ∃ fraction, s.rank v = .ok fraction
  minimum : ∃ low, s.minimum = .ok low
  maximum : ∃ high, s.maximum = .ok high
  slices : ∀ most, ∃ slices, s.slices most = .ok slices
  representatives : ∀ k, ∃ ids, s.representatives k = .ok ids
  snapshot : ∃ t, s.snapshot = .ok t
  /-- What is written fills its buffer to the end. -/
  toBytes : ∃ es b, s.entries = .ok es ∧
    (Wire.headerFields s.n s.size ++ es.flatMap Wire.entryFields).foldlM Wire.Buffer.put
      (.zeros (Wire.headerLength + s.size * Wire.entryLength +
        (es.map (·.samples.length)).sum * 8)) = .ok b ∧
    b.written.size = b.total ∧ s.toBytes = .ok b.bytes
  paced : s.sinceSweep < s.period.toNat

lemma Contains.exists_insert_n (h : s.Contains t) (hn : s.n.toNat + 1 < 2 ^ 64) (v : Measurement)
    (id : SampleId) : ∃ s', s.insert v id = .ok s' ∧ s'.n.toNat = s.n.toNat + 1 := by
  obtain ⟨s', hs, hb⟩ := h.exists_insert hn v id
  exact ⟨s', hs, by rw [hb.contains.count, Count.toNat_add_of_lt hn]; rfl⟩

lemma Contains.exists_merge_or_refused (h : s.Contains t) (ho : other.Contains u)
    (hn : s.n.toNat + other.n.toNat < 2 ^ 64) :
    (∃ s', s.merge other = .ok s' ∧ s'.n.toNat = s.n.toNat + other.n.toNat) ∨
      ∃ e, s.merge other = .error (.merge e) := by
  rcases h.merge_cases ho with ⟨hzero, hm⟩ | ⟨-, s', hm, hb⟩ | hm | ⟨hfull, -⟩
  · exact .inl ⟨s, hm, by rw [hzero]; rfl⟩
  · exact .inl ⟨s', hm, by rw [hb.contains.count, Count.toNat_add_of_lt hn]⟩
  · exact .inr hm
  · exact absurd hn (Nat.not_lt.2 hfull)

/-- Every call on a summary that calls can lead to answers, or is refused for what it was given, as
long as the count fits a word. What is written of it fills its buffer to the end, and the inserts
since the last sweep stay below the period. -/
theorem Reachable.faultless (hr : Reachable s) : s.Faultless := by
  obtain ⟨-, t, hc⟩ := hr.exists_contains
  exact
    { insert := hc.exists_insert_n
      add := by
        intro hn v
        obtain ⟨s', hs, -⟩ := hc.exists_insert_n hn v s.n
        exact ⟨s', hs⟩
      update := by
        intro hn o
        obtain ⟨s', hs, -⟩ := hc.exists_insert_n hn o.1 o.2
        exact ⟨s', hs⟩
      merge := by
        intro other ho hn
        obtain ⟨-, u, hc'⟩ := ho.exists_contains
        exact hc.exists_merge_or_refused hc' hn
      compress := by
        obtain ⟨s', hs, hb⟩ := hc.exists_compress
        exact ⟨s', hs, hb.contains.count.trans hc.count.symm⟩
      restore := exists_restore_or_refused s
      clear := (contains_clear s).entries
      query := fun q => ⟨_, hc.query_eq q⟩
      rank := hc.exists_rank
      minimum := ⟨_, hc.minimum⟩
      maximum := ⟨_, hc.maximum⟩
      slices := fun most => ⟨_, hc.slices_eq most⟩
      representatives := fun k => ⟨_, hc.representatives_eq k⟩
      snapshot := ⟨t, hc.snapshot⟩
      toBytes := by
        obtain ⟨b, hb⟩ := hc.exists_filled
        exact ⟨t.data, b, hc.entries, hb⟩
      paced := hr.paced }

/-- Weights and uncertainties one short of the largest word, of which the last observation makes the
largest. -/
theorem Reachable.faultless_largest :
    ∃ s s₁ s₂ : Summary CyclicLevels CyclicBits,
      ofSnapshot ⟨0.25⟩ ⟨[40, 0], 0⟩ ⟨[true], 0⟩ ⟨[⟨-5, 1, 0xFFFFFFFFFFFFFFFE, [9, 2]⟩,
        ⟨-5, 0xFFFFFFFFFFFFFFFD, 3, []⟩], 0xFFFFFFFFFFFFFFFE⟩ = .ok s ∧
      s.insert (-5) 1 = .ok s₁ ∧ s₁.n = Count.largest ∧
      s₁.compress = .ok s₂ ∧ s₂.n = Count.largest ∧
      ∃ fraction bytes, s₂.rank 0 = .ok fraction ∧ s₂.toBytes = .ok bytes := by
  obtain ⟨s, hs, hc, -⟩ := exists_ofSnapshot (a := ⟨0.25⟩)
    (t := ⟨[⟨-5, 1, 0xFFFFFFFFFFFFFFFE, [9, 2]⟩, ⟨-5, 0xFFFFFFFFFFFFFFFD, 3, []⟩],
      0xFFFFFFFFFFFFFFFE⟩)
    (⟨[40, 0], 0⟩ : CyclicLevels) (⟨[true], 0⟩ : CyclicBits) (by decide +kernel) (by decide +kernel)
  have hn : s.n.toNat = 2 ^ 64 - 2 := congrArg UInt64.toNat hc.count
  have hr : Reachable s := .loaded hs
  obtain ⟨s₁, hs₁, hn₁⟩ := hr.faultless.insert (by omega) (-5) 1
  have hr₁ : Reachable s₁ := hr.call (show s.apply (.insert (-5) 1) = .ok s₁ from hs₁)
  have hlargest : s₁.n = Count.largest := UInt64.toNat_inj.1 (hn₁.trans (by rw [hn]; rfl))
  obtain ⟨s₂, hs₂, hn₂⟩ := hr₁.faultless.compress
  have hr₂ : Reachable s₂ := hr₁.call (show s₁.apply .compress = .ok s₂ from hs₂)
  obtain ⟨fraction, hfraction⟩ := hr₂.faultless.rank 0
  obtain ⟨es, b, -, -, -, hbytes⟩ := hr₂.faultless.toBytes
  exact ⟨s, s₁, s₂, hs, hs₁, hlargest, hs₂, hn₂.trans hlargest, fraction, b.bytes, hfraction,
    hbytes⟩

end Summary
end StreamQuantiles
