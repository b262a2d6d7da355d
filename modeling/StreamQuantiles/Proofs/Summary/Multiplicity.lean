import StreamQuantiles.Proofs.Summary.Cumulative
import StreamQuantiles.Proofs.Summary.Lineage

/-! Streams that are kept exactly. An entry weighs at least one, so no budget of two or less lets an
entry be folded into one of another value. As long as the budget is that small only equal values are
folded, and the entries tell how often each value was observed. -/
namespace StreamQuantiles

/-- The budget of so many observations or fewer is too small to fold different values. -/
def Accuracy.Distinguishes (a : Accuracy) (count : ℕ) : Prop :=
  ∀ n : Count, n.toNat ≤ count → a.budget n ≤ 2

lemma Accuracy.Distinguishes.mono {a : Accuracy} {k l : ℕ} (h : a.Distinguishes l) (hk : k ≤ l) :
    a.Distinguishes k :=
  fun n hn => h n (hn.trans hk)

lemma Accuracy.BudgetGrowsTo.distinguishes {a : Accuracy} {n : Count} (h : a.BudgetGrowsTo n)
    (hsmall : a.budget n ≤ 2) : a.Distinguishes n.toNat :=
  fun m hm => UInt64.le_trans (h m n (UInt64.le_iff_toNat_le.2 hm) (UInt64.le_refl n)) hsmall

namespace Entries

variable {log more : List Observation} {es es' xs ys : List Entry} {e cur next : Entry}
  {budget : Count} {v : Measurement}

/-- The value of each entry as often as the entry weighs. -/
def expanded (es : List Entry) : List Measurement :=
  es.flatMap fun e => List.replicate e.g.toNat e.value

@[simp] lemma expanded_nil : expanded [] = [] := rfl

@[simp] lemma expanded_cons :
    expanded (e :: es) = List.replicate e.g.toNat e.value ++ expanded es := rfl

@[simp] lemma expanded_append : expanded (xs ++ ys) = expanded xs ++ expanded ys :=
  List.flatMap_append

lemma countP_expanded (p : Measurement → Bool) (es : List Entry) :
    (expanded es).countP p = mass (es.filter fun e => p e.value) := by
  induction es with
  | nil => rfl
  | cons e es ih =>
    rw [expanded_cons, List.countP_append, List.countP_replicate, ih, List.filter_cons]
    split
    · rw [mass_cons]
    · rw [Nat.zero_add]

/-- The entries weigh what was observed of each value, and keep IDs recorded with their very
values. -/
structure Exact (log : List Observation) (es : List Entry) : Prop where
  values : (expanded es).Perm (log.map Prod.fst)
  sampled : ∀ e ∈ es, ∃ o ∈ log, o.1 = e.value ∧ e.samples = [o.2]

lemma exact_nil : Exact [] [] := ⟨.nil, nofun⟩

lemma Exact.perm (h : Exact log es) (hp : es'.Perm es) : Exact log es' where
  values := (hp.flatMap_right _).trans h.values
  sampled := fun e he => h.sampled e (hp.mem_iff.1 he)

lemma Exact.append (h : Exact log es) (h' : Exact more es') : Exact (log ++ more) (es ++ es') where
  values := by
    rw [expanded_append, List.map_append]
    exact h.values.append h'.values
  sampled := by
    refine List.forall_mem_append.2 ⟨fun e he => ?_, fun e he => ?_⟩
    · obtain ⟨o, ho, hv⟩ := h.sampled e he
      exact ⟨o, List.mem_append_left more ho, hv⟩
    · obtain ⟨o, ho, hv⟩ := h'.sampled e he
      exact ⟨o, List.mem_append_right log ho, hv⟩

lemma exact_single {id : SampleId} (hv : e.value = v) (hg : e.g.toNat = 1) (hs : e.samples = [id]) :
    Exact [(v, id)] [e] where
  values := by simp [hv, hg]
  sampled := by simp [hv, hs]

lemma Exact.recorded (h : Exact log es) (v : Measurement) (id : SampleId) (delta : Count) :
    Exact (log ++ [(v, id)]) (recorded v id delta es) := by
  obtain ⟨d, hp⟩ := recorded_perm v id delta es
  exact (h.append (exact_single rfl rfl rfl)).perm hp

lemma Exact.merged (h : Exact log es) (h' : Exact more es') :
    Exact (log ++ more) (merged es es') :=
  (h.append h').perm merged_perm

/-- A fold of equal values moves weight and samples within a value. -/
lemma Exact.fold (h : Exact log (xs ++ cur :: next :: ys)) (hvalue : cur.value = next.value)
    (hfits : cur.g.toNat + next.g.toNat < 2 ^ 64) (keep : Bool) :
    Exact log (xs ++ cur.foldInto next keep :: ys) where
  values := by
    have hsame : (cur.foldInto next keep).value = next.value := rfl
    have hjoin : expanded (xs ++ cur.foldInto next keep :: ys) =
        expanded (xs ++ cur :: next :: ys) := by
      simp only [expanded_append, expanded_cons, toNat_foldInto hfits, hsame, hvalue,
        List.replicate_add, List.append_assoc]
    exact hjoin ▸ h.values
  sampled := by
    obtain ⟨hxs, hcur, hnext, hys⟩ : _ ∧ _ ∧ _ ∧ _ := by
      simpa only [List.forall_mem_append, List.forall_mem_cons] using h.sampled
    refine List.forall_mem_append.2 ⟨hxs, List.forall_mem_cons.2 ⟨?_, hys⟩⟩
    cases keep with
    | true => exact hvalue ▸ hcur
    | false => exact hnext

lemma Exact.pin (h : Exact log (xs ++ e :: ys)) : Exact log (xs ++ e.exact :: ys) where
  values := by
    have hsame : expanded (xs ++ e.exact :: ys) = expanded (xs ++ e :: ys) := by
      rw [expanded_append, expanded_append]
      rfl
    exact hsame ▸ h.values
  sampled := by
    have hsampled := h.sampled
    simp only [List.forall_mem_append, List.forall_mem_cons] at hsampled ⊢
    exact hsampled

/-- An entry that is folded and the one that takes it over weigh two together at least. -/
lemma value_eq_of_folds {isFirst : Bool} (hf : Summary.Folds budget isFirst cur next)
    (hb : budget ≤ 2) (hcur : 1 ≤ cur.g.toNat) (hnext : 1 ≤ next.g.toNat) :
    cur.value = next.value := by
  rcases hf with hvalue | ⟨-, hlt⟩
  · exact hvalue
  · rw [Count.addSat_addSat_lt_iff] at hlt
    have htwo : budget.toNat ≤ 2 := UInt64.le_iff_toNat_le.1 hb
    omega

/-- Each entry stands for some observation. -/
lemma Traced.positive (h : Traced log es) (he : e ∈ es) : 1 ≤ e.g.toNat := by
  obtain ⟨places, hb⟩ := h.backed he
  obtain ⟨p, hp, -⟩ := hb.reached
  exact hb.weight ▸ List.length_pos_of_mem hp

theorem Exact.compressed {κ : Type} [Coin κ] (h : Exact log es) (hs : Sorted es)
    (ht : Traced log es) (hfits : log.length < 2 ^ 64) (hb : budget ≤ 2) (coin : κ) :
    Exact log (compressed budget es coin).1 := by
  suffices hall : Sorted (Entries.compressed budget es coin).1 ∧
      Traced log (Entries.compressed budget es coin).1 ∧
      Exact log (Entries.compressed budget es coin).1 from hall.2.2
  refine compressed_induction (P := fun es => Sorted es ∧ Traced log es ∧ Exact log es) ?_ ?_ coin
    ⟨hs, ht, h⟩
  · rintro xs cur next ys keep hf ⟨hs, ht, h⟩
    have hvalue : cur.value = next.value :=
      value_eq_of_folds hf hb (ht.positive (by simp)) (ht.positive (by simp))
    have hmass := ht.mass_eq
    simp only [mass_append, mass_cons] at hmass
    exact ⟨hs.fold keep, ht.fold (hvalue ▸ Int64.le_refl _) hfits keep,
      h.fold hvalue (by omega) keep⟩
  · rintro xs e ys - ⟨hs, ht, h⟩
    exact ⟨hs.pin, ht.pin, h.pin⟩

/-- The entries are exact while the accuracy tells all values apart. -/
structure ExactWhileSmall (a : Accuracy) (log : List Observation) (es : List Entry) : Prop where
  traced : Traced log es
  exact : a.Distinguishes log.length → Exact log es

theorem tracked_exactWhileSmall (κ : Type) [Coin κ] (a : Accuracy) :
    TrackedUnder κ (· = a) (ExactWhileSmall a) where
  nil := ⟨traced_nil, fun _ => exact_nil⟩
  recorded := by
    intro log es _ h v id delta
    refine ⟨h.traced.recorded v id delta, fun hd => ?_⟩
    exact (h.exact (hd.mono (by simp))).recorded v id delta
  compressed := by
    rintro log es hs h _ n rfl hn coin
    have hfits : log.length < 2 ^ 64 := hn ▸ n.toNat_lt
    refine ⟨h.traced.compressed hs hfits _ coin, fun hd => ?_⟩
    exact (h.exact hd).compressed hs h.traced hfits (hd n hn.le) coin
  merged := by
    intro log more es es' h h'
    refine ⟨h.traced.merged h'.traced, fun hd => ?_⟩
    exact (h.exact (hd.mono (by simp))).merged (h'.exact (hd.mono (by simp)))
  writable := fun h => (tracked_traced κ).writable h.traced

/-- In ascending order the entries at or below a value come first. -/
lemma Sorted.takeWhile_eq_filter (hs : Sorted es) (v : Measurement) :
    es.takeWhile (·.value ≤ v) = es.filter (·.value ≤ v) := by
  have hlow : (es.takeWhile (·.value ≤ v)).filter (·.value ≤ v) = es.takeWhile (·.value ≤ v) :=
    List.filter_eq_self.2 fun e he => decide_eq_true (key_le_of_mem_takeWhile Entry.value he)
  have hhigh : (es.dropWhile (·.value ≤ v)).filter (·.value ≤ v) = [] :=
    List.filter_eq_nil_iff.2 fun e he => by
      simpa using not_key_le_of_mem_dropWhile Entry.value hs he
  calc es.takeWhile (·.value ≤ v)
      = (es.takeWhile (·.value ≤ v)).filter (·.value ≤ v) ++
          (es.dropWhile (·.value ≤ v)).filter (·.value ≤ v) := by
        rw [hlow, hhigh, List.append_nil]
    _ = es.filter (·.value ≤ v) := by
        rw [← List.filter_append, List.takeWhile_append_dropWhile]

/-- The entries of some values weigh as much as there are observations of these values. -/
lemma Exact.mass_filter (h : Exact log es) (p : Measurement → Bool) :
    mass (es.filter fun e => p e.value) = (log.map Prod.fst).countP p :=
  (countP_expanded p es).symm.trans (h.values.countP_eq p)

lemma Exact.toNat_weightUpTo (h : Exact log es) (hs : Sorted es) {below : Count}
    (hbelow : Quantile.weightUpTo v es = .ok below) :
    below.toNat = (log.map Prod.fst).countP (· ≤ v) := by
  rw [Quantile.weightUpTo_eq_ok_iff.1 hbelow, hs.takeWhile_eq_filter]
  exact h.mass_filter (· ≤ v)

end Entries

namespace Lineage

open Entries Summary

variable {σ κ : Type} [LevelSource σ] [Coin κ]

/-- While the budget is at most two the entries of each value weigh as much as there are
observations of it, the rank of a measurement is the fraction of observations at or below it, and
each entry keeps an ID that was recorded with its very value. -/
theorem multiplicities_exact {a : Accuracy} (ha : a.valid) {lineage : Lineage σ κ}
    (hfits : lineage.Fits a) {n : Count} (hn : n.toNat = lineage.values.card)
    (hgrows : a.BudgetGrowsTo n) (hsmall : a.budget n ≤ 2) :
    ∃ s es, lineage.summary = .ok s ∧ s.entries = .ok es ∧ s.n = n ∧
      (∀ v, ((es.filter (·.value = v)).map (·.g.toNat)).sum = lineage.values.count v) ∧
      (∀ v, ∃ below, Quantile.weightUpTo v es = .ok below ∧
        below.toNat = lineage.values.countP (· ≤ v) ∧
        (1 ≤ n → s.rank v = .ok (below.toFloat / n.toFloat))) ∧
      ∀ e ∈ es, ∃ o ∈ lineage.log, o.1 = e.value ∧ e.samples = [o.2] := by
  obtain ⟨s, hs, -⟩ := exists_summary ha hfits
  obtain ⟨-, t, hc, hlength, hk⟩ := tracks_under (tracked_exactWhileSmall κ a) hfits.worksTo hs
  have hcard := card_values lineage
  have hexact : Exact lineage.log t.data := hk.exact (hcard ▸ hn ▸ hgrows.distinguishes hsmall)
  obtain rfl : s.n = n := UInt64.toNat_inj.1 (by rw [hlength, hn, hcard])
  refine ⟨s, t.data, hs, hc.entries, rfl, fun v => ?_, fun v => ?_, hexact.sampled⟩
  · rw [values, Multiset.coe_count, List.count_eq_countP]
    exact hexact.mass_filter (· = v)
  · obtain ⟨below, hbelow⟩ := Quantile.exists_weightUpTo (hc.mass_eq ▸ s.n.toNat_lt) v
    refine ⟨below, hbelow, ?_, fun hpos => ?_⟩
    · rw [values, Multiset.coe_countP]
      exact hexact.toNat_weightUpTo hc.consistent.ascending hbelow
    · have hne : ¬ s.isEmpty := by
        intro hempty
        rw [beq_iff_eq.1 hempty] at hpos
        exact absurd hpos (by decide)
      exact rank_of_weightUpTo hc.entries hne hbelow

/-- A sweep that meets ties, a clearing, and a merge with another tie. -/
theorem multiplicities_exact_of_shards :
    ∃ (s : Summary CyclicLevels CyclicBits) (es : List Entry),
      (merge
        (call (call (call (call (fresh ⟨0.125⟩ (.empty ⟨[40, 0], 0⟩) ⟨[true, false], 0⟩)
          (.insert 5 7)) (.add 3)) (.update (5, 2))) (.insert 4 9))
        (call (call (call (fresh ⟨0.125⟩ (.empty ⟨[2], 0⟩) ⟨[false], 0⟩) (.add 1)) .clear)
          (.insert 5 8))).summary = .ok s ∧
      s.entries = .ok es ∧
      ((es.filter (·.value = 5)).map (·.g.toNat)).sum = 3 ∧
      s.rank 4 = .ok ((2 : Count).toFloat / (5 : Count).toFloat) ∧
      ∀ e ∈ es, ∃ o ∈ [(5, 7), (3, 1), (5, 2), (4, 9), (5, 8)], o.1 = e.value ∧
        e.samples = [o.2] := by
  have hfits : (merge
      (call (call (call (call (fresh ⟨0.125⟩ (.empty ⟨[40, 0], 0⟩) ⟨[true, false], 0⟩)
        (.insert 5 7)) (.add 3)) (.update (5, 2))) (.insert 4 9))
      (call (call (call (fresh ⟨0.125⟩ (.empty ⟨[2], 0⟩) ⟨[false], 0⟩) (.add 1)) .clear)
        (.insert 5 8)) : Lineage CyclicLevels CyclicBits).Fits ⟨0.125⟩ :=
    ⟨⟨⟨⟨⟨rfl, by decide⟩, by decide⟩, by decide⟩, by decide⟩,
      ⟨⟨⟨rfl, by decide⟩, by decide⟩, by decide⟩, by decide⟩
  obtain ⟨s, es, hs, hes, -, hcount, hrank, hsampled⟩ :=
    multiplicities_exact (a := ⟨0.125⟩) (by decide +kernel) hfits (n := 5) rfl (by decide +kernel)
      (by decide +kernel)
  obtain ⟨below, -, hbelow, hfraction⟩ := hrank 4
  obtain rfl : below = 2 := UInt64.toNat_inj.1 hbelow
  exact ⟨s, es, hs, hes, hcount 5, hfraction (by decide), hsampled⟩

end Lineage
end StreamQuantiles
