import Mathlib.Data.List.MinMax
import StreamQuantiles.Proofs.Quantile
import StreamQuantiles.Proofs.Summary.Lineage
import StreamQuantiles.Proofs.Summary.Reachable

/-! The ends of a summary are exact: its minimum and maximum are those of the observations, and the
entries at the minimum weigh as much as there are observations of it. A sweep meets equal values one
after another, so an entry that is passed is below the next; and an entry with some below it is not
at the minimum, so a fold into a larger value takes nothing from there. -/
namespace StreamQuantiles
namespace Entries

variable {log more : List Observation} {es es' xs ys : List Entry} {e cur next : Entry}
  {v : Measurement}

/-- The mass of the entries of one value. -/
def massAt (v : Measurement) (es : List Entry) : ℕ := mass (es.filter (·.value = v))

@[simp] lemma massAt_nil : massAt v [] = 0 := rfl

@[simp] lemma massAt_cons :
    massAt v (e :: es) = (if e.value = v then e.g.toNat else 0) + massAt v es := by
  unfold massAt
  rw [List.filter_cons]
  by_cases h : e.value = v
  · rw [if_pos (decide_eq_true h), if_pos h, mass_cons]
  · rw [if_neg (by simpa using h), if_neg h, Nat.zero_add]

@[simp] lemma massAt_append : massAt v (xs ++ ys) = massAt v xs + massAt v ys := by
  rw [massAt, List.filter_append, mass_append]
  rfl

lemma massAt_perm (h : xs.Perm ys) : massAt v xs = massAt v ys := mass_perm (h.filter _)

lemma exists_of_massAt_pos (h : 0 < massAt v es) : ∃ e ∈ es, e.value = v := by
  by_contra hnone
  have hnil : es.filter (·.value = v) = [] :=
    List.filter_eq_nil_iff.2 fun e he => by simpa using fun hv => hnone ⟨e, he, hv⟩
  rw [massAt, hnil] at h
  exact Nat.lt_irrefl 0 h

/-- What no observation is below weighs as much as there are observations of it. -/
def ExactLeast (log : List Observation) (es : List Entry) : Prop :=
  ∀ v, (∀ o ∈ log, v ≤ o.1) → massAt v es = (log.map Prod.fst).count v

lemma exactLeast_nil : ExactLeast [] [] := fun _ _ => rfl

lemma ExactLeast.congr (h : ExactLeast log es) (hm : ∀ v, (∀ o ∈ log, v ≤ o.1) →
    massAt v es' = massAt v es) : ExactLeast log es' :=
  fun v hv => (hm v hv).trans (h v hv)

lemma ExactLeast.append (h : ExactLeast log es) (h' : ExactLeast more es') :
    ExactLeast (log ++ more) (es ++ es') := by
  intro v hv
  obtain ⟨hlog, hmore⟩ := List.forall_mem_append.1 hv
  rw [massAt_append, List.map_append, List.count_append, h v hlog, h' v hmore]

lemma exactLeast_single {id : SampleId} (hv : e.value = v) (hg : e.g.toNat = 1) :
    ExactLeast [(v, id)] [e] := by
  intro w _
  rw [massAt_cons, hv, hg, List.map_singleton, List.count_singleton]
  by_cases h : v = w <;> simp [h]

lemma ExactLeast.recorded (h : ExactLeast log es) (v : Measurement) (id : SampleId)
    (delta : Count) : ExactLeast (log ++ [(v, id)]) (recorded v id delta es) := by
  obtain ⟨d, hp⟩ := recorded_perm v id delta es
  exact (h.append (exactLeast_single rfl rfl)).congr fun _ _ => massAt_perm hp

/-- A fold takes nothing from the least value, unless into an entry of the same. -/
lemma ExactLeast.fold (h : ExactLeast log (xs ++ cur :: next :: ys))
    (hfits : cur.g.toNat + next.g.toNat < 2 ^ 64)
    (hvalue : cur.value = next.value ∨ ∀ v, (∀ o ∈ log, v ≤ o.1) → cur.value ≠ v ∧ next.value ≠ v)
    (keep : Bool) : ExactLeast log (xs ++ cur.foldInto next keep :: ys) := by
  refine h.congr fun v hv => ?_
  have hsame : (cur.foldInto next keep).value = next.value := rfl
  rw [massAt_append, massAt_append, massAt_cons, massAt_cons, massAt_cons, hsame,
    toNat_foldInto hfits]
  rcases hvalue with heq | hne
  · rw [heq]
    by_cases hnext : next.value = v
    · simp only [if_pos hnext]
      omega
    · simp only [if_neg hnext]
      omega
  · obtain ⟨hcur, hnext⟩ := hne v hv
    simp only [if_neg hcur, if_neg hnext]
    omega

lemma ExactLeast.pin (h : ExactLeast log (xs ++ e :: ys)) :
    ExactLeast log (xs ++ e.exact :: ys) :=
  h.congr fun v _ => by
    rw [massAt_append, massAt_append, massAt_cons, massAt_cons]
    rfl

/-- What is known while a sweep is at an entry: those it has passed are below it. -/
structure Sweeping (log : List Observation) (done : List Entry) (cur : Entry) (rest : List Entry) :
    Prop where
  sorted : Sorted (done ++ cur :: rest)
  traced : Traced log (done ++ cur :: rest)
  least : ExactLeast log (done ++ cur :: rest)
  below : ∀ e ∈ done, e.value < cur.value

namespace Sweeping

variable {done rest : List Entry} {budget : Count}

lemma le_next (h : Sweeping log done cur (next :: rest)) : cur.value ≤ next.value :=
  (List.pairwise_cons.1 (List.pairwise_append.1 h.sorted).2.1).1 next List.mem_cons_self

lemma fold (h : Sweeping log done cur (next :: rest)) (hfits : log.length < 2 ^ 64)
    (hf : Summary.Folds budget done.isEmpty cur next) (keep : Bool) :
    Sweeping log done (cur.foldInto next keep) rest := by
  have hle := h.le_next
  have hmass := h.traced.mass_eq
  simp only [mass_append, mass_cons] at hmass
  refine ⟨h.sorted.fold keep, h.traced.fold hle hfits keep, h.least.fold (by omega) ?_ keep,
    fun e he => Int64.lt_of_lt_of_le (h.below e he) hle⟩
  rcases hf with heq | ⟨hfirst, -⟩
  · exact .inl heq
  · -- An entry was passed, so the least observation is below both.
    right
    intro v hv
    obtain ⟨e, he⟩ := List.exists_mem_of_ne_nil done (by simpa using hfirst)
    obtain ⟨o, ho, hvalue⟩ := h.traced.observed (List.mem_append_left _ he)
    have hcur : v < cur.value := Int64.lt_of_le_of_lt (hvalue ▸ hv o ho) (h.below e he)
    exact ⟨(Int64.ne_of_lt hcur).symm, (Int64.ne_of_lt (Int64.lt_of_lt_of_le hcur hle)).symm⟩

lemma pass (h : Sweeping log done cur (next :: rest))
    (hf : ¬ Summary.Folds budget done.isEmpty cur next) :
    Sweeping log (done ++ [cur]) next rest := by
  have hlt : cur.value < next.value :=
    Int64.lt_of_le_of_ne h.le_next fun heq => hf (.inl heq)
  have hcut : (done ++ [cur]) ++ next :: rest = done ++ cur :: next :: rest := by simp
  refine ⟨hcut ▸ h.sorted, hcut ▸ h.traced, hcut ▸ h.least, ?_⟩
  refine List.forall_mem_append.2 ⟨fun e he => Int64.lt_trans (h.below e he) hlt, ?_⟩
  simpa using hlt

end Sweeping

theorem ExactLeast.compressed {κ : Type} [Coin κ] (h : ExactLeast log es) (hs : Sorted es)
    (ht : Traced log es) (hfits : log.length < 2 ^ 64) (budget : Count) (coin : κ) :
    ExactLeast log (compressed budget es coin).1 := by
  cases es with
  | nil => exact h
  | cons e es =>
    have hstart : Sweeping log [] e es := ⟨hs, ht, h, fun _ he => by cases he⟩
    obtain ⟨done, last, hswept, hend⟩ := swept_cut_induction
      (fun _ _ _ _ keep (hf : Summary.Folds budget _ _ _) h => h.fold hfits hf keep)
      (fun _ _ _ _ hf h => h.pass hf) [] coin hstart
    rw [List.isEmpty_nil, List.nil_append] at hswept
    have hleast : ExactLeast log (swept budget true e es coin).1 := hswept ▸ hend.least
    exact pinned_induction (fun _ _ _ _ h => h.pin) hleast

/-- The ranks of both ends are known. -/
def ExactEnds (es : List Entry) : Prop :=
  (∀ e, es.head? = some e → e.delta = 0) ∧ ∀ e, es.getLast? = some e → e.delta = 0

lemma exactEnds_nil : ExactEnds [] := ⟨nofun, nofun⟩

/-- A further observation at an end has an exact rank. -/
lemma ExactEnds.recorded (h : ExactEnds es) (hs : Sorted es) (v : Measurement) (id : SampleId)
    (delta : Count) : ExactEnds (recorded v id delta es) := by
  obtain ⟨below, above, x, rfl, hrec, -, -, -, -, hdelta⟩ := hs.exists_recorded v id delta
  obtain ⟨hfirst, hlast⟩ := h
  rw [hrec]
  constructor
  · intro e he
    cases below with
    | nil =>
      obtain rfl := Option.some.inj he
      rw [hdelta, if_pos (.inl rfl)]
    | cons b below => exact hfirst e he
  · intro e he
    rcases List.eq_nil_or_concat above with rfl | ⟨above, a, rfl⟩
    · rw [List.getLast?_concat] at he
      obtain rfl := Option.some.inj he
      rw [hdelta, if_pos (.inr rfl)]
    · rw [List.concat_eq_append] at hlast he
      rw [← List.cons_append, ← List.append_assoc, List.getLast?_concat] at he
      exact hlast e (by rw [← List.append_assoc, List.getLast?_concat, he])

lemma ExactEnds.merged (h : ExactEnds es) (h' : ExactEnds es') : ExactEnds (merged es es') := by
  constructor
  · intro e he
    obtain ⟨zs, hm⟩ := List.head?_eq_some_iff.1 he
    rcases eq_cons_of_merged_eq_cons hm with ⟨as, rfl, -⟩ | ⟨bs, rfl, -⟩
    · exact h.1 e rfl
    · exact h'.1 e rfl
  · intro e he
    obtain ⟨zs, hm⟩ := List.getLast?_eq_some_iff.1 he
    obtain ⟨as₁, as₂, bs₁, bs₂, rfl, rfl, -, hm⟩ := exists_cut_of_merged hm
    rcases eq_cons_of_merged_eq_cons hm with ⟨as, rfl, hnil⟩ | ⟨bs, rfl, hnil⟩
    · obtain ⟨rfl, -⟩ := List.append_eq_nil_iff.1 (hnil ▸ merged_perm).nil_eq.symm
      exact h.2 e List.getLast?_concat
    · obtain ⟨-, rfl⟩ := List.append_eq_nil_iff.1 (hnil ▸ merged_perm).nil_eq.symm
      exact h'.2 e List.getLast?_concat

lemma exactEnds_pinned (es : List Entry) : ExactEnds (pinned es) := by
  constructor
  · intro e he
    rcases es with _ | ⟨f, _ | ⟨f', es⟩⟩
    · cases he
    · cases he
      rfl
    · rw [pinned, List.modifyHead_cons, modifyLast_cons_cons] at he
      cases he
      rfl
  · intro e he
    unfold pinned at he
    rcases List.eq_nil_or_concat (es.modifyHead Entry.exact) with hnil | ⟨xs, f, hxs⟩
    · rw [hnil] at he
      cases he
    · rw [hxs, List.concat_eq_append, List.modifyLast_concat, List.getLast?_concat] at he
      cases he
      rfl

lemma exactEnds_compressed {κ : Type} [Coin κ] (budget : Count) (es : List Entry) (coin : κ) :
    ExactEnds (compressed budget es coin).1 := by
  cases es with
  | nil => exact exactEnds_nil
  | cons e es => exact exactEnds_pinned _

/-- What is known of the ends of the entries for a log. -/
structure Anchored (log : List Observation) (es : List Entry) : Prop where
  traced : Traced log es
  least : ExactLeast log es
  ends : ExactEnds es

theorem tracked_anchored (κ : Type) [Coin κ] : Tracked κ Anchored where
  nil := ⟨traced_nil, exactLeast_nil, exactEnds_nil⟩
  recorded := fun hs h v id delta =>
    ⟨h.traced.recorded v id delta, h.least.recorded v id delta, h.ends.recorded hs v id delta⟩
  compressed := fun hs h _ _ _ hn coin =>
    have hfits := hn ▸ UInt64.toNat_lt _
    ⟨h.traced.compressed hs hfits _ coin, h.least.compressed hs h.traced hfits _ coin,
      exactEnds_compressed _ _ coin⟩
  merged := fun h h' =>
    ⟨h.traced.merged h'.traced, (h.least.append h'.least).congr fun _ _ => massAt_perm merged_perm,
      h.ends.merged h'.ends⟩
  writable := fun h => (tracked_traced κ).writable h.traced

lemma Sorted.head_le (hs : Sorted es) (h : es.head? = some e) : ∀ x ∈ es, e.value ≤ x.value := by
  obtain ⟨ys, rfl⟩ := List.head?_eq_some_iff.1 h
  exact List.forall_mem_cons.2 ⟨Int64.le_refl _, (List.pairwise_cons.1 hs).1⟩

lemma Sorted.le_last (hs : Sorted es) (h : es.getLast? = some e) :
    ∀ x ∈ es, x.value ≤ e.value := by
  obtain ⟨xs, rfl⟩ := List.getLast?_eq_some_iff.1 h
  obtain ⟨-, -, hle⟩ := List.pairwise_append.1 hs
  refine List.forall_mem_append.2 ⟨fun x hx => hle x hx e List.mem_cons_self, ?_⟩
  simp

/-- The least observation is the value of an entry, because it has some mass. -/
lemma ExactLeast.exists_least (h : ExactLeast log es) (hne : log ≠ []) :
    ∃ e ∈ es, ∀ o ∈ log, e.value ≤ o.1 := by
  obtain ⟨o, ho⟩ := Option.ne_none_iff_exists'.1
    (List.argmin_eq_none (f := fun o : Observation => o.1.toInt).not.2 hne)
  have hleast : ∀ o' ∈ log, o.1 ≤ o'.1 := by
    intro o' ho'
    rw [Int64.le_iff_toInt_le]
    exact List.le_of_mem_argmin (f := fun o : Observation => o.1.toInt) ho' ho
  have hpos : 0 < massAt o.1 es := by
    rw [h o.1 hleast, List.count_pos_iff]
    exact List.mem_map_of_mem (List.argmin_mem ho)
  obtain ⟨e, he, hv⟩ := exists_of_massAt_pos hpos
  exact ⟨e, he, hv ▸ hleast⟩

/-- The first entry is at the least observation and the last one at the greatest. -/
theorem Anchored.exists_ends (h : Anchored log es) (hs : Sorted es) (hne : log ≠ []) :
    ∃ first last, es.head? = some first ∧ es.getLast? = some last ∧
      (∃ o ∈ log, o.1 = first.value) ∧ (∀ o ∈ log, first.value ≤ o.1) ∧
      (∃ o ∈ log, o.1 = last.value) ∧ ∀ o ∈ log, o.1 ≤ last.value := by
  obtain ⟨e, he, hleast⟩ := h.least.exists_least hne
  have hentries : es ≠ [] := List.ne_nil_of_mem he
  have hfirst := List.head?_eq_some_head hentries
  have hlast := List.getLast?_eq_some_getLast hentries
  refine ⟨_, _, hfirst, hlast, h.traced.observed (List.head_mem hentries), fun o ho => ?_,
    h.traced.observed (List.getLast_mem hentries), fun o ho => ?_⟩
  · exact Int64.le_trans (hs.head_le hfirst e he) (hleast o ho)
  · obtain ⟨e', he', hle⟩ := h.traced.exists_ge ho
    exact Int64.le_trans hle (hs.le_last hlast e' he')

end Entries

namespace Quantile

variable {a : Accuracy} {n : Count} {q : Float} {es : List Entry}

/-- A quantile of zero or less is the first entry. -/
lemma entry?_of_le_zero (hq : q ≤ 0.0) : entry? a n q es = es.head? := by
  rw [entry?_eq_bind, position?, (isNaN_eq_false_of_le hq).1]
  cases es with
  | nil => rfl
  | cons e es => rw [List.isEmpty_cons, Bool.false_or, if_neg (by decide), if_pos hq]; rfl

/-- A quantile of one or more is the last entry. -/
lemma entry?_of_one_le (hq : 1.0 ≤ q) : entry? a n q es = es.getLast? := by
  rw [entry?_eq_bind, position?, (isNaN_eq_false_of_le hq).2]
  cases es with
  | nil => rfl
  | cons e es =>
    rw [List.isEmpty_cons, Bool.false_or, if_neg (by decide),
      if_neg (not_float_le_of_lt (float_pos_of_one_le hq)), if_pos hq, List.getLast?_eq_getElem?]
    rfl

end Quantile

/-- The first and the last entry are the least and the greatest of the observations `M`, with exact
ranks, and answer for them. -/
structure Summary.Extremes {σ κ : Type} (s : Summary σ κ) (M : Multiset Measurement)
    (es : List Entry) (first last : Entry) : Prop where
  entries : s.entries = .ok es
  head : es.head? = some first
  getLast : es.getLast? = some last
  least : first.value ∈ M ∧ ∀ v ∈ M, first.value ≤ v
  greatest : last.value ∈ M ∧ ∀ v ∈ M, v ≤ last.value
  first_delta : first.delta = 0
  last_delta : last.delta = 0
  minimum : s.minimum = .ok (some first.value)
  maximum : s.maximum = .ok (some last.value)
  query_low : ∀ q : Float, q ≤ 0.0 → s.query q = .ok (some first.estimate)
  query_high : ∀ q : Float, 1.0 ≤ q → s.query q = .ok (some last.estimate)
  /-- The entries at the minimum weigh as much as there are observations of it. -/
  multiplicity : ((es.filter (·.value = first.value)).map (·.g.toNat)).sum = M.count first.value

namespace Lineage

open Entries

variable {σ κ : Type} [LevelSource σ] [Coin κ]

/-- The ends of a summary are the least and the greatest of its observations, with exact ranks. They
answer for the minimum and the maximum and for quantiles outside the open unit interval, and the
entries at the minimum weigh as much as there are observations of it. -/
theorem extremes_exact {lineage : Lineage σ κ} {s : Summary σ κ} (h : lineage.summary = .ok s)
    (hne : lineage.log ≠ []) : ∃ es first last, s.Extremes lineage.values es first last := by
  obtain ⟨t, hc, -, hanchored⟩ := tracks (tracked_anchored κ) h
  obtain ⟨first, last, hfirst, hlast, hmin, hleast, hmax, hgreatest⟩ :=
    hanchored.exists_ends hc.consistent.ascending hne
  exact ⟨t.data, first, last,
    { entries := hc.entries
      head := hfirst
      getLast := hlast
      least := ⟨mem_values.2 hmin, forall_values.2 hleast⟩
      greatest := ⟨mem_values.2 hmax, forall_values.2 hgreatest⟩
      first_delta := hanchored.ends.1 first hfirst
      last_delta := hanchored.ends.2 last hlast
      minimum := by
        rw [hc.minimum, hfirst]
        rfl
      maximum := by
        rw [hc.maximum, hlast]
        rfl
      query_low := by
        intro q hq
        rw [hc.query_eq, Quantile.entry?_of_le_zero hq, hfirst]
        rfl
      query_high := by
        intro q hq
        rw [hc.query_eq, Quantile.entry?_of_one_le hq, hlast]
        rfl
      multiplicity := by
        rw [values, Multiset.coe_count]
        exact hanchored.least first.value hleast }⟩

/-- A shard merged with one that holds a lower minimum twice and the same maximum, and read back. -/
theorem extremes_exact_of_shards :
    ∃ s : Summary CyclicLevels CyclicBits,
      (reload
        (merge
          (call (call (call (fresh ⟨0.25⟩ (.empty ⟨[40, 0], 0⟩) ⟨[true, false], 0⟩) (.insert 5 7))
            (.add 3)) (.update (5, 2)))
          (call (call (call (fresh ⟨0.25⟩ (.empty ⟨[2], 0⟩) ⟨[false], 0⟩) (.add 1)) (.add 1))
            (.add 5)))
        ⟨0.25⟩ ⟨[3], 0⟩ ⟨[true], 0⟩).summary = .ok s ∧
      ∃ es first last, s.entries = .ok es ∧ s.minimum = .ok (some first) ∧
        s.maximum = .ok (some last) ∧
        (∃ ids, s.query (-1.0 / 0.0) = .ok (some ⟨first, ids⟩)) ∧
        (∃ ids, s.query (1.0 / 0.0) = .ok (some ⟨last, ids⟩)) ∧
        ((es.filter (·.value = first)).map (·.g.toNat)).sum =
          ({5, 3, 5, 1, 1, 5} : Multiset Measurement).count first := by
  refine (exists_summary (a := ⟨0.25⟩) (by decide +kernel) ?_).imp fun s hs => ⟨hs.1, ?_⟩
  · exact ⟨⟨⟨⟨⟨rfl, by decide⟩, by decide⟩, by decide⟩, ⟨⟨⟨rfl, by decide⟩, by decide⟩, by decide⟩,
      by decide⟩, rfl⟩
  · obtain ⟨es, first, last, hends⟩ := extremes_exact hs.1 (List.cons_ne_nil _ _)
    exact ⟨es, first.value, last.value, hends.entries, hends.minimum, hends.maximum,
      ⟨_, hends.query_low _ (by decide +kernel)⟩, ⟨_, hends.query_high _ (by decide +kernel)⟩,
      hends.multiplicity⟩

end Lineage
end StreamQuantiles
