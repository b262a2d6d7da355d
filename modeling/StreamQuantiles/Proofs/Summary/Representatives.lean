import Mathlib.Data.Set.Card
import StreamQuantiles.Proofs.Summary.Monotone

/-! Representatives of the rungs of a ladder. What is kept of the samples of their answers is each
one where it comes first. The rungs go up, and so do the positions of their answers; so where no two
entries have the same first sample, the ones kept are those of entries further and further up. -/
namespace StreamQuantiles

namespace Quantile

variable {a : Accuracy} {n : Count} {i j : ℕ} {es : List Entry}
  {ids kept : List SampleId} {id id' : SampleId}

/-- The IDs of a list, each once, in the order in which they first occur. -/
structure FirstOccurrences (ids kept : List SampleId) : Prop where
  sublist : kept.Sublist ids
  nodup : kept.Nodup
  mem_iff : ∀ id, id ∈ kept ↔ id ∈ ids
  order : kept.Pairwise fun id id' => ids.idxOf id < ids.idxOf id'

lemma firstOccurrences_concat (ids : List SampleId) (id : SampleId) :
    firstOccurrences (ids ++ [id]) = if id ∈ firstOccurrences ids then firstOccurrences ids
      else firstOccurrences ids ++ [id] := by
  simp [firstOccurrences]

/-- An ID that is in the list already is not kept again. -/
lemma FirstOccurrences.of_mem (h : FirstOccurrences ids kept) (hid : id ∈ kept) :
    FirstOccurrences (ids ++ [id]) kept where
  sublist := h.sublist.trans (List.sublist_append_left _ _)
  nodup := h.nodup
  mem_iff := by
    intro id'
    rw [h.mem_iff, List.mem_append, List.mem_singleton, or_iff_left_of_imp]
    rintro rfl
    exact (h.mem_iff _).1 hid
  order := h.order.imp_of_mem fun hx hy hlt => by
    rwa [List.idxOf_append_of_mem ((h.mem_iff _).1 hx),
      List.idxOf_append_of_mem ((h.mem_iff _).1 hy)]

/-- An ID that is new to the list is kept behind the others. -/
lemma FirstOccurrences.concat (h : FirstOccurrences ids kept) (hid : id ∉ kept) :
    FirstOccurrences (ids ++ [id]) (kept ++ [id]) where
  sublist := h.sublist.append_right _
  nodup := by simpa using List.Nodup.concat hid h.nodup
  mem_iff := fun id' => by rw [List.mem_append, List.mem_append, h.mem_iff]
  order := by
    have hold : ∀ x ∈ kept, (ids ++ [id]).idxOf x = ids.idxOf x :=
      fun x hx => List.idxOf_append_of_mem ((h.mem_iff x).1 hx)
    have hnew : (ids ++ [id]).idxOf id = ids.length := by
      rw [List.idxOf_append_of_notMem (mt (h.mem_iff id).2 hid)]
      simp
    refine List.pairwise_append.2 ⟨?_, List.pairwise_singleton _ _, fun x hx y hy => ?_⟩
    · exact h.order.imp_of_mem fun hx hy hlt => by rwa [hold _ hx, hold _ hy]
    · obtain rfl := List.mem_singleton.1 hy
      rw [hold x hx, hnew]
      exact List.idxOf_lt_length_iff.2 ((h.mem_iff x).1 hx)

theorem firstOccurrences_spec (ids : List SampleId) :
    FirstOccurrences ids (firstOccurrences ids) := by
  induction ids using List.reverseRecOn with
  | nil => exact ⟨.slnil, .nil, fun _ => Iff.rfl, .nil⟩
  | append_singleton ids id ih =>
    rw [firstOccurrences_concat]
    split
    · next hid => exact ih.of_mem hid
    · next hid => exact ih.concat hid

/-- The position of the entry that answers for `q`, with the first sample there. -/
def hit? (a : Accuracy) (n : Count) (es : List Entry) (q : Float) : Option (ℕ × SampleId) := do
  let i ← position? a n q es
  let e ← es[i]?
  let id ← e.samples.head?
  return (i, id)

lemma hit?_eq_some_iff {q : Float} :
    hit? a n es q = some (i, id) ↔
      ∃ e, position? a n q es = some i ∧ es[i]? = some e ∧ e.samples.head? = some id := by
  simp only [hit?, Option.bind_eq_bind, Option.bind_eq_some_iff, Option.pure_def,
    Option.some.injEq, Prod.mk.injEq]
  constructor
  · rintro ⟨i, hi, e, he, id, hid, rfl, rfl⟩
    exact ⟨e, hi, he, hid⟩
  · rintro ⟨e, hi, he, hid⟩
    exact ⟨i, hi, e, he, id, hid, rfl, rfl⟩

/-- The samples of hits are the first samples of the entries that answer. -/
lemma map_hits (a : Accuracy) (n : Count) (es : List Entry) (qs : List Float) :
    (qs.filterMap (hit? a n es)).map Prod.snd =
      qs.filterMap fun q => (Quantile.entry? a n q es).bind (·.samples.head?) := by
  rw [List.map_filterMap]
  congr 1
  funext q
  rw [Quantile.entry?_eq_bind, hit?]
  cases position? a n q es with
  | none => rfl
  | some i => simp [Option.map_bind]

/-- Hits come further and further up. -/
lemma pairwise_hits {qs : List Float} (hq : qs.Pairwise (· ≤ ·))
    (ht : ∀ q ∈ qs, ∀ q' ∈ qs, q ≤ q' → targetRank q n ≤ targetRank q' n) :
    (qs.filterMap (hit? a n es)).Pairwise (·.1 ≤ ·.1) := by
  refine List.pairwise_filterMap.2 (hq.imp_of_mem fun {q q'} hm hm' hle => ?_)
  rintro ⟨i, id⟩ h ⟨i', id'⟩ h'
  obtain ⟨e, hi, -⟩ := hit?_eq_some_iff.1 h
  obtain ⟨e', hi', -⟩ := hit?_eq_some_iff.1 h'
  have hne : es ≠ [] := List.length_pos_iff.1 (Nat.zero_lt_of_lt (position?_lt_length hi))
  obtain ⟨j, j', hj, hj', hjj⟩ := position?_mono (a := a) hne hle (ht q hm q' hm' hle)
  cases hi.symm.trans hj
  cases hi'.symm.trans hj'
  exact hjj

/-- Where no two entries have the same first sample, hits share a sample only if they share a
position. -/
lemma hit?_inj (hd : (es.filterMap (·.samples.head?)).Nodup) {q q' : Float}
    (h : hit? a n es q = some (i, id)) (h' : hit? a n es q' = some (j, id')) :
    i = j ↔ id = id' := by
  obtain ⟨e, -, he, hid⟩ := hit?_eq_some_iff.1 h
  obtain ⟨e', -, he', hid'⟩ := hit?_eq_some_iff.1 h'
  constructor
  · rintro rfl
    cases he.symm.trans he'
    exact Option.some.inj (hid.symm.trans hid')
  · rintro rfl
    obtain ⟨hi, rfl⟩ := List.getElem?_eq_some_iff.1 he
    obtain ⟨hj, rfl⟩ := List.getElem?_eq_some_iff.1 he'
    have hpairs := List.pairwise_iff_getElem.1 (List.pairwise_filterMap.1 hd)
    rcases Nat.lt_trichotomy i j with hlt | heq | hgt
    · exact absurd rfl (hpairs i j hi hj hlt id hid id hid')
    · exact heq
    · exact absurd rfl (hpairs j i hj hi hgt id hid' id hid)

/-- What is kept of the samples of hits are those of all hits, each further up than the one
before. -/
lemma FirstOccurrences.exists_picks {hits : List (ℕ × SampleId)}
    (h : FirstOccurrences (hits.map Prod.snd) kept) (hmono : hits.Pairwise (·.1 ≤ ·.1))
    (hiff : ∀ x ∈ hits, ∀ y ∈ hits, x.1 = y.1 ↔ x.2 = y.2) :
    ∃ picks : List (ℕ × SampleId), picks.map Prod.snd = kept ∧ picks.Pairwise (·.1 < ·.1) ∧
      ∀ x, x ∈ picks ↔ x ∈ hits := by
  obtain ⟨picks, hsub, rfl⟩ := List.sublist_map_iff.1 h.sublist
  have hmem : ∀ x ∈ picks, x ∈ hits := fun x hx => hsub.subset hx
  refine ⟨picks, rfl, ?_, fun x => ⟨hmem x, fun hx => ?_⟩⟩
  · have hdistinct : picks.Pairwise (·.2 ≠ ·.2) := List.pairwise_map.1 h.nodup
    refine ((hmono.sublist hsub).and hdistinct).imp_of_mem fun {x y} hx hy ⟨hle, hne⟩ => ?_
    exact Nat.lt_of_le_of_ne hle fun heq => hne ((hiff x (hmem x hx) y (hmem y hy)).1 heq)
  · obtain ⟨y, hy, hsame⟩ := List.mem_map.1 ((h.mem_iff x.2).2 (List.mem_map_of_mem hx))
    obtain rfl : y = x := Prod.ext ((hiff y (hmem y hy) x hx).2 hsame) hsame
    exact hy

/-- Representatives are kept from the samples of the hits of a ladder. -/
lemma representatives_spec (a : Accuracy) (n : Count) (k : ℕ) (es : List Entry) :
    FirstOccurrences (((ladder k).filterMap (hit? a n es)).map Prod.snd)
      (representatives a n k es) := by
  rw [map_hits]
  exact firstOccurrences_spec _

/-- There are no more representatives than rungs. -/
lemma length_representatives_le (a : Accuracy) (n : Count) (k : ℕ) (es : List Entry) :
    (representatives a n k es).length ≤ k := by
  calc (representatives a n k es).length
      ≤ (((ladder k).filterMap (hit? a n es)).map Prod.snd).length :=
        (representatives_spec a n k es).sublist.length_le
    _ = ((ladder k).filterMap (hit? a n es)).length := List.length_map _
    _ ≤ (ladder k).length := List.length_filterMap_le _ _
    _ = k := length_ladder k

/-- Where no two entries have the same first sample, representatives belong to the hits of a ladder,
each further up than the one before. -/
lemma exists_picks_of_ladder {k : ℕ} (hq : (ladder k).Pairwise (· ≤ ·))
    (ht : ∀ q ∈ ladder k, ∀ q' ∈ ladder k, q ≤ q' → targetRank q n ≤ targetRank q' n)
    (hd : (es.filterMap (·.samples.head?)).Nodup) :
    ∃ picks : List (ℕ × SampleId), picks.map Prod.snd = representatives a n k es ∧
      picks.Pairwise (·.1 < ·.1) ∧ ∀ x, x ∈ picks ↔ x ∈ (ladder k).filterMap (hit? a n es) := by
  refine (representatives_spec a n k es).exists_picks (pairwise_hits hq ht) ?_
  rintro ⟨i, id⟩ hx ⟨j, id'⟩ hy
  obtain ⟨q, -, hq⟩ := List.mem_filterMap.1 hx
  obtain ⟨q', -, hq'⟩ := List.mem_filterMap.1 hy
  exact hit?_inj hd hq hq'

end Quantile

namespace Summary

open Quantile

variable {σ κ : Type} {s : Summary σ κ} {t : Snapshot} {k i : ℕ} {id : SampleId}

/-- Some rung of a ladder is answered by the entry at position `i`, whose first sample is `id`. -/
def Hits (s : Summary σ κ) (k i : ℕ) (id : SampleId) : Prop :=
  ∃ q ∈ ladder k, ∃ e, s.AnswersAt q i e ∧ e.samples.head? = some id

lemma Contains.hits_iff (h : s.Contains t) :
    s.Hits k i id ↔ (i, id) ∈ (ladder k).filterMap (hit? s.accuracy s.n t.data) := by
  simp only [List.mem_filterMap, hit?_eq_some_iff]
  constructor
  · rintro ⟨q, hq, e, he, hid⟩
    obtain ⟨es, hes, hi, hget⟩ := he.position
    cases h.entries.symm.trans hes
    exact ⟨q, hq, e, hi, hget, hid⟩
  · rintro ⟨q, hq, e, hi, hget, hid⟩
    obtain ⟨e', he', hanswers⟩ := h.exists_answersAt hi
    cases hget.symm.trans he'
    exact ⟨q, hq, e, hanswers, hid⟩

variable [LevelSource σ] [Coin κ]

/-- Representatives are the first samples of the answers to the rungs of a ladder, each once, in the
order in which they first occur. Where no two entries have the same first sample they belong to
entries further and further up, one to each entry with samples that answers for a rung. -/
theorem Reachable.representatives_in_order (hr : Reachable s) (k : ℕ) :
    ∃ es answers ids, s.entries = .ok es ∧ (ladder k).mapM s.query = .ok answers ∧
      s.representatives k = .ok ids ∧ ids.length ≤ k ∧ ids.Nodup ∧
      FirstOccurrences (answers.filterMap fun answer => answer.bind (·.samples.head?)) ids ∧
      ((ladder k).Pairwise (· ≤ ·) →
        (∀ q ∈ ladder k, ∀ q' ∈ ladder k, q ≤ q' → targetRank q s.n ≤ targetRank q' s.n) →
        (es.filterMap (·.samples.head?)).Nodup →
        ∃ positions : List ℕ, positions.Pairwise (· < ·) ∧
          List.Forall₂ (s.Hits k) positions ids ∧
          ids.length = {i | ∃ id, s.Hits k i id}.ncard) := by
  obtain ⟨-, t, hc⟩ := hr.exists_contains
  have hanswers : (ladder k).mapM s.query = .ok _ :=
    Skiplist.mapM_eq_ok fun q _ => hc.query_eq q
  refine ⟨t.data, _, _, hc.entries, hanswers, hc.representatives_eq k,
    length_representatives_le _ _ _ _, (representatives_spec _ _ _ _).nodup, ?_, fun hq ht hd => ?_⟩
  · have hfirst := representatives_spec s.accuracy s.n k t.data
    rw [map_hits] at hfirst
    rw [List.filterMap_map]
    convert hfirst using 3 with q
    exact Option.bind_map
  · obtain ⟨picks, hpicks, hup, hmem⟩ := exists_picks_of_ladder (a := s.accuracy) hq ht hd
    have hupward : (picks.map Prod.fst).Pairwise (· < ·) := List.pairwise_map.2 hup
    have hpositions : {i | ∃ id, s.Hits k i id} = ↑(picks.map Prod.fst).toFinset := by
      ext i
      simp [hc.hits_iff, hmem]
    refine ⟨picks.map Prod.fst, hupward, ?_, ?_⟩
    · rw [← hpicks, List.forall₂_map_left_iff, List.forall₂_map_right_iff, List.forall₂_same]
      exact fun x hx => hc.hits_iff.2 ((hmem x).1 hx)
    · rw [hpositions, Set.ncard_coe_finset, List.toFinset_card_of_nodup (hupward.imp Nat.ne_of_lt),
        ← hpicks, List.length_map, List.length_map]

/-- A tie without samples, one with repeated samples, and a greatest rank beyond that of the next
entry. -/
theorem Reachable.representatives_in_order_of_restored :
    ∃ (s : Summary CyclicLevels CyclicBits) (ids : List SampleId) (positions : List ℕ),
      ofSnapshot ⟨0.1⟩ ⟨[40, 0], 0⟩ ⟨[true], 0⟩
        ⟨[⟨-5, 1, 0, []⟩, ⟨-5, 2, 8, [9, 9]⟩, ⟨2, 1, 0, [4, 9]⟩, ⟨3, 4, 1, [7]⟩], 8⟩ = .ok s ∧
      s.representatives 5 = .ok ids ∧ ids.length ≤ 5 ∧ ids.Nodup ∧
      positions.Pairwise (· < ·) ∧ List.Forall₂ (s.Hits 5) positions ids := by
  obtain ⟨s, hs, hc, ha⟩ := exists_ofSnapshot (a := ⟨0.1⟩) (⟨[40, 0], 0⟩ : CyclicLevels)
    (⟨[true], 0⟩ : CyclicBits) (by decide +kernel)
    (t := ⟨[⟨-5, 1, 0, []⟩, ⟨-5, 2, 8, [9, 9]⟩, ⟨2, 1, 0, [4, 9]⟩, ⟨3, 4, 1, [7]⟩], 8⟩) (by decide)
  have hn : s.n = 8 := hc.count
  obtain ⟨es, -, ids, hes, -, hids, hlength, hnodup, -, hup⟩ :=
    (Reachable.loaded hs).representatives_in_order 5
  cases hc.entries.symm.trans hes
  obtain ⟨positions, hpositions, hhits, -⟩ :=
    hup (by decide +kernel) (by rw [hn]; decide +kernel) (by decide)
  exact ⟨s, ids, positions, hs, hids, hlength, hnodup, hpositions, hhits⟩

end Summary
end StreamQuantiles
