import StreamQuantiles.Proofs.Summary.Reachable

/-! Answers to quantiles follow the entries. That holds whatever the entries say about their
greatest ranks, as those of a snapshot that was taken in may say anything. -/
namespace StreamQuantiles

lemma Entries.Sorted.le_of_getElem? {es : List Entry} {i j : Nat} {e e' : Entry} (h : Sorted es)
    (hij : i ≤ j) (he : es[i]? = some e) (he' : es[j]? = some e') : e.value ≤ e'.value := by
  obtain ⟨hi, rfl⟩ := List.getElem?_eq_some_iff.1 he
  obtain ⟨hj, rfl⟩ := List.getElem?_eq_some_iff.1 he'
  rcases hij.eq_or_lt with rfl | hlt
  · exact Int64.le_refl _
  · exact List.pairwise_iff_getElem.1 h i j hi hj hlt

namespace Summary

variable {σ κ : Type} {s : Summary σ κ} {t : Snapshot} {q q₁ q₂ : Float} {i : Nat}

/-- The entry `e` at position `i` answers for the quantile `q`. -/
structure AnswersAt (s : Summary σ κ) (q : Float) (i : Nat) (e : Entry) : Prop where
  position : ∃ es, s.entries = .ok es ∧ Quantile.position? s.accuracy s.n q es = some i ∧
    es[i]? = some e
  query : s.query q = .ok (some e.estimate)
  quantile : s.quantile q = .ok (some e.value)

lemma Contains.exists_answersAt (h : s.Contains t)
    (hi : Quantile.position? s.accuracy s.n q t.data = some i) :
    ∃ e, t.data[i]? = some e ∧ s.AnswersAt q i e := by
  obtain ⟨e, he⟩ : ∃ e, t.data[i]? = some e :=
    ⟨_, List.getElem?_eq_getElem (Quantile.position?_lt_length hi)⟩
  have hquery : s.query q = .ok (some e.estimate) := by
    rw [h.query_eq, Quantile.entry?_eq_bind, hi, Option.bind_some, he]
    rfl
  refine ⟨e, he, ⟨_, h.entries, hi, he⟩, hquery, ?_⟩
  unfold quantile
  rw [hquery]
  rfl

variable [LevelSource σ] [Coin κ]

/-- Of two quantiles the larger is answered by the same entry or a later one, and so with no smaller
a value, wherever its target rank is no smaller. -/
theorem Reachable.query_mono (hr : Reachable s) (hne : ¬ s.isEmpty) (hq : q₁ ≤ q₂)
    (ht : Quantile.targetRank q₁ s.n ≤ Quantile.targetRank q₂ s.n) :
    ∃ i j e₁ e₂, s.AnswersAt q₁ i e₁ ∧ s.AnswersAt q₂ j e₂ ∧ i ≤ j ∧ e₁.value ≤ e₂.value := by
  obtain ⟨-, t, hc⟩ := hr.exists_contains
  have hentries : t.data ≠ [] := fun hnil => hne (beq_iff_eq.2 (hc.n_eq_zero_iff.2 hnil))
  obtain ⟨i, j, hi, hj, hij⟩ := Quantile.position?_mono (a := s.accuracy) hentries hq ht
  obtain ⟨e₁, he₁, h₁⟩ := hc.exists_answersAt hi
  obtain ⟨e₂, he₂, h₂⟩ := hc.exists_answersAt hj
  have hs : Entries.Sorted t.data := hc.consistent.ascending
  exact ⟨i, j, e₁, e₂, h₁, h₂, hij, hs.le_of_getElem? hij he₁ he₂⟩

/-- The greatest rank of the second entry may lie beyond that of the third. -/
theorem Reachable.query_mono_of_restored :
    ∃ (s : Summary CyclicLevels CyclicBits) (i j : Nat) (e₁ e₂ : Entry),
      ofSnapshot ⟨0.1⟩ ⟨[40, 0], 0⟩ ⟨[true], 0⟩
        ⟨[⟨-5, 1, 0, []⟩, ⟨-5, 2, 8, [9]⟩, ⟨2, 1, 0, [4, 4]⟩, ⟨3, 4, 1, []⟩], 8⟩ = .ok s ∧
      s.AnswersAt 0.3 i e₁ ∧ s.AnswersAt 0.7 j e₂ ∧ i ≤ j ∧ e₁.value ≤ e₂.value := by
  obtain ⟨s, hs, hc, ha⟩ := exists_ofSnapshot (a := ⟨0.1⟩) (⟨[40, 0], 0⟩ : CyclicLevels)
    (⟨[true], 0⟩ : CyclicBits) (by decide +kernel)
    (t := ⟨[⟨-5, 1, 0, []⟩, ⟨-5, 2, 8, [9]⟩, ⟨2, 1, 0, [4, 4]⟩, ⟨3, 4, 1, []⟩], 8⟩) (by decide)
  have hn : s.n = 8 := hc.count
  have hne : ¬ s.isEmpty := by
    rw [isEmpty, hn]
    decide
  have hq : (0.3 : Float) ≤ 0.7 := by decide +kernel
  obtain ⟨i, j, e₁, e₂, hanswers⟩ := (Reachable.loaded hs).query_mono hne hq
    (by rw [hn]; decide +kernel)
  exact ⟨s, i, j, e₁, e₂, hs, hanswers⟩

end Summary
end StreamQuantiles
