import StreamQuantiles.Proofs.Accuracy
import StreamQuantiles.Proofs.Count
import StreamQuantiles.Quantile

/-! Where in a list the entry stands that answers for a quantile. Outside the open unit interval it
is an end, and inside the walk decides. A larger target takes the walk as far or further: it passes
whatever a smaller one does, and takes the lower entry of a pair only where the smaller one does. -/
namespace StreamQuantiles
namespace Quantile

variable {a : Accuracy} {n : Count} {q q₁ q₂ : Float} {es : List Entry}

lemma entry?_eq_bind : entry? a n q es = (position? a n q es).bind fun i => es[i]? := rfl

/-- A number has a position among entries. -/
lemma position?_eq (hq : q.isNaN = false) (hne : es ≠ []) :
    position? a n q es = some (if q ≤ 0.0 then 0 else if 1.0 ≤ q then es.length - 1
      else walk (targetRank q n) (a.slack n) 0 es) := by
  have hempty : (q.isNaN || es.isEmpty) = false := by
    rw [hq]
    simpa using hne
  rw [position?, hempty, if_neg (by decide), apply_ite some, apply_ite some]

/-- Inside the open unit interval the walk decides. -/
lemma position?_eq_walk (hne : es ≠ []) (h₀ : 0.0 < q) (h₁ : q < 1.0) :
    position? a n q es = some (walk (targetRank q n) (a.slack n) 0 es) := by
  rw [position?_eq (isNaN_eq_false_of_lt h₀) hne, if_neg (not_float_le_of_lt h₀),
    if_neg (not_float_le_of_lt h₁)]

/-- Some entry answers for a number, unless there is none. -/
lemma exists_entry? (hq : q.isNaN = false) (hne : es ≠ []) :
    ∃ i e, position? a n q es = some i ∧ es[i]? = some e ∧ entry? a n q es = some e := by
  have hi := position?_eq (a := a) (n := n) hq hne
  have hget := List.getElem?_eq_getElem (position?_lt_length hi)
  exact ⟨_, _, hi, hget, by rw [entry?_eq_bind, hi]; exact hget⟩

lemma entry?_eq_none_iff (hq : q.isNaN = false) : entry? a n q es = none ↔ es = [] := by
  constructor
  · intro h
    by_contra hne
    obtain ⟨i, e, -, -, he⟩ := exists_entry? (a := a) (n := n) hq hne
    cases he.symm.trans h
  · rintro rfl
    rw [entry?_eq_bind, position?, List.isEmpty_nil, Bool.or_true, if_pos rfl]
    rfl

/-- The walk goes no further for a smaller target. -/
lemma walk_mono {target₁ target₂ : Count} (h : target₁ ≤ target₂) (slack passed : Count)
    (es : List Entry) : walk target₁ slack passed es ≤ walk target₂ slack passed es := by
  fun_induction walk target₁ slack passed es with
  | case1 => exact Nat.zero_le _
  | case2 passed cur next rest least greatest hstop hfar =>
    rw [walk]
    split
    · rw [if_neg fun hnear => hfar (UInt64.le_trans h hnear)]
    · exact Nat.le_add_left 1 _
  | case3 passed cur next rest least greatest hpass ih =>
    -- a pair within reach of the smaller target is within reach of the larger one
    rw [walk, if_neg fun hstop => hpass (UInt64.lt_of_le_of_lt (Count.addSat_mono h slack) hstop)]
    exact Nat.succ_le_succ ih
  | case4 => exact Nat.zero_le _

/-- A larger quantile is answered from the same position or a later one. -/
theorem position?_mono (hne : es ≠ []) (hq : q₁ ≤ q₂) (ht : targetRank q₁ n ≤ targetRank q₂ n) :
    ∃ i j, position? a n q₁ es = some i ∧ position? a n q₂ es = some j ∧ i ≤ j := by
  obtain ⟨hq₁, hq₂⟩ := isNaN_eq_false_of_le hq
  have hlast : walk (targetRank q₁ n) (a.slack n) 0 es ≤ es.length - 1 :=
    Nat.le_sub_one_of_lt (walk_lt_length _ _ _ hne)
  refine ⟨_, _, position?_eq hq₁ hne, position?_eq hq₂ hne, ?_⟩
  by_cases hlow : q₁ ≤ 0.0
  · rw [if_pos hlow]
    exact Nat.zero_le _
  have hlow' : ¬ q₂ ≤ 0.0 := fun h => hlow (float_le_trans hq h)
  rw [if_neg hlow, if_neg hlow']
  by_cases hhigh : 1.0 ≤ q₂
  · rw [if_pos hhigh]
    split
    · exact Nat.le_refl _
    · exact hlast
  have hhigh' : ¬ 1.0 ≤ q₁ := fun h => hhigh (float_le_trans h hq)
  rw [if_neg hhigh, if_neg hhigh']
  exact walk_mono ht _ _ es

end Quantile
end StreamQuantiles
