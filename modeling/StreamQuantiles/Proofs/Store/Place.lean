import Mathlib.Data.List.TakeWhile
import Mathlib.Tactic.Lemma

/-! The place of a further element in a list that ascends in a key: behind every element whose key
is at most its own, so that elements of equal key stand in the order they came. -/
namespace StreamQuantiles

variable {α β ι : Type} [LE ι] [DecidableLE ι] (key : α → ι) {bound : ι} {xs : List α} {x y : α}

/-- The list with a further element in its place. -/
def placeBy (x : α) (xs : List α) : List α :=
  xs.takeWhile (fun y => key y ≤ key x) ++ x :: xs.dropWhile fun y => key y ≤ key x

lemma placeBy_map (key : β → ι) (f : α → β) :
    placeBy key (f x) (xs.map f) = (placeBy (fun y => key (f y)) x xs).map f := by
  simp only [placeBy, List.takeWhile_map, List.dropWhile_map, List.map_append, List.map_cons]
  rfl

lemma key_le_of_mem_takeWhile (h : y ∈ xs.takeWhile fun y => key y ≤ bound) : key y ≤ bound := by
  have := List.mem_takeWhile_imp h
  exact of_decide_eq_true this

variable [Std.IsLinearPreorder ι]

lemma not_key_le_of_mem_dropWhile (ha : xs.Pairwise fun y z => key y ≤ key z)
    (h : y ∈ xs.dropWhile fun y => key y ≤ bound) : ¬ key y ≤ bound := by
  induction xs with
  | nil => cases h
  | cons x xs ih =>
    obtain ⟨hx, ha⟩ := List.pairwise_cons.1 ha
    rw [List.dropWhile_cons] at h
    split at h
    · exact ih ha h
    · next hn =>
      intro hy
      rw [decide_eq_true_eq] at hn
      rcases List.mem_cons.1 h with rfl | h
      · exact hn hy
      · exact hn (Std.IsPreorder.le_trans _ _ _ (hx y h) hy)

theorem pairwise_placeBy (ha : xs.Pairwise fun y z => key y ≤ key z) :
    (placeBy key x xs).Pairwise fun y z => key y ≤ key z := by
  have hsplit := List.takeWhile_append_dropWhile (p := fun y => decide (key y ≤ key x)) (l := xs)
  have hp := ha
  rw [← hsplit] at hp
  obtain ⟨hl, hr, hlr⟩ := List.pairwise_append.1 hp
  refine List.pairwise_append.2 ⟨hl, List.pairwise_cons.2 ⟨fun z hz => ?_, hr⟩, fun y hy z hz => ?_⟩
  · have := not_key_le_of_mem_dropWhile key ha hz
    exact (Std.IsLinearPreorder.le_total _ _).resolve_right this
  · rcases List.mem_cons.1 hz with rfl | hz
    · exact key_le_of_mem_takeWhile key hy
    · exact hlr y hy z hz

end StreamQuantiles
