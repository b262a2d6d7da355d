import StreamQuantiles.Proofs.Quantile
import StreamQuantiles.Proofs.Summary.Ranks
import StreamQuantiles.Summary.Query

/-! How far the answer to a quantile may be from its target rank. The walk passes an entry only
while its greatest rank is within reach of the target, so where it stops the entry behind is not
too high, and the one ahead is not too far. -/
namespace StreamQuantiles

open Entries

variable {M : Multiset Measurement} {b c : Nat} {target slack : Count}

/-- A value whose rank is near a target: at most `slack` below it, and above it by no more than
`slack`, or than what the budget leaves. -/
structure Near (target slack b c : Nat) (M : Multiset Measurement) (v : Measurement) : Prop where
  observed : v ∈ M
  reached : target ≤ M.countP (· ≤ v) + slack
  close : M.countP (· < v) = 0 ∨ M.countP (· < v) + 1 ≤ target + slack + c ∨
    M.countP (· < v) + 1 + slack ≤ target + b + c

namespace Quantile

section

variable {done rest : List Entry} {cur next : Entry}

/-- An entry that is not too high is near once its least rank reaches the target. -/
lemma near_of_reached {target slack : Nat} (hr : Ranks b c M (done ++ cur :: rest))
    (hcur : M.countP (· < cur.value) = 0 ∨ M.countP (· < cur.value) + 1 ≤ target + slack + c)
    (ht : target ≤ mass done + cur.g.toNat + slack) : Near target slack b c M cur.value where
  observed := hr.observed cur (by simp)
  reached := by
    have hleast := (hr.ranked done cur rest rfl).least
    omega
  close := hcur.imp_right .inl

/-- The entry ahead is near where its greatest rank may lie beyond the target and the least rank of
the one behind does not reach it. -/
lemma near_of_passed {target slack : Nat} (hr : Ranks b c M (done ++ cur :: next :: rest))
    (hstop : target + slack < mass done + cur.g.toNat + next.g.toNat + next.delta.toNat)
    (hfar : mass done + cur.g.toNat + slack < target) (hb : b ≤ 2 * slack + 1) :
    Near target slack b c M next.value := by
  obtain ⟨hdelta, hleast, -, hgap⟩ := hr.ranked (done ++ [cur]) next rest (by simp)
  rw [if_neg (by simp)] at hgap
  simp only [mass_append, mass_cons, mass_nil] at hleast hgap
  exact ⟨hr.observed next (by simp), by omega, .inr (.inr (by omega))⟩

/-- The least rank of an entry is no larger than the number of observations, so it fits a word. -/
lemma toNat_least {passed : Count} (hr : Ranks b c M (done ++ cur :: rest)) (hM : M.card < 2 ^ 64)
    (hp : passed.toNat = mass done) :
    (Count.addSat passed cur.g).toNat = mass done + cur.g.toNat := by
  have htotal := hr.total
  simp only [mass_append, mass_cons] at htotal
  rw [Count.toNat_addSat, hp]
  omega

/-- The walk from an entry that is not too high. -/
lemma exists_walk {passed : Count} (hr : Ranks b c M (done ++ cur :: rest)) (hM : M.card < 2 ^ 64)
    (hp : passed.toNat = mass done) (ht : target.toNat ≤ M.card) (hb : b ≤ 2 * slack.toNat + 1)
    (hcur : M.countP (· < cur.value) = 0 ∨
      M.countP (· < cur.value) + 1 ≤ target.toNat + slack.toNat + c) :
    ∃ e, (cur :: rest)[walk target slack passed (cur :: rest)]? = some e ∧
      Near target.toNat slack.toNat b c M e.value := by
  induction rest generalizing done cur passed with
  | nil =>
    have htotal := hr.total
    rw [mass_append, mass_cons, mass_nil] at htotal
    exact ⟨cur, rfl, near_of_reached hr hcur (by omega)⟩
  | cons next rest ih =>
    have hleast := toNat_least hr hM hp
    rw [walk]
    split
    · next hstop =>
      simp only [UInt64.lt_iff_toNat_lt, Count.toNat_addSat, hleast] at hstop
      split
      · next hnear =>
        rw [UInt64.le_iff_toNat_le, Count.toNat_addSat, hleast] at hnear
        exact ⟨cur, rfl, near_of_reached hr hcur (by omega)⟩
      · next hfar =>
        rw [UInt64.le_iff_toNat_le, Count.toNat_addSat, hleast] at hfar
        exact ⟨next, rfl, near_of_passed hr (by omega) (by omega) hb⟩
    · next hpass =>
      simp only [UInt64.lt_iff_toNat_lt, Count.toNat_addSat, hleast] at hpass
      have hr' : Ranks b c M ((done ++ [cur]) ++ next :: rest) := by simpa using hr
      have hgreatest := (hr'.ranked (done ++ [cur]) next rest rfl).greatest
      have hcard := countP_lt_lt_card (hr.observed next (by simp))
      simp only [mass_append, mass_cons, mass_nil] at hgreatest
      -- the sums may have stopped at the largest word, which no rank is above
      exact ih hr' (by simpa using hleast) (.inr (by omega))

end

variable {a : Accuracy} {n : Count} {q : Float} {es : List Entry}

/-- Among entries that know their ranks, one whose rank is near answers. -/
theorem exists_entry (hr : Ranks b c M es) (hpos : 0 < M.card) (hM : M.card < 2 ^ 64)
    (h₀ : 0.0 < q) (h₁ : q < 1.0) (ht : (targetRank q n).toNat ≤ M.card)
    (hb : b ≤ 2 * (a.slack n).toNat + 1) :
    ∃ e, entry? a n q es = some e ∧
      Near (targetRank q n).toNat (a.slack n).toNat b c M e.value := by
  cases es with
  | nil =>
    have htotal := hr.total
    rw [mass_nil] at htotal
    omega
  | cons e es =>
    have hr : Ranks b c M ([] ++ e :: es) := hr
    have hgap := (hr.ranked [] e es rfl).gap
    have hfirst : M.countP (· < e.value) = 0 := Nat.eq_zero_of_le_zero hgap
    have hstart : (0 : Count).toNat = mass [] := rfl
    obtain ⟨f, hf, hnear⟩ := exists_walk hr hM hstart ht hb (.inl hfirst)
    refine ⟨f, ?_, hnear⟩
    rw [entry?_eq_bind, position?_eq_walk (by simp) h₀ h₁]
    exact hf

end Quantile

namespace Summary

variable {σ κ : Type} {s : Summary σ κ} {es : List Entry} {q : Float}

/-- A query answers with the value of an entry whose rank is near. -/
theorem exists_query (hs : s.store.Holds es) (hr : Ranks b c M es) (hpos : 0 < M.card)
    (hM : M.card < 2 ^ 64) (h₀ : 0.0 < q) (h₁ : q < 1.0)
    (ht : (Quantile.targetRank q s.n).toNat ≤ M.card)
    (hb : b ≤ 2 * (s.accuracy.slack s.n).toNat + 1) :
    ∃ answer, s.query q = .ok (some answer) ∧
      Near (Quantile.targetRank q s.n).toNat (s.accuracy.slack s.n).toNat b c M answer.value := by
  obtain ⟨e, he, hnear⟩ := Quantile.exists_entry (a := s.accuracy) hr hpos hM h₀ h₁ ht hb
  refine ⟨e.estimate, ?_, hnear⟩
  have hentries : s.entries = .ok es := hs.items
  unfold query
  rw [hentries, ok_bind, he]
  rfl

end Summary
end StreamQuantiles
