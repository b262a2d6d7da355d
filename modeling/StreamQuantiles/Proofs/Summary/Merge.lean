import StreamQuantiles.Proofs.Summary.Record
import StreamQuantiles.Summary.Record

/-! A merge of stores leaves the entries that a merge of the lists leaves. -/
namespace StreamQuantiles

namespace Entries

variable {es es' as bs xs ys zs : List Entry} {e : Entry}

/-- The entries of both lists in ascending order, those of the first list first among equals. -/
def merged (es es' : List Entry) : List Entry := es.merge es' fun a b => a.value ≤ b.value

lemma Sorted.merged (ha : Sorted as) (hb : Sorted bs) : Sorted (merged as bs) := by
  have htrans : ∀ a b c : Entry,
      decide (a.value ≤ b.value) → decide (b.value ≤ c.value) → decide (a.value ≤ c.value) := by
    intro a b c hab hbc
    exact decide_eq_true (Int64.le_trans (of_decide_eq_true hab) (of_decide_eq_true hbc))
  have htotal : ∀ a b : Entry, (decide (a.value ≤ b.value) || decide (b.value ≤ a.value)) = true := by
    intro a b
    simpa using Int64.le_total a.value b.value
  have hm := List.pairwise_merge htrans htotal as bs (ha.imp decide_eq_true) (hb.imp decide_eq_true)
  exact hm.imp of_decide_eq_true

lemma merged_perm : (merged as bs).Perm (as ++ bs) := List.merge_perm_append _

lemma merged_cons_left (h : ∀ b ∈ bs, e.value ≤ b.value) : merged (e :: as) bs = e :: merged as bs := by
  cases bs with
  | nil => simp [merged]
  | cons b bs => exact List.cons_merge_cons_pos _ _ _ (by simpa using h b (by simp))

lemma merged_cons_right (h : ∀ a ∈ as, ¬ a.value ≤ e.value) :
    merged as (e :: bs) = e :: merged as bs := by
  cases as with
  | nil => simp [merged]
  | cons a as => exact List.cons_merge_cons_neg _ _ _ (by simpa using h a (by simp))

lemma merged_append_left (h : ∀ a ∈ xs, ∀ b ∈ bs, a.value ≤ b.value) :
    merged (xs ++ as) bs = xs ++ merged as bs := by
  induction xs with
  | nil => rfl
  | cons x xs ih =>
    rw [List.cons_append, merged_cons_left (h x (by simp)), ih fun a ha => h a (by simp [ha])]
    rfl

/-- Placing the first of the entries that come in, and then the others. -/
lemma merged_placeBy (ha : Sorted as) (hb : Sorted (e :: bs)) :
    merged (placeBy Entry.value e as) bs = merged as (e :: bs) := by
  have hsplit := List.takeWhile_append_dropWhile
    (p := fun a : Entry => decide (a.value ≤ e.value)) (l := as)
  have hlow : ∀ a ∈ as.takeWhile (·.value ≤ e.value), a.value ≤ e.value :=
    fun a h => key_le_of_mem_takeWhile Entry.value h
  have hhigh : ∀ a ∈ as.dropWhile (·.value ≤ e.value), ¬ a.value ≤ e.value :=
    fun a h => not_key_le_of_mem_dropWhile Entry.value ha h
  obtain ⟨he, -⟩ := List.pairwise_cons.1 hb
  have hleft : ∀ bs' : List Entry, (∀ b ∈ bs', e.value ≤ b.value) →
      ∀ a ∈ as.takeWhile (·.value ≤ e.value), ∀ b ∈ bs', a.value ≤ b.value :=
    fun bs' h a ha b hb => Int64.le_trans (hlow a ha) (h b hb)
  unfold placeBy
  rw [merged_append_left (hleft bs he), merged_cons_left he, ← merged_cons_right hhigh,
    ← merged_append_left (hleft (e :: bs) (by simpa using he)), hsplit]

/-- What a merge gives first comes first in one of the lists. -/
lemma eq_cons_of_merged_eq_cons (h : merged as bs = e :: zs) :
    (∃ as', as = e :: as' ∧ merged as' bs = zs) ∨ ∃ bs', bs = e :: bs' ∧ merged as bs' = zs := by
  cases as with
  | nil =>
    rw [merged, List.nil_merge] at h
    exact .inr ⟨zs, h, by rw [merged, List.nil_merge]⟩
  | cons a as =>
    cases bs with
    | nil =>
      rw [merged, List.merge_right] at h
      obtain ⟨rfl, rfl⟩ := List.cons.inj h
      exact .inl ⟨as, rfl, by rw [merged, List.merge_right]⟩
    | cons b bs =>
      rw [merged, List.cons_merge_cons] at h
      split at h
      · obtain ⟨rfl, rfl⟩ := List.cons.inj h
        exact .inl ⟨as, rfl, rfl⟩
      · obtain ⟨rfl, rfl⟩ := List.cons.inj h
        exact .inr ⟨bs, rfl, rfl⟩

/-- A cut through a merge cuts both lists. -/
lemma exists_cut_of_merged (h : merged as bs = xs ++ ys) :
    ∃ as₁ as₂ bs₁ bs₂, as = as₁ ++ as₂ ∧ bs = bs₁ ++ bs₂ ∧ xs.Perm (as₁ ++ bs₁) ∧
      merged as₂ bs₂ = ys := by
  induction xs generalizing as bs with
  | nil => exact ⟨[], as, [], bs, rfl, rfl, .refl _, h⟩
  | cons x xs ih =>
    rcases eq_cons_of_merged_eq_cons h with ⟨as', rfl, h'⟩ | ⟨bs', rfl, h'⟩
    · obtain ⟨as₁, as₂, bs₁, bs₂, rfl, rfl, hp, hm⟩ := ih h'
      exact ⟨x :: as₁, as₂, bs₁, bs₂, rfl, rfl, hp.cons x, hm⟩
    · obtain ⟨as₁, as₂, bs₁, bs₂, rfl, rfl, hp, hm⟩ := ih h'
      exact ⟨as₁, as₂, x :: bs₁, bs₂, rfl, rfl, (hp.cons x).trans List.perm_middle.symm, hm⟩

end Entries

open Entries

variable {σ κ σ' κ' : Type} [LevelSource σ] {store : Skiplist Entry σ} {es es' : List Entry}

lemma Cell.items_place (c : Cell Entry) (cells : List (Cell Entry)) :
    (c.place cells).map Cell.item = placeBy Entry.value c.item (cells.map Cell.item) := by
  rw [placeBy_map]
  rfl

lemma Skiplist.Holds.exists_insert (hs : store.Holds es) (ha : Sorted es) (e : Entry) :
    ∃ h store', store.insert e = .ok (h, store') ∧ store'.Holds (placeBy Entry.value e es) := by
  obtain ⟨cells, hr, rfl⟩ := hs
  obtain ⟨h, store', levels, hins, -, hr'⟩ := hr.exists_insert (Cell.ascending_iff.2 ha) e
  exact ⟨h, store', hins, _, hr', Cell.items_place ⟨h, e, levels⟩ cells⟩

namespace Summary

/-- Entries put in one after another leave the merge of both lists. -/
theorem insertEntries_eq_ok (hs : store.Holds es) (ha : Sorted es) (ha' : Sorted es') :
    ∃ store', insertEntries store es' = .ok store' ∧ store'.Holds (merged es es') := by
  induction es' generalizing store es with
  | nil => exact ⟨store, rfl, by rwa [merged, List.merge_right]⟩
  | cons e es' ih =>
    obtain ⟨h, store₁, hins, hs₁⟩ := hs.exists_insert ha e
    obtain ⟨store₂, hrest, hs₂⟩ := ih hs₁ (pairwise_placeBy Entry.value ha) (List.Pairwise.of_cons ha')
    rw [merged_placeBy ha ha'] at hs₂
    refine ⟨store₂, ?_, hs₂⟩
    change (do
      let store ← (do return (← store.insert e).2)
      insertEntries store es') = _
    rw [hins, ok_bind]
    exact hrest

variable [Coin κ] {s : Summary σ κ} {other : Summary σ' κ'}

/-- What answers is no fault. -/
lemma liftM_ok {α : Type} (a : α) :
    (liftM (Except.ok a : Except Fault α) : Except Error α) = .ok a := rfl

/-- An empty summary changes nothing. -/
theorem merge_empty (h : other.isEmpty) : s.merge other = .ok s := by
  rw [merge, if_pos h]

/-- A merge is a compression of the entries of both, as long as the counts together fit a word. -/
lemma merge_eq_compress (hs : s.store.Holds es) (ha : Sorted es) (ho : other.store.Holds es')
    (ha' : Sorted es') (hne : ¬ other.isEmpty) (hc : s.accuracy.compatible other.accuracy)
    (hn : s.n.toNat + other.n.toNat < 2 ^ 64) :
    ∃ store, store.Holds (merged es es') ∧
      s.merge other = liftM (compress { s with n := s.n + other.n, store }) := by
  obtain ⟨store, hins, hh⟩ := insertEntries_eq_ok hs ha ha'
  have hadd : Count.add s.n other.n = .ok (s.n + other.n) := Count.add_eq_ok hn
  have hentries : other.entries = .ok es' := ho.items
  refine ⟨store, hh, ?_⟩
  rw [merge, if_neg hne, if_neg (by simpa using hc), hadd, hentries]
  simp only [liftM_ok, ok_bind, hins]

/-- A merge answers, as long as the mass of the entries and the counts together fit a word. -/
theorem merge_eq_ok (hs : s.store.Holds es) (ha : Sorted es) (ho : other.store.Holds es')
    (ha' : Sorted es') (hne : ¬ other.isEmpty) (hc : s.accuracy.compatible other.accuracy)
    (hm : mass es + mass es' < 2 ^ 64) (hn : s.n.toNat + other.n.toNat < 2 ^ 64) :
    ∃ store,
      s.merge other = .ok { s with
        store
        n := s.n + other.n
        coin := (compressed (s.accuracy.budget (s.n + other.n)) (merged es es') s.coin).2 } ∧
      store.Holds (compressed (s.accuracy.budget (s.n + other.n)) (merged es es') s.coin).1 := by
  obtain ⟨store, hh, hmerge⟩ := merge_eq_compress hs ha ho ha' hne hc hn
  have hmass : mass (merged es es') = mass es + mass es' := by
    rw [mass_perm merged_perm, mass_append]
  obtain ⟨store', hcomp, hh'⟩ :=
    compress_eq_ok (s := { s with store, n := s.n + other.n }) hh (by omega)
  refine ⟨store', ?_, hh'⟩
  rw [hmerge, hcomp, liftM_ok]
  rfl

/-- A merge whose counts together do not fit a word fails. -/
theorem merge_eq_error (hne : ¬ other.isEmpty) (hc : s.accuracy.compatible other.accuracy)
    (hn : 2 ^ 64 ≤ s.n.toNat + other.n.toNat) : s.merge other = .error (.fault .overflow) := by
  rw [merge, if_neg hne, if_neg (by simpa using hc), Count.add_eq_error hn]
  rfl

end Summary
end StreamQuantiles
