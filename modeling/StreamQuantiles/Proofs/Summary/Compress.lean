import StreamQuantiles.Proofs.Store.Removal
import StreamQuantiles.Proofs.Summary.Entries

/-! A compression of the store leaves the entries that a compression of the list leaves. -/
namespace StreamQuantiles
namespace Summary

open Entries

variable {σ κ : Type} {s : Summary σ κ} {pre post : List (Cell Entry)}
  {c d : Cell Entry}

lemma pin_eq_ok (hr : s.store.Represents (pre ++ c :: post)) :
    ∃ store, s.pin (some c.handle) = .ok { s with store } ∧
      store.Represents (pre ++ { c with item := c.item.exact } :: post) := by
  obtain ⟨store, hs, hr'⟩ := hr.exists_modify Entry.exact
  refine ⟨store, ?_, hr'⟩
  change (do return { s with store := ← s.store.modify c.handle Entry.exact }) = _
  rw [hs]
  rfl

/-- Pinning the first entry and then the last. -/
lemma exists_pin_ends {cells : List (Cell Entry)} (hr : s.store.Represents cells) :
    ∃ store, (do let s ← s.pin s.store.first; s.pin s.store.last) = .ok { s with store } ∧
      store.Holds (pinned (cells.map Cell.item)) := by
  have hhead : ∃ store cells', s.pin s.store.first = .ok { s with store } ∧
      store.Represents cells' ∧
      cells'.map Cell.item = (cells.map Cell.item).modifyHead Entry.exact := by
    rw [hr.first]
    cases cells with
    | nil => exact ⟨s.store, [], rfl, hr, rfl⟩
    | cons c rest =>
      have hr : s.store.Represents ([] ++ c :: rest) := hr
      obtain ⟨store, hs, hr'⟩ := pin_eq_ok hr
      exact ⟨store, _, hs, hr', rfl⟩
  obtain ⟨store, cells', hs, hr', hcells'⟩ := hhead
  rw [hs, ok_bind]
  change ∃ store', pin store.tail { s with store } = _ ∧ _
  rw [hr'.tail]
  unfold pinned
  rw [← hcells']
  rcases List.eq_nil_or_concat cells' with rfl | ⟨pre, c, rfl⟩
  · exact ⟨store, rfl, [], hr', rfl⟩
  · rw [List.concat_eq_append] at hr' ⊢
    obtain ⟨store', hs', hr''⟩ := pin_eq_ok (s := { s with store }) hr'
    refine ⟨store', ?_, _, hr'', ?_⟩
    · rw [← hs', List.map_append, List.map_singleton, List.getLast?_concat]
    · simp [List.modifyLast_concat]

variable [Coin κ]

/-- The entry ahead takes over an entry, as long as their mass fits a word. -/
lemma absorb_eq_ok (hr : s.store.Represents (pre ++ c :: d :: post))
    (hm : c.item.g.toNat + d.item.g.toNat < 2 ^ 64) :
    ∃ store, s.absorb c.handle d.handle = .ok { s with store, coin := (Coin.flip s.coin).2 } ∧
      store.Represents
        (pre ++ { d with item := c.item.foldInto d.item (Coin.flip s.coin).1 } :: post) := by
  obtain ⟨store, hs, hr'⟩ := hr.exists_remove
  obtain ⟨store', hs', hr''⟩ :=
    hr'.exists_modify fun e => c.item.foldInto { e with g := d.item.g } (Coin.flip s.coin).1
  have hadd : Count.add d.item.g c.item.g = .ok (d.item.g + c.item.g) :=
    Count.add_eq_ok (by omega)
  refine ⟨store', ?_, hr''⟩
  unfold absorb
  rw [hs, ok_bind]
  change (do
    let target ← store.get d.handle
    let g ← Count.add target.g c.item.g
    let store ← store.modify d.handle fun e =>
      { e with g, samples := if (Coin.flip s.coin).1 then c.item.samples else e.samples }
    return { s with store, coin := (Coin.flip s.coin).2 }) = _
  rw [hr'.get (by simp), ok_bind, hadd, ok_bind]
  exact congrArg (· >>= fun store => .ok { s with store, coin := (Coin.flip s.coin).2 }) hs'

/-- A sweep takes an entry into the next one, or goes past it, as the budget has it. -/
lemma foldOrPass_eq (budget : Count) (hr : s.store.Represents (pre ++ c :: d :: post)) :
    s.foldOrPass budget c.handle d.handle =
      if Folds budget pre.isEmpty c.item d.item then s.absorb c.handle d.handle else .ok s := by
  have hprev : s.store.prev c.handle = .ok (pre.map Cell.handle).getLast? := hr.prev
  have hfirst : (pre.map Cell.handle).getLast?.isNone = pre.isEmpty := by
    cases pre <;> simp
  unfold foldOrPass
  rw [hprev, ok_bind, hr.get (by simp), ok_bind, hr.get (by simp), ok_bind, hfirst]
  rfl

/-- At the last entry a sweep is over. -/
lemma sweep_last (budget : Count) (hr : s.store.Represents (pre ++ [c])) (fuel : ℕ) :
    s.sweep budget fuel c.handle = .ok s := by
  have hnext : s.store.next c.handle = .ok none := hr.next
  unfold sweep
  rw [hnext]
  rfl

/-- Otherwise it goes on from the successor, as long as there is fuel. -/
lemma sweep_next (budget : Count) (hr : s.store.Represents (pre ++ c :: d :: post)) (fuel : ℕ) :
    s.sweep budget (fuel + 1) c.handle =
      s.foldOrPass budget c.handle d.handle >>= sweep budget fuel d.handle := by
  have hnext : s.store.next c.handle = .ok (some d.handle) := hr.next
  rw [sweep, hnext]
  rfl

/-- A sweep from an entry on answers and leaves the entries that the list says. -/
lemma sweep_eq_ok (budget : Count) {done rest : List (Cell Entry)} {fuel : ℕ}
    (hr : s.store.Represents (done ++ c :: rest)) (hfuel : rest.length ≤ fuel)
    (hm : mass ((done ++ c :: rest).map Cell.item) < 2 ^ 64) :
    ∃ store cells,
      s.sweep budget fuel c.handle =
        .ok { s with
          store
          coin := (swept budget done.isEmpty c.item (rest.map Cell.item) s.coin).2 } ∧
      store.Represents (done ++ cells) ∧
      cells.map Cell.item = (swept budget done.isEmpty c.item (rest.map Cell.item) s.coin).1 := by
  induction rest generalizing done c s fuel with
  | nil => exact ⟨s.store, [c], sweep_last budget hr fuel, hr, rfl⟩
  | cons d rest ih =>
    obtain ⟨fuel, rfl⟩ : ∃ k, fuel = k + 1 := Nat.exists_eq_succ_of_ne_zero (by
      rintro rfl
      cases hfuel)
    have hfuel : rest.length ≤ fuel := Nat.le_of_succ_le_succ hfuel
    rw [sweep_next budget hr, foldOrPass_eq budget hr, List.map_cons]
    by_cases hf : Folds budget done.isEmpty c.item d.item
    · rw [if_pos hf, swept_of_folds hf]
      simp only [List.map_append, List.map_cons, mass_append, mass_cons] at hm
      obtain ⟨store, hs, hr'⟩ := absorb_eq_ok hr (by omega)
      rw [hs, ok_bind]
      refine ih (s := { s with store, coin := (Coin.flip s.coin).2 }) hr' hfuel ?_
      simp only [List.map_append, List.map_cons, mass_append, mass_cons]
      rw [toNat_foldInto (by omega)]
      omega
    · rw [if_neg hf, swept_of_not_folds hf, ok_bind]
      have hnext : s.store.Represents ((done ++ [c]) ++ d :: rest) := by simpa using hr
      obtain ⟨store, cells, hs, hr', hcells⟩ := ih hnext hfuel (by simpa using hm)
      have hempty : (done ++ [c]).isEmpty = false := by simp
      rw [hempty] at hs hcells
      refine ⟨store, c :: cells, hs, by simpa using hr', ?_⟩
      rw [List.map_cons, hcells]

/-- A compression answers and changes nothing but the entries and the coin. -/
theorem compress_eq_ok {es : List Entry} (hs : s.store.Holds es) (hm : mass es < 2 ^ 64) :
    ∃ store, s.compress = .ok { s with store, coin := (compressed s.budget es s.coin).2 } ∧
      store.Holds (compressed s.budget es s.coin).1 := by
  obtain ⟨cells, hr, rfl⟩ := hs
  unfold compress
  rw [hr.first]
  cases cells with
  | nil => exact ⟨s.store, rfl, [], hr, rfl⟩
  | cons c rest =>
    have hfuel : rest.length ≤ s.store.nodes.size := Nat.le_of_succ_le hr.length_le
    have hr : s.store.Represents ([] ++ c :: rest) := hr
    obtain ⟨store, cells, hs, hr', hcells⟩ := sweep_eq_ok s.budget hr hfuel hm
    change ∃ store, (s.sweep s.budget s.store.nodes.size c.handle >>= fun s => _) = _ ∧ _
    rw [hs, ok_bind]
    obtain ⟨store', hs', hh⟩ := exists_pin_ends (s := { s with
      store
      coin := (swept s.budget true c.item (rest.map Cell.item) s.coin).2 }) hr'
    refine ⟨store', hs', ?_⟩
    rw [List.nil_append, hcells] at hh
    exact hh

end Summary
end StreamQuantiles
