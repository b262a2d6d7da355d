import StreamQuantiles.Proofs.Store.Represents

/-! An element put in or taken out: its slot changes, and then the elements to its left and right are
relinked on each of its chains. Everywhere else the chains stay as they were. -/
namespace StreamQuantiles
namespace Skiplist

variable {α σ : Type} {s : Skiplist α σ} {pre post : List (Cell α)} {h : Handle}

section

variable (hfresh : h ∉ (pre ++ post).map Cell.handle)
include hfresh

lemma not_mem_chain (k : Nat) : h ∉ Cell.chain k pre ++ Cell.chain k post := by
  rw [← Cell.chain_append]
  exact fun hm => hfresh ((Cell.chain_sublist k _).subset hm)

lemma getLast?_chain_ne (k : Nat) : (Cell.chain k pre).getLast? ≠ some h := by
  intro he
  exact not_mem_chain hfresh k (List.mem_append_left _ (List.mem_of_getLast? he))

lemma head?_chain_ne (k : Nat) : (Cell.chain k post).head? ≠ some h := by
  intro he
  exact not_mem_chain hfresh k (List.mem_append_right _ (List.mem_of_head? he))

end

/-- What stands on chain `k` of `s'` against `s`, where the slot `h` has changed and the cells around
it have been relinked up to `level`. -/
structure RelinkedAround (s s' : Skiplist α σ) (between : Joint → Joint) (pre post : List (Cell α))
    (h : Handle) (level k : Nat) : Prop where
  elsewhere : Chain.Elsewhere (s.succ k) (s'.succ k) (s.pred k) (s'.pred k)
    (Cell.chain k pre) h (Cell.chain k post)
  forward : k < level → s'.succ k (Cell.chain k pre).getLast? =
    some (between ⟨(Cell.chain k pre).getLast?, (Cell.chain k post).head?⟩).next
  backward : k < level → ∀ g, (Cell.chain k post).head? = some g → s'.pred k g =
    some (between ⟨(Cell.chain k pre).getLast?, (Cell.chain k post).head?⟩).prev
  above : level ≤ k → (∀ p, p ≠ some h → s'.succ k p = s.succ k p) ∧
    ∀ g, g ≠ h → s'.pred k g = s.pred k g

/-- The chains above those relinked are threaded as before. -/
lemma RelinkedAround.threads_above {s' : Skiplist α σ} {between : Joint → Joint} {level k : Nat}
    (ha : RelinkedAround s s' between pre post h level k) (hk : level ≤ k)
    (hfresh : h ∉ (pre ++ post).map Cell.handle)
    (ht : Chain.Threads (s.succ k) (s.pred k) (Cell.chain k pre ++ Cell.chain k post)) :
    Chain.Threads (s'.succ k) (s'.pred k) (Cell.chain k pre ++ Cell.chain k post) := by
  obtain ⟨hsucc, hpred⟩ := ha.above hk
  have hout := not_mem_chain hfresh k
  apply ht.congr
  · intro p hp
    apply hsucc
    rintro rfl
    exact hout (hp h rfl)
  · intro g hg
    apply hpred
    rintro rfl
    exact hout hg

/-- Relinking around a slot that has changed answers if the links to be written are there. At the
slot itself nothing is written. -/
theorem exists_relink_around (between : Joint → Joint) (level : Nat)
    (hfresh : h ∉ (pre ++ post).map Cell.handle)
    (hcut : ∀ k < level, (∃ link, s.succ k (Cell.chain k pre).getLast? = some link) ∧
      ∀ g, (Cell.chain k post).head? = some g → ∃ link, s.pred k g = some link)
    {nodes : Arena (Node α)} {o : Option (Node α)}
    (hc : nodes.content = Function.update s.nodes.content h o) :
    ∃ s', relink between (Cell.tower pre post level) 0 { s with nodes } = .ok s' ∧
      Relinked { s with nodes } s' ∧
      (∀ k, RelinkedAround s s' between pre post h level k) ∧
      ∀ k, s'.succ k (some h) = Skiplist.succ { s with nodes } k (some h) ∧
        s'.pred k h = Skiplist.pred { s with nodes } k h := by
  have hsucc : ∀ k p, p ≠ some h → Skiplist.succ { s with nodes } k p = s.succ k p :=
    fun k _ hp => succ_of_update hc k hp
  have hpred : ∀ k g, g ≠ h → Skiplist.pred { s with nodes } k g = s.pred k g :=
    fun k _ hg => pred_of_update hc k hg
  have hprev := getLast?_chain_ne hfresh
  have hnext : ∀ k g, (Cell.chain k post).head? = some g → g ≠ h := by
    rintro k g hg rfl
    exact head?_chain_ne hfresh k hg
  obtain ⟨s', hs', hrel, hon, hoff⟩ := exists_relink (s := { s with nodes }) between
    (Cell.tower pre post level) 0
    (fun k j hj => by
      obtain ⟨hk, rfl⟩ := Cell.getElem?_tower.1 hj
      rw [Nat.zero_add, hsucc k _ (hprev k)]
      exact (hcut k hk).1)
    (fun k j hj g hg => by
      obtain ⟨hk, rfl⟩ := Cell.getElem?_tower.1 hj
      rw [Nat.zero_add, hpred k g (hnext k g hg)]
      exact (hcut k hk).2 g hg)
  simp only [Nat.zero_add, Cell.length_tower] at hon hoff
  refine ⟨s', hs', hrel, fun k => ?_, fun k => ?_⟩
  · by_cases hk : k < level
    · obtain ⟨h1, h2⟩ := hon k _ (Cell.getElem?_tower.2 ⟨hk, rfl⟩)
      refine ⟨⟨fun p hp hph => ?_, fun g hg hgh => ?_⟩, fun _ => ?_, fun _ g hg => ?_, fun hle => ?_⟩
      · rw [h1, if_neg hp, hsucc k p hph]
      · rw [h2, if_neg (Ne.symm hg), hpred k g hgh]
      · rw [h1, if_pos rfl]
      · rw [h2, if_pos hg.symm]
      · omega
    · obtain ⟨h1, h2⟩ := hoff k (.inr (Nat.le_of_not_lt hk))
      refine ⟨⟨fun p _ hph => ?_, fun g _ hgh => ?_⟩, fun hlt => absurd hlt hk,
        fun hlt => absurd hlt hk, fun _ => ⟨fun p hph => ?_, fun g hgh => ?_⟩⟩
      · rw [h1, hsucc k p hph]
      · rw [h2, hpred k g hgh]
      · rw [h1, hsucc k p hph]
      · rw [h2, hpred k g hgh]
  · by_cases hk : k < level
    · obtain ⟨h1, h2⟩ := hon k _ (Cell.getElem?_tower.2 ⟨hk, rfl⟩)
      rw [h1, h2, if_neg (hprev k).symm, if_neg (head?_chain_ne hfresh k).symm]
      exact ⟨rfl, rfl⟩
    · obtain ⟨h1, h2⟩ := hoff k (.inr (Nat.le_of_not_lt hk))
      rw [h1, h2]
      exact ⟨rfl, rfl⟩

end Skiplist
end StreamQuantiles
