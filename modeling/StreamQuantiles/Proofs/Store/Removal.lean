import StreamQuantiles.Proofs.Store.Relinking
import StreamQuantiles.Store.Skiplist.Edit

/-! Removal takes exactly one element out, and a change in place that keeps the others where they
are changes exactly one item. -/
namespace StreamQuantiles
namespace Skiplist

variable {α σ : Type} {s : Skiplist α σ} {cells pre post : List (Cell α)} {c : Cell α}

/-- The chains dropped from the top have no first element, and the highest one left has one unless
it is the lowest. -/
lemma usedHeight_bounds (head : Vector Link maxLevel) {height : Nat} (hh : 1 ≤ height) :
    1 ≤ usedHeight head height ∧ usedHeight head height ≤ height ∧
      (∀ k, usedHeight head height ≤ k → k < height → head[k]? = some none) ∧
      (usedHeight head height = 1 ∨ head[usedHeight head height - 1]? ≠ some none) := by
  fun_induction usedHeight head height with
  | case1 => omega
  | case2 => exact ⟨Nat.le_refl 1, Nat.le_refl 1, by omega, .inl rfl⟩
  | case3 height hnone ih =>
    obtain ⟨h1, h2, h3, h4⟩ := ih (by omega)
    refine ⟨h1, by omega, fun k hk hlt => ?_, h4⟩
    by_cases hkh : k = height + 1
    · rw [hkh, hnone]
    · exact h3 k hk (by omega)
  | case4 height hsome => exact ⟨by omega, Nat.le_refl _, by omega, .inr fun h => hsome h⟩

/-- A list that may count too many chains represents its cells once they are dropped. -/
lemma Linked.represents_usedHeight (hr : s.Linked cells) :
    Represents { s with height := usedHeight s.head s.height } cells := by
  obtain ⟨h1, h2, hempty, hfull⟩ := usedHeight_bounds s.head hr.height.1
  have hmax := hr.height.2
  have hhead : ∀ k < maxLevel, s.head[k]? = some (Cell.chain k cells).head? := fun k hk =>
    (hr.threads k hk [] _ rfl).1
  have hle : ∀ c ∈ cells, c.levels ≤ usedHeight s.head s.height := by
    intro c hc
    by_contra hlt
    have hlevels := hr.levels c hc
    have hnil := hempty (c.levels - 1) (by omega) (by omega)
    rw [hhead _ (by omega), Option.some.injEq, List.head?_eq_none_iff] at hnil
    have hmem : c.handle ∈ Cell.chain (c.levels - 1) cells :=
      Cell.mem_chain_iff.2 ⟨c, hc, by omega, rfl⟩
    rw [hnil] at hmem
    cases hmem
  refine
    { hr with
      levels := fun c hc => ⟨(hr.levels c hc).1, hle c hc⟩
      height := ⟨h1, Nat.le_trans h2 hmax⟩
      reached := hfull.imp_right fun hne => ?_ }
  · rw [hhead _ (by omega), ne_eq, Option.some.injEq, List.head?_eq_none_iff] at hne
    obtain ⟨h, hm⟩ := List.exists_mem_of_ne_nil _ hne
    obtain ⟨c, hc, hlt, -⟩ := Cell.mem_chain_iff.1 hm
    have hge : usedHeight s.head s.height ≤ c.levels := by omega
    exact ⟨c, hc, Nat.le_antisymm (hle c hc) hge⟩

lemma Linked.not_mem_handle (hr : s.Linked (pre ++ c :: post)) :
    c.handle ∉ (pre ++ post).map Cell.handle := by
  have hd := hr.distinct
  rw [List.map_append, List.map_cons, List.nodup_middle, ← List.map_append] at hd
  exact (List.nodup_cons.1 hd).1

lemma Linked.tail_eq_iff (hr : s.Linked (pre ++ c :: post)) :
    s.tail = some c.handle ↔ post = [] := by
  rw [hr.tail]
  constructor
  · intro he
    cases post with
    | nil => rfl
    | cons d post =>
      exfalso
      rw [List.map_append, List.map_cons, Chain.getLast?_append_cons, List.map_cons,
        List.getLast?_cons_cons] at he
      apply hr.not_mem_handle
      rw [List.map_append]
      exact List.mem_append_right _ (List.mem_of_getLast? he)
  · rintro rfl
    simp

/-- The last element once one has been taken out. -/
lemma Linked.tail_remove (hr : s.Linked (pre ++ c :: post)) :
    (if s.tail = some c.handle then (pre.map Cell.handle).getLast? else s.tail) =
      ((pre ++ post).map Cell.handle).getLast? := by
  split
  · next he =>
    rw [hr.tail_eq_iff] at he
    simp [he]
  · next hne =>
    rw [hr.tail_eq_iff] at hne
    obtain ⟨d, post, rfl⟩ := List.exists_cons_of_ne_nil hne
    rw [hr.tail]
    simp [List.getLast?_append, List.getLast?_cons]

/-- The elements in use once a slot has been given back. -/
lemma Linked.shape_remove (hr : s.Linked (pre ++ c :: post)) {nodes : Arena (Node α)}
    (hc : nodes.content = Function.update s.nodes.content c.handle none)
    (g : Handle) (y : α) (levels : Nat) :
    Skiplist.shape { s with nodes } g = some (y, levels) ↔ ⟨g, y, levels⟩ ∈ pre ++ post := by
  rw [shape_of_update hc]
  by_cases hg : g = c.handle
  · subst hg
    have hout := Cell.not_mem_of_handle hr.not_mem_handle y levels
    simp [hout]
  · rw [if_neg hg, hr.shape]
    have hne : (⟨g, y, levels⟩ : Cell α) ≠ c := fun he => hg (by rw [← he])
    simp [hne]

/-- The elements in use once the item of one has changed. -/
lemma Linked.shape_modify (hr : s.Linked (pre ++ c :: post)) (x : α) {nodes : Arena (Node α)}
    {tower : List Joint} (ht : tower.length = c.levels)
    (hc : nodes.content = Function.update s.nodes.content c.handle (some ⟨x, tower⟩))
    (g : Handle) (y : α) (levels : Nat) :
    Skiplist.shape { s with nodes } g = some (y, levels) ↔
      ⟨g, y, levels⟩ ∈ pre ++ { c with item := x } :: post := by
  rw [shape_of_update hc]
  by_cases hg : g = c.handle
  · subst hg
    have hout := Cell.not_mem_of_handle hr.not_mem_handle y levels
    rw [List.mem_append, not_or] at hout
    simp [hout, ht, eq_comm]
  · rw [if_neg hg, hr.shape]
    have h₁ : (⟨g, y, levels⟩ : Cell α) ≠ c := fun he => hg (by rw [← he])
    simp [h₁, hg]

/-- The slot of an element given back and its neighbours joined, the other elements are left. -/
lemma Linked.exists_relink_gone (hr : s.Linked (pre ++ c :: post)) {nodes : Arena (Node α)}
    (hc : nodes.content = Function.update s.nodes.content c.handle none)
    (hv : ∃ free, nodes.Vacancies free) :
    ∃ s', relink id (Cell.tower pre post c.levels) 0 { s with nodes } = .ok s' ∧
      s'.tail = s.tail ∧ s'.size = s.size ∧
      Linked { s' with
          tail := if s.tail = some c.handle then (pre.map Cell.handle).getLast? else s.tail
          size := s'.size - 1 } (pre ++ post) := by
  have hlevels := hr.levels c (by simp)
  have hheight := hr.height.2
  have hfresh := hr.not_mem_handle
  obtain ⟨s', hs', hrel, haround, -⟩ := exists_relink_around (s := s) id c.levels hfresh
    (fun k hk => by
      have ht := hr.threads k (by omega)
      rw [Cell.chain_append, Cell.chain_cons_of_lt hk] at ht
      refine ⟨⟨_, (ht _ _ rfl).1⟩, fun g hg =>
        ⟨_, (ht (Cell.chain k pre ++ [c.handle]) _ ?_).2 g hg⟩⟩
      simp) hc
  have hshape : s'.shape = Skiplist.shape { s with nodes } := hrel.shape
  have htail : s'.tail = s.tail := hrel.tail
  have hsize : s'.size = s.size := hrel.size
  have hh : s'.height = s.height := hrel.height
  have hd : ((pre ++ post).map Cell.handle).Nodup := by
    refine hr.distinct.sublist ?_
    simp
  refine ⟨s', hs', htail, hsize, hd, fun g y levels => ?_, fun k hk => ?_, hr.tail_remove, ?_,
    fun d hmem => ?_, ?_, ?_⟩
  · change s'.shape g = _ ↔ _
    rw [hshape]
    exact hr.shape_remove hc g y levels
  · change Chain.Threads (s'.succ k) (s'.pred k) _
    have ht := hr.threads k hk
    have hdk := hr.chain_nodup k
    rw [Cell.chain_append] at ht hdk ⊢
    by_cases hkl : k < c.levels
    · rw [Cell.chain_cons_of_lt hkl] at ht hdk
      exact ht.erase hdk (haround k).elsewhere ((haround k).forward hkl) ((haround k).backward hkl)
    · rw [Cell.chain_cons_of_le (Nat.le_of_not_lt hkl)] at ht
      exact (haround k).threads_above (Nat.le_of_not_lt hkl) hfresh ht
  · change s'.size - 1 = _
    rw [hsize, hr.size]
    simp only [List.length_append, List.length_cons]
    omega
  · change _ ∧ d.levels ≤ s'.height
    rw [hh]
    apply hr.levels d
    simp only [List.mem_append, List.mem_cons] at hmem ⊢
    tauto
  · change 1 ≤ s'.height ∧ s'.height ≤ maxLevel
    rw [hh]
    exact hr.height
  · obtain ⟨free, hv⟩ := hv
    exact ⟨free, hrel.vacancies free hv⟩

/-- A removal answers with the item and leaves the other elements. -/
theorem Represents.exists_remove (hr : s.Represents (pre ++ c :: post)) :
    ∃ s', s.remove c.handle = .ok (c.item, s') ∧ s'.Represents (pre ++ post) := by
  obtain ⟨free, hv⟩ := hr.vacancies
  have hnode := hr.node
  obtain ⟨nodes, hrem, hcontent, hvac⟩ := hv.exists_remove hnode
  obtain ⟨s₁, hlink, htail, hsize, hr₁⟩ := hr.exists_relink_gone hcontent ⟨_, hvac⟩
  refine ⟨_, ?_, hr₁.represents_usedHeight⟩
  have hjoint : Node.joint ⟨c.item, Cell.tower pre post c.levels⟩ 0 =
      .ok ⟨(Cell.chain 0 pre).getLast?, (Cell.chain 0 post).head?⟩ :=
    Node.joint_eq_ok_iff.2 (Cell.getElem?_tower.2 ⟨(hr.levels c (by simp)).1, rfl⟩)
  have hzero : Cell.chain 0 pre = pre.map Cell.handle :=
    Cell.chain_zero fun d hd => (hr.levels d (List.mem_append_left _ hd)).1
  have hcounted : s₁.size ≠ 0 := by
    rw [hsize, hr.size]
    simp
  unfold remove
  rw [hrem, ok_bind]
  change (do
    let s ← relink id (Cell.tower pre post c.levels) 0 { s with nodes }
    let tail ← if s.tail = some c.handle then do
        pure (← Node.joint ⟨c.item, Cell.tower pre post c.levels⟩ 0).prev
      else pure s.tail
    let size ← oneFewer s.size
    return (c.item, { s with tail, height := usedHeight s.head s.height, size })) = _
  rw [hlink, ok_bind, htail, hjoint, hzero, oneFewer_eq_ok hcounted]
  split <;> rfl

lemma Cell.chain_modify (k : Nat) (y : α) :
    Cell.chain k (pre ++ { c with item := y } :: post) = Cell.chain k (pre ++ c :: post) := by
  rw [Cell.chain_append, Cell.chain_append]
  by_cases hk : k < c.levels
  · rw [Cell.chain_cons_of_lt hk, Cell.chain_cons_of_lt (c := { c with item := y }) hk]
  · rw [Cell.chain_cons_of_le (Nat.le_of_not_lt hk),
      Cell.chain_cons_of_le (c := { c with item := y }) (Nat.le_of_not_lt hk)]

/-- A change to the item of an element changes no link. -/
lemma links_of_item {h : Handle} {node : Node α} (hn : s.nodes.content h = some node) (x : α)
    {nodes : Arena (Node α)}
    (hc : nodes.content = Function.update s.nodes.content h (some { node with item := x }))
    (k : Nat) :
    Skiplist.succ { s with nodes } k = s.succ k ∧ Skiplist.pred { s with nodes } k = s.pred k := by
  constructor
  · funext p
    by_cases hp : p = some h
    · subst hp
      simp [succ, hc, hn]
    · exact succ_of_update hc k hp
  · funext g
    by_cases hg : g = h
    · subst hg
      simp [pred, hc, hn]
    · exact pred_of_update hc k hg

lemma Linked.modify (hr : s.Linked (pre ++ c :: post)) (x : α) :
    Linked { s with nodes := s.nodes.set c.handle ⟨x, Cell.tower pre post c.levels⟩ }
      (pre ++ { c with item := x } :: post) := by
  have hcontent := Arena.content_set hr.node ⟨x, Cell.tower pre post c.levels⟩
  have hhandles : (pre ++ { c with item := x } :: post).map Cell.handle =
      (pre ++ c :: post).map Cell.handle := by
    simp only [List.map_append, List.map_cons]
  refine ⟨?_, hr.shape_modify x (Cell.length_tower _) hcontent, fun k hk => ?_, ?_, ?_,
    fun d hd => ?_, hr.height, ?_⟩
  · rw [hhandles]
    exact hr.distinct
  · obtain ⟨hsucc, hpred⟩ := links_of_item hr.node x hcontent k
    rw [hsucc, hpred, Cell.chain_modify]
    exact hr.threads k hk
  · rw [hhandles]
    exact hr.tail
  · change s.size = _
    rw [hr.size]
    simp
  · rw [List.mem_append, List.mem_cons] at hd
    rcases hd with hd | rfl | hd
    · exact hr.levels d (by simp [hd])
    · exact hr.levels c (by simp)
    · exact hr.levels d (by simp [hd])
  · obtain ⟨free, hv⟩ := hr.vacancies
    exact ⟨free, hv.set hr.node _⟩

/-- A change in place answers and changes one item. -/
theorem Represents.exists_modify (hr : s.Represents (pre ++ c :: post)) (f : α → α) :
    ∃ s', s.modify c.handle f = .ok s' ∧
      s'.Represents (pre ++ { c with item := f c.item } :: post) := by
  refine ⟨_, ?_, hr.toLinked.modify (f c.item), ?_⟩
  · unfold Skiplist.modify
    rw [Arena.modify_eq_ok (f := fun node => .ok { node with item := f node.item }) hr.node rfl]
    rfl
  · apply hr.reached.imp_right
    rintro ⟨d, hd, hh⟩
    rw [List.mem_append, List.mem_cons] at hd
    rcases hd with hd | rfl | hd
    · exact ⟨d, by simp [hd], hh⟩
    · exact ⟨{ d with item := f d.item }, by simp, hh⟩
    · exact ⟨d, by simp [hd], hh⟩

end Skiplist
end StreamQuantiles
