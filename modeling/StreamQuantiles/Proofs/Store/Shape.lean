import Mathlib.Data.List.MinMax
import Mathlib.Order.Nat
import StreamQuantiles.Proofs.Store.Sequence

/-! The shape of a skiplist, level by level: which elements each chain passes, what stands at its
ends, how tall the list is, and where its free slots are. Whatever the source of levels answers,
every run keeps it, and no insertion makes the list taller by more than one level. -/
namespace StreamQuantiles
namespace Skiplist

variable {α ι σ : Type} {s s' : Skiplist α σ} {cells pre post : List (Cell α)} {c : Cell α}

/-- The number of chains through an element. No chain passes a slot that is not in use. -/
def span (s : Skiplist α σ) (h : Handle) : Nat :=
  match s.nodes.content h with
  | some node => node.tower.length
  | none => 0

/-- Every handle on one chain, from the first element to the last. -/
def chainAt (s : Skiplist α σ) (level : Nat) : Except Fault (List Handle) := do
  trail (fun h => s.nextAt (some h) level) s.nodes.size (← s.nextAt none level)

/-- The elements tall enough for a chain. -/
def spanning (s : Skiplist α σ) (level : Nat) (hs : List Handle) : List Handle :=
  hs.filter (level < s.span ·)

/-- The links, the levels and the free slots of a list whose elements are `hs`, in this order. -/
structure Shaped (s : Skiplist α σ) (hs : List Handle) : Prop where
  base : s.handles = .ok hs
  live : ∀ h, h ∈ hs ↔ ∃ node, s.nodes.get h = .ok node
  chain : ∀ level < s.height, s.chainAt level = .ok (s.spanning level hs)
  /-- On its chain an element leads to its neighbours, forward and backward. The first one leads
  back to no element, and the last one forward to none. -/
  joint : ∀ level < s.height, ∀ before h after, s.spanning level hs = before ++ h :: after →
    ∃ node, s.nodes.get h = .ok node ∧ node.joint level = .ok ⟨before.getLast?, after.head?⟩
  tail : s.tail = hs.getLast?
  above : ∀ level (hl : level < maxLevel), s.height ≤ level → s.head[level] = none
  tower : ∀ h node, s.nodes.get h = .ok node →
    1 ≤ node.tower.length ∧ node.tower.length ≤ maxLevel
  height : s.height = max 1 ((hs.map s.span).foldr max 0)
  height_le : s.height ≤ maxLevel
  size : s.size = hs.length
  /-- The chain of free slots passes every free slot once, and nothing else. -/
  vacant : ∃ free, s.nodes.FreeFrom s.nodes.free free ∧ free.Nodup ∧
    ∀ i, i ∈ free ↔ ∃ next, s.nodes.slots[i]? = some (.vacant next)

lemma Linked.mem_handles_iff (hr : s.Linked cells) {h : Handle} :
    h ∈ cells.map Cell.handle ↔ ∃ node, s.nodes.get h = .ok node := by
  simp only [Arena.get_eq_ok_iff_content]
  constructor
  · intro hm
    obtain ⟨c, hc, rfl⟩ := List.mem_map.1 hm
    obtain ⟨node, hn, -⟩ := exists_node_of_shape (hr.shape_of_mem hc)
    exact ⟨node, hn⟩
  · rintro ⟨node, hn⟩
    by_contra hout
    have hs : s.shape h = some (node.item, node.tower.length) := by
      rw [Skiplist.shape, hn]
      rfl
    exact Cell.not_mem_of_handle hout _ _ ((hr.shape _ _ _).1 hs)

lemma Linked.span_eq (hr : s.Linked cells) (hc : c ∈ cells) : s.span c.handle = c.levels := by
  obtain ⟨node, hn, -, hl⟩ := exists_node_of_shape (hr.shape_of_mem hc)
  rw [span, hn]
  exact hl

lemma Linked.spanning_eq (hr : s.Linked cells) (level : Nat) :
    s.spanning level (cells.map Cell.handle) = Cell.chain level cells := by
  unfold Skiplist.spanning Cell.chain
  rw [List.filter_map]
  congr 1
  apply List.filter_congr
  intro c hc
  rw [Function.comp_apply, hr.span_eq hc]

/-- The tower of an element in use is as tall as its cell. -/
lemma Linked.tower_bounds (hr : s.Linked cells) {h : Handle} {node : Node α}
    (hn : s.nodes.get h = .ok node) : 1 ≤ node.tower.length ∧ node.tower.length ≤ maxLevel := by
  obtain ⟨c, hc, rfl⟩ := List.mem_map.1 (hr.mem_handles_iff.2 ⟨node, hn⟩)
  have hspan := hr.span_eq hc
  rw [Arena.get_eq_ok_iff_content] at hn
  rw [span, hn] at hspan
  have hlevels := hr.levels c hc
  have hheight := hr.height.2
  change node.tower.length = c.levels at hspan
  omega

lemma Linked.chainAt_eq_ok (hr : s.Linked cells) {level : Nat} (hl : level < maxLevel) :
    s.chainAt level = .ok (Cell.chain level cells) := by
  have ht := hr.threads level hl
  have hlen : (Cell.chain level cells).length ≤ s.nodes.size := by
    have hsub := (Cell.chain_sublist level cells).length_le
    rw [List.length_map] at hsub
    exact hsub.trans hr.length_le
  have hfirst : s.nextAt none level = .ok (Cell.chain level cells).head? :=
    nextAt_eq_ok (ht [] _ rfl).1
  unfold chainAt
  rw [hfirst, ok_bind]
  apply trail_eq_ok hlen
  intro xs h ys he
  rw [he] at ht
  exact nextAt_eq_ok ht.links.1

/-- The two links of an element on one chain are those of one joint. -/
lemma Linked.joint_eq_ok (hr : s.Linked cells) {level : Nat} (hl : level < maxLevel)
    {before after : List Handle} {h : Handle} (hc : Cell.chain level cells = before ++ h :: after) :
    ∃ node, s.nodes.get h = .ok node ∧ node.joint level = .ok ⟨before.getLast?, after.head?⟩ := by
  have ht := hr.threads level hl
  rw [hc] at ht
  obtain ⟨hs, hp⟩ := ht.links
  obtain ⟨node, j, hn, hj, hnext⟩ := exists_joint_of_succ hs
  obtain ⟨node', j', hn', hj', hprev⟩ := exists_joint_of_pred hp
  obtain rfl : node = node' := Option.some.inj (hn.symm.trans hn')
  obtain rfl : j = j' := Option.some.inj (hj.symm.trans hj')
  refine ⟨node, nodes_get_eq_ok hn, ?_⟩
  rw [Node.joint_eq_ok_iff, hj, ← hnext, ← hprev]

lemma Linked.head_eq_none (hr : s.Linked cells) {level : Nat} (hl : level < maxLevel)
    (hh : s.height ≤ level) : s.head[level] = none := by
  have hs : s.head[level]? = some (Cell.chain level cells).head? := (hr.threads level hl [] _ rfl).1
  rw [hr.chain_eq_nil hh, Vector.getElem?_eq_getElem hl] at hs
  exact Option.some.inj hs

/-- The list is as tall as its tallest element. -/
lemma Represents.height_eq (hr : s.Represents cells) :
    s.height = max 1 (((cells.map Cell.handle).map s.span).foldr max 0) := by
  have hspans : (cells.map Cell.handle).map s.span = cells.map Cell.levels := by
    rw [List.map_map]
    exact List.map_congr_left fun c hc => hr.span_eq hc
  rw [hspans]
  apply Nat.le_antisymm
  · rcases hr.reached with hone | ⟨c, hc, he⟩
    · rw [hone]
      exact Nat.le_max_left _ _
    · have hmem : c.levels ∈ cells.map Cell.levels := List.mem_map_of_mem hc
      rw [← he]
      exact (List.le_max_of_le hmem (Nat.le_refl _)).trans (Nat.le_max_right _ _)
  · refine Nat.max_le.2 ⟨hr.height.1, List.max_le_of_forall_le _ _ fun n hn => ?_⟩
    obtain ⟨c, hc, rfl⟩ := List.mem_map.1 hn
    exact (hr.levels c hc).2

/-- A list that stands for cells has the shape of their handles. -/
theorem Represents.toShaped (hr : s.Represents cells) : s.Shaped (cells.map Cell.handle) where
  base := hr.handles
  live _ := hr.mem_handles_iff
  chain := by
    intro level hl
    rw [hr.spanning_eq]
    exact hr.chainAt_eq_ok (Nat.lt_of_lt_of_le hl hr.height.2)
  joint := by
    intro level hl before h after hc
    rw [hr.spanning_eq] at hc
    exact hr.joint_eq_ok (Nat.lt_of_lt_of_le hl hr.height.2) hc
  tail := hr.tail
  above _ hl hh := hr.head_eq_none hl hh
  tower _ _ hn := hr.tower_bounds hn
  height := hr.height_eq
  height_le := hr.height.2
  size := by rw [List.length_map, hr.size]
  vacant := by
    obtain ⟨free, hv⟩ := hr.vacancies
    refine ⟨free, hv.chain, hv.nodup, fun i => ⟨hv.chain.vacant, ?_⟩⟩
    rintro ⟨next, hi⟩
    exact hv.complete i next hi

variable [HasKey α ι] [LE ι] [DecidableLE ι] [LevelSource σ]

/-- An insertion makes a list as tall as the new element, if that is taller. -/
lemma height_of_insert {x : α} {h : Handle} (hs : s.insert x = .ok (h, s')) :
    s'.height = max s.height (clampLevel (LevelSource.draw s.levels s.height).1 s.height) := by
  unfold insert at hs
  obtain ⟨before, -, hs⟩ := exists_of_bind_eq_ok hs
  obtain ⟨tower, -, hs⟩ := exists_of_bind_eq_ok hs
  obtain ⟨⟨g, nodes⟩, -, hs⟩ := exists_of_bind_eq_ok hs
  obtain ⟨s₁, hlink, hs⟩ := exists_of_bind_eq_ok hs
  obtain ⟨next, -, hs⟩ := exists_of_bind_eq_ok hs
  cases hs
  exact (relinked_of_relink hlink).height

/-- Whatever number of levels is drawn, a list grows by at most one. -/
lemma height_insert_le {x : α} {h : Handle} (hs : s.insert x = .ok (h, s')) :
    s.height ≤ s'.height ∧ s'.height ≤ s.height + 1 := by
  rw [height_of_insert hs]
  unfold clampLevel
  omega

variable [Std.IsLinearPreorder ι] {l : Sequence α}

/-- Every insertion goes on with the run, and so does every removal of an element. -/
lemma Run.exists_insert (hr : Run s l) (x : α) :
    ∃ (h : Handle) (s' : Skiplist α σ), s'.Run (l.place h x) ∧ h ∉ l.handles := by
  obtain ⟨cells, hc, ha, rfl⟩ := hr.exists_cells
  obtain ⟨h, s', hs, hfresh⟩ := (hc.writes ha).insert x
  exact ⟨h, s', hr.insert x hs, hfresh⟩

lemma Run.exists_remove (hr : Run s l) {h : Handle} {x : α} (hx : (h, x) ∈ l) :
    ∃ s' : Skiplist α σ, s'.Run (l.erase h) := by
  obtain ⟨cells, hc, ha, rfl⟩ := hr.exists_cells
  obtain ⟨s', hs⟩ := (hc.writes ha).remove h x hx
  exact ⟨s', hr.remove (List.mem_map_of_mem hx) hs⟩

/-- However the levels are drawn, every chain of a list passes the elements tall enough for it in
their order, the list is as tall as its tallest element, and the free slots are on their own chain.
An insertion makes it taller by at most one level. -/
theorem Run.shaped (hr : Run s l) : s.Shaped l.handles ∧
    ∀ x h s', s.insert x = .ok (h, s') → s.height ≤ s'.height ∧ s'.height ≤ s.height + 1 := by
  obtain ⟨cells, hc, -, rfl⟩ := hr.exists_cells
  rw [Cell.handles_sequence]
  exact ⟨hc.toShaped, fun x h s' hs => height_insert_le hs⟩

/-- The tallest element removed, and its slot taken by a shorter one. -/
theorem Run.shaped_cyclic :
    ∃ (h₁ h₂ : Handle) (s : Skiplist Entry CyclicLevels),
      s.Run [(h₁, .single 3 1), (h₂, .single 5 2)] ∧ s.Shaped [h₁, h₂] ∧
      ∀ x h s', s.insert x = .ok (h, s') → s.height ≤ s'.height ∧ s'.height ≤ s.height + 1 := by
  have r₀ : (Skiplist.empty ⟨[40, 0, 3], 0⟩ : Skiplist Entry CyclicLevels).Run [] := .empty _
  obtain ⟨h₀, s₁, r₁, -⟩ := r₀.exists_insert (.single 5 0)
  have r₁ : s₁.Run [(h₀, .single 5 0)] := r₁
  obtain ⟨h₁, s₂, r₂, hne⟩ := r₁.exists_insert (.single 3 1)
  have r₂ : s₂.Run [(h₁, .single 3 1), (h₀, .single 5 0)] := r₂
  have hne : h₁ ≠ h₀ := by simpa [Sequence.handles] using hne
  obtain ⟨s₃, r₃⟩ := r₂.exists_remove (h := h₀) (x := .single 5 0) (by simp)
  have r₃ : s₃.Run [(h₁, .single 3 1)] := by simpa [Sequence.erase, hne] using r₃
  obtain ⟨h₂, s₄, r₄, -⟩ := r₃.exists_insert (.single 5 2)
  exact ⟨h₁, h₂, s₄, r₄, r₄.shaped⟩

end Skiplist
end StreamQuantiles
