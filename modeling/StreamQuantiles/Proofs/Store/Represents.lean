import Mathlib.Data.List.Perm.Subperm
import StreamQuantiles.Proofs.Store.Links
import StreamQuantiles.Store.Skiplist.Walk

/-! A list of cells is what a skiplist stands for: the elements in ascending order, each with its
handle and the number of chains through it. Chain by chain, the elements tall enough are threaded in
that same order. -/
namespace StreamQuantiles

/-- An element, where it is kept, and the number of chains through it. -/
structure Cell (α : Type) where
  handle : Handle
  item : α
  levels : Nat

namespace Cell

variable {α : Type} {level : Nat} {c : Cell α} {cells pre post : List (Cell α)}

/-- The elements on one chain. -/
def chain (level : Nat) (cells : List (Cell α)) : List Handle :=
  (cells.filter (level < ·.levels)).map Cell.handle

@[simp] lemma chain_nil : chain level ([] : List (Cell α)) = [] := rfl

@[simp] lemma chain_append : chain level (pre ++ post) = chain level pre ++ chain level post := by
  simp [chain]

lemma chain_cons_of_lt (h : level < c.levels) :
    chain level (c :: cells) = c.handle :: chain level cells := by
  simp [chain, h]

lemma chain_cons_of_le (h : c.levels ≤ level) : chain level (c :: cells) = chain level cells := by
  simp [chain, Nat.not_lt.2 h]

lemma chain_sublist (level : Nat) (cells : List (Cell α)) :
    (chain level cells).Sublist (cells.map Cell.handle) :=
  List.filter_sublist.map _

lemma mem_chain_iff {h : Handle} :
    h ∈ chain level cells ↔ ∃ c ∈ cells, level < c.levels ∧ c.handle = h := by
  simp [chain, and_assoc]

lemma not_mem_of_handle {h : Handle} (hh : h ∉ cells.map Cell.handle) (x : α) (levels : Nat) :
    ⟨h, x, levels⟩ ∉ cells := by
  intro hm
  exact hh (List.mem_map_of_mem hm)

/-- The lowest chain leaves nothing out. -/
lemma chain_zero (h : ∀ c ∈ cells, 1 ≤ c.levels) : chain 0 cells = cells.map Cell.handle := by
  unfold chain
  rw [List.filter_eq_self.2]
  intro c hc
  exact decide_eq_true (Nat.lt_of_succ_le (h c hc))

/-- The joints of an element of the given height between the cells before and after it. -/
def tower (pre post : List (Cell α)) (levels : Nat) : List Joint :=
  (List.range levels).map fun k => ⟨(chain k pre).getLast?, (chain k post).head?⟩

@[simp] lemma length_tower (levels : Nat) : (tower pre post levels).length = levels := by
  simp [tower]

lemma getElem?_tower {levels k : Nat} {j : Joint} :
    (tower pre post levels)[k]? = some j ↔
      k < levels ∧ j = ⟨(chain k pre).getLast?, (chain k post).head?⟩ := by
  rw [tower, List.getElem?_map, Option.map_eq_some_iff]
  constructor
  · rintro ⟨i, hi, rfl⟩
    obtain ⟨hk, rfl⟩ := List.getElem?_eq_some_iff.1 hi
    simpa using hk
  · rintro ⟨hk, rfl⟩
    exact ⟨k, by simp [hk], rfl⟩

end Cell

namespace Skiplist

variable {α σ : Type} {s : Skiplist α σ} {cells pre post : List (Cell α)} {c : Cell α}

/-- The cells are the elements in use, and every chain is threaded through those tall enough. -/
structure Linked (s : Skiplist α σ) (cells : List (Cell α)) : Prop where
  distinct : (cells.map Cell.handle).Nodup
  shape : ∀ h x levels, s.shape h = some (x, levels) ↔ ⟨h, x, levels⟩ ∈ cells
  threads : ∀ k < maxLevel, Chain.Threads (s.succ k) (s.pred k) (Cell.chain k cells)
  tail : s.tail = (cells.map Cell.handle).getLast?
  size : s.size = cells.length
  levels : ∀ c ∈ cells, 1 ≤ c.levels ∧ c.levels ≤ s.height
  height : 1 ≤ s.height ∧ s.height ≤ maxLevel
  vacancies : ∃ free, s.nodes.Vacancies free

/-- The list stands for the cells, and counts no more chains than some element reaches. -/
structure Represents (s : Skiplist α σ) (cells : List (Cell α)) : Prop extends s.Linked cells where
  reached : s.height = 1 ∨ ∃ c ∈ cells, c.levels = s.height

theorem represents_empty (levels : σ) : Represents (empty levels : Skiplist α σ) [] where
  distinct := List.nodup_nil
  shape := by simp [shape, empty]
  threads := by
    intro k hk
    refine Chain.threads_nil ?_
    simp [succ, empty, hk]
  tail := rfl
  size := rfl
  levels := by simp
  height := ⟨Nat.le_refl 1, by simp [empty, maxLevel]⟩
  reached := .inl rfl
  vacancies := ⟨[], Arena.vacancies_empty⟩

lemma Linked.chain_nodup (hr : s.Linked cells) (k : Nat) : (Cell.chain k cells).Nodup :=
  hr.distinct.sublist (Cell.chain_sublist k cells)

lemma Linked.chain_zero (hr : s.Linked cells) :
    Cell.chain 0 cells = cells.map Cell.handle :=
  Cell.chain_zero fun c hc => (hr.levels c hc).1

/-- No chain above the height has an element. -/
lemma Linked.chain_eq_nil (hr : s.Linked cells) {k : Nat} (hk : s.height ≤ k) :
    Cell.chain k cells = [] := by
  rw [List.eq_nil_iff_forall_not_mem]
  intro h hh
  obtain ⟨c, hc, hlt, -⟩ := Cell.mem_chain_iff.1 hh
  have := (hr.levels c hc).2
  omega

lemma Linked.shape_of_mem (hr : s.Linked cells) (hc : c ∈ cells) :
    s.shape c.handle = some (c.item, c.levels) :=
  (hr.shape _ _ _).2 hc

/-- A slot not in use holds no element. -/
lemma Linked.not_mem_of_content (hr : s.Linked cells) {h : Handle}
    (hn : s.nodes.content h = none) : h ∉ cells.map Cell.handle := by
  intro hm
  obtain ⟨c, hc, rfl⟩ := List.mem_map.1 hm
  obtain ⟨node, hnode, -⟩ := exists_node_of_shape (hr.shape_of_mem hc)
  rw [hn] at hnode
  cases hnode

/-- The links of an element lead to its neighbours on each chain through it. -/
lemma Linked.links (hr : s.Linked (pre ++ c :: post)) {k : Nat} (hk : k < c.levels) :
    s.succ k (some c.handle) = some (Cell.chain k post).head? ∧
      s.pred k c.handle = some (Cell.chain k pre).getLast? := by
  have hc := hr.levels c (by simp)
  have ht := hr.threads k (by have := hr.height.2; omega)
  rw [Cell.chain_append, Cell.chain_cons_of_lt hk] at ht
  exact ht.links

/-- The node of an element. -/
lemma Linked.node (hr : s.Linked (pre ++ c :: post)) :
    s.nodes.content c.handle = some ⟨c.item, Cell.tower pre post c.levels⟩ := by
  obtain ⟨⟨item, tower⟩, hn, hi, hl⟩ := exists_node_of_shape (hr.shape_of_mem (c := c) (by simp))
  obtain rfl : item = c.item := hi
  have hl : tower.length = c.levels := hl
  suffices ht : tower = Cell.tower pre post c.levels by rw [hn, ht]
  refine List.ext_getElem? fun k => ?_
  by_cases hk : k < c.levels
  · obtain ⟨hs, hp⟩ := hr.links hk
    rw [Cell.getElem?_tower.2 ⟨hk, rfl⟩]
    rw [← hl] at hk
    simp only [succ, pred, hn, Option.bind_some, List.getElem?_eq_getElem hk, Option.map_some,
      Option.some.injEq] at hs hp
    rw [List.getElem?_eq_getElem hk, ← hs, ← hp]
  · rw [List.getElem?_eq_none (by omega), List.getElem?_eq_none (by simp; omega)]

theorem Linked.first (hr : s.Linked cells) :
    s.first = (cells.map Cell.handle).head? := by
  have ht := hr.threads 0 (by decide)
  rw [hr.chain_zero] at ht
  have hs : s.head[0]? = some (cells.map Cell.handle).head? := (ht [] _ rfl).1
  exact (Vector.getElem?_eq_some_iff.1 hs).2

theorem Linked.get (hr : s.Linked cells) (hc : c ∈ cells) : s.get c.handle = .ok c.item :=
  get_eq_ok (hr.shape_of_mem hc)

theorem Linked.next (hr : s.Linked (pre ++ c :: post)) :
    s.next c.handle = .ok (post.map Cell.handle).head? := by
  have hs := (hr.links (hr.levels c (by simp)).1).1
  rw [Cell.chain_zero fun d hd => (hr.levels d (by simp [hd])).1] at hs
  exact nextAt_eq_ok hs

theorem Linked.prev (hr : s.Linked (pre ++ c :: post)) :
    s.prev c.handle = .ok (pre.map Cell.handle).getLast? := by
  have hp := (hr.links (hr.levels c (by simp)).1).2
  rw [Cell.chain_zero fun d hd => (hr.levels d (by simp [hd])).1] at hp
  exact prev_eq_ok hp

/-- There is a slot for every element. -/
lemma Linked.length_le (hr : s.Linked cells) : cells.length ≤ s.nodes.size := by
  have hsub : cells.map Cell.handle ⊆ List.range s.nodes.size := by
    intro h hh
    obtain ⟨c, hc, rfl⟩ := List.mem_map.1 hh
    obtain ⟨node, hn, -⟩ := exists_node_of_shape (hr.shape_of_mem hc)
    exact List.mem_range.2 (Arena.lt_size_of_content hn)
  simpa using (List.Nodup.subperm hr.distinct hsub).length_le

/-- Steps that each lead to the next handle of a list make up the list. -/
lemma trail_eq_ok {step : Handle → Except Fault Link} {hs : List Handle} {fuel : Nat}
    (hf : hs.length ≤ fuel) (hstep : ∀ xs h ys, hs = xs ++ h :: ys → step h = .ok ys.head?) :
    trail step fuel hs.head? = .ok hs := by
  induction hs generalizing fuel with
  | nil => cases fuel <;> rfl
  | cons h hs ih =>
    cases fuel with
    | zero => cases hf
    | succ fuel =>
      change (do return h :: (← trail step fuel (← step h))) = _
      rw [hstep [] h hs rfl, ok_bind,
        ih (Nat.le_of_succ_le_succ hf) fun xs g ys he => hstep (h :: xs) g ys (by rw [he]; rfl)]
      rfl

theorem Linked.handles (hr : s.Linked cells) :
    s.handles = .ok (cells.map Cell.handle) := by
  unfold Skiplist.handles
  rw [hr.first]
  refine trail_eq_ok (by simpa using hr.length_le) fun xs h ys he => ?_
  obtain ⟨pre, rest, rfl, rfl, hrest⟩ := List.map_eq_append_iff.1 he
  obtain ⟨c, post, rfl, rfl, rfl⟩ := List.map_eq_cons_iff.1 hrest
  exact hr.next

theorem Linked.handlesBackward (hr : s.Linked cells) :
    s.handlesBackward = .ok (cells.map Cell.handle).reverse := by
  unfold Skiplist.handlesBackward last
  rw [hr.tail, ← List.head?_reverse]
  refine trail_eq_ok (by simpa using hr.length_le) fun xs h ys he => ?_
  rw [List.reverse_eq_iff, List.reverse_append, List.reverse_cons, List.append_assoc,
    List.singleton_append] at he
  obtain ⟨pre, rest, rfl, hpre, hrest⟩ := List.map_eq_append_iff.1 he
  obtain ⟨c, post, rfl, rfl, -⟩ := List.map_eq_cons_iff.1 hrest
  rw [hr.prev, hpre, List.getLast?_reverse]

lemma mapM_eq_ok {ε γ δ : Type} {f : γ → Except ε δ} {g : γ → δ} {xs : List γ}
    (h : ∀ x ∈ xs, f x = .ok (g x)) : xs.mapM f = .ok (xs.map g) := by
  induction xs with
  | nil => rfl
  | cons x xs ih =>
    rw [List.mapM_cons, h x List.mem_cons_self, ih fun y hy => h y (List.mem_cons_of_mem _ hy)]
    rfl

theorem Linked.items (hr : s.Linked cells) : s.items = .ok (cells.map Cell.item) := by
  unfold Skiplist.items
  rw [hr.handles, ok_bind, List.mapM_map]
  exact mapM_eq_ok fun c hc => hr.get hc

/-- The elements, whatever their handles and levels. -/
def Holds (s : Skiplist α σ) (xs : List α) : Prop :=
  ∃ cells, s.Represents cells ∧ cells.map Cell.item = xs

theorem holds_empty (levels : σ) : Holds (empty levels : Skiplist α σ) [] :=
  ⟨[], represents_empty levels, rfl⟩

theorem Holds.items {xs : List α} (hs : s.Holds xs) : s.items = .ok xs := by
  obtain ⟨cells, hr, rfl⟩ := hs
  exact hr.items

theorem Holds.size {xs : List α} (hs : s.Holds xs) : s.size = xs.length := by
  obtain ⟨cells, hr, rfl⟩ := hs
  rw [List.length_map]
  exact hr.size

end Skiplist
end StreamQuantiles
