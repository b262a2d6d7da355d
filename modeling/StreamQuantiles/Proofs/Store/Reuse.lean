import StreamQuantiles.Proofs.Store.Shape

/-! Which slots a skiplist hands out. A slot given back is the next one taken, so the slots in use
and the free ones, in their order, follow from the calls alone, and there are never more of them
than elements were in the list at once. -/
namespace StreamQuantiles

/-- A call to a skiplist with its answer. -/
inductive Turn (α : Type) where
  | inserted (h : Handle) (item : α)
  | removed (h : Handle)
  /-- A removal that failed. -/
  | refused (h : Handle)

/-! Turns are listed the latest first. -/
namespace Turn

variable {α : Type} {past : List (Turn α)}

/-- The slot that the caller named. -/
def target : Turn α → Option Handle
  | inserted _ _ => none
  | removed h => some h
  | refused h => some h

/-- The turn without the element put in. -/
def forget : Turn α → Turn Unit
  | inserted h _ => inserted h ()
  | removed h => removed h
  | refused h => refused h

/-- The elements put in and not taken out since, the latest first. -/
def live : List (Turn α) → Sequence α
  | [] => []
  | inserted h x :: past => (h, x) :: live past
  | removed h :: past => (live past).erase h
  | refused _ :: past => live past

/-- The slots given back and not taken since, the one given back last in front. -/
def freed : List (Turn α) → List Handle
  | [] => []
  | inserted h _ :: past => (freed past).erase h
  | removed h :: past => h :: freed past
  | refused _ :: past => freed past

/-- The largest number of elements there were at once. -/
def peak : List (Turn α) → Nat
  | [] => 0
  | turn :: past => max (live (turn :: past)).length (peak past)

/-- The slot for the next element: the one given back last, or a new one behind all the others. -/
def vacancy (past : List (Turn α)) : Handle := (freed past).head?.getD (peak past)

/-- The turns that calls lead to, whatever elements are put in. -/
def replay : List (Option Handle) → List (Turn Unit)
  | [] => []
  | none :: targets => inserted (vacancy (replay targets)) () :: replay targets
  | some h :: targets =>
    (if h ∈ (live (replay targets)).handles then removed h else refused h) :: replay targets

lemma handles_live_forget (past : List (Turn α)) :
    (live (past.map forget)).handles = (live past).handles := by
  induction past with
  | nil => rfl
  | cons turn past ih =>
    cases turn with
    | inserted h x => exact congrArg (h :: ·) ih
    | removed h =>
      change ((live (past.map forget)).erase h).handles = ((live past).erase h).handles
      rw [Sequence.handles_erase, Sequence.handles_erase, ih]
    | refused h => exact ih

lemma freed_forget (past : List (Turn α)) : freed (past.map forget) = freed past := by
  induction past with
  | nil => rfl
  | cons turn past ih =>
    cases turn with
    | inserted h x => exact congrArg (List.erase · h) ih
    | removed h => exact congrArg (h :: ·) ih
    | refused h => exact ih

lemma peak_forget (past : List (Turn α)) : peak (past.map forget) = peak past := by
  induction past with
  | nil => rfl
  | cons turn past ih =>
    have hlive := congrArg List.length (handles_live_forget (turn :: past))
    rw [Sequence.handles, Sequence.handles, List.length_map, List.length_map] at hlive
    exact congrArg₂ max hlive ih

lemma vacancy_forget (past : List (Turn α)) : vacancy (past.map forget) = vacancy past := by
  rw [vacancy, freed_forget, peak_forget]
  rfl

lemma freed_inserted (past : List (Turn α)) (x : α) :
    freed (inserted (vacancy past) x :: past) = (freed past).tail := by
  change (freed past).erase ((freed past).head?.getD (peak past)) = _
  cases freed past with
  | nil => rfl
  | cons h rest => exact List.erase_cons_head h rest

/-- There are as many slots, in use or free, as there were elements at once. -/
def Balanced (past : List (Turn α)) : Prop :=
  peak past = (live past).length + (freed past).length

/-- A new slot is taken only when every slot is in use. -/
lemma Balanced.peak_inserted (hb : Balanced past) (x : α) :
    peak (inserted (vacancy past) x :: past) =
      if freed past = [] then peak past + 1 else peak past := by
  change max ((live past).length + 1) (peak past) = _
  unfold Balanced at hb
  split
  · next hf =>
    rw [hf, List.length_nil] at hb
    omega
  · next hf =>
    have hpos := List.length_pos_of_ne_nil hf
    omega

lemma Balanced.inserted (hb : Balanced past) (x : α) :
    Balanced (inserted (vacancy past) x :: past) := by
  rw [Balanced, hb.peak_inserted, freed_inserted, List.length_tail]
  change _ = (live past).length + 1 + _
  unfold Balanced at hb
  split
  · next hf =>
    rw [hf, List.length_nil] at hb ⊢
    omega
  · next hf =>
    have hpos := List.length_pos_of_ne_nil hf
    omega

lemma Balanced.removed (hb : Balanced past) {h : Handle} (hd : (live past).handles.Nodup)
    (hm : h ∈ (live past).handles) : Balanced (removed h :: past) := by
  have hlen := Sequence.length_erase hd hm
  unfold Balanced at hb ⊢
  change max ((live past).erase h).length (peak past) =
    ((live past).erase h).length + ((freed past).length + 1)
  omega

/-- An element put in stays until a removal of its slot. -/
lemma mem_live_of_not_removed {later earlier : List (Turn α)} {h : Handle} {x : α}
    (hkept : removed h ∉ later) : (h, x) ∈ live (later ++ inserted h x :: earlier) := by
  induction later with
  | nil => exact List.mem_cons_self
  | cons turn later ih =>
    obtain ⟨hne, hrest⟩ := List.ne_and_not_mem_of_not_mem_cons hkept
    cases turn with
    | inserted g y => exact List.mem_cons_of_mem _ (ih hrest)
    | removed g =>
      refine List.mem_filter.2 ⟨ih hrest, decide_eq_true ?_⟩
      rintro rfl
      exact hne rfl
    | refused g => exact ih hrest

end Turn

namespace Skiplist

variable {α ι σ : Type} {s s' : Skiplist α σ} {h : Handle} {x : α} {fault removal : Fault}
  {past : List (Turn α)}

/-- No call has anything to answer about a slot, and none changes the list. -/
structure Refuses (s : Skiplist α σ) (h : Handle) (fault removal : Fault) : Prop where
  get : s.get h = .error fault
  modify : ∀ f, s.modify h f = .error fault
  next : s.next h = .error fault
  prev : s.prev h = .error fault
  withdraw : s.withdraw h = (.error removal, s)

/-- Where a slot cannot be read, no call on it answers. -/
lemma refuses_of_release (hget : s.nodes.get h = .error fault)
    (hrelease : (s.nodes.release h).1 = .error removal) : s.Refuses h fault removal where
  get := by
    rw [Skiplist.get, hget]
    rfl
  modify := by
    intro f
    rw [Skiplist.modify, Arena.modify, hget]
    rfl
  next := by
    rw [Skiplist.next, nextAt, hget]
    rfl
  prev := by
    rw [Skiplist.prev, hget]
    rfl
  withdraw := by
    have hremove : s.remove h = .error removal := by
      rw [Skiplist.remove, Arena.remove, ← Prod.mk.eta (p := s.nodes.release h), hrelease]
      rfl
    rw [Skiplist.withdraw, hremove]
    change (Except.error removal, { s with nodes := (s.nodes.release h).2 }) = _
    rw [Arena.release_eq_of_error hrelease]

lemma refuses_of_vacant {next : Option Nat} (hv : s.nodes.slots[h]? = some (.vacant next)) :
    s.Refuses h (.vacantSlot h) (.alreadyRemoved h) := by
  refine refuses_of_release ?_ ?_
  · rw [Arena.get, hv]
  · rw [Arena.release, hv]

lemma refuses_of_outside (hsize : s.nodes.size ≤ h) :
    s.Refuses h (.outOfBounds s.nodes.size h) (.outOfBounds s.nodes.size h) := by
  have hnone : s.nodes.slots[h]? = none := Array.getElem?_eq_none hsize
  refine refuses_of_release ?_ ?_
  · rw [Arena.get, hnone]
  · rw [Arena.release, hnone]

lemma withdraw_eq_ok_iff : s.withdraw h = (.ok x, s') ↔ s.remove h = .ok (x, s') := by
  rw [withdraw]
  cases s.remove h with
  | ok answer => simp [Prod.ext_iff]
  | error fault => simp

/-- A removal leaves the slots as the release of one of them does. -/
lemma vacancies_of_remove (hs : s.remove h = .ok (x, s')) {free : List Nat}
    (hv : s.nodes.Vacancies free) : s'.nodes.size = s.nodes.size ∧
      s'.nodes.Vacancies (h :: free) ∧ ∃ node, s.nodes.get h = .ok node := by
  obtain ⟨⟨node, nodes⟩, hnodes, hs⟩ := exists_of_bind_eq_ok hs
  obtain ⟨s₁, hlink, hs⟩ := exists_of_bind_eq_ok hs
  -- Neither the last element nor the size makes a difference to the slots.
  have hs' : s'.nodes = s₁.nodes := by
    split at hs
    · obtain ⟨j, -, hs⟩ := exists_of_bind_eq_ok hs
      obtain ⟨tail, -, hs⟩ := exists_of_bind_eq_ok hs
      obtain ⟨size, -, hs⟩ := exists_of_bind_eq_ok hs
      cases hs
      rfl
    · obtain ⟨tail, -, hs⟩ := exists_of_bind_eq_ok hs
      obtain ⟨size, -, hs⟩ := exists_of_bind_eq_ok hs
      cases hs
      rfl
  obtain ⟨hget, hnodes'⟩ := Arena.remove_eq_ok_iff.1 hnodes
  obtain ⟨nodes', hremove, -, hfree⟩ := hv.exists_remove (Arena.get_eq_ok_iff_content.1 hget)
  cases hnodes.symm.trans hremove
  have hr := relinked_of_relink hlink
  rw [hs']
  refine ⟨?_, hr.vacancies _ hfree, node, hget⟩
  rw [hr.slots, hnodes', Arena.size, Array.size_setIfInBounds]
  rfl

variable [HasKey α ι] [LE ι] [DecidableLE ι] [LevelSource σ]

/-- An insertion leaves the slots as that of a node in the arena does. -/
lemma vacancies_of_insert (hs : s.insert x = .ok (h, s')) {free : List Nat}
    (hv : s.nodes.Vacancies free) : h = free.head?.getD s.nodes.size ∧
      s'.nodes.Vacancies free.tail ∧
      s'.nodes.size = if free = [] then s.nodes.size + 1 else s.nodes.size := by
  unfold insert at hs
  obtain ⟨before, -, hs⟩ := exists_of_bind_eq_ok hs
  obtain ⟨tower, -, hs⟩ := exists_of_bind_eq_ok hs
  obtain ⟨⟨g, nodes⟩, hnodes, hs⟩ := exists_of_bind_eq_ok hs
  obtain ⟨s₁, hlink, hs⟩ := exists_of_bind_eq_ok hs
  obtain ⟨next, -, hs⟩ := exists_of_bind_eq_ok hs
  cases hs
  obtain ⟨hslot, hfree, hsize⟩ := hv.slot_of_insert hnodes
  have hr := relinked_of_relink hlink
  exact ⟨hslot, hr.vacancies _ hfree, hr.slots.trans hsize⟩

/-- A list reached by insertions and removals since it was made or cleared. A removal may name any
slot, and where it fails the list goes on as it was left. -/
inductive Edited : Skiplist α σ → List (Turn α) → Prop where
  | empty (levels : σ) : Edited (empty levels) []
  | clear (s : Skiplist α σ) : Edited s.clear []
  | insert {s s' : Skiplist α σ} {past : List (Turn α)} (he : Edited s past) {h : Handle} (x : α)
      (hs : s.insert x = .ok (h, s')) : Edited s' (.inserted h x :: past)
  | remove {s s' : Skiplist α σ} {past : List (Turn α)} (he : Edited s past) {h : Handle} {x : α}
      (hs : s.withdraw h = (.ok x, s')) : Edited s' (.removed h :: past)
  | refuse {s s' : Skiplist α σ} {past : List (Turn α)} (he : Edited s past) {h : Handle}
      {fault : Fault} (hs : s.withdraw h = (.error fault, s')) : Edited s' (.refused h :: past)

/-- How a list keeps its elements after the turns: each in a slot of its own, with the free slots in
the order they are taken again. -/
structure Slotted (s : Skiplist α σ) (past : List (Turn α)) : Prop where
  get : ∀ h x, (h, x) ∈ Turn.live past → s.get h = .ok x
  /-- Whatever else is put in and taken out, a handle leads to its element until it is removed. -/
  keeps : ∀ later h x earlier, past = later ++ .inserted h x :: earlier → .removed h ∉ later →
    s.get h = .ok x
  withdraw : ∀ h x, (h, x) ∈ Turn.live past → ∃ s', s.withdraw h = (.ok x, s')
  distinct : ((Turn.live past).handles ++ Turn.freed past).Nodup
  slots : ∀ h, h < s.nodes.size ↔ h ∈ (Turn.live past).handles ∨ h ∈ Turn.freed past
  size : s.nodes.size = Turn.peak past
  insert : ∀ x, ∃ s', s.insert x = .ok (Turn.vacancy past, s') ∧
    s'.nodes.size = if Turn.freed past = [] then s.nodes.size + 1 else s.nodes.size
  /-- The next element gets no slot of another one. -/
  vacancy : Turn.vacancy past ∉ (Turn.live past).handles
  vacant : ∀ h ∈ Turn.freed past, s.Refuses h (.vacantSlot h) (.alreadyRemoved h)
  outside : ∀ h, s.nodes.size ≤ h →
    s.Refuses h (.outOfBounds s.nodes.size h) (.outOfBounds s.nodes.size h)
  /-- The slots follow from the calls, with no regard to elements and levels. -/
  replay : past.map Turn.forget = Turn.replay (past.map Turn.target)

/-- What every turn keeps. -/
structure Kept (s : Skiplist α σ) (past : List (Turn α)) : Prop where
  elements : ∃ l, s.Run l ∧ l.Perm (Turn.live past)
  vacancies : s.nodes.Vacancies (Turn.freed past)
  size : s.nodes.size = Turn.peak past
  balanced : Turn.Balanced past
  replay : past.map Turn.forget = Turn.replay (past.map Turn.target)

lemma kept_empty (levels : σ) : (empty levels : Skiplist α σ).Kept [] where
  elements := ⟨[], .empty levels, .refl _⟩
  vacancies := Arena.vacancies_empty
  size := rfl
  balanced := rfl
  replay := rfl

lemma Kept.refuses (hk : s.Kept past) (hm : h ∈ Turn.freed past) :
    s.Refuses h (.vacantSlot h) (.alreadyRemoved h) := by
  obtain ⟨next, hslot⟩ := hk.vacancies.chain.vacant hm
  exact refuses_of_vacant hslot

/-- An element put in takes the slot given back last, and only where there is none a new one. -/
lemma Kept.insert (hk : s.Kept past) (hs : s.insert x = .ok (h, s')) :
    s'.Kept (.inserted h x :: past) := by
  obtain ⟨hslot, hfree, hsize⟩ := vacancies_of_insert hs hk.vacancies
  rw [hk.size] at hslot hsize
  obtain rfl : h = Turn.vacancy past := hslot
  refine ⟨?_, ?_, ?_, hk.balanced.inserted x, ?_⟩
  · obtain ⟨l, hl, hperm⟩ := hk.elements
    exact ⟨_, hl.insert x hs, (Sequence.place_perm _ x l).trans (hperm.cons _)⟩
  · rw [Turn.freed_inserted]
    exact hfree
  · rw [hsize, hk.balanced.peak_inserted]
  · change .inserted (Turn.vacancy past) () :: past.map Turn.forget = _
    rw [List.map_cons, Turn.target, Turn.replay, ← hk.replay, Turn.vacancy_forget]

lemma Kept.refuse (hk : s.Kept past) (hdead : h ∉ (Turn.live past).handles) :
    s.Kept (.refused h :: past) := by
  have hpeak : Turn.peak (.refused h :: past) = Turn.peak past := by
    have hbal := hk.balanced
    unfold Turn.Balanced at hbal
    change max (Turn.live past).length _ = _
    omega
  refine ⟨hk.elements, hk.vacancies, hk.size.trans hpeak.symm, hpeak.trans hk.balanced, ?_⟩
  change .refused h :: past.map Turn.forget = _
  rw [List.map_cons, Turn.target, Turn.replay, ← hk.replay, Turn.handles_live_forget, if_neg hdead]

variable [Std.IsLinearPreorder ι]

lemma Kept.exists_cells (hk : s.Kept past) : ∃ cells, s.Represents cells ∧ Cell.Ascending cells ∧
    (Cell.sequence cells).Perm (Turn.live past) := by
  obtain ⟨l, hl, hperm⟩ := hk.elements
  obtain ⟨cells, hc, ha, rfl⟩ := hl.exists_cells
  exact ⟨cells, hc, ha, hperm⟩

/-- The slots in use are those of the elements put in and not taken out. -/
lemma Kept.mem_handles_iff (hk : s.Kept past) :
    h ∈ (Turn.live past).handles ↔ ∃ node, s.nodes.get h = .ok node := by
  obtain ⟨cells, hc, -, hperm⟩ := hk.exists_cells
  rw [← hc.mem_handles_iff, ← Cell.handles_sequence]
  exact (hperm.map Prod.fst).mem_iff.symm

lemma Kept.nodup (hk : s.Kept past) : (Turn.live past).handles.Nodup := by
  obtain ⟨cells, hc, -, hperm⟩ := hk.exists_cells
  have hd := hc.distinct
  rw [← Cell.handles_sequence] at hd
  exact (hperm.map Prod.fst).nodup_iff.1 hd

lemma Kept.get (hk : s.Kept past) (hx : (h, x) ∈ Turn.live past) : s.get h = .ok x := by
  obtain ⟨cells, hc, -, hperm⟩ := hk.exists_cells
  exact hc.reads.get h x (hperm.mem_iff.2 hx)

lemma Kept.exists_remove (hk : s.Kept past) (hx : (h, x) ∈ Turn.live past) :
    ∃ s', s.remove h = .ok (x, s') := by
  obtain ⟨cells, hc, ha, hperm⟩ := hk.exists_cells
  exact (hc.writes ha).remove h x (hperm.mem_iff.2 hx)

lemma Kept.exists_insert (hk : s.Kept past) (x : α) :
    ∃ s', s.insert x = .ok (Turn.vacancy past, s') := by
  obtain ⟨cells, hc, ha, -⟩ := hk.exists_cells
  obtain ⟨h, s', hs, -⟩ := (hc.writes ha).insert x
  obtain ⟨rfl, -, -⟩ := vacancies_of_insert hs hk.vacancies
  rw [hk.size] at hs
  exact ⟨s', hs⟩

/-- A removal that fails leaves the list as it was. -/
lemma Kept.eq_of_refuse (hk : s.Kept past) (hs : s.withdraw h = (.error fault, s')) :
    s' = s ∧ h ∉ (Turn.live past).handles := by
  have hdead : h ∉ (Turn.live past).handles := by
    intro hm
    obtain ⟨⟨g, x⟩, hx, rfl⟩ := List.mem_map.1 hm
    obtain ⟨s'', hs'⟩ := hk.exists_remove hx
    rw [withdraw_eq_ok_iff.2 hs'] at hs
    cases hs
  refine ⟨?_, hdead⟩
  rw [hk.mem_handles_iff] at hdead
  cases hslot : s.nodes.slots[h]? with
  | none =>
    rw [(refuses_of_outside (Array.getElem?_eq_none_iff.1 hslot)).withdraw] at hs
    cases hs
    rfl
  | some slot =>
    cases slot with
    | occupied node => exact absurd ⟨node, Arena.get_eq_ok_iff.2 hslot⟩ hdead
    | vacant next =>
      rw [(refuses_of_vacant hslot).withdraw] at hs
      cases hs
      rfl

lemma Kept.remove (hk : s.Kept past) (hs : s.remove h = .ok (x, s')) :
    s'.Kept (.removed h :: past) := by
  obtain ⟨hsize, hfree, hnode⟩ := vacancies_of_remove hs hk.vacancies
  have hm : h ∈ (Turn.live past).handles := hk.mem_handles_iff.2 hnode
  have hb := hk.balanced.removed hk.nodup hm
  refine ⟨?_, hfree, ?_, hb, ?_⟩
  · obtain ⟨l, hl, hperm⟩ := hk.elements
    have hm' : h ∈ l.handles := (hperm.map Prod.fst).mem_iff.2 hm
    exact ⟨_, hl.remove hm' hs, hperm.filter _⟩
  · rw [hsize, hk.size]
    have hlen := Sequence.length_erase hk.nodup hm
    have hbal := hk.balanced
    unfold Turn.Balanced at hbal
    change _ = max ((Turn.live past).erase h).length _
    omega
  · change .removed h :: past.map Turn.forget = _
    rw [List.map_cons, Turn.target, Turn.replay, ← hk.replay, Turn.handles_live_forget, if_pos hm]

/-- Every turn keeps the slots in order. -/
lemma Edited.kept (he : s.Edited past) : s.Kept past := by
  induction he with
  | empty levels => exact kept_empty levels
  | clear s => exact kept_empty s.levels
  | insert _ x hs hk => exact hk.insert hs
  | remove _ hs hk => exact hk.remove (withdraw_eq_ok_iff.1 hs)
  | refuse _ hs hk =>
    obtain ⟨rfl, hdead⟩ := hk.eq_of_refuse hs
    exact hk.refuse hdead

/-- Every slot is in use or free. -/
lemma Kept.lt_size_iff (hk : s.Kept past) :
    h < s.nodes.size ↔ h ∈ (Turn.live past).handles ∨ h ∈ Turn.freed past := by
  rw [hk.mem_handles_iff]
  constructor
  · intro hlt
    have hslot : s.nodes.slots[h]? = some s.nodes.slots[h] := Array.getElem?_eq_getElem hlt
    cases hc : s.nodes.slots[h] with
    | occupied node =>
      rw [hc] at hslot
      exact .inl ⟨node, Arena.get_eq_ok_iff.2 hslot⟩
    | vacant next =>
      rw [hc] at hslot
      exact .inr (hk.vacancies.complete h next hslot)
  · rintro (⟨node, hn⟩ | hm)
    · exact Arena.lt_size_of_content (Arena.get_eq_ok_iff_content.1 hn)
    · obtain ⟨next, hslot⟩ := hk.vacancies.chain.vacant hm
      exact (Array.getElem?_eq_some_iff.1 hslot).1

lemma Kept.not_mem_freed (hk : s.Kept past) (hm : h ∈ (Turn.live past).handles) :
    h ∉ Turn.freed past := by
  obtain ⟨node, hn⟩ := hk.mem_handles_iff.1 hm
  exact hk.vacancies.not_mem (Arena.get_eq_ok_iff_content.1 hn)

/-- The slot for the next element is a free one, or behind all the others. -/
lemma Kept.vacancy_not_mem (hk : s.Kept past) :
    Turn.vacancy past ∉ (Turn.live past).handles := by
  intro hm
  cases hf : Turn.freed past with
  | nil =>
    have hv : Turn.vacancy past = Turn.peak past := by
      rw [Turn.vacancy, hf]
      rfl
    have hlt := hk.lt_size_iff.2 (.inl hm)
    rw [hv, hk.size] at hlt
    exact Nat.lt_irrefl _ hlt
  | cons g rest =>
    have hv : Turn.vacancy past = g := by
      rw [Turn.vacancy, hf]
      rfl
    refine hk.not_mem_freed hm ?_
    rw [hv, hf]
    exact List.mem_cons_self

/-- However elements are put in and taken out, no two share a slot and none is moved. The slots
given back are taken again from the last to the first, and a new one only when all are in use, so
there are as many as there were elements at once. A call on any other slot changes nothing. -/
theorem Edited.slotted (he : s.Edited past) : s.Slotted past := by
  have hk := he.kept
  refine
    { get := fun h x hx => hk.get hx
      keeps := ?_
      withdraw := ?_
      distinct := ?_
      slots := fun h => hk.lt_size_iff
      size := hk.size
      insert := ?_
      vacancy := hk.vacancy_not_mem
      vacant := fun h hm => hk.refuses hm
      outside := fun h hsize => refuses_of_outside hsize
      replay := hk.replay }
  · rintro later h x earlier rfl hkept
    exact hk.get (Turn.mem_live_of_not_removed hkept)
  · intro h x hx
    obtain ⟨s', hs⟩ := hk.exists_remove hx
    exact ⟨s', withdraw_eq_ok_iff.2 hs⟩
  · exact List.nodup_append'.2 ⟨hk.nodup, hk.vacancies.nodup, fun h hm => hk.not_mem_freed hm⟩
  · intro x
    obtain ⟨s', hs⟩ := hk.exists_insert x
    obtain ⟨-, -, hsize⟩ := vacancies_of_insert hs hk.vacancies
    exact ⟨s', hs, hsize⟩

/-- A slot given back, asked for again in vain, and taken by the next element. -/
theorem Edited.slotted_cyclic :
    ∃ s : Skiplist Entry CyclicLevels,
      s.Edited [.inserted 0 (.single 5 2), .refused 0, .removed 0, .inserted 1 (.single 3 1),
        .inserted 0 (.single 5 0)] ∧
      s.Slotted [.inserted 0 (.single 5 2), .refused 0, .removed 0, .inserted 1 (.single 3 1),
        .inserted 0 (.single 5 0)] := by
  have e₀ : (Skiplist.empty ⟨[40, 0, 3], 0⟩ : Skiplist Entry CyclicLevels).Edited [] := .empty _
  obtain ⟨s₁, hs₁⟩ := e₀.kept.exists_insert (.single 5 0)
  have e₁ := e₀.insert _ hs₁
  obtain ⟨s₂, hs₂⟩ := e₁.kept.exists_insert (.single 3 1)
  have e₂ := e₁.insert _ hs₂
  have hlive : ((0 : Handle), Entry.single 5 0) ∈
      Turn.live [.inserted 1 (.single 3 1), .inserted 0 (.single 5 0)] :=
    List.mem_cons_of_mem _ List.mem_cons_self
  obtain ⟨s₃, hs₃⟩ := e₂.kept.exists_remove hlive
  have e₃ := e₂.remove (withdraw_eq_ok_iff.2 hs₃)
  have e₄ := e₃.refuse (e₃.kept.refuses List.mem_cons_self).withdraw
  obtain ⟨s₅, hs₅⟩ := e₄.kept.exists_insert (.single 5 2)
  have e₅ := e₄.insert _ hs₅
  exact ⟨s₅, e₅, e₅.slotted⟩

end Skiplist
end StreamQuantiles
