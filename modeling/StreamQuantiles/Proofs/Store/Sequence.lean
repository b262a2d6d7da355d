import Mathlib.Tactic.Lemma
import StreamQuantiles.Entry
import StreamQuantiles.Proofs.Store.Insertion
import StreamQuantiles.Proofs.Store.Removal

/-! What a skiplist is to its callers: a sequence of elements under handles, kept in the order of
their keys, with later ones of equal key behind the earlier. -/
namespace StreamQuantiles

/-- Elements in their order, each under its handle. -/
abbrev Sequence (α : Type) := List (Handle × α)

namespace Sequence

variable {α ι : Type} [HasKey α ι] [LE ι] [DecidableLE ι] {l : Sequence α}

def handles (l : Sequence α) : List Handle := l.map Prod.fst

def items (l : Sequence α) : List α := l.map Prod.snd

/-- The sequence with a further element behind all those whose key is at most its own. -/
def place (h : Handle) (x : α) (l : Sequence α) : Sequence α :=
  placeBy (fun p => HasKey.key p.2) (h, x) l

/-- The sequence without the element under a handle. -/
def erase (h : Handle) (l : Sequence α) : Sequence α := l.filter (·.1 ≠ h)

/-- The sequence with the element under a handle changed where it stands. -/
def modify (h : Handle) (f : α → α) (l : Sequence α) : Sequence α :=
  l.map fun p => if p.1 = h then (h, f p.2) else p

lemma place_perm (h : Handle) (x : α) (l : Sequence α) : (place h x l).Perm ((h, x) :: l) := by
  refine List.perm_middle.trans ?_
  rw [List.takeWhile_append_dropWhile]

lemma handles_erase (h : Handle) (l : Sequence α) :
    handles (erase h l) = (handles l).filter (· != h) := by
  rw [handles, handles, List.filter_map]
  refine congrArg (List.map Prod.fst) (List.filter_congr fun p _ => ?_)
  exact decide_not

lemma length_erase {h : Handle} (hd : (handles l).Nodup) (hm : h ∈ handles l) :
    (erase h l).length + 1 = l.length := by
  have hlen := congrArg List.length (handles_erase h l)
  rw [← hd.erase_eq_filter, List.length_erase_of_mem hm, handles, handles,
    List.length_map, List.length_map] at hlen
  have hpos := List.length_pos_of_mem hm
  rw [handles, List.length_map] at hpos
  omega

lemma erase_eq_self {h : Handle} (hh : h ∉ handles l) : erase h l = l := by
  apply List.filter_eq_self.2
  intro p hp
  apply decide_eq_true
  rintro rfl
  exact hh (List.mem_map_of_mem hp)

lemma modify_eq_self {h : Handle} (hh : h ∉ handles l) (f : α → α) : modify h f l = l := by
  refine (List.map_congr_left fun p hp => ?_).trans (List.map_id l)
  apply if_neg
  rintro rfl
  exact hh (List.mem_map_of_mem hp)

end Sequence

namespace Cell

variable {α ι : Type} {c : Cell α} {cells pre post : List (Cell α)}

/-- The elements of the cells under their handles. -/
def sequence (cells : List (Cell α)) : Sequence α := cells.map fun c => (c.handle, c.item)

@[simp] lemma handles_sequence : (sequence cells).handles = cells.map Cell.handle := by
  simp [sequence, Sequence.handles]

@[simp] lemma items_sequence : (sequence cells).items = cells.map Cell.item := by
  simp [sequence, Sequence.items]

@[simp] lemma length_sequence : (sequence cells).length = cells.length := by
  simp [sequence]

lemma exists_of_sequence_eq {l l' : Sequence α} {h : Handle} {x : α}
    (hl : sequence cells = l ++ (h, x) :: l') :
    ∃ pre c post, cells = pre ++ c :: post ∧ c.handle = h ∧ c.item = x ∧
      sequence pre = l ∧ sequence post = l' := by
  obtain ⟨pre, rest, rfl, hpre, hrest⟩ := List.map_eq_append_iff.1 hl
  obtain ⟨c, post, rfl, hc, hpost⟩ := List.map_eq_cons_iff.1 hrest
  obtain ⟨rfl, rfl⟩ := Prod.mk.inj hc
  exact ⟨pre, c, post, rfl, rfl, rfl, hpre, hpost⟩

lemma sequence_place [HasKey α ι] [LE ι] [DecidableLE ι] :
    sequence (c.place cells) = Sequence.place c.handle c.item (sequence cells) :=
  (placeBy_map (fun p : Handle × α => HasKey.key p.2) fun c : Cell α => (c.handle, c.item)).symm

lemma sequence_erase (hc : c.handle ∉ (pre ++ post).map Cell.handle) :
    Sequence.erase c.handle (sequence (pre ++ c :: post)) = sequence (pre ++ post) := by
  rw [← Sequence.erase_eq_self (h := c.handle) (l := sequence (pre ++ post)) (by simpa using hc)]
  simp [sequence, Sequence.erase]

lemma sequence_modify (hc : c.handle ∉ (pre ++ post).map Cell.handle) (f : α → α) :
    Sequence.modify c.handle f (sequence (pre ++ c :: post)) =
      sequence (pre ++ { c with item := f c.item } :: post) := by
  rw [List.map_append, List.mem_append, not_or] at hc
  have hpre := Sequence.modify_eq_self (l := sequence pre) (by simpa using hc.1) f
  have hpost := Sequence.modify_eq_self (l := sequence post) (by simpa using hc.2) f
  simp only [sequence, Sequence.modify, List.map_append, List.map_cons] at hpre hpost ⊢
  rw [hpre, hpost]
  simp

end Cell

namespace Skiplist

variable {α ι σ : Type} {s s' : Skiplist α σ} {cells pre post : List (Cell α)} {l : Sequence α}

/-- A reader ahead of some of the elements is given the first of them. -/
lemma Linked.next? (hr : s.Linked (pre ++ post)) (n : Nat) :
    Cursor.next? s ⟨(post.map Cell.handle).head?, n⟩ =
      .ok (post.head?.map fun c => (c.item, ⟨(post.tail.map Cell.handle).head?, n - 1⟩)) := by
  cases post with
  | nil => rfl
  | cons c post =>
    change (do
      let position ← s.next c.handle
      let item ← s.get c.handle
      return some (item, (⟨position, n - 1⟩ : Cursor))) = _
    rw [hr.next, ok_bind, hr.get (by simp), ok_bind]
    rfl

/-- A reader ahead of some of the elements goes through them in order. -/
lemma Linked.take (hr : s.Linked (pre ++ post)) (k n : Nat) :
    Cursor.take s k ⟨(post.map Cell.handle).head?, n⟩ =
      .ok ((post.map Cell.item).take k,
        ⟨((post.drop k).map Cell.handle).head?, n - min k post.length⟩) := by
  induction k generalizing pre post n with
  | zero =>
    rw [Nat.zero_min]
    rfl
  | succ k ih =>
    rw [Cursor.take, hr.next?, ok_bind]
    cases post with
    | nil => rfl
    | cons c post =>
      have hr : s.Linked ((pre ++ [c]) ++ post) := by rwa [List.append_assoc]
      change (Cursor.take s k ⟨(post.map Cell.handle).head?, n - 1⟩ >>= fun taken =>
        .ok (c.item :: taken.1, taken.2)) = _
      rw [ih hr, ok_bind, List.length_cons, Nat.add_min_add_right, Nat.add_comm (min k _),
        Nat.sub_add_eq]
      rfl

/-- Every read answers as the sequence does. -/
structure Reads (s : Skiplist α σ) (l : Sequence α) : Prop where
  first : s.first = l.handles.head?
  last : s.last = l.handles.getLast?
  size : s.size = l.length
  isEmpty : s.isEmpty = l.isEmpty
  get : ∀ h x, (h, x) ∈ l → s.get h = .ok x
  next : ∀ before h x after, l = before ++ (h, x) :: after →
    s.next h = .ok (Sequence.handles after).head?
  prev : ∀ before h x after, l = before ++ (h, x) :: after →
    s.prev h = .ok (Sequence.handles before).getLast?
  forward : s.handles = .ok l.handles
  backward : s.handlesBackward = .ok l.handles.reverse
  items : s.items = .ok l.items
  /-- After `k` elements a reader reports those still to come, and it is at the end when there are
  none. -/
  iterate : ∀ k ≤ l.length, ∃ c ahead, Cursor.take s k (.start s) = .ok (l.items.take k, c) ∧
    c.remaining = l.length - k ∧ c.next? s = .ok ahead ∧ (ahead = none ↔ k = l.length)

/-- Every write to an element of the sequence answers. An insertion answers with a new handle, a
removal with the element. -/
structure Writes [HasKey α ι] [LE ι] [DecidableLE ι] [LevelSource σ] (s : Skiplist α σ)
    (l : Sequence α) : Prop where
  insert : ∀ x, ∃ h s', s.insert x = .ok (h, s') ∧ h ∉ l.handles
  remove : ∀ h x, (h, x) ∈ l → ∃ s', s.remove h = .ok (x, s')
  modify : ∀ h x f, (h, x) ∈ l → ∃ s', s.modify h f = .ok s'

/-- A list reached by any calls on live handles, and the sequence that the same calls lead to. -/
inductive Run [HasKey α ι] [LE ι] [DecidableLE ι] [LevelSource σ] :
    Skiplist α σ → Sequence α → Prop where
  | empty (levels : σ) : Run (empty levels) []
  | insert {s s' : Skiplist α σ} {l : Sequence α} (hr : Run s l) {h : Handle} (x : α)
      (hs : s.insert x = .ok (h, s')) : Run s' (l.place h x)
  | remove {s s' : Skiplist α σ} {l : Sequence α} (hr : Run s l) {h : Handle} {x : α}
      (hl : h ∈ l.handles) (hs : s.remove h = .ok (x, s')) : Run s' (l.erase h)
  | modify {s s' : Skiplist α σ} {l : Sequence α} (hr : Run s l) {h : Handle} (f : α → α)
      (hl : h ∈ l.handles) (hf : ∀ x, (h, x) ∈ l → HasKey.key (f x) = HasKey.key x)
      (hs : s.modify h f = .ok s') : Run s' (l.modify h f)
  | clear {s : Skiplist α σ} {l : Sequence α} (hr : Run s l) : Run s.clear []

/-- A list that stands for cells reads as their sequence. -/
theorem Linked.reads (hr : s.Linked cells) : s.Reads (Cell.sequence cells) where
  first := by rw [Cell.handles_sequence, hr.first]
  last := by rw [Cell.handles_sequence, ← hr.tail, Skiplist.last]
  size := by rw [Cell.length_sequence, hr.size]
  isEmpty := by
    rw [Skiplist.isEmpty, hr.size, Cell.sequence]
    cases cells <;> rfl
  get := by
    intro h x hm
    obtain ⟨c, hc, he⟩ := List.mem_map.1 hm
    obtain ⟨rfl, rfl⟩ := Prod.mk.inj he
    exact hr.get hc
  next := by
    intro before h x after hl
    obtain ⟨pre, c, post, rfl, rfl, rfl, rfl, rfl⟩ := Cell.exists_of_sequence_eq hl
    rw [Cell.handles_sequence]
    exact hr.next
  prev := by
    intro before h x after hl
    obtain ⟨pre, c, post, rfl, rfl, rfl, rfl, rfl⟩ := Cell.exists_of_sequence_eq hl
    rw [Cell.handles_sequence]
    exact hr.prev
  forward := by rw [Cell.handles_sequence, hr.handles]
  backward := by rw [Cell.handles_sequence, hr.handlesBackward]
  items := by rw [Cell.items_sequence, hr.items]
  iterate := by
    intro k hk
    rw [Cell.length_sequence] at hk ⊢
    have hwhole : s.Linked ([] ++ cells) := hr
    have htake := hwhole.take k s.size
    rw [← hr.first, hr.size, Nat.min_eq_left hk] at htake
    have hcut : s.Linked (cells.take k ++ cells.drop k) := by
      rwa [List.take_append_drop]
    have hnext := hcut.next? (cells.length - k)
    refine ⟨_, _, ?_, rfl, hnext, ?_⟩
    · rw [Cell.items_sequence, ← htake, ← hr.size]
      rfl
    · rw [Option.map_eq_none_iff, List.head?_eq_none_iff, List.drop_eq_nil_iff]
      omega

variable [HasKey α ι] [LE ι] [DecidableLE ι] [Std.IsLinearPreorder ι] [LevelSource σ]

/-- A list that stands for cells in ascending order serves every write to them. -/
theorem Represents.writes (hr : s.Represents cells) (ha : Cell.Ascending cells) :
    s.Writes (Cell.sequence cells) where
  insert := by
    intro x
    obtain ⟨h, s', levels, hs, hh, -⟩ := hr.exists_insert ha x
    exact ⟨h, s', hs, by rwa [Cell.handles_sequence]⟩
  remove := by
    intro h x hm
    obtain ⟨before, after, hl⟩ := List.append_of_mem hm
    obtain ⟨pre, c, post, rfl, rfl, rfl, -, -⟩ := Cell.exists_of_sequence_eq hl
    obtain ⟨s', hs, -⟩ := hr.exists_remove
    exact ⟨s', hs⟩
  modify := by
    intro h x f hm
    obtain ⟨before, after, hl⟩ := List.append_of_mem hm
    obtain ⟨pre, c, post, rfl, rfl, -, -, -⟩ := Cell.exists_of_sequence_eq hl
    obtain ⟨s', hs, -⟩ := hr.exists_modify f
    exact ⟨s', hs⟩

/-- Every run leaves a list that stands for its sequence, in ascending order. -/
lemma Run.exists_cells (hr : Run s l) :
    ∃ cells, s.Represents cells ∧ Cell.Ascending cells ∧ Cell.sequence cells = l := by
  induction hr with
  | empty levels => exact ⟨[], represents_empty levels, List.Pairwise.nil, rfl⟩
  | clear _ _ => exact ⟨[], represents_empty _, List.Pairwise.nil, rfl⟩
  | insert _ x hs ih =>
    obtain ⟨cells, hr, ha, rfl⟩ := ih
    obtain ⟨h', s'', levels, hs', -, hr'⟩ := hr.exists_insert ha x
    rw [hs] at hs'
    obtain ⟨rfl, rfl⟩ : _ = h' ∧ _ = s'' := by simpa using hs'
    exact ⟨_, hr', ha.place, Cell.sequence_place⟩
  | remove _ hl hs ih =>
    obtain ⟨cells, hr, ha, rfl⟩ := ih
    rw [Cell.handles_sequence] at hl
    obtain ⟨c, hc, rfl⟩ := List.mem_map.1 hl
    obtain ⟨pre, post, rfl⟩ := List.append_of_mem hc
    obtain ⟨s'', hs', hr'⟩ := hr.exists_remove
    rw [hs] at hs'
    obtain ⟨rfl, rfl⟩ : _ = c.item ∧ _ = s'' := by simpa using hs'
    refine ⟨_, hr', ?_, (Cell.sequence_erase hr.not_mem_handle).symm⟩
    exact ha.sublist (List.Sublist.append_left (List.sublist_cons_self _ _) _)
  | modify _ f hl hf hs ih =>
    obtain ⟨cells, hr, ha, rfl⟩ := ih
    rw [Cell.handles_sequence] at hl
    obtain ⟨c, hc, rfl⟩ := List.mem_map.1 hl
    have hkey := hf c.item (List.mem_map_of_mem hc)
    obtain ⟨pre, post, rfl⟩ := List.append_of_mem hc
    obtain ⟨s'', hs', hr'⟩ := hr.exists_modify f
    rw [hs] at hs'
    obtain rfl : _ = s'' := by simpa using hs'
    refine ⟨_, hr', ?_, (Cell.sequence_modify hr.not_mem_handle f).symm⟩
    simpa [Cell.Ascending, List.pairwise_append, hkey] using ha

/-- However the levels are drawn, a list serves its callers as a sequence in which an element is
placed behind all those whose key is at most its own. -/
theorem Run.reads_and_writes (hr : Run s l) :
    s.Reads l ∧ s.Writes l ∧ l.handles.Nodup ∧
      l.Pairwise fun p q => HasKey.key p.2 ≤ HasKey.key q.2 := by
  obtain ⟨cells, hc, ha, rfl⟩ := hr.exists_cells
  refine ⟨hc.reads, hc.writes ha, ?_, List.pairwise_map.2 ha⟩
  rw [Cell.handles_sequence]
  exact hc.distinct

/-- Levels far above the height, and a slot taken anew after a removal. -/
theorem Run.reads_and_writes_cyclic :
    ∃ (h₁ h₂ : Handle) (s : Skiplist Entry CyclicLevels),
      s.Run [(h₁, .single 3 1), (h₂, .single 5 2)] ∧
      s.Reads [(h₁, .single 3 1), (h₂, .single 5 2)] ∧
      s.Writes [(h₁, .single 3 1), (h₂, .single 5 2)] := by
  have r₀ : (Skiplist.empty ⟨[40, 0, 3], 0⟩ : Skiplist Entry CyclicLevels).Run [] := .empty _
  obtain ⟨h₀, s₁, hs₁, -⟩ := r₀.reads_and_writes.2.1.insert (.single 5 0)
  have r₁ : s₁.Run [(h₀, .single 5 0)] := r₀.insert _ hs₁
  obtain ⟨h₁, s₂, hs₂, hne⟩ := r₁.reads_and_writes.2.1.insert (.single 3 1)
  have r₂ : s₂.Run [(h₁, .single 3 1), (h₀, .single 5 0)] := r₁.insert _ hs₂
  obtain ⟨s₃, hs₃⟩ := r₂.reads_and_writes.2.1.remove h₀ (.single 5 0) (by simp)
  have r₃ : s₃.Run [(h₁, .single 3 1)] := by
    have hne : h₁ ≠ h₀ := by simpa [Sequence.handles] using hne
    have := r₂.remove (by simp [Sequence.handles]) hs₃
    simpa [Sequence.erase, hne] using this
  obtain ⟨h₂, s₄, hs₄, -⟩ := r₃.reads_and_writes.2.1.insert (.single 5 2)
  have r₄ : s₄.Run [(h₁, .single 3 1), (h₂, .single 5 2)] := r₃.insert _ hs₄
  exact ⟨h₁, h₂, s₄, r₄, r₄.reads_and_writes.1, r₄.reads_and_writes.2.1⟩

end Skiplist
end StreamQuantiles
