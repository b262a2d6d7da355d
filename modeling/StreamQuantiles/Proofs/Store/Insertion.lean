import StreamQuantiles.Proofs.Store.Place
import StreamQuantiles.Proofs.Store.Relinking
import StreamQuantiles.Store.Skiplist.Edit

/-! Insertion puts an element behind every element whose key is at most its own. The search finds,
on each chain, the last of those: a chain met higher up is part of the one below, so the place found
there is a place to go on from. -/
namespace StreamQuantiles

namespace Cell

variable {α ι : Type} [HasKey α ι] [LE ι] [DecidableLE ι]

/-- The keys ascend. -/
def Ascending (cells : List (Cell α)) : Prop :=
  cells.Pairwise fun c d => HasKey.key c.item ≤ HasKey.key d.item

/-- The cells with a further one behind all those whose key is at most its own. -/
def place (c : Cell α) (cells : List (Cell α)) : List (Cell α) :=
  placeBy (fun d => HasKey.key d.item) c cells

theorem Ascending.place [Std.IsLinearPreorder ι] {c : Cell α} {cells : List (Cell α)}
    (ha : Ascending cells) : Ascending (c.place cells) := pairwise_placeBy _ ha

end Cell

namespace Skiplist

variable {α ι σ : Type} [HasKey α ι] [LE ι] [DecidableLE ι] {s : Skiplist α σ}

/-- The search along one chain passes the elements of small key, from wherever it starts among
them, and stops in front of the others. -/
lemma seek_eq_ok {key : ι} {level : Nat} (low high : List Handle)
    (hn : ∀ as bs, low ++ high = as ++ bs → s.succ level as.getLast? = some bs.head?)
    (hl : ∀ h ∈ low, ∃ x, s.get h = .ok x ∧ HasKey.key x ≤ key)
    (hh : ∀ h ∈ high, ∃ x, s.get h = .ok x ∧ ¬ HasKey.key x ≤ key)
    {zs ws : List Handle} (hw : low = zs ++ ws) {fuel : Nat} (hf : ws.length ≤ fuel) :
    s.seek key level fuel zs.getLast? = .ok low.getLast? := by
  induction ws generalizing zs fuel with
  | nil =>
    rw [List.append_nil] at hw
    subst hw
    unfold seek
    rw [nextAt_eq_ok (hn low high rfl)]
    cases high with
    | nil => rfl
    | cons h high =>
      obtain ⟨x, hx, hk⟩ := hh h List.mem_cons_self
      change (do if HasKey.key (← s.get h) ≤ key then _ else return low.getLast?) = _
      rw [hx, ok_bind, if_neg hk]
      rfl
  | cons w ws ih =>
    subst hw
    obtain ⟨x, hx, hk⟩ := hl w (by simp)
    cases fuel with
    | zero => cases hf
    | succ fuel =>
      unfold seek
      rw [nextAt_eq_ok (hn zs (w :: ws ++ high) (by simp))]
      change (do
        if HasKey.key (← s.get w) ≤ key then s.seek key level fuel (some w)
        else return zs.getLast?) = _
      rw [hx, ok_bind, if_pos hk]
      have hzs : zs ++ w :: ws = zs ++ [w] ++ ws := by simp
      have := ih hzs (Nat.le_of_succ_le_succ hf)
      rwa [List.getLast?_concat] at this

lemma exists_cut (hs : List Handle) (place : Link) (h : ∀ g, place = some g → g ∈ hs) :
    ∃ zs ws, hs = zs ++ ws ∧ zs.getLast? = place := by
  cases place with
  | none => exact ⟨[], hs, rfl, rfl⟩
  | some g =>
    obtain ⟨as, bs, rfl⟩ := List.append_of_mem (h g rfl)
    exact ⟨as ++ [g], bs, by simp, List.getLast?_concat⟩

section

variable {key : ι} {pre post : List (Cell α)}

/-- The search finds the left neighbour on every chain, from the top down. -/
lemma predecessors_eq_ok (hr : s.Linked (pre ++ post))
    (hl : ∀ c ∈ pre, HasKey.key c.item ≤ key) (hh : ∀ c ∈ post, ¬ HasKey.key c.item ≤ key)
    {n : Nat} (hn : n ≤ maxLevel) (above : List Link) :
    s.predecessors key n (Cell.chain n pre).getLast? above =
      .ok ((List.range n).map (fun k => (Cell.chain k pre).getLast?) ++ above) := by
  induction n generalizing above with
  | zero => rfl
  | succ n ih =>
    obtain ⟨zs, ws, hcut, hlast⟩ :=
      exists_cut (Cell.chain n pre) (Cell.chain (n + 1) pre).getLast? (by
        intro g hg
        obtain ⟨c, hc, hlt, rfl⟩ := Cell.mem_chain_iff.1 (List.mem_of_getLast? hg)
        exact Cell.mem_chain_iff.2 ⟨c, hc, by omega, rfl⟩)
    have hfuel : ws.length ≤ s.nodes.size := by
      have h1 := (Cell.chain_sublist n pre).length_le
      have h2 := hr.length_le
      simp only [hcut, List.length_append, List.length_map] at h1 h2
      omega
    have hseek : s.seek key n s.nodes.size zs.getLast? = .ok (Cell.chain n pre).getLast? := by
      refine seek_eq_ok _ (Cell.chain n post) ?_ ?_ ?_ hcut hfuel
      · intro as bs he
        have ht := hr.threads n (by omega)
        rw [Cell.chain_append] at ht
        exact (ht as bs he).1
      · intro h hm
        obtain ⟨c, hc, -, rfl⟩ := Cell.mem_chain_iff.1 hm
        exact ⟨c.item, hr.get (List.mem_append_left _ hc), hl c hc⟩
      · intro h hm
        obtain ⟨c, hc, -, rfl⟩ := Cell.mem_chain_iff.1 hm
        exact ⟨c.item, hr.get (List.mem_append_right _ hc), hh c hc⟩
    rw [← hlast]
    change (do
      let found ← s.seek key n s.nodes.size zs.getLast?
      s.predecessors key n found (found :: above)) = _
    rw [hseek, ok_bind, ih (by omega), List.range_succ, List.map_append, List.append_assoc]
    rfl

/-- The search as an insertion starts it, in front of every element. -/
lemma predecessors_height_eq_ok (hr : s.Linked (pre ++ post))
    (hl : ∀ c ∈ pre, HasKey.key c.item ≤ key) (hh : ∀ c ∈ post, ¬ HasKey.key c.item ≤ key) :
    s.predecessors key s.height none [] =
      .ok ((List.range s.height).map fun k => (Cell.chain k pre).getLast?) := by
  have hbefore := predecessors_eq_ok hr hl hh hr.height.2 []
  have hchain := hr.chain_eq_nil (Nat.le_refl s.height)
  rw [Cell.chain_append] at hchain
  rw [(List.append_eq_nil_iff.1 hchain).1, List.append_nil, List.getLast?_nil] at hbefore
  exact hbefore

lemma joints_eq_ok {f g : Nat → Link} {level n : Nat}
    (hs : ∀ k, level ≤ k → k < level + n → s.succ k (f k) = some (g k)) :
    s.joints ((List.range' level n).map f) level =
      .ok ((List.range' level n).map fun k => ⟨f k, g k⟩) := by
  induction n generalizing level with
  | zero => rfl
  | succ n ih =>
    rw [List.range'_succ]
    change (do
      let next ← s.nextAt (f level) level
      let above ← s.joints ((List.range' (level + 1) n).map f) (level + 1)
      return Joint.mk (f level) next :: above) = _
    rw [nextAt_eq_ok (hs level (Nat.le_refl _) (by omega)), ok_bind,
      ih fun k h1 h2 => hs k (by omega) (by omega)]
    rfl

/-- The joints that a new element of the given height is to have. -/
lemma joints_take_eq_ok (hr : s.Linked (pre ++ post)) {n level : Nat} (hle : level ≤ n)
    (hn : n ≤ maxLevel) :
    s.joints (((List.range n).map fun k => (Cell.chain k pre).getLast?).take level) 0 =
      .ok (Cell.tower pre post level) := by
  rw [← List.map_take, List.take_range, Nat.min_eq_left hle, List.range_eq_range']
  rw [joints_eq_ok (g := fun k => (Cell.chain k post).head?), ← List.range_eq_range']
  · rfl
  · intro k _ hk
    have ht := hr.threads k (by omega)
    rw [Cell.chain_append] at ht
    exact (ht _ _ rfl).1

end

section

variable {pre post : List (Cell α)} {h : Handle} {x : α} {level : Nat} {nodes : Arena (Node α)}

/-- The elements in use once a slot has been taken. -/
lemma Linked.shape_insert (hr : s.Linked (pre ++ post)) (hfresh : h ∉ (pre ++ post).map Cell.handle)
    (hc : nodes.content =
      Function.update s.nodes.content h (some ⟨x, Cell.tower pre post level⟩))
    (g : Handle) (y : α) (levels : Nat) :
    Skiplist.shape { s with nodes } g = some (y, levels) ↔
      ⟨g, y, levels⟩ ∈ pre ++ ⟨h, x, level⟩ :: post := by
  rw [shape_of_update hc]
  by_cases hg : g = h
  · subst hg
    have hout := Cell.not_mem_of_handle hfresh y levels
    rw [List.mem_append, not_or] at hout
    simp [hout, eq_comm]
  · rw [if_neg hg, hr.shape]
    simp [hg]

/-- On its own chains an element that nothing was written to has the joints it was made with. -/
lemma links_of_tower (hc : nodes.content =
      Function.update s.nodes.content h (some ⟨x, Cell.tower pre post level⟩))
    {k : Nat} (hk : k < level) :
    Skiplist.succ { s with nodes } k (some h) = some (Cell.chain k post).head? ∧
      Skiplist.pred { s with nodes } k h = some (Cell.chain k pre).getLast? := by
  have hj : (Cell.tower pre post level)[k]? =
      some ⟨(Cell.chain k pre).getLast?, (Cell.chain k post).head?⟩ :=
    Cell.getElem?_tower.2 ⟨hk, rfl⟩
  simp [succ, pred, hc, hj]

/-- A slot just taken and relinked stands between the cells before and after it, on as many chains
as it is tall. -/
lemma Linked.exists_relink_new (hr : s.Linked (pre ++ post)) (x : α)
    (hlevel : 1 ≤ level ∧ level ≤ s.height) (hfresh : h ∉ (pre ++ post).map Cell.handle)
    (hc : nodes.content =
      Function.update s.nodes.content h (some ⟨x, Cell.tower pre post level⟩))
    (hv : ∃ free, nodes.Vacancies free) :
    ∃ s', relink (fun _ => ⟨some h, some h⟩) (Cell.tower pre post level) 0 { s with nodes } =
        .ok s' ∧ s'.next h = .ok (post.map Cell.handle).head? ∧ s'.height = s.height ∧
      Linked { s' with
          tail := if (post.map Cell.handle).head?.isNone then some h else s'.tail
          size := s'.size + 1 } (pre ++ ⟨h, x, level⟩ :: post) := by
  have hheight := hr.height.2
  have hcut : ∀ k < maxLevel, Chain.Threads (s.succ k) (s.pred k)
      (Cell.chain k pre ++ Cell.chain k post) := by
    intro k hk
    rw [← Cell.chain_append]
    exact hr.threads k hk
  obtain ⟨s', hs', hrel, haround, hself⟩ := exists_relink_around (s := s)
    (fun _ => ⟨some h, some h⟩) level hfresh
    (fun k hk => by
      obtain ⟨h1, h2⟩ := hcut k (by omega) _ _ rfl
      exact ⟨⟨_, h1⟩, fun g hg => ⟨_, h2 g hg⟩⟩) hc
  have hjoint : ∀ k < level, s'.succ k (some h) = some (Cell.chain k post).head? ∧
      s'.pred k h = some (Cell.chain k pre).getLast? := by
    intro k hk
    rw [(hself k).1, (hself k).2]
    exact links_of_tower hc hk
  have hd : ((pre ++ ⟨h, x, level⟩ :: post).map Cell.handle).Nodup := by
    rw [List.map_append, List.map_cons, List.nodup_middle, ← List.map_append]
    exact List.nodup_cons.2 ⟨hfresh, hr.distinct⟩
  have hshape : s'.shape = Skiplist.shape { s with nodes } := hrel.shape
  have htail : s'.tail = s.tail := hrel.tail
  have hsize : s'.size = s.size := hrel.size
  have hh : s'.height = s.height := hrel.height
  refine ⟨s', hs', ?_, hh, ?_⟩
  · rw [← Cell.chain_zero fun c hc => (hr.levels c (List.mem_append_right _ hc)).1]
    exact nextAt_eq_ok (hjoint 0 hlevel.1).1
  refine ⟨hd, fun g y levels => ?_, fun k hk => ?_, ?_, ?_, fun c hmem => ?_, ?_, ?_⟩
  · change s'.shape g = _ ↔ _
    rw [hshape]
    exact hr.shape_insert hfresh hc g y levels
  · change Chain.Threads (s'.succ k) (s'.pred k) _
    have hdk := hd.sublist (Cell.chain_sublist k _)
    rw [Cell.chain_append] at hdk ⊢
    by_cases hkl : k < level
    · rw [Cell.chain_cons_of_lt (c := ⟨h, x, level⟩) hkl] at hdk ⊢
      exact (hcut k hk).insert hdk (haround k).elsewhere ((haround k).forward hkl) (hjoint k hkl).1
        (hjoint k hkl).2 ((haround k).backward hkl)
    · rw [Cell.chain_cons_of_le (c := ⟨h, x, level⟩) (Nat.le_of_not_lt hkl)]
      exact (haround k).threads_above (Nat.le_of_not_lt hkl) hfresh (hcut k hk)
  · cases post with
    | nil => simp
    | cons c post =>
      change s'.tail = _
      rw [htail, hr.tail]
      simp [List.getLast?_append, List.getLast?_cons]
  · change s'.size + 1 = _
    rw [hsize, hr.size]
    simp only [List.length_append, List.length_cons]
    omega
  · change _ ∧ c.levels ≤ s'.height
    rw [hh]
    simp only [List.mem_append, List.mem_cons] at hmem
    rcases hmem with hmem | rfl | hmem
    · exact hr.levels c (List.mem_append_left _ hmem)
    · exact hlevel
    · exact hr.levels c (List.mem_append_right _ hmem)
  · change 1 ≤ s'.height ∧ s'.height ≤ maxLevel
    rw [hh]
    exact hr.height
  · obtain ⟨free, hv⟩ := hv
    exact ⟨free, hrel.vacancies free hv⟩

end

lemma clampLevel_bounds (drawn : Nat) {height : Nat} (hh : height ≤ maxLevel) :
    1 ≤ clampLevel drawn height ∧ clampLevel drawn height ≤ maxLevel ∧
      max height (clampLevel drawn height) ≤ maxLevel := by
  unfold clampLevel maxLevel at *
  omega

/-- A list may count chains that no element reaches. -/
lemma Linked.raise {cells : List (Cell α)} (hr : s.Linked cells) (levels : σ) {height : Nat}
    (hle : s.height ≤ height) (hmax : height ≤ maxLevel) :
    Linked { s with levels, height } cells :=
  { hr with
    levels := fun c hc => ⟨(hr.levels c hc).1, (hr.levels c hc).2.trans hle⟩
    height := ⟨hr.height.1.trans hle, hmax⟩ }

variable [LevelSource σ] {cells pre post : List (Cell α)}

/-- An insertion answers with a fresh handle and puts the element between the cells of small key
and the others. -/
theorem Represents.exists_insert_between (hr : s.Represents (pre ++ post)) {x : α}
    (hl : ∀ c ∈ pre, HasKey.key c.item ≤ HasKey.key x)
    (hh : ∀ c ∈ post, ¬ HasKey.key c.item ≤ HasKey.key x) :
    ∃ h s' levels, s.insert x = .ok (h, s') ∧ h ∉ (pre ++ post).map Cell.handle ∧
      s'.Represents (pre ++ ⟨h, x, levels⟩ :: post) := by
  obtain ⟨free, hv⟩ := hr.vacancies
  let level := clampLevel (LevelSource.draw s.levels s.height).1 s.height
  let s₁ : Skiplist α σ :=
    { s with levels := (LevelSource.draw s.levels s.height).2, height := max s.height level }
  obtain ⟨hlow, -, hmax⟩ :=
    clampLevel_bounds (LevelSource.draw s.levels s.height).1 hr.height.2
  have hr₁ : s₁.Linked (pre ++ post) := hr.toLinked.raise _ (Nat.le_max_left _ _) hmax
  have hbefore := predecessors_height_eq_ok hr₁ hl hh
  have hjoints := joints_take_eq_ok hr₁ (Nat.le_max_right s.height level) hmax
  obtain ⟨h, nodes, hins, hnew, hcontent, hvac⟩ :=
    hv.exists_insert (⟨x, Cell.tower pre post level⟩ : Node α)
  have hfresh : h ∉ (pre ++ post).map Cell.handle := hr.not_mem_of_content hnew
  obtain ⟨s₂, hlink, hnext, hheight, hr₂⟩ := hr₁.exists_relink_new x
    ⟨hlow, Nat.le_max_right _ _⟩ hfresh hcontent ⟨_, hvac⟩
  refine ⟨h, _, level, ?_, hfresh, hr₂, ?_⟩
  · change (do
      let before ← s₁.predecessors (HasKey.key x) s₁.height none []
      let tower ← s₁.joints (before.take level) 0
      let taken ← s₁.nodes.insert ⟨x, tower⟩
      let s ← relink (fun _ => ⟨some taken.1, some taken.1⟩) tower 0 { s₁ with nodes := taken.2 }
      let tail := if (← s.next taken.1).isNone then some taken.1 else s.tail
      return (taken.1, { s with tail, size := s.size + 1 })) = _
    rw [hbefore, ok_bind, hjoints, ok_bind, hins, ok_bind, hlink, ok_bind, hnext, ok_bind]
    rfl
  · have hheight : s₂.height = max s.height level := hheight
    change s₂.height = 1 ∨ ∃ c ∈ pre ++ ⟨h, x, level⟩ :: post, c.levels = s₂.height
    rw [hheight]
    rcases Nat.le_total s.height level with hle | hle
    · rw [Nat.max_eq_right hle]
      exact .inr ⟨⟨h, x, level⟩, by simp, rfl⟩
    · rw [Nat.max_eq_left hle]
      refine hr.reached.imp_right fun ⟨c, hmem, hc⟩ => ⟨c, ?_, hc⟩
      simp only [List.mem_append, List.mem_cons] at hmem ⊢
      tauto

/-- An insertion always answers, and keeps the order. -/
theorem Represents.exists_insert [Std.IsLinearPreorder ι] (hr : s.Represents cells)
    (ha : Cell.Ascending cells) (x : α) :
    ∃ h s' levels, s.insert x = .ok (h, s') ∧ h ∉ cells.map Cell.handle ∧
      s'.Represents (Cell.place ⟨h, x, levels⟩ cells) := by
  have hsplit := List.takeWhile_append_dropWhile
    (p := fun d : Cell α => decide (HasKey.key d.item ≤ HasKey.key x)) (l := cells)
  rw [← hsplit] at hr
  obtain ⟨h, s', levels, hins, hfresh, hr'⟩ := hr.exists_insert_between
    (fun c hc => key_le_of_mem_takeWhile (fun d : Cell α => HasKey.key d.item) hc)
    (fun c hc => not_key_le_of_mem_dropWhile (fun d : Cell α => HasKey.key d.item) ha hc)
  rw [hsplit] at hfresh
  exact ⟨h, s', levels, hins, hfresh, hr'⟩

end Skiplist
end StreamQuantiles
