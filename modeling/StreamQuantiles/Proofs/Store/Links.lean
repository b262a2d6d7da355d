import StreamQuantiles.Proofs.Store.Chain
import StreamQuantiles.Proofs.Store.Vacancy

/-! What a list looks like through its reads: the items with the number of chains through each, and
the links of every chain. Each write is described by what it changes in that view. -/
namespace StreamQuantiles
namespace Skiplist

variable {α σ : Type} {s s' s'' : Skiplist α σ}

/-- The item of an element, and the number of chains through it. -/
def shape (s : Skiplist α σ) (h : Handle) : Option (α × Nat) :=
  (s.nodes.content h).map fun node => (node.item, node.tower.length)

/-- The link forward on one chain, from an element or from before the first one. -/
def succ (s : Skiplist α σ) (level : Nat) (place : Link) : Option Link :=
  match place with
  | some h => (s.nodes.content h).bind fun node => node.tower[level]?.map Joint.next
  | none => s.head[level]?

/-- The link backward on one chain. -/
def pred (s : Skiplist α σ) (level : Nat) (h : Handle) : Option Link :=
  (s.nodes.content h).bind fun node => node.tower[level]?.map Joint.prev

lemma nodes_get_eq_ok {h : Handle} {node : Node α} (hc : s.nodes.content h = some node) :
    s.nodes.get h = .ok node := Arena.get_eq_ok_iff_content.2 hc

lemma exists_node_of_shape {h : Handle} {x : α} {levels : Nat} (hs : s.shape h = some (x, levels)) :
    ∃ node, s.nodes.content h = some node ∧ node.item = x ∧ node.tower.length = levels := by
  obtain ⟨node, hn, he⟩ := Option.map_eq_some_iff.1 hs
  simp only [Prod.mk.injEq] at he
  exact ⟨node, hn, he⟩

lemma exists_joint_of_succ {h : Handle} {level : Nat} {link : Link}
    (hs : s.succ level (some h) = some link) :
    ∃ node j, s.nodes.content h = some node ∧ node.tower[level]? = some j ∧ j.next = link := by
  obtain ⟨node, hn, he⟩ := Option.bind_eq_some_iff.1 hs
  obtain ⟨j, hj, rfl⟩ := Option.map_eq_some_iff.1 he
  exact ⟨node, j, hn, hj, rfl⟩

lemma exists_joint_of_pred {h : Handle} {level : Nat} {link : Link}
    (hs : s.pred level h = some link) :
    ∃ node j, s.nodes.content h = some node ∧ node.tower[level]? = some j ∧ j.prev = link := by
  obtain ⟨node, hn, he⟩ := Option.bind_eq_some_iff.1 hs
  obtain ⟨j, hj, rfl⟩ := Option.map_eq_some_iff.1 he
  exact ⟨node, j, hn, hj, rfl⟩

lemma get_eq_ok {h : Handle} {x : α} {levels : Nat} (hs : s.shape h = some (x, levels)) :
    s.get h = .ok x := by
  obtain ⟨node, hn, rfl, -⟩ := exists_node_of_shape hs
  unfold get
  rw [nodes_get_eq_ok hn]
  rfl

lemma nextAt_eq_ok {place : Link} {level : Nat} {link : Link}
    (hs : s.succ level place = some link) : s.nextAt place level = .ok link := by
  cases place with
  | none =>
    simp only [succ] at hs
    simp [nextAt, hs]
  | some h =>
    obtain ⟨node, j, hn, hj, rfl⟩ := exists_joint_of_succ hs
    change (do return (← (← s.nodes.get h).joint level).next) = _
    rw [nodes_get_eq_ok hn, ok_bind, Node.joint_eq_ok_iff.2 hj]
    rfl

lemma prev_eq_ok {h : Handle} {link : Link} (hs : s.pred 0 h = some link) :
    s.prev h = .ok link := by
  obtain ⟨node, j, hn, hj, rfl⟩ := exists_joint_of_pred hs
  unfold prev
  rw [nodes_get_eq_ok hn, ok_bind, Node.joint_eq_ok_iff.2 hj]
  rfl

section

variable {h : Handle} {o : Option (Node α)} {nodes : Arena (Node α)}
  (hc : nodes.content = Function.update s.nodes.content h o)
include hc

/-- A change to one slot leaves the links at the others. -/
lemma succ_of_update (level : Nat) {place : Link} (hp : place ≠ some h) :
    Skiplist.succ { s with nodes } level place = s.succ level place := by
  cases place with
  | none => rfl
  | some g =>
    have hg : g ≠ h := fun he => hp (congrArg some he)
    simp only [succ, hc, Function.update_of_ne hg]

lemma pred_of_update (level : Nat) {g : Handle} (hg : g ≠ h) :
    Skiplist.pred { s with nodes } level g = s.pred level g := by
  simp only [pred, hc, Function.update_of_ne hg]

lemma shape_of_update (g : Handle) :
    Skiplist.shape { s with nodes } g =
      if g = h then o.map fun node => (node.item, node.tower.length) else s.shape g := by
  unfold shape
  rw [hc]
  split
  · next hg => rw [hg, Function.update_self]
  · next hg => rw [Function.update_of_ne hg]

end

/-- `s'` is `s` but for its links. -/
structure Relinked (s s' : Skiplist α σ) : Prop where
  shape : s'.shape = s.shape
  slots : s'.nodes.size = s.nodes.size
  vacancies : ∀ free, s.nodes.Vacancies free → s'.nodes.Vacancies free
  tail : s'.tail = s.tail
  height : s'.height = s.height
  size : s'.size = s.size
  levels : s'.levels = s.levels

lemma Relinked.refl (s : Skiplist α σ) : Relinked s s :=
  ⟨rfl, rfl, fun _ h => h, rfl, rfl, rfl, rfl⟩

lemma Relinked.trans (h : Relinked s s') (h' : Relinked s' s'') : Relinked s s'' where
  shape := h'.shape.trans h.shape
  slots := h'.slots.trans h.slots
  vacancies free hv := h'.vacancies free (h.vacancies free hv)
  tail := h'.tail.trans h.tail
  height := h'.height.trans h.height
  size := h'.size.trans h.size
  levels := h'.levels.trans h.levels

/-- The list with one joint of an element replaced. -/
def setJoint (s : Skiplist α σ) (h : Handle) (node : Node α) (level : Nat) (j : Joint) :
    Skiplist α σ :=
  { s with nodes := s.nodes.set h { node with tower := node.tower.set level j } }

lemma modifyJoint_eq_ok {h : Handle} {node : Node α} {level : Nat} {j : Joint}
    (hn : s.nodes.content h = some node) (hj : node.tower[level]? = some j) (f : Joint → Joint) :
    (do
      let nodes ← s.nodes.modify h (·.modifyJoint level f)
      return { s with nodes }) = .ok (s.setJoint h node level (f j)) := by
  have hf : node.modifyJoint level f = .ok { node with tower := node.tower.set level (f j) } := by
    unfold Node.modifyJoint
    rw [Node.joint_eq_ok_iff.2 hj]
    rfl
  rw [Arena.modify_eq_ok hn hf]
  rfl

lemma relinked_setJoint {h : Handle} {node : Node α} (hn : s.nodes.content h = some node)
    (level : Nat) (j : Joint) : Relinked s (s.setJoint h node level j) := by
  refine ⟨?_, Arena.size_set _ _ _, fun free hv => hv.set hn _, rfl, rfl, rfl, rfl⟩
  funext g
  unfold shape setJoint
  rw [Arena.content_set hn]
  by_cases hg : g = h
  · subst hg
    simp [hn]
  · rw [Function.update_of_ne hg]

section

variable {h : Handle} {node : Node α} {level : Nat} {j : Joint}

lemma succ_setJoint (hn : s.nodes.content h = some node) (hj : node.tower[level]? = some j)
    (j' : Joint) (k : Nat) (place : Link) :
    (s.setJoint h node level j').succ k place =
      if k = level ∧ place = some h then some j'.next else s.succ k place := by
  have hlt : level < node.tower.length := (List.getElem?_eq_some_iff.1 hj).1
  cases place with
  | none => simp [succ, setJoint]
  | some g =>
    unfold succ setJoint
    rw [Arena.content_set hn]
    by_cases hg : g = h
    · subst hg
      by_cases hk : k = level
      · subst hk
        simp [hlt]
      · simp [hn, hk, Ne.symm hk]
    · simp [hg]

lemma pred_setJoint (hn : s.nodes.content h = some node) (hj : node.tower[level]? = some j)
    (j' : Joint) (k : Nat) (g : Handle) :
    (s.setJoint h node level j').pred k g =
      if k = level ∧ g = h then some j'.prev else s.pred k g := by
  have hlt : level < node.tower.length := (List.getElem?_eq_some_iff.1 hj).1
  unfold pred setJoint
  rw [Arena.content_set hn]
  by_cases hg : g = h
  · subst hg
    by_cases hk : k = level
    · subst hk
      simp [hlt]
    · simp [hn, hk, Ne.symm hk]
  · simp [hg]

end

/-- A link forward that can be read can be written, and nothing else changes. -/
theorem exists_setNext {place : Link} {level : Nat} {link : Link}
    (hs : s.succ level place = some link) (target : Link) :
    ∃ s', s.setNext place level target = .ok s' ∧ Relinked s s' ∧
      (∀ k p, s'.succ k p = if k = level ∧ p = place then some target else s.succ k p) ∧
      s'.pred = s.pred := by
  cases place with
  | none =>
    have hlt : level < maxLevel := by
      by_contra hge
      simp [succ, Vector.getElem?_eq_none (Nat.le_of_not_lt hge)] at hs
    refine ⟨{ s with head := s.head.setIfInBounds level target }, ?_, ?_, ?_, rfl⟩
    · simp [setNext, hlt]
    · exact ⟨rfl, rfl, fun _ h => h, rfl, rfl, rfl, rfl⟩
    · intro k p
      cases p with
      | some h => simp [succ]
      | none =>
        by_cases hk : k = level
        · subst hk
          simp [succ, hlt]
        · simp [succ, hk, Vector.getElem?_setIfInBounds_ne (Ne.symm hk)]
  | some h =>
    obtain ⟨node, j, hn, hj, -⟩ := exists_joint_of_succ hs
    refine ⟨s.setJoint h node level { j with next := target }, modifyJoint_eq_ok hn hj _,
      relinked_setJoint hn _ _, succ_setJoint hn hj _, ?_⟩
    funext k g
    rw [pred_setJoint hn hj]
    split
    · next hkg =>
      obtain ⟨rfl, rfl⟩ := hkg
      simp [pred, hn, hj]
    · rfl

/-- A link backward that can be read can be written, and nothing else changes. Behind the last
element there is none. -/
theorem exists_setPrev (place : Link) (level : Nat)
    (hs : ∀ h, place = some h → ∃ link, s.pred level h = some link) (target : Link) :
    ∃ s', s.setPrev place level target = .ok s' ∧ Relinked s s' ∧ s'.succ = s.succ ∧
      ∀ k g, s'.pred k g = if k = level ∧ some g = place then some target else s.pred k g := by
  cases place with
  | none => exact ⟨s, rfl, Relinked.refl s, rfl, by simp⟩
  | some h =>
    obtain ⟨link, hl⟩ := hs h rfl
    obtain ⟨node, j, hn, hj, -⟩ := exists_joint_of_pred hl
    refine ⟨s.setJoint h node level { j with prev := target }, modifyJoint_eq_ok hn hj _,
      relinked_setJoint hn _ _, ?_, ?_⟩
    · funext k p
      rw [succ_setJoint hn hj]
      split
      · next hkp =>
        obtain ⟨rfl, rfl⟩ := hkp
        simp [succ, hn, hj]
      · rfl
    · intro k g
      rw [pred_setJoint hn hj]
      simp

/-- Relinking writes the two links of each joint, one chain after the other, and no other link. -/
theorem exists_relink (between : Joint → Joint) (tower : List Joint) (level : Nat)
    (hn : ∀ i j, tower[i]? = some j → ∃ link, s.succ (level + i) j.prev = some link)
    (hp : ∀ i j, tower[i]? = some j → ∀ h, j.next = some h →
      ∃ link, s.pred (level + i) h = some link) :
    ∃ s', relink between tower level s = .ok s' ∧ Relinked s s' ∧
      (∀ i j, tower[i]? = some j →
        (∀ p, s'.succ (level + i) p =
          if p = j.prev then some (between j).next else s.succ (level + i) p) ∧
        ∀ g, s'.pred (level + i) g =
          if some g = j.next then some (between j).prev else s.pred (level + i) g) ∧
      ∀ k, k < level ∨ level + tower.length ≤ k → s'.succ k = s.succ k ∧ s'.pred k = s.pred k := by
  induction tower generalizing level s with
  | nil => exact ⟨s, rfl, Relinked.refl s, by simp, fun _ _ => ⟨rfl, rfl⟩⟩
  | cons j tower ih =>
    obtain ⟨link, hl⟩ : ∃ link, s.succ level j.prev = some link := hn 0 j rfl
    obtain ⟨s1, h1, r1, n1, p1⟩ := exists_setNext hl (between j).next
    obtain ⟨s2, h2, r2, n2, p2⟩ := exists_setPrev (s := s1) j.next level
      (fun h hh => by rw [p1]; exact hp 0 j rfl h hh) (between j).prev
    have hsucc : ∀ k, k ≠ level → s2.succ k = s.succ k := by
      intro k hk
      funext p
      simp [n2, n1, hk]
    have hpred : ∀ k, k ≠ level → s2.pred k = s.pred k := by
      intro k hk
      funext g
      simp [p2, p1, hk]
    obtain ⟨s3, h3, r3, c3, f3⟩ := ih (s := s2) (level + 1)
      (fun i j' hj' => by
        rw [hsucc _ (by omega), Nat.add_assoc, Nat.add_comm 1 i]
        exact hn (i + 1) j' (by simpa using hj'))
      (fun i j' hj' => by
        rw [hpred _ (by omega), Nat.add_assoc, Nat.add_comm 1 i]
        exact hp (i + 1) j' (by simpa using hj'))
    refine ⟨s3, ?_, (r1.trans r2).trans r3, ?_, ?_⟩
    · unfold relink
      rw [h1, ok_bind, h2, ok_bind, h3]
    · intro i j' hj'
      cases i with
      | zero =>
        obtain rfl : j = j' := by simpa using hj'
        obtain ⟨hs3, hp3⟩ := f3 level (.inl (Nat.lt_succ_self level))
        constructor
        · intro p
          simp [hs3, n2, n1]
        · intro g
          simp [hp3, p2, p1]
      | succ i =>
        have hstep : level + (i + 1) = level + 1 + i := by omega
        rw [hstep]
        obtain ⟨hs3, hp3⟩ := c3 i j' (by simpa using hj')
        constructor
        · intro p
          rw [hs3, hsucc _ (by omega)]
        · intro g
          rw [hp3, hpred _ (by omega)]
    · intro k hk
      simp only [List.length_cons] at hk
      obtain ⟨hs3, hp3⟩ := f3 k (by omega)
      exact ⟨hs3.trans (hsucc k (by omega)), hp3.trans (hpred k (by omega))⟩

section

variable {place target : Link} {level : Nat}

lemma relinked_of_modifyJoint {h : Handle} {f : Joint → Joint}
    (hs : (do
      let nodes ← s.nodes.modify h (·.modifyJoint level f)
      return { s with nodes }) = .ok s') : Relinked s s' := by
  obtain ⟨nodes, hmodify, hs⟩ := exists_of_bind_eq_ok hs
  obtain ⟨node, hnode, hset⟩ := exists_of_bind_eq_ok hmodify
  obtain ⟨node', hjoint, hset⟩ := exists_of_bind_eq_ok hset
  obtain ⟨j, -, hnode'⟩ := exists_of_bind_eq_ok hjoint
  cases hnode'
  cases hset
  cases hs
  exact relinked_setJoint (Arena.get_eq_ok_iff_content.1 hnode) level (f j)

lemma relinked_of_setNext (h : s.setNext place level target = .ok s') : Relinked s s' := by
  cases place with
  | none =>
    rw [setNext] at h
    split at h
    · cases h
      exact ⟨rfl, rfl, fun _ h => h, rfl, rfl, rfl, rfl⟩
    · cases h
  | some g => exact relinked_of_modifyJoint h

lemma relinked_of_setPrev (h : s.setPrev place level target = .ok s') : Relinked s s' := by
  cases place with
  | none =>
    cases h
    exact .refl _
  | some g => exact relinked_of_modifyJoint h

/-- A relinking that answered changed links alone. -/
lemma relinked_of_relink {between : Joint → Joint} {tower : List Joint}
    (h : relink between tower level s = .ok s') : Relinked s s' := by
  induction tower generalizing level s with
  | nil =>
    cases h
    exact .refl _
  | cons j tower ih =>
    obtain ⟨s₁, h₁, h⟩ := exists_of_bind_eq_ok h
    obtain ⟨s₂, h₂, h⟩ := exists_of_bind_eq_ok h
    exact ((relinked_of_setNext h₁).trans (relinked_of_setPrev h₂)).trans (ih h)

end

end Skiplist
end StreamQuantiles
