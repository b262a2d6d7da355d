import StreamQuantiles.Store.Skiplist.Basic

/-! Insertion and removal. The search for a key runs along the highest chain as far as keys allow
and then drops a level, so it learns the left neighbour on every chain. A removal needs no search,
since every link of an element leads both ways. -/
namespace StreamQuantiles
namespace Skiplist

variable {α ι σ : Type}

section Insert

variable [HasKey α ι] [LE ι] [DecidableLE ι] [LevelSource σ]

/-- The rightmost element on one chain, from the given place on, whose key is at most `key`. The
fuel bounds the elements passed. -/
def seek (s : Skiplist α σ) (key : ι) (level : Nat) : Nat → Link → Except Fault Link
  | fuel, place => do
    match ← s.nextAt place level with
    | none => return place
    | some h =>
      if HasKey.key (← s.get h) ≤ key then
        match fuel with
        | 0 => throw .cyclicLinks
        | fuel + 1 => seek s key level fuel (some h)
      else return place

/-- The left neighbours of a new key on the lowest `levels` chains, the lowest chain first. The
search starts on the highest of them, and those found above come in last. -/
def predecessors (s : Skiplist α σ) (key : ι) : Nat → Link → List Link → Except Fault (List Link)
  | 0, _, above => return above
  | level + 1, place, above => do
    let found ← s.seek key level s.nodes.size place
    predecessors s key level found (found :: above)

/-- The joints between each left neighbour and the element after it. -/
def joints (s : Skiplist α σ) : List Link → Nat → Except Fault (List Joint)
  | [], _ => return []
  | prev :: links, level => do
    let next ← s.nextAt prev level
    let above ← joints s links (level + 1)
    return ⟨prev, next⟩ :: above

/-- At least one level, at most one more than the list has, and never above `maxLevel`. -/
def clampLevel (drawn height : Nat) : Nat := max 1 (min drawn (min (height + 1) maxLevel))

/-- Adds an element after every element whose key is at most its own. -/
def insert (s : Skiplist α σ) (item : α) : Except Fault (Handle × Skiplist α σ) := do
  let (drawn, levels) := LevelSource.draw s.levels s.height
  let level := clampLevel drawn s.height
  let s := { s with levels, height := max s.height level }
  let before ← s.predecessors (HasKey.key item) s.height none []
  let tower ← s.joints (before.take level) 0
  let (h, nodes) ← s.nodes.insert ⟨item, tower⟩
  let s ← relink (fun _ => ⟨some h, some h⟩) tower 0 { s with nodes }
  let tail := if (← s.next h).isNone then some h else s.tail
  return (h, { s with tail, size := s.size + 1 })

end Insert

/-- The chains left once those without elements are dropped from the top. One always remains. -/
def usedHeight (head : Vector Link maxLevel) : Nat → Nat
  | 0 => 0
  | 1 => 1
  | height + 2 =>
    match head[height + 1]? with
    | some none => usedHeight head (height + 1)
    | _ => height + 2

/-- The size after a removal, or a fault where there was nothing to remove. -/
def oneFewer : Nat → Except Fault Nat
  | 0 => .error .underflow
  | size + 1 => .ok size

theorem oneFewer_eq_ok {size : Nat} (h : size ≠ 0) : oneFewer size = .ok (size - 1) := by
  cases size with
  | zero => exact absurd rfl h
  | succ size => rfl

/-- Takes an element out and answers it. -/
def remove (s : Skiplist α σ) (h : Handle) : Except Fault (α × Skiplist α σ) := do
  let (node, nodes) ← s.nodes.remove h
  let s ← relink id node.tower 0 { s with nodes }
  let tail ← if s.tail = some h then pure (← node.joint 0).prev else pure s.tail
  let size ← oneFewer s.size
  return (node.item, { s with tail, height := usedHeight s.head s.height, size })

/-- A removal together with the list that it leaves. Where it fails, that is what the release of the
slot left. -/
def withdraw (s : Skiplist α σ) (h : Handle) : Except Fault α × Skiplist α σ :=
  match s.remove h with
  | .ok (item, s) => (.ok item, s)
  | .error fault => (.error fault, { s with nodes := (s.nodes.release h).2 })

end Skiplist
end StreamQuantiles
