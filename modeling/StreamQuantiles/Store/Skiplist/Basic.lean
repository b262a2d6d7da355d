import StreamQuantiles.Store.Arena
import StreamQuantiles.Store.Level

/-! A sorted list of keyed elements with several levels of links. Elements live in the slots of an
arena and are addressed by slot. An element of `k` levels is threaded, forward and backward, through
the lowest `k` of the chains; the lowest chain holds every element in ascending order. -/
namespace StreamQuantiles

/-- Elements placed by a key. -/
class HasKey (α : Type) (ι : outParam Type) where
  key : α → ι

/-- The slot of an element. It addresses that element until the element is removed. -/
abbrev Handle := Nat

/-- An element, or the open end of a chain: the place before the first element or after the last. -/
abbrev Link := Option Handle

/-- The neighbours on one chain. -/
structure Joint where
  prev : Link
  next : Link
  deriving Repr, DecidableEq

structure Node (α : Type) where
  item : α
  /-- The neighbours on each chain through the element, from the lowest up. -/
  tower : List Joint
  deriving Repr

namespace Node

variable {α : Type}

def joint (node : Node α) (level : Nat) : Except Fault Joint :=
  match node.tower[level]? with
  | some j => .ok j
  | none => .error (.outOfBounds node.tower.length level)

theorem joint_eq_ok_iff {node : Node α} {level : Nat} {j : Joint} :
    node.joint level = .ok j ↔ node.tower[level]? = some j := by
  unfold joint
  split <;> simp_all

def modifyJoint (node : Node α) (level : Nat) (f : Joint → Joint) : Except Fault (Node α) := do
  let j ← node.joint level
  return { node with tower := node.tower.set level (f j) }

end Node

structure Skiplist (α σ : Type) where
  nodes : Arena (Node α)
  /-- The first element of each chain. -/
  head : Vector Link maxLevel
  tail : Link
  /-- The number of chains in use, at least one. -/
  height : Nat
  size : Nat
  levels : σ

namespace Skiplist

variable {α σ : Type}

def empty (levels : σ) : Skiplist α σ :=
  { nodes := {}, head := .replicate maxLevel none, tail := none, height := 1, size := 0, levels }

/-- Drops every element and every slot. The source of levels goes on from where it was. -/
def clear (s : Skiplist α σ) : Skiplist α σ := empty s.levels

def isEmpty (s : Skiplist α σ) : Bool := s.size == 0

/-- What the list takes beyond its own fixed part: its slots, and two links to a joint. -/
def footprint (s : Skiplist α σ) : Nat :=
  s.nodes.slots.foldl
    (fun total slot => match slot with
      | .occupied node => total + 1 + 2 * node.tower.length
      | .vacant _ => total + 1) 0

@[simp] theorem footprint_empty (levels : σ) : (empty levels : Skiplist α σ).footprint = 0 := rfl

def get (s : Skiplist α σ) (h : Handle) : Except Fault α :=
  return (← s.nodes.get h).item

/-- Changes an element in place. The change has to keep the key. -/
def modify (s : Skiplist α σ) (h : Handle) (f : α → α) : Except Fault (Skiplist α σ) :=
  return { s with nodes := ← s.nodes.modify h fun node => .ok { node with item := f node.item } }

/-- The successor, on one chain, of an element or of the place before the first. -/
def nextAt (s : Skiplist α σ) (place : Link) (level : Nat) : Except Fault Link :=
  match place with
  | some h => do return (← (← s.nodes.get h).joint level).next
  | none =>
    match s.head[level]? with
    | some link => .ok link
    | none => .error (.outOfBounds maxLevel level)

def setNext (s : Skiplist α σ) (place : Link) (level : Nat) (target : Link) :
    Except Fault (Skiplist α σ) :=
  match place with
  | some h => do
    let nodes ← s.nodes.modify h (·.modifyJoint level ({ · with next := target }))
    return { s with nodes }
  | none =>
    if level < maxLevel then .ok { s with head := s.head.setIfInBounds level target }
    else .error (.outOfBounds maxLevel level)

/-- The place after the last element has no link back. -/
def setPrev (s : Skiplist α σ) (place : Link) (level : Nat) (target : Link) :
    Except Fault (Skiplist α σ) :=
  match place with
  | some h => do
    let nodes ← s.nodes.modify h (·.modifyJoint level ({ · with prev := target }))
    return { s with nodes }
  | none => .ok s

/-- Joins the neighbours at each joint, level by level, to what is to stand between them: the left
one forward to `(between j).next`, the right one backward to `(between j).prev`. -/
def relink (between : Joint → Joint) : List Joint → Nat → Skiplist α σ → Except Fault (Skiplist α σ)
  | [], _, s => .ok s
  | j :: tower, level, s => do
    let s ← s.setNext j.prev level (between j).next
    let s ← s.setPrev j.next level (between j).prev
    relink between tower (level + 1) s

def first (s : Skiplist α σ) : Link := s.head[0]

def last (s : Skiplist α σ) : Link := s.tail

def next (s : Skiplist α σ) (h : Handle) : Except Fault Link := s.nextAt (some h) 0

def prev (s : Skiplist α σ) (h : Handle) : Except Fault Link :=
  return (← (← s.nodes.get h).joint 0).prev

end Skiplist
end StreamQuantiles
