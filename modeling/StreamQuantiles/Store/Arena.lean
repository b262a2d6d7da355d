import StreamQuantiles.Fault

/-! Numbered slots for values of one kind. A slot given back is threaded onto a chain of free slots,
and the slot freed last is the first one taken again. -/
namespace StreamQuantiles

inductive Slot (β : Type) where
  | occupied (value : β)
  /-- A free slot, with the free slot to take after it. -/
  | vacant (next : Option Nat)
  deriving Repr

structure Arena (β : Type) where
  slots : Array (Slot β) := #[]
  free : Option Nat := none
  deriving Repr

namespace Arena

variable {β : Type}

/-- The number of slots, in use or not. -/
def size (a : Arena β) : Nat := a.slots.size

def get (a : Arena β) (i : Nat) : Except Fault β :=
  match a.slots[i]? with
  | some (.occupied b) => .ok b
  | some (.vacant _) => .error (.vacantSlot i)
  | none => .error (.outOfBounds a.size i)

theorem get_eq_ok_iff {a : Arena β} {i : Nat} {b : β} :
    a.get i = .ok b ↔ a.slots[i]? = some (.occupied b) := by
  unfold get
  split <;> simp_all

/-- Overwrites a slot in use. -/
def set (a : Arena β) (i : Nat) (b : β) : Arena β :=
  { a with slots := a.slots.setIfInBounds i (.occupied b) }

@[simp] theorem size_set (a : Arena β) (i : Nat) (b : β) : (a.set i b).size = a.size := by
  simp [set, size]

@[simp] theorem free_set (a : Arena β) (i : Nat) (b : β) : (a.set i b).free = a.free := rfl

theorem get_set_self {a : Arena β} {i : Nat} {b c : β} (h : a.get i = .ok b) :
    (a.set i c).get i = .ok c := by
  rw [get_eq_ok_iff] at h ⊢
  have hi : i < a.slots.size := by
    rw [Array.getElem?_eq_some_iff] at h
    exact h.1
  simp [set, hi]

theorem get_set_of_ne {a : Arena β} {i j : Nat} (c : β) (h : i ≠ j) :
    (a.set i c).get j = a.get j := by
  simp [get, set, size, Array.getElem?_setIfInBounds_ne h]

/-- Changes the value of a slot in use. -/
def modify (a : Arena β) (i : Nat) (f : β → Except Fault β) : Except Fault (Arena β) := do
  let b ← a.get i
  return a.set i (← f b)

/-- Takes the slot freed last, or a new one where none is free. -/
def insert (a : Arena β) (b : β) : Except Fault (Nat × Arena β) :=
  match a.free with
  | none => .ok (a.size, { a with slots := a.slots.push (.occupied b) })
  | some i =>
    match a.slots[i]? with
    | some (.vacant next) =>
      .ok (i, { slots := a.slots.setIfInBounds i (.occupied b), free := next })
    | some (.occupied _) => .error (.occupiedFreeSlot i)
    | none => .error (.outOfBounds a.size i)

/-- Gives a slot back, with the value it held. The slot is freed before it is known what was in it,
and what was in it is written back if that was no value. The arena is answered in any case. -/
def release (a : Arena β) (i : Nat) : Except Fault β × Arena β :=
  let freed := a.slots.setIfInBounds i (.vacant a.free)
  match a.slots[i]? with
  | some (.occupied b) => (.ok b, { slots := freed, free := some i })
  | some (.vacant next) =>
    (.error (.alreadyRemoved i), { a with slots := freed.setIfInBounds i (.vacant next) })
  | none => (.error (.outOfBounds a.size i), a)

/-- A release that fails leaves the arena as it was. -/
theorem release_eq_of_error {a : Arena β} {i : Nat} {fault : Fault}
    (h : (a.release i).1 = .error fault) : (a.release i).2 = a := by
  unfold release at h ⊢
  split at h
  · cases h
  · next next hs =>
    obtain ⟨hi, hs⟩ := Array.getElem?_eq_some_iff.1 hs
    have hslots : (a.slots.setIfInBounds i (.vacant a.free)).setIfInBounds i (.vacant next) =
        a.slots := by
      rw [Array.setIfInBounds_setIfInBounds, ← hs, Array.setIfInBounds_def, dif_pos hi,
        Array.set_getElem_self]
    exact congrArg (fun slots => { a with slots }) hslots
  · rfl

/-- Gives a slot back, with the value it held. -/
def remove (a : Arena β) (i : Nat) : Except Fault (β × Arena β) :=
  match a.release i with
  | (.ok b, a) => .ok (b, a)
  | (.error fault, _) => .error fault

/-- A removal answers exactly where a read does, and with the same value. -/
theorem remove_eq_ok_iff {a a' : Arena β} {i : Nat} {b : β} :
    a.remove i = .ok (b, a') ↔
      a.get i = .ok b ∧ a' = ⟨a.slots.setIfInBounds i (.vacant a.free), some i⟩ := by
  rw [get_eq_ok_iff]
  unfold remove release
  cases a.slots[i]? with
  | none => simp
  | some slot =>
    cases slot with
    | vacant => simp
    | occupied c =>
      simp only [Except.ok.injEq, Prod.mk.injEq, Option.some.injEq, Slot.occupied.injEq]
      exact and_congr_right fun _ => eq_comm

end Arena
end StreamQuantiles
