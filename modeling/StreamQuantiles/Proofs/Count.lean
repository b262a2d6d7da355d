import Mathlib.Algebra.GroupWithZero.Nat
import Mathlib.Tactic.Lemma
import StreamQuantiles.Fault

/-! The arithmetic of counts, in plain numbers. -/
namespace StreamQuantiles
namespace Count

variable {a b c : Count}

lemma size_eq : UInt64.size = 2 ^ 64 := rfl

@[simp] lemma toNat_largest : largest.toNat = 2 ^ 64 - 1 := rfl

lemma toNat_add_of_lt (h : a.toNat + b.toNat < 2 ^ 64) : (a + b).toNat = a.toNat + b.toNat := by
  rw [UInt64.toNat_add, Nat.mod_eq_of_lt h]

lemma toNat_min (a b : Count) : (min a b).toNat = min a.toNat b.toNat := by
  change (if a ≤ b then a else b).toNat = _
  split
  · next h =>
    rw [UInt64.le_iff_toNat_le] at h
    omega
  · next h =>
    rw [UInt64.le_iff_toNat_le] at h
    omega

@[simp] theorem toNat_addSat (a b : Count) :
    (addSat a b).toNat = min (a.toNat + b.toNat) (2 ^ 64 - 1) := by
  have ha := a.toNat_lt
  have hb := b.toNat_lt
  rw [addSat, size_eq]
  split
  · next h =>
    rw [toNat_add_of_lt h]
    omega
  · rw [toNat_largest]
    omega

lemma addSat_mono (h : a ≤ b) (c : Count) : addSat a c ≤ addSat b c := by
  rw [UInt64.le_iff_toNat_le] at h ⊢
  rw [toNat_addSat, toNat_addSat]
  omega

/-- A sum that stops at the largest count is below a count exactly when the sum is. -/
lemma addSat_addSat_lt_iff {d : Count} :
    addSat (addSat a b) c < d ↔ a.toNat + b.toNat + c.toNat < d.toNat := by
  have hd := d.toNat_lt
  rw [UInt64.lt_iff_toNat_lt, toNat_addSat, toNat_addSat]
  omega

@[simp] theorem toNat_subSat (a b : Count) : (subSat a b).toNat = a.toNat - b.toNat := by
  unfold subSat
  split
  · next h => exact UInt64.toNat_sub_of_le _ _ h
  · next h =>
    have hlt := UInt64.not_le.mp h
    rw [UInt64.lt_iff_toNat_lt] at hlt
    rw [Nat.sub_eq_zero_of_le (Nat.le_of_lt hlt)]
    rfl

theorem add?_eq_some_iff : add? a b = some c ↔ c.toNat = a.toNat + b.toNat := by
  have hc := c.toNat_lt
  rw [add?, size_eq]
  split
  · next h =>
    rw [Option.some.injEq, ← UInt64.toNat_inj, toNat_add_of_lt h]
    exact eq_comm
  · constructor
    · intro h
      cases h
    · intro h
      omega

lemma foldlM_add?_eq_some_iff {counts : List Count} :
    counts.foldlM add? a = some c ↔ c.toNat = a.toNat + (counts.map UInt64.toNat).sum := by
  induction counts generalizing a with
  | nil => simp [← UInt64.toNat_inj, eq_comm]
  | cons b counts ih =>
    rw [List.foldlM_cons, List.map_cons, List.sum_cons]
    cases h : add? a b with
    | none =>
      have hc := c.toNat_lt
      rw [add?, size_eq] at h
      split at h
      · cases h
      · constructor
        · intro h
          cases h
        · intro h
          omega
    | some d =>
      have hd := add?_eq_some_iff.1 h
      change counts.foldlM add? d = some c ↔ _
      rw [ih, hd, Nat.add_assoc]

/-- A list sums to a count exactly when the natural numbers do. -/
theorem sum?_eq_some_iff {counts : List Count} :
    sum? counts = some c ↔ c.toNat = (counts.map UInt64.toNat).sum := by
  simp [sum?, foldlM_add?_eq_some_iff]

theorem add_eq_ok_iff : add a b = .ok c ↔ c.toNat = a.toNat + b.toNat := by
  rw [← add?_eq_some_iff, add]
  cases add? a b <;> simp

lemma add_eq_ok (h : a.toNat + b.toNat < 2 ^ 64) : add a b = .ok (a + b) :=
  add_eq_ok_iff.2 (toNat_add_of_lt h)

lemma add_eq_error (h : 2 ^ 64 ≤ a.toNat + b.toNat) : add a b = .error .overflow := by
  rw [add, add?, size_eq, if_neg (Nat.not_lt.2 h)]

lemma sub_eq_ok (h : b.toNat ≤ a.toNat) : sub a b = .ok (a - b) :=
  if_pos (UInt64.le_iff_toNat_le.2 h)

theorem sum_eq_ok_iff {counts : List Count} :
    sum counts = .ok c ↔ c.toNat = (counts.map UInt64.toNat).sum := by
  rw [← sum?_eq_some_iff, sum]
  cases sum? counts <;> simp

end Count
end StreamQuantiles
