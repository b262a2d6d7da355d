import Mathlib.Data.Prod.Lex
import Mathlib.Tactic.Lemma
import StreamQuantiles.Accuracy

/-! The few facts on floats that do not depend on how they are rounded: comparisons exclude each
other and NaN and are transitive, and an accuracy is compatible with itself. -/
namespace StreamQuantiles

open Float.Model

section Comparison

variable {x y : Float}

lemma float_lt_iff : x < y ↔ x.toModel.unpack.compare y.toModel.unpack = some .lt := by
  change decide (x.toModel < y.toModel) = true ↔ _
  rw [decide_eq_true_iff]
  exact beq_iff_eq

lemma float_le_iff : x ≤ y ↔ (x.toModel.unpack.compare y.toModel.unpack).any (·.isLE) := by
  change decide (x.toModel ≤ y.toModel) = true ↔ _
  rw [decide_eq_true_iff]
  rfl

lemma compare_swap (u v : UnpackedFloat) : v.compare u = (u.compare v).map Ordering.swap := by
  cases u with
  | notANumber => cases v <;> rfl
  | infinity s =>
    cases v with
    | infinity s' => cases s <;> cases s' <;> rfl
    | notANumber => rfl
    | zero s' => cases s <;> rfl
    | finite s' m e hm => cases s <;> rfl
  | zero s =>
    cases v with
    | infinity s' => cases s' <;> rfl
    | notANumber => rfl
    | zero s' => rfl
    | finite s' m e hm => cases s' <;> rfl
  | finite s m e hm =>
    cases v with
    | infinity s' => cases s' <;> rfl
    | notANumber => rfl
    | zero s' => cases s <;> rfl
    | finite s' m' e' hm' =>
      have hswap : (compare e' e).then (compare m' m) =
          ((compare e e').then (compare m m')).swap := by
        rw [Ordering.swap_then, Int.compare_swap, Nat.compare_swap]
      cases s with
      | positive =>
        cases s' with
        | positive => exact congrArg some hswap
        | negative => rfl
      | negative =>
        cases s' with
        | positive => rfl
        | negative => exact congrArg (fun o => some (Ordering.swap o)) hswap

lemma not_float_le_of_lt (h : x < y) : ¬ y ≤ x := by
  rw [float_lt_iff] at h
  rw [float_le_iff, compare_swap, h]
  decide

lemma isNaN_eq_false_of_lt (h : x < y) : y.isNaN = false := by
  rw [float_lt_iff] at h
  change y.toModel.unpack.isNaN = false
  cases hv : y.toModel.unpack with
  | notANumber =>
    rw [hv, compare_swap] at h
    cases h
  | infinity s => rfl
  | zero s => rfl
  | finite s m e hm => rfl

/-- What is below something or above it is a number. -/
lemma isNaN_eq_false_of_le (h : x ≤ y) : x.isNaN = false ∧ y.isNaN = false := by
  rw [float_le_iff] at h
  change x.toModel.unpack.isNaN = false ∧ y.toModel.unpack.isNaN = false
  cases hu : x.toModel.unpack with
  | notANumber =>
    rw [hu] at h
    cases h
  | infinity | zero | finite =>
    refine ⟨rfl, ?_⟩
    cases hv : y.toModel.unpack with
    | notANumber =>
      rw [compare_swap, hv] at h
      cases h
    | infinity | zero | finite => rfl

/-- Where a number stands among all of them: the infinities at the ends, the zeros in the middle,
and the others by sign, exponent and mantissa. -/
def orderKey? : UnpackedFloat → Option (Int ×ₗ Int ×ₗ Int)
  | .notANumber => none
  | .infinity .negative => some (toLex (-2, toLex (0, 0)))
  | .finite .negative m e _ => some (toLex (-1, toLex (-e, -m)))
  | .zero _ => some (toLex (0, toLex (0, 0)))
  | .finite .positive m e _ => some (toLex (1, toLex (e, m)))
  | .infinity .positive => some (toLex (2, toLex (0, 0)))

lemma isLE_then_iff {e e' : Int} {m m' : Nat} :
    ((compare e e').then (compare m m')).isLE ↔ e < e' ∨ e = e' ∧ m ≤ m' := by
  rw [Ordering.isLE_then_iff_or, Int.compare_eq_lt, Int.compare_eq_eq, Nat.isLE_compare]

lemma isGE_then_iff {e e' : Int} {m m' : Nat} :
    ((compare e e').then (compare m m')).isGE ↔ e' < e ∨ e = e' ∧ m' ≤ m := by
  rw [← Ordering.isLE_swap, Ordering.swap_then, Int.compare_swap, Nat.compare_swap, isLE_then_iff,
    eq_comm]

lemma compare_isLE_iff (u v : UnpackedFloat) :
    (u.compare v).any (·.isLE) ↔ ∃ j k, orderKey? u = some j ∧ orderKey? v = some k ∧ j ≤ k := by
  rcases u with (_ | _) | _ | _ | ⟨_ | _, m, e, hm⟩ <;>
    rcases v with (_ | _) | _ | _ | ⟨_ | _, m', e', hm'⟩ <;>
    dsimp only [orderKey?, UnpackedFloat.compare] <;>
    simp [Prod.Lex.toLex_le_toLex, isLE_then_iff, isGE_then_iff] <;> rfl

lemma float_le_trans {z : Float} (h : x ≤ y) (h' : y ≤ z) : x ≤ z := by
  rw [float_le_iff, compare_isLE_iff] at *
  obtain ⟨i, j, hi, hj, hij⟩ := h
  obtain ⟨j', k, hj', hk, hjk⟩ := h'
  cases hj.symm.trans hj'
  exact ⟨i, k, hi, hk, hij.trans hjk⟩

/-- What is no less than one is positive. -/
lemma float_pos_of_one_le (h : 1.0 ≤ x) : 0.0 < x := by
  have hzero : (0.0 : Float).toModel.unpack = .zero .positive := by rfl
  obtain ⟨m, e, hm, hone⟩ : ∃ m e hm, (1.0 : Float).toModel.unpack = .finite .positive m e hm :=
    ⟨_, _, _, rfl⟩
  rw [float_le_iff, hone] at h
  rw [float_lt_iff, hzero]
  cases hu : x.toModel.unpack with
  | notANumber =>
    rw [hu] at h
    cases h
  | zero s =>
    rw [hu] at h
    cases h
  | infinity s | finite s m' e' hm' =>
    rw [hu] at h
    cases s with
    | positive => rfl
    | negative => cases h

end Comparison

section Packing

lemma isNaN_unpack_eq_false {b : BitVec Format.binary64.numBits}
    (h : UnpackedFloat.unpackExponent b = -1#_ → UnpackedFloat.unpackMantissa b = 0#_) :
    (UnpackedFloat.unpack Format.binary64 b).isNaN = false := by
  unfold UnpackedFloat.unpack
  extract_lets mantissa biased exponent
  by_cases he : biased = -1#_
  · rw [if_pos he, if_pos (h he)]
    rfl
  · rw [if_neg he]
    by_cases hz : biased = 0#_
    · rw [if_pos hz]
      by_cases hm : mantissa = 0#_
      · rw [dif_pos hm]
        rfl
      · rw [dif_neg hm]
        rfl
    · rw [if_neg hz]
      rfl

/-- A number is packed as a number. -/
lemma isNaN_unpack_pack {u : UnpackedFloat} (hu : u.isNaN = false) :
    (pack u).unpack.isNaN = false := by
  change (UnpackedFloat.unpack Format.binary64 (UnpackedFloat.pack Format.binary64 u)).isNaN = false
  apply isNaN_unpack_eq_false
  intro he
  cases u with
  | notANumber => cases hu
  | infinity s => exact UnpackedFloat.unpackMantissa_packComponents ..
  | zero s => exact UnpackedFloat.unpackMantissa_packComponents ..
  | finite s m e hm =>
    unfold UnpackedFloat.pack at he ⊢
    dsimp only at he ⊢
    split at he
    · next h =>
      rw [if_pos h]
      exact UnpackedFloat.unpackMantissa_packComponents ..
    · next h =>
      split at he
      · rw [UnpackedFloat.unpackExponent_packComponents] at he
        have hn := congrArg BitVec.toNat he
        rw [BitVec.toNat_ofNat, Nat.mod_eq_of_lt (by omega), BitVec.neg_one_eq_allOnes,
          BitVec.toNat_allOnes] at hn
        omega
      · rw [UnpackedFloat.unpackExponent_packComponents] at he
        cases he

lemma isNaN_zero_or_finite (s : UnpackedFloat.Sign) (m : Nat) (e : Int) :
    (if h : m = 0 then UnpackedFloat.zero s
      else .finite s m e (Nat.pos_of_ne_zero h)).isNaN = false := by
  by_cases h : m = 0
  · rw [dif_pos h]
    rfl
  · rw [dif_neg h]
    rfl

lemma isNaN_roundWithAccuracy (f : Format) (s : UnpackedFloat.Sign) (m : Nat) (e : Int)
    (r : UnpackedFloat.Accuracy) : (UnpackedFloat.roundWithAccuracy f s m e r).isNaN = false :=
  isNaN_zero_or_finite s _ _

lemma unpack_pack_zero (s : UnpackedFloat.Sign) : (pack (.zero s)).unpack = .zero s := by
  cases s <;> rfl

lemma isNaN_normalize (f : Format) (m e : Int) (s : UnpackedFloat.Sign) :
    (UnpackedFloat.normalize f m e s).isNaN = false := by
  unfold UnpackedFloat.normalize
  split
  · exact isNaN_roundWithAccuracy ..
  · rfl
  · exact isNaN_roundWithAccuracy ..

lemma isNaN_mul_finite (f : Format) {u : UnpackedFloat} (hu : u.isNaN = false)
    (s : UnpackedFloat.Sign) (m : Nat) (e : Int) (hm : 0 < m) :
    (UnpackedFloat.mul f u (.finite s m e hm)).isNaN = false := by
  cases u with
  | notANumber => cases hu
  | infinity s => rfl
  | zero s => rfl
  | finite s m e hm => exact isNaN_roundWithAccuracy ..

end Packing

section Itself

variable {x : Float} {m : Nat} {e : Int} {hm : 0 < m}
  (hx : x.toModel.unpack = .finite .positive m e hm)
include hx

/-- A positive number is at no distance from itself. -/
lemma unpack_gap_self : (x - x).abs.toModel.unpack = .zero .positive := by
  have hsub : UnpackedFloat.sub Format.binary64 x.toModel.unpack x.toModel.unpack =
      .zero .positive := by
    rw [hx]
    change UnpackedFloat.normalize Format.binary64 (_ - _) _ .positive = _
    rw [Int.sub_self]
    rfl
  change (pack (pack (UnpackedFloat.sub Format.binary64 x.toModel.unpack
    x.toModel.unpack)).unpack.abs).unpack = _
  rw [hsub]
  rfl

/-- The mean of a positive number and itself is a number, though the sum may be infinite. -/
lemma isNaN_mean_self : ((x + x) * 0.5).toModel.unpack.isNaN = false := by
  obtain ⟨m', e', hm', hhalf⟩ : ∃ m e hm, (0.5 : Float).toModel.unpack = .finite .positive m e hm :=
    ⟨_, _, _, rfl⟩
  have hadd : (pack (UnpackedFloat.add Format.binary64 x.toModel.unpack
      x.toModel.unpack)).unpack.isNaN = false := by
    apply isNaN_unpack_pack
    rw [hx]
    exact isNaN_normalize ..
  change (pack (UnpackedFloat.mul Format.binary64 (pack (UnpackedFloat.add Format.binary64
    x.toModel.unpack x.toModel.unpack)).unpack (0.5 : Float).toModel.unpack)).unpack.isNaN = false
  apply isNaN_unpack_pack
  rw [hhalf]
  exact isNaN_mul_finite _ hadd ..

end Itself

namespace Accuracy

variable {a : Accuracy}

/-- A valid accuracy is a positive number. -/
lemma unpack_of_valid (ha : a.valid) :
    ∃ m e hm, a.epsilon.toModel.unpack = .finite .positive m e hm := by
  simp only [valid, Bool.and_eq_true, decide_eq_true_eq] at ha
  obtain ⟨⟨hfinite, hpos⟩, -⟩ := ha
  have hfinite : a.epsilon.toModel.unpack.isFinite = true := hfinite
  have hzero : (0.0 : Float).toModel.unpack = .zero .positive := by rfl
  rw [float_lt_iff, hzero] at hpos
  cases hu : a.epsilon.toModel.unpack with
  | notANumber =>
    rw [hu] at hfinite
    cases hfinite
  | infinity s =>
    rw [hu] at hfinite
    cases hfinite
  | zero s =>
    rw [hu] at hpos
    cases hpos
  | finite s m e hm =>
    cases s with
    | positive => exact ⟨m, e, hm, rfl⟩
    | negative =>
      rw [hu] at hpos
      cases hpos

/-- The gap to itself is zero, and the mean is a number. -/
theorem compatible_self (ha : a.valid) : a.compatible a := by
  obtain ⟨m, e, hm, hu⟩ := unpack_of_valid ha
  obtain ⟨m', e', hm', htiny⟩ :
      ∃ m e hm, (1e-9 : Float).toModel.unpack = .finite .positive m e hm := ⟨_, _, _, rfl⟩
  have hmean := isNaN_mean_self hu
  let mean := (a.epsilon + a.epsilon) * 0.5
  let gap := (a.epsilon - a.epsilon).abs
  have hquotient : (gap / mean).toModel.unpack =
      (pack (UnpackedFloat.div Format.binary64 (.zero .positive) mean.toModel.unpack)).unpack := by
    rw [← unpack_gap_self hu]
    rfl
  change (decide (mean ≤ 0.0) || decide (gap / mean ≤ 1e-9)) = true
  rw [Bool.or_eq_true, decide_eq_true_iff, decide_eq_true_iff, float_le_iff, float_le_iff, hquotient,
    htiny]
  cases hv : mean.toModel.unpack with
  | notANumber =>
    rw [hv] at hmean
    cases hmean
  | zero s => exact .inl rfl
  | infinity s =>
    right
    change ((pack (.zero _)).unpack.compare _).any _ = true
    rw [unpack_pack_zero]
    rfl
  | finite s m e hm =>
    right
    change ((pack (.zero _)).unpack.compare _).any _ = true
    rw [unpack_pack_zero]
    rfl

theorem compatible_of_eq {b : Accuracy} (ha : a.valid) (hb : b = a) : a.compatible b := by
  rw [hb]
  exact compatible_self ha

end Accuracy
end StreamQuantiles
