import Mathlib.Algebra.GroupWithZero.Nat
import Mathlib.Tactic.Lemma
import StreamQuantiles.Wire.Encode

/-! The layout of the binary form. Bytes and numbers stand for each other, the length of a payload
is known from the number of entries and samples, and a buffer of that length takes all its fields. -/
namespace StreamQuantiles

namespace LittleEndian

theorem decode_lt (bytes : List UInt8) : decode bytes < 256 ^ bytes.length := by
  induction bytes with
  | nil => simp [decode]
  | cons b bytes ih =>
    have hb := b.toNat_lt
    rw [decode, List.length_cons, Nat.pow_succ]
    omega

theorem decode_encode (width n : Nat) : decode (encode width n) = n % 256 ^ width := by
  induction width generalizing n with
  | zero => simp [encode, decode, Nat.mod_one]
  | succ width ih =>
    rw [encode, decode, ih, UInt8.toNat_ofNat', pow_succ' 256 width, Nat.mod_mul]

end LittleEndian

namespace Wire

@[simp] lemma length_encodeWord (w : UInt64) : (encodeWord w).length = 8 := by
  simp [encodeWord]

@[simp] lemma length_encodeMeasurement (v : Measurement) : (encodeMeasurement v).length = 8 := by
  simp [encodeMeasurement]

lemma length_flatMap_encodeWord (ws : List UInt64) :
    (ws.flatMap encodeWord).length = 8 * ws.length := by
  induction ws with
  | nil => rfl
  | cons w ws ih =>
    rw [List.flatMap_cons, List.length_append, length_encodeWord, ih, List.length_cons]
    omega

lemma encodeEntry_eq (e : Entry) :
    encodeEntry e = encodeMeasurement e.value ++ (encodeWord e.g ++ (encodeWord e.delta ++
      (LittleEndian.encode 4 e.samples.length ++ e.samples.flatMap encodeWord))) := by
  simp [encodeEntry, entryFields, List.flatMap_def]

lemma length_encodeEntry (e : Entry) :
    (encodeEntry e).length = entryLength + 8 * e.samples.length := by
  simp [encodeEntry_eq, length_flatMap_encodeWord, entryLength, -List.length_flatMap]
  omega

lemma length_flatMap_encodeEntry (entries : List Entry) :
    (entries.flatMap encodeEntry).length =
      entryLength * entries.length + 8 * (entries.map (·.samples.length)).sum := by
  induction entries with
  | nil => rfl
  | cons e entries ih =>
    rw [List.flatMap_cons, List.length_append, length_encodeEntry, ih]
    simp only [List.length_cons, List.map_cons, List.sum_cons, Nat.mul_add, Nat.mul_one]
    omega

lemma encode_eq (s : Snapshot) :
    encode s = magic ++ (LittleEndian.encode 4 version.toNat ++ (encodeWord s.n ++
      (LittleEndian.encode 8 s.data.length ++ s.data.flatMap encodeEntry))) := by
  simp [encode, headerFields]

/-- The fields of a payload, one after another. -/
lemma flatten_fields (s : Snapshot) :
    (headerFields s.n s.data.length ++ s.data.flatMap entryFields).flatten = encode s := by
  rw [List.flatten_append, List.flatMap_def, List.flatten_flatten, List.map_map]
  rfl

theorem length_encode (s : Snapshot) :
    (encode s).length =
      headerLength + entryLength * s.data.length + 8 * (s.data.map (·.samples.length)).sum := by
  simp [encode_eq, length_flatMap_encodeEntry, headerLength, magic, -List.length_flatMap]
  omega

/-- Fields that a buffer has room for are written one after another. -/
lemma Buffer.foldlM_put (fields : List (List UInt8)) {b : Buffer}
    (h : b.written.size + fields.flatten.length ≤ b.total) :
    fields.foldlM put b = .ok { b with written := b.written ++ fields.flatten.toArray } := by
  induction fields generalizing b with
  | nil =>
    rw [List.flatten_nil, Array.append_empty]
    rfl
  | cons field fields ih =>
    rw [List.flatten_cons, List.length_append] at h
    have hput : b.put field = .ok { b with written := b.written ++ field.toArray } :=
      if_pos (by omega)
    have hrest : (b.written ++ field.toArray).size + fields.flatten.length ≤ b.total := by
      simp only [Array.size_append, List.size_toArray]
      omega
    have happend : b.written ++ field.toArray ++ fields.flatten.toArray =
        b.written ++ (field :: fields).flatten.toArray := by
      simp only [Array.append_assoc, List.append_toArray, List.flatten_cons]
    rw [List.foldlM_cons, hput, ok_bind, ih hrest, happend]

/-- Fields that fill a buffer are all that is in it, to its end. -/
lemma Buffer.exists_put {fields : List (List UInt8)} {total : Nat}
    (h : fields.flatten.length = total) :
    ∃ b, fields.foldlM put (zeros total) = .ok b ∧ b.written.size = b.total ∧
      b.bytes = fields.flatten := by
  have hroom : (zeros total).written.size + fields.flatten.length ≤ (zeros total).total := by
    rw [h]
    exact Nat.le_of_eq (Nat.zero_add total)
  have hwritten : ((zeros total).written ++ fields.flatten.toArray).size = total := by
    rw [Array.size_append]
    exact (Nat.zero_add _).trans h
  refine ⟨_, foldlM_put fields hroom, hwritten, ?_⟩
  unfold bytes
  dsimp only
  rw [hwritten]
  simp [zeros]

end Wire
end StreamQuantiles
