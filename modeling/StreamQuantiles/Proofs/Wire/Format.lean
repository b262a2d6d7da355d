import Mathlib.Data.Nat.Digits.Defs
import StreamQuantiles.Proofs.Wire.Layout

/-! The binary format as a relation between snapshots and payloads, said field by field and without
a writer or a reader. A snapshot has at most one payload: the one that is written, if every number
of entries and samples fits its field. -/
namespace StreamQuantiles

lemma LittleEndian.decode_eq_ofDigits (bytes : List UInt8) :
    decode bytes = Nat.ofDigits 256 (bytes.map UInt8.toNat) := by
  induction bytes with
  | nil => rfl
  | cons b bytes ih => rw [decode, List.map_cons, Nat.ofDigits_cons, ih]

namespace Wire

variable {α : Type} {width n : Nat} {bytes : List UInt8} {e : Entry} {s : Snapshot}

/-- A number in a field of so many bytes, which are its digits from the lowest on. -/
structure Field (width n : Nat) (bytes : List UInt8) : Prop where
  length : bytes.length = width
  digits : Nat.ofDigits 256 (bytes.map UInt8.toNat) = n

/-- One block for each of the items, in order. -/
inductive Blocks (form : α → List UInt8 → Prop) : List α → List UInt8 → Prop
  | nil : Blocks form [] []
  | cons {a : α} {as : List α} {block bytes : List UInt8} :
      form a block → Blocks form as bytes → Blocks form (a :: as) (block ++ bytes)

/-- A word in a field of its own. -/
def WordForm (w : UInt64) (bytes : List UInt8) : Prop := Field 8 w.toNat bytes

/-- The block of an entry: its value, `g`, `delta`, the number of its samples, and the samples. -/
def EntryForm (e : Entry) (bytes : List UInt8) : Prop :=
  ∃ value g delta count samples, bytes = value ++ (g ++ (delta ++ (count ++ samples))) ∧
    WordForm e.value.toUInt64 value ∧ WordForm e.g g ∧ WordForm e.delta delta ∧
    Field 4 e.samples.length count ∧ Blocks WordForm e.samples samples

/-- The payload of a snapshot: the mark, the version, the number of observations and of entries, and
the entries. -/
def Written (s : Snapshot) (bytes : List UInt8) : Prop :=
  ∃ version n count data,
    bytes = ['G', 'K', 'Q', 'S'].map Char.toUInt8 ++ (version ++ (n ++ (count ++ data))) ∧
    Field 4 1 version ∧ WordForm s.n n ∧ Field 8 s.data.length count ∧
    Blocks EntryForm s.data data

lemma field_iff : Field width n bytes ↔ bytes = LittleEndian.encode width n ∧ n < 256 ^ width := by
  constructor
  · rintro ⟨rfl, rfl⟩
    rw [← LittleEndian.decode_eq_ofDigits]
    exact ⟨(LittleEndian.encode_decode bytes).symm, LittleEndian.decode_lt bytes⟩
  · rintro ⟨rfl, hn⟩
    refine ⟨LittleEndian.length_encode width n, ?_⟩
    rw [← LittleEndian.decode_eq_ofDigits, LittleEndian.decode_encode, Nat.mod_eq_of_lt hn]

lemma wordForm_iff {w : UInt64} : WordForm w bytes ↔ bytes = encodeWord w := by
  rw [WordForm, field_iff, encodeWord]
  exact and_iff_left w.toNat_lt

/-- Blocks that all have a least width. -/
lemma Blocks.mul_length_le {form : α → List UInt8 → Prop} {as : List α} (h : Blocks form as bytes)
    (hform : ∀ a block, form a block → width ≤ block.length) :
    width * as.length ≤ bytes.length := by
  induction h with
  | nil => exact Nat.le_refl 0
  | cons ha _ ih =>
    have hblock := hform _ _ ha
    rw [List.length_cons, List.length_append, Nat.mul_succ]
    omega

/-- Blocks of a form that leaves one way to write each item. -/
lemma blocks_iff {form : α → List UInt8 → Prop} {encode : α → List UInt8} {P : α → Prop}
    (h : ∀ a block, form a block ↔ block = encode a ∧ P a) {as : List α} :
    Blocks form as bytes ↔ bytes = as.flatMap encode ∧ ∀ a ∈ as, P a := by
  constructor
  · intro hb
    induction hb with
    | nil => exact ⟨rfl, by simp⟩
    | cons ha _ ih =>
      obtain ⟨rfl, hp⟩ := (h _ _).1 ha
      obtain ⟨rfl, hps⟩ := ih
      exact ⟨List.flatMap_cons.symm, List.forall_mem_cons.2 ⟨hp, hps⟩⟩
  · rintro ⟨rfl, hps⟩
    induction as with
    | nil => exact .nil
    | cons a as ih =>
      obtain ⟨hp, hps⟩ := List.forall_mem_cons.1 hps
      exact .cons ((h _ _).2 ⟨rfl, hp⟩) (ih hps)

lemma blocks_wordForm_iff {ws : List UInt64} :
    Blocks WordForm ws bytes ↔ bytes = ws.flatMap encodeWord := by
  rw [blocks_iff (P := fun _ => True) fun w block => by rw [wordForm_iff, and_true]]
  exact and_iff_left fun _ _ => trivial

lemma entryForm_iff : EntryForm e bytes ↔ bytes = encodeEntry e ∧ e.samples.length < 2 ^ 32 := by
  simp only [EntryForm, wordForm_iff, field_iff, blocks_wordForm_iff, encodeEntry_eq,
    encodeMeasurement]
  constructor
  · rintro ⟨_, _, _, _, _, rfl, rfl, rfl, rfl, ⟨rfl, hlt⟩, rfl⟩
    exact ⟨rfl, hlt⟩
  · rintro ⟨rfl, hlt⟩
    exact ⟨_, _, _, _, _, rfl, rfl, rfl, rfl, ⟨rfl, hlt⟩, rfl⟩

lemma blocks_entryForm_iff {es : List Entry} :
    Blocks EntryForm es bytes ↔
      bytes = es.flatMap encodeEntry ∧ ∀ e ∈ es, e.samples.length < 2 ^ 32 :=
  blocks_iff (P := fun e : Entry => e.samples.length < 2 ^ 32) fun _ _ => entryForm_iff

/-- A snapshot has at most one payload, and has one exactly when its lengths fit their fields. -/
theorem written_iff :
    Written s bytes ↔
      bytes = encode s ∧ s.data.length < 2 ^ 64 ∧ ∀ e ∈ s.data, e.samples.length < 2 ^ 32 := by
  have hmagic : ['G', 'K', 'Q', 'S'].map Char.toUInt8 = magic := by decide
  simp only [Written, hmagic, wordForm_iff, field_iff, blocks_entryForm_iff, encode_eq]
  constructor
  · rintro ⟨_, _, _, _, rfl, ⟨rfl, -⟩, rfl, ⟨rfl, hlt⟩, rfl, hs⟩
    exact ⟨rfl, hlt, hs⟩
  · rintro ⟨rfl, hlt, hs⟩
    exact ⟨_, _, _, _, rfl, ⟨rfl, by decide⟩, rfl, ⟨rfl, hlt⟩, rfl, hs⟩

end Wire
end StreamQuantiles
