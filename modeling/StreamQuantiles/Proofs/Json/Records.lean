import StreamQuantiles.Json.Decode
import StreamQuantiles.Proofs.Json.Reading

/-! The values that entries and snapshots are written as, and that they are read from. -/
namespace StreamQuantiles

open Json Value

namespace Json.Value

def ofInt (i : Int) : Value := .number (.ofInt i)

def ofWord (w : UInt64) : Value := ofInt w.toNat

lemma spells_word (w : UInt64) : Spells (writeWord w) (ofWord w) := by
  have hsame : writeWord w = writeInt (w.toNat : Int) := by
    rw [writeInt, if_neg (Int.not_lt.2 (Int.natCast_nonneg _)), Int.natAbs_natCast]
    rfl
  rw [hsame]
  exact spells_int _

lemma toInt?_ofInt (i : Int) : (ofInt i).toInt? = some i := Numeral.toInt?_ofInt i

lemma toWord?_ofWord (w : UInt64) : (ofWord w).toWord? = some w := by
  have hrange : (0 : Int) ≤ w.toNat ∧ (w.toNat : Int) < UInt64.size :=
    ⟨Int.natCast_nonneg _, Int.ofNat_lt.2 w.toNat_lt⟩
  rw [toWord?, ofWord, toInt?_ofInt, Option.bind_eq_bind, Option.bind_some, guard, if_pos hrange,
    Int.toNat_natCast, UInt64.ofNat_toNat]
  rfl

lemma toSigned?_ofInt (i : Int64) : (ofInt i.toInt).toSigned? = some i := by
  rw [toSigned?, toInt?_ofInt, Option.bind_eq_bind, Option.bind_some, guard,
    if_pos ⟨i.minValue_le_toInt, i.toInt_le⟩, Int64.ofInt_toInt]
  rfl

lemma spellsMember {key : String} {text : List Char} {v : Value}
    (hkey : key.toList.all (Text.Plain ·)) (h : Spells text v) :
    SpellsMember (key, text) (some key, v) :=
  ⟨rfl, fun c hc => of_decide_eq_true (List.all_eq_true.1 hkey c hc), h⟩

/-- A list is read from the values of its items. -/
lemma toList?_map {α : Type} {item? : Value → Option α} {toValue : α → Value}
    (h : ∀ x, item? (toValue x) = some x) (xs : List α) :
    (Value.array (xs.map toValue)).toList? item? = some xs := by
  induction xs with
  | nil => rfl
  | cons x xs ih =>
    change ((x :: xs).map toValue).mapM item? = _
    rw [List.map_cons, List.mapM_cons, h]
    change (((Value.array (xs.map toValue)).toList? item?) >>= _) = _
    rw [ih]
    rfl

end Json.Value

namespace Entry

/-- The value that an entry is written as. -/
def toValue (e : Entry) : Value :=
  .object [(some "v", ofInt e.value.toInt), (some "g", ofWord e.g), (some "delta", ofWord e.delta),
    (some "samples", .array (e.samples.map ofWord))]

lemma spells (e : Entry) : Spells e.write e.toValue := by
  have hsamples : Spells (writeWords e.samples) (.array (e.samples.map ofWord)) := by
    refine spells_array (List.forall₂_map_left_iff.2 (List.forall₂_map_right_iff.2 ?_))
    exact List.forall₂_same.2 fun w _ => spells_word w
  exact spells_object
    (.cons (spellsMember rfl (spells_int _)) (.cons (spellsMember rfl (spells_word _))
      (.cons (spellsMember rfl (spells_word _)) (.cons (spellsMember rfl hsamples) .nil))))

lemma ofValue?_toValue (e : Entry) : ofValue? e.toValue = some e := by
  have hfields : e.toValue.fields? ["v", "g", "delta", "samples"] =
      some [some (ofInt e.value.toInt), some (ofWord e.g), some (ofWord e.delta),
        some (.array (e.samples.map ofWord))] := by
    rfl
  rw [ofValue?, hfields]
  change (do
    return {
      value := ← (ofInt e.value.toInt).toSigned?
      g := ← (ofWord e.g).toWord?
      delta := ← (ofWord e.delta).toWord?
      samples := ← (Value.array (e.samples.map ofWord)).toList? Value.toWord? }) = some e
  rw [toSigned?_ofInt, toWord?_ofWord, toWord?_ofWord, toList?_map toWord?_ofWord]
  rfl

end Entry

namespace Snapshot

/-- The value that a snapshot is written as. -/
def toValue (s : Snapshot) : Value :=
  .object [(some "data", .array (s.data.map Entry.toValue)), (some "n", ofWord s.n)]

lemma ofValue?_toValue (s : Snapshot) : ofValue? s.toValue = some s := by
  have hfields : s.toValue.fields? ["data", "n"] =
      some [some (.array (s.data.map Entry.toValue)), some (ofWord s.n)] := by
    rfl
  rw [ofValue?, hfields]
  change (do
    return {
      data := ← (Value.array (s.data.map Entry.toValue)).toList? Entry.ofValue?
      n := ← (ofWord s.n).toWord? }) = some s
  rw [toList?_map Entry.ofValue?_toValue, toWord?_ofWord]
  rfl

/-- The text of a snapshot is read as its value, and nothing of it is left. -/
lemma read?_toText (s : Snapshot) : Value.read? s.toText.toList = some (s.toValue, []) := by
  have hdata : Spells (writeArray (s.data.map Entry.write)) (.array (s.data.map Entry.toValue)) := by
    refine spells_array (List.forall₂_map_left_iff.2 (List.forall₂_map_right_iff.2 ?_))
    exact List.forall₂_same.2 fun e _ => e.spells
  have hspells : Spells s.toText.toList s.toValue := by
    rw [toText, String.toList_ofList]
    exact spells_object (.cons (spellsMember rfl hdata)
      (.cons (spellsMember rfl (spells_word _)) .nil))
  have hread : Value.read? (s.toText.toList ++ []) = some (s.toValue, []) :=
    read?_of_spells hspells nofun
  rwa [List.append_nil] at hread

end Snapshot

end StreamQuantiles
