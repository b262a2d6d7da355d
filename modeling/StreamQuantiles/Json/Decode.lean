import StreamQuantiles.Json.Value
import StreamQuantiles.Snapshot

/-! The records of the library, read from JSON. All fields are needed, save in an accuracy, where a
missing field takes its default. -/
namespace StreamQuantiles

open Json

def Entry.ofValue? (v : Value) : Option Entry := do
  match ← v.fields? ["v", "g", "delta", "samples"] with
  | [some value, some g, some delta, some samples] =>
    return {
      value := ← value.toSigned?
      g := ← g.toWord?
      delta := ← delta.toWord?
      samples := ← samples.toList? Value.toWord? }
  | _ => none

def Snapshot.ofValue? (v : Value) : Option Snapshot := do
  match ← v.fields? ["data", "n"] with
  | [some data, some n] => return { data := ← data.toList? Entry.ofValue?, n := ← n.toWord? }
  | _ => none

def Slice.ofValue? (v : Value) : Option Slice := do
  match ← v.fields? ["start", "end", "weight", "samples"] with
  | [some lower, some upper, some weight, some samples] =>
    return {
      lower := ← lower.toSigned?
      upper := ← upper.toSigned?
      weight := ← weight.toWord?
      samples := ← samples.toList? Value.toWord? }
  | _ => none

def Accuracy.ofValue? (v : Value) : Option Accuracy := do
  match ← v.fields? ["epsilon"] with
  | [some epsilon] => return ⟨← epsilon.toFloat?⟩
  | _ => return {}

/-- The snapshot at the front of a text, and what follows it. -/
def Snapshot.read? (cs : List Char) : Option (Snapshot × List Char) := do
  let (v, rest) ← Value.read? cs
  return (← ofValue? v, rest)

def Snapshot.ofText? (text : String) : Option Snapshot := do ofValue? (← Value.ofText? text)

def Accuracy.ofText? (text : String) : Option Accuracy := do ofValue? (← Value.ofText? text)

def Slice.listOfText? (text : String) : Option (List Slice) := do
  (← Value.ofText? text).toList? ofValue?

end StreamQuantiles
