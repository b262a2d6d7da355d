import StreamQuantiles.Json.Decode
import StreamQuantiles.Json.Encode
import StreamQuantiles.Summary.Restore
import StreamQuantiles.Wire.Decode

/-! A summary shipped as bytes or as JSON. A decoded summary is made anew, with levels and coins of
its own. -/
namespace StreamQuantiles
namespace Summary

variable {σ κ : Type}

/-- The buffer is laid out beforehand, for the entries and samples there are to write. -/
def toBytes (s : Summary σ κ) : Except Fault (List UInt8) := do
  let entries ← s.entries
  let samples := (entries.map (·.samples.length)).foldl (· + ·) 0
  let total := Wire.headerLength + s.size * Wire.entryLength + samples * 8
  let fields := Wire.headerFields s.n s.size ++ entries.flatMap Wire.entryFields
  return (← fields.foldlM Wire.Buffer.put (.zeros total)).bytes

/-- Writes each entry as it is met in the store. -/
def toText (s : Summary σ κ) : Except Fault String := do
  let entries ← (← s.store.handles).mapM fun h => return (← s.store.get h).write
  return String.ofList <|
    Json.writeObject [("data", Json.writeArray entries), ("n", Json.writeWord s.n)]

variable [LevelSource σ]

/-- The framing is checked first, then the accuracy, then the entries. -/
def ofBytes (accuracy : Accuracy) (levels : σ) (coin : κ) (bytes : List UInt8) :
    Except Error (Summary σ κ) := do
  ofSnapshot accuracy levels coin (← Wire.decode bytes)

/-- The JSON form says nothing of accuracy, so the default is taken. A snapshot is checked as soon
as it has been read, before the text after it. -/
def ofText (levels : σ) (coin : κ) (text : String) : Except Error (Summary σ κ) :=
  match Snapshot.read? text.toList with
  | some (snapshot, rest) => do
    let s ← ofSnapshot {} levels coin snapshot
    unless Json.Token.atEnd rest do throw .malformed
    return s
  | none => .error .malformed

end Summary
end StreamQuantiles
