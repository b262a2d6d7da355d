import StreamQuantiles.Accuracy

/-! Why an operation was refused. -/
namespace StreamQuantiles

inductive MergeError where
  /-- Two summaries of different accuracy, each with its own. -/
  | incompatible (expected found : String)
  deriving Repr, DecidableEq

def MergeError.message : MergeError → String
  | incompatible expected found =>
    "incompatible config: expected " ++ expected ++ ", found " ++ found

/-- How a readable payload contradicts itself. -/
inductive Corruption where
  | outOfOrder
  | zeroWeight
  | deltaExceedsCount (delta n : Count)
  | weightsOverflow
  | weightMismatch (mass n : Count)
  | trailingBytes (count : Nat)
  | other (reason : String)
  deriving Repr, DecidableEq

def Corruption.message : Corruption → String
  | outOfOrder => "entries out of order"
  | zeroWeight => "entry with zero weight"
  | deltaExceedsCount delta n => s!"entry delta {delta} exceeds count {n}"
  | weightsOverflow => "entry weights overflow"
  | weightMismatch mass n => s!"entry weights sum to {mass} but count is {n}"
  | trailingBytes count => s!"{count} trailing bytes"
  | other reason => reason

inductive DecodeError where
  /-- The payload ends before a declared field. `expected` is the length that would hold it. -/
  | bufferTooShort (expected found : Nat)
  | invalidHeader
  | unsupportedVersion (version : UInt32)
  | corrupted (corruption : Corruption)
  deriving Repr, DecidableEq

def DecodeError.message : DecodeError → String
  | bufferTooShort expected found => s!"buffer too short: expected {expected}, found {found}"
  | invalidHeader => "invalid header"
  | unsupportedVersion version => s!"unsupported version: {version}"
  | corrupted corruption => "corrupted data: " ++ corruption.message

inductive Error where
  | fault (fault : Fault)
  | merge (error : MergeError)
  | decode (error : DecodeError)
  /-- A text that is no JSON, or not JSON of the wanted shape. -/
  | malformed
  deriving Repr

instance : MonadLift (Except Fault) (Except Error) := ⟨Except.mapError .fault⟩
instance : MonadLift (Except MergeError) (Except Error) := ⟨Except.mapError .merge⟩
instance : MonadLift (Except DecodeError) (Except Error) := ⟨Except.mapError .decode⟩

end StreamQuantiles
