import StreamQuantiles.Wire.Encode

/-! Reading the binary form. Every length is checked before the bytes are taken, and a number of
entries or samples that the payload cannot hold is refused before any of them is read. -/
namespace StreamQuantiles
namespace Wire

/-- The bytes still to read, with their place in the payload. -/
structure Reader where
  rest : List UInt8
  position : Nat
  total : Nat
  deriving Repr

/-- The largest length that can be reported. -/
def longest : Nat := UInt64.size - 1

/-- The length of a payload of so many entries without samples. -/
def leastLength (count : Nat) : Nat :=
  min (min (entryLength * count) longest + headerLength) longest

def Reader.start (bytes : List UInt8) : Reader := ⟨bytes, 0, bytes.length⟩

/-- A step of reading: what was read and the reader behind it. -/
abbrev Reading (α : Type) := StateT Reader (Except Error) α

namespace Reading

variable {α : Type}

/-- The number of bytes still to read. A reader past the end of its payload would fault. -/
def remaining : Reading Nat := fun r =>
  if r.position ≤ r.total then .ok (r.total - r.position, r)
  else .error (.fault (.outOfBounds r.total r.position))

/-- The next bytes, refused where the payload ends before them. Bytes within the payload that are
not there to be taken would fault. -/
def take (length : Nat) : Reading (List UInt8) := fun r =>
  let stop := r.position + length
  let block := r.rest.take length
  if r.total < stop then .error (.decode (.bufferTooShort stop r.total))
  else if block.length = length then
    .ok (block, { r with rest := r.rest.drop length, position := stop })
  else .error (.fault (.outOfBounds r.total stop))

def halfWord : Reading UInt32 := return UInt32.ofNat (LittleEndian.decode (← take 4))

def word : Reading UInt64 := return UInt64.ofNat (LittleEndian.decode (← take 8))

def measurement : Reading Measurement := return (← word).toInt64

/-- So many items, one after another. -/
def repeated (item : Reading α) : Nat → Reading (List α)
  | 0 => return []
  | count + 1 => do
    let a ← item
    return a :: (← repeated item count)

/-- As many items as announced, of at least `width` bytes each. They are refused at once where the
payload cannot hold them, with the length from the reader on that would. -/
def announced (item : Reading α) (width count : Nat) (expected : Reader → Nat) :
    Reading (List α) := do
  let ahead ← remaining
  if ahead / width < count then
    let r ← get
    throw (.decode (.bufferTooShort (expected r) r.total))
  repeated item count

def samples (count : Nat) : Reading (List SampleId) :=
  announced word 8 count fun r => r.position + 8 * count

def entry : Reading Entry := do
  let value ← measurement
  let g ← word
  let delta ← word
  let samples ← samples (← halfWord).toNat
  return { value, g, delta, samples }

def entries (count : Nat) : Reading (List Entry) :=
  announced entry entryLength count fun _ => leastLength count

def header : Reading Unit := do
  unless (← take magic.length) = magic do throw (.decode .invalidHeader)
  let found ← halfWord
  unless found = version do throw (.decode (.unsupportedVersion found))

def snapshot : Reading Snapshot := do
  header
  let n ← word
  let data ← entries (← word).toNat
  return { data, n }

/-- Bytes behind the snapshot are refused. -/
def payload : Reading Snapshot := do
  let s ← snapshot
  let ahead ← remaining
  unless ahead = 0 do throw (.decode (.corrupted (.trailingBytes ahead)))
  return s

end Reading

/-- Reads a payload to its end. The entries are not checked against each other. -/
def decode (bytes : List UInt8) : Except Error Snapshot :=
  if bytes.length < headerLength then
    .error (.decode (.bufferTooShort headerLength bytes.length))
  else return (← Reading.payload (Reader.start bytes)).1

end Wire

end StreamQuantiles
