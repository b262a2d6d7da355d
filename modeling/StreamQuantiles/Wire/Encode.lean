import StreamQuantiles.Snapshot

/-! The binary form: a header, then the entries one after another. All numbers are little-endian.

The header holds the mark `GKQS`, the version in 4 bytes, and the number of observations and of
entries in 8 each. An entry holds its value, `g` and `delta` in 8 bytes each, the number of its
samples in 4, and 8 for each sample. -/
namespace StreamQuantiles
namespace LittleEndian

/-- The lowest `width` bytes of a number. -/
def encode : (width : Nat) → Nat → List UInt8
  | 0, _ => []
  | width + 1, n => UInt8.ofNat n :: encode width (n / 256)

def decode : List UInt8 → Nat
  | [] => 0
  | b :: bytes => b.toNat + 256 * decode bytes

@[simp] theorem length_encode (width n : Nat) : (encode width n).length = width := by
  induction width generalizing n with
  | zero => rfl
  | succ width ih => simp [encode, ih]

theorem encode_decode (bytes : List UInt8) : encode bytes.length (decode bytes) = bytes := by
  induction bytes with
  | nil => rfl
  | cons b bytes ih =>
    have hb := b.toNat_lt
    have hhead : UInt8.ofNat (b.toNat + 256 * decode bytes) = b := by
      rw [← UInt8.toNat_inj, UInt8.toNat_ofNat']
      omega
    have htail : (b.toNat + 256 * decode bytes) / 256 = decode bytes := by omega
    rw [List.length_cons, encode, decode, htail, hhead, ih]

example : encode 4 1 = [1, 0, 0, 0] := by decide

end LittleEndian

namespace Wire

/-- The letters `GKQS`. -/
def magic : List UInt8 := [0x47, 0x4b, 0x51, 0x53]

def version : UInt32 := 1

def headerLength : Nat := 24

/-- The length of an entry without samples. -/
def entryLength : Nat := 28

def encodeWord (w : UInt64) : List UInt8 := LittleEndian.encode 8 w.toNat

def encodeMeasurement (v : Measurement) : List UInt8 := encodeWord v.toUInt64

/-- The fields of the header, for so many observations and entries. -/
def headerFields (n : Count) (count : Nat) : List (List UInt8) :=
  [magic, LittleEndian.encode 4 version.toNat, encodeWord n, LittleEndian.encode 8 count]

/-- The fields of an entry. A number of samples past 32 bits loses its high bits. -/
def entryFields (e : Entry) : List (List UInt8) :=
  [encodeMeasurement e.value, encodeWord e.g, encodeWord e.delta,
    LittleEndian.encode 4 e.samples.length] ++ e.samples.map encodeWord

def encodeEntry (e : Entry) : List UInt8 := (entryFields e).flatten

def encode (s : Snapshot) : List UInt8 :=
  (headerFields s.n s.data.length).flatten ++ s.data.flatMap encodeEntry

/-- A buffer of zeros, written from its front on. -/
structure Buffer where
  written : Array UInt8
  total : Nat
  deriving Repr

namespace Buffer

def zeros (total : Nat) : Buffer := ⟨#[], total⟩

/-- Writes a field behind the last one. One that runs past the end of the buffer would fault. -/
def put (b : Buffer) (field : List UInt8) : Except Fault Buffer :=
  let stop := b.written.size + field.length
  if stop ≤ b.total then .ok { b with written := b.written ++ field.toArray }
  else .error (.outOfBounds b.total stop)

/-- The whole buffer, with the part that was never written. -/
def bytes (b : Buffer) : List UInt8 :=
  b.written.toList ++ List.replicate (b.total - b.written.size) 0

end Buffer

end Wire

end StreamQuantiles
