import StreamQuantiles.Json.Numeral
import StreamQuantiles.Snapshot

/-! The records of the library, written as JSON: compact, with every field in a fixed order. -/
namespace StreamQuantiles

namespace Json

def writeInt (i : Int) : List Char :=
  if i < 0 then '-' :: Numeral.digits i.natAbs else Numeral.digits i.natAbs

def writeWord (w : UInt64) : List Char := Numeral.digits w.toNat

def separated : List (List Char) → List Char
  | [] => []
  | [text] => text
  | text :: next :: rest => text ++ ',' :: separated (next :: rest)

def writeArray (items : List (List Char)) : List Char := '[' :: separated items ++ [']']

/-- A key is a plain word that needs no escape. -/
def writeMember (key : String) (value : List Char) : List Char :=
  '"' :: key.toList ++ '"' :: ':' :: value

def writeObject (members : List (String × List Char)) : List Char :=
  '\x7b' :: separated (members.map fun (key, value) => writeMember key value) ++ ['\x7d']

def writeWords (ws : List UInt64) : List Char := writeArray (ws.map writeWord)

end Json

open Json

def Entry.write (e : Entry) : List Char :=
  writeObject [("v", writeInt e.value.toInt), ("g", writeWord e.g), ("delta", writeWord e.delta),
    ("samples", writeWords e.samples)]

def Slice.write (s : Slice) : List Char :=
  writeObject [("start", writeInt s.lower.toInt), ("end", writeInt s.upper.toInt),
    ("weight", writeWord s.weight), ("samples", writeWords s.samples)]

def Snapshot.toText (s : Snapshot) : String :=
  String.ofList (writeObject [("data", writeArray (s.data.map Entry.write)), ("n", writeWord s.n)])

def Slice.listToText (slices : List Slice) : String :=
  String.ofList (writeArray (slices.map Slice.write))

end StreamQuantiles
