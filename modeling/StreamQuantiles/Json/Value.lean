import StreamQuantiles.Json.Token

/-! JSON values, read off the front of a text by a machine with a stack of the arrays and objects
that are still open. Depth is not limited, and what follows a value has no part in reading it. -/
namespace StreamQuantiles.Json

/-- Numbers and strings are kept as written; members keep their order and their repetitions. -/
inductive Value where
  | null
  | bool (value : Bool)
  | number (numeral : Numeral)
  | string (text : Option String)
  | array (items : List Value)
  | object (members : List (Option String × Value))
  deriving Repr

namespace Value

/-- An array or object still open, with what it holds so far, the last first. -/
inductive Frame where
  | array (items : List Value)
  | object (members : List (Option String × Value))
  /-- An object that waits for the value of a key. -/
  | member (members : List (Option String × Value)) (key : Option String)
  deriving Repr

/-- What may come next. -/
inductive Phase where
  | value
  | valueOrEnd
  | key
  | keyOrEnd
  | colon (key : Option String)
  | commaOrEnd
  | nothing (result : Value)
  deriving Repr

structure Machine where
  phase : Phase
  stack : List Frame
  deriving Repr

namespace Machine

def start : Machine := ⟨.value, []⟩

/-- A value is complete. -/
def supply (v : Value) : List Frame → Option Machine
  | [] => some ⟨.nothing v, []⟩
  | .array items :: stack => some ⟨.commaOrEnd, .array (v :: items) :: stack⟩
  | .member members key :: stack => some ⟨.commaOrEnd, .object ((key, v) :: members) :: stack⟩
  | .object _ :: _ => none

/-- A value begins. -/
def begin (stack : List Frame) : Token → Option Machine
  | .openArray => some ⟨.valueOrEnd, .array [] :: stack⟩
  | .openObject => some ⟨.keyOrEnd, .object [] :: stack⟩
  | .null => supply .null stack
  | .bool b => supply (.bool b) stack
  | .number n => supply (.number n) stack
  | .string s => supply (.string s) stack
  | _ => none

def step (m : Machine) (t : Token) : Option Machine :=
  match m.phase, t, m.stack with
  | .value, t, stack => begin stack t
  | .valueOrEnd, .closeArray, .array items :: stack => supply (.array items.reverse) stack
  | .valueOrEnd, t, stack => begin stack t
  | .keyOrEnd, .closeObject, .object members :: stack => supply (.object members.reverse) stack
  | .keyOrEnd, .string key, stack => some ⟨.colon key, stack⟩
  | .key, .string key, stack => some ⟨.colon key, stack⟩
  | .colon key, .colon, .object members :: stack => some ⟨.value, .member members key :: stack⟩
  | .commaOrEnd, .comma, .array items :: stack => some ⟨.value, .array items :: stack⟩
  | .commaOrEnd, .comma, .object members :: stack => some ⟨.key, .object members :: stack⟩
  | .commaOrEnd, .closeArray, .array items :: stack => supply (.array items.reverse) stack
  | .commaOrEnd, .closeObject, .object members :: stack => supply (.object members.reverse) stack
  | _, _, _ => none

def result? (m : Machine) : Option Value :=
  match m.phase with
  | .nothing v => some v
  | _ => none

/-- Takes in tokens until a value is complete, and answers it with the text after it. -/
def run? (m : Machine) (cs : List Char) : Option (Value × List Char) :=
  match m.result? with
  | some v => some (v, cs)
  | none =>
    match h : Token.read? cs with
    | none => none
    | some (t, rest) =>
      have := Token.length_of_read? h
      match m.step t with
      | none => none
      | some m => run? m rest
termination_by cs.length

theorem run?_of_result? {m : Machine} {v : Value} (h : m.result? = some v) (cs : List Char) :
    m.run? cs = some (v, cs) := by
  rw [run?, h]

theorem run?_of_read? {m m' : Machine} {t : Token} {cs rest : List Char} (hm : m.result? = none)
    (ht : Token.read? cs = some (t, rest)) (hs : m.step t = some m') :
    m.run? cs = m'.run? rest := by
  rw [run?]
  simp only [hm]
  split
  · simp_all
  · rename_i h
    rw [ht] at h
    cases h
    simp [hs]

end Machine

/-- The value at the front of a text, and what follows it. -/
def read? (cs : List Char) : Option (Value × List Char) := Machine.start.run? cs

/-- The value that a text is, blanks around it apart. -/
def ofText? (text : String) : Option Value := do
  let (v, rest) ← read? text.toList
  guard (Token.atEnd rest)
  return v

/-! ### What a value is meant to be -/

def toInt? : Value → Option Int
  | number n => n.toInt?
  | _ => none

/-- A whole number of 64 bits without sign. -/
def toWord? (v : Value) : Option UInt64 := do
  let i ← v.toInt?
  guard (0 ≤ i ∧ i < UInt64.size)
  return UInt64.ofNat i.toNat

/-- A whole number of 64 bits with sign. -/
def toSigned? (v : Value) : Option Int64 := do
  let i ← v.toInt?
  guard (Int64.minValue.toInt ≤ i ∧ i ≤ Int64.maxValue.toInt)
  return Int64.ofInt i

def toFloat? : Value → Option Float
  | number n => n.toFloat?
  | _ => none

def toList? {α : Type} (item? : Value → Option α) : Value → Option (List α)
  | array items => items.mapM item?
  | _ => none

/-- The one member of a name, if there is any. Two are refused. -/
def member? (members : List (Option String × Value)) (name : String) : Option (Option Value) :=
  match members.filter (·.1 == some name) with
  | [] => some none
  | [(_, v)] => some (some v)
  | _ => none

/-- The fields of a record, in the order of their names. A record is an object, where other members
are passed over but every key has to be a text, or an array of the first of its fields. -/
def fields? (names : List String) : Value → Option (List (Option Value))
  | object members => do
    guard (members.all (·.1.isSome))
    names.mapM (member? members)
  | array items => do
    guard (items.length ≤ names.length)
    return items.map some ++ List.replicate (names.length - items.length) none
  | _ => none

end Value
end StreamQuantiles.Json
