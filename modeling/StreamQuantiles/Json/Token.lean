import StreamQuantiles.Json.Numeral
import StreamQuantiles.Json.Text

/-! The tokens of a JSON text, read one at a time from its front. Blanks between them are
dropped. -/
namespace StreamQuantiles.Json

inductive Token where
  | openObject
  | closeObject
  | openArray
  | closeArray
  | colon
  | comma
  | null
  | bool (value : Bool)
  | number (numeral : Numeral)
  /-- A string; nothing where it is no text. -/
  | string (text : Option String)
  deriving Repr, DecidableEq

namespace Token

def isBlank (c : Char) : Bool := c == ' ' || c == '\t' || c == '\n' || c == '\r'

/-- A run of digits and what follows it. There has to be one at least. -/
def digits? (cs : List Char) : Option (List Char × List Char) :=
  match cs.takeWhile Char.isDigit with
  | [] => none
  | run => some (run, cs.dropWhile Char.isDigit)

/-- Digits without a leading zero, zero itself apart. -/
def whole? (cs : List Char) : Option (List Char × List Char) := do
  let (run, rest) ← digits? cs
  guard (run = ['0'] ∨ run.head? ≠ some '0')
  return (run, rest)

def fraction? : List Char → Option (List Char × List Char)
  | '.' :: cs => digits? cs
  | cs => some ([], cs)

def sign : List Char → Bool × List Char
  | '-' :: cs => (true, cs)
  | '+' :: cs => (false, cs)
  | cs => (false, cs)

def exponent? : List Char → Option (Option (Bool × List Char) × List Char)
  | c :: cs =>
    if c = 'e' ∨ c = 'E' then do
      let (negative, cs) := sign cs
      let (run, rest) ← digits? cs
      return (some (negative, run), rest)
    else some (none, c :: cs)
  | [] => some (none, [])

/-- A number after its sign. -/
def unsigned? (negative : Bool) (cs : List Char) : Option (Token × List Char) := do
  let (whole, cs) ← whole? cs
  let (fraction, cs) ← fraction? cs
  let (exponent, cs) ← exponent? cs
  return (number { negative, whole, fraction, exponent }, cs)

/-- The token at the front of a text that does not start with a blank. -/
def next? : List Char → Option (Token × List Char)
  | '\x7b' :: cs => some (openObject, cs)
  | '\x7d' :: cs => some (closeObject, cs)
  | '[' :: cs => some (openArray, cs)
  | ']' :: cs => some (closeArray, cs)
  | ':' :: cs => some (colon, cs)
  | ',' :: cs => some (comma, cs)
  | '"' :: cs => do
    let (pieces, cs) ← Text.pieces? cs
    return (string ((Text.chars? pieces).map String.ofList), cs)
  | 'n' :: 'u' :: 'l' :: 'l' :: cs => some (null, cs)
  | 't' :: 'r' :: 'u' :: 'e' :: cs => some (bool true, cs)
  | 'f' :: 'a' :: 'l' :: 's' :: 'e' :: cs => some (bool false, cs)
  | '-' :: cs => unsigned? true cs
  | cs => unsigned? false cs

theorem length_of_digits? {cs run rest : List Char} (h : digits? cs = some (run, rest)) :
    rest.length < cs.length := by
  unfold digits? at h
  split at h
  · cases h
  · rename_i hne
    cases h
    have hsplit := congrArg List.length
      (List.takeWhile_append_dropWhile (p := Char.isDigit) (l := cs))
    have hpos := List.length_pos_iff.2 (fun he => hne he)
    simp only [List.length_append] at hsplit
    omega

theorem length_of_fraction? {cs run rest : List Char} (h : fraction? cs = some (run, rest)) :
    rest.length ≤ cs.length := by
  unfold fraction? at h
  split at h
  · have := length_of_digits? h
    simp
    omega
  · cases h; exact Nat.le_refl _

theorem length_sign_le (cs : List Char) : (sign cs).2.length ≤ cs.length := by
  unfold sign
  split <;> simp

theorem length_of_exponent? {cs rest : List Char} {e : Option (Bool × List Char)}
    (h : exponent? cs = some (e, rest)) : rest.length ≤ cs.length := by
  unfold exponent? at h
  split at h
  · rename_i c cs
    split at h
    · simp only [Option.bind_eq_bind, Option.bind_eq_some_iff] at h
      obtain ⟨⟨run, rest'⟩, hr, he⟩ := h
      cases he
      have := length_of_digits? hr
      have := length_sign_le cs
      simp
      omega
    · cases h; exact Nat.le_refl _
  · cases h; exact Nat.le_refl _

theorem length_of_whole? {cs run rest : List Char} (h : whole? cs = some (run, rest)) :
    rest.length < cs.length := by
  obtain ⟨⟨run', rest'⟩, hd, h⟩ := Option.bind_eq_some_iff.1 h
  obtain ⟨_, _, he⟩ := Option.bind_eq_some_iff.1 h
  cases he
  exact length_of_digits? hd

theorem length_of_unsigned? {negative : Bool} {cs rest : List Char} {t : Token}
    (h : unsigned? negative cs = some (t, rest)) : rest.length < cs.length := by
  obtain ⟨⟨run, a⟩, ha, h⟩ := Option.bind_eq_some_iff.1 h
  obtain ⟨⟨fraction, b⟩, hb, h⟩ := Option.bind_eq_some_iff.1 h
  obtain ⟨⟨exponent, c⟩, hc, h⟩ := Option.bind_eq_some_iff.1 h
  cases h
  have := length_of_whole? ha
  have := length_of_fraction? hb
  have := length_of_exponent? hc
  omega

/-- A token takes at least one character. -/
theorem length_of_next? {cs rest : List Char} {t : Token} (h : next? cs = some (t, rest)) :
    rest.length < cs.length := by
  unfold next? at h
  split at h
  all_goals first
    | (cases h; simp; done)
    | (cases h; simp; omega)
    | skip
  · simp only [Option.bind_eq_bind, Option.bind_eq_some_iff] at h
    obtain ⟨_, hp, he⟩ := h
    cases he
    have := Text.length_of_pieces? hp
    simp
    omega
  · have := length_of_unsigned? h
    simp
    omega
  · exact length_of_unsigned? h

/-- The first token of a text, blanks before it apart. What follows the token is not looked at. -/
def read? (cs : List Char) : Option (Token × List Char) := next? (cs.dropWhile isBlank)

theorem length_of_read? {cs rest : List Char} {t : Token} (h : read? cs = some (t, rest)) :
    rest.length < cs.length :=
  Nat.lt_of_lt_of_le (length_of_next? h) (List.dropWhile_suffix isBlank).length_le

/-- No token is left. -/
def atEnd (cs : List Char) : Bool := cs.all isBlank

end Token
end StreamQuantiles.Json
