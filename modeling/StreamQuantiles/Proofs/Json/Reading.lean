import Mathlib.Data.List.Forall2
import Mathlib.Tactic.IntervalCases
import Mathlib.Tactic.Lemma
import StreamQuantiles.Json.Encode
import StreamQuantiles.Json.Value

/-! What is written is read again. A text spells a value if the machine, wherever it waits for a
value, takes the text for it and goes on behind it. -/
namespace StreamQuantiles.Json

namespace Text

/-- A character that stands for itself. -/
def Plain (c : Char) : Prop := c ≠ '"' ∧ c ≠ '\\' ∧ 0x20 ≤ c.toNat

instance (c : Char) : Decidable (Plain c) := by
  unfold Plain; infer_instance

lemma pieces?_plain {cs : List Char} (h : ∀ c ∈ cs, Plain c) (rest : List Char) :
    pieces? (cs ++ '"' :: rest) = some (cs.map .char, rest) := by
  induction cs with
  | nil => rfl
  | cons c cs ih =>
    obtain ⟨⟨hquote, hescape, hcontrol⟩, hcs⟩ := List.forall_mem_cons.1 h
    rw [List.cons_append, pieces?, if_neg (Nat.not_lt.2 hcontrol), ih hcs]
    · rfl
    · exact hquote
    · exact fun _ _ _ _ _ he _ => hescape he
    · exact fun _ _ he _ => hescape he

lemma chars?_plain (cs : List Char) : chars? (cs.map .char) = some cs := by
  induction cs with
  | nil => rfl
  | cons c cs ih =>
    rw [List.map_cons, chars?, ih]
    rfl

end Text

namespace Numeral

lemma isDigit_of_mem_digits {n : Nat} {c : Char} (h : c ∈ digits n) : c.isDigit :=
  Nat.isDigit_of_mem_toDigits (by decide) (by decide) h

lemma digits_ne_nil (n : Nat) : digits n ≠ [] := Nat.toDigits_ne_nil

/-- Zero is written as one digit, and no other number starts with it. -/
lemma digits_zero_or (n : Nat) : digits n = ['0'] ∨ (digits n).head? ≠ some '0' := by
  induction n using Nat.strongRecOn with
  | ind n ih =>
    by_cases hn : n < 10
    · have hone : digits n = [Nat.digitChar n] := Nat.toDigits_of_lt_base hn
      rw [hone]
      rcases Nat.eq_zero_or_pos n with rfl | hpos
      · exact .inl rfl
      · right
        interval_cases n <;> decide
    · -- The first digit is that of a tenth of the number, which is not zero.
      have hcut : digits n = digits (n / 10) ++ [Nat.digitChar (n % 10)] :=
        Nat.toDigits_of_base_le (by decide) (Nat.le_of_not_lt hn)
      right
      rw [hcut, List.head?_append_of_ne_nil _ (digits_ne_nil _)]
      rcases ih (n / 10) (by omega) with hzero | hhead
      · have hvalue := value_digits (n / 10)
        rw [hzero] at hvalue
        have : n / 10 = 0 := hvalue.symm
        omega
      · exact hhead

end Numeral

namespace Token

variable {rest : List Char}

/-- A number before `rest` ends there: nothing follows it, or the comma or bracket after a value. -/
def Delimited (rest : List Char) : Prop := ∀ c ∈ rest.head?, c = ',' ∨ c = ']' ∨ c = '\x7d'

lemma Delimited.not_isDigit (h : Delimited rest) : ∀ c ∈ rest.head?, c.isDigit = false := by
  intro c hc
  rcases h c hc with rfl | rfl | rfl <;> decide

/-- Digits end where no digit follows. -/
lemma digits?_append {run : List Char} (hrun : ∀ c ∈ run, c.isDigit) (hne : run ≠ [])
    (hrest : Delimited rest) : digits? (run ++ rest) = some (run, rest) := by
  have htake : rest.takeWhile Char.isDigit = [] ∧ rest.dropWhile Char.isDigit = rest := by
    cases rest with
    | nil => exact ⟨rfl, rfl⟩
    | cons c rest =>
      have hc : ¬ c.isDigit = true := by simp [hrest.not_isDigit c rfl]
      exact ⟨List.takeWhile_cons_of_neg hc, List.dropWhile_cons_of_neg hc⟩
  rw [digits?, List.takeWhile_append_of_pos hrun, List.dropWhile_append_of_pos hrun, htake.1,
    htake.2, List.append_nil]
  obtain ⟨c, run, rfl⟩ := List.exists_cons_of_ne_nil hne
  rfl

lemma fraction?_of_delimited (hrest : Delimited rest) : fraction? rest = some ([], rest) := by
  cases rest with
  | nil => rfl
  | cons c rest => rcases hrest c rfl with rfl | rfl | rfl <;> rfl

lemma exponent?_of_delimited (hrest : Delimited rest) : exponent? rest = some (none, rest) := by
  cases rest with
  | nil => rfl
  | cons c rest => rcases hrest c rfl with rfl | rfl | rfl <;> rfl

lemma unsigned?_digits (negative : Bool) (n : Nat) (hrest : Delimited rest) :
    unsigned? negative (Numeral.digits n ++ rest) =
      some (number ⟨negative, Numeral.digits n, [], none⟩, rest) := by
  have hdigits := digits?_append (fun _ => Numeral.isDigit_of_mem_digits) (Numeral.digits_ne_nil n)
    hrest
  have hwhole : whole? (Numeral.digits n ++ rest) = some (Numeral.digits n, rest) := by
    simp [whole?, hdigits, guard, Numeral.digits_zero_or n]
  rw [unsigned?, hwhole]
  change (fraction? rest >>= _) = _
  rw [fraction?_of_delimited hrest]
  change (exponent? rest >>= _) = _
  rw [exponent?_of_delimited hrest]
  rfl

lemma ne_of_isDigit {c d : Char} (hc : c.isDigit) (hd : d.isDigit = false) : c ≠ d := by
  rintro rfl
  rw [hc] at hd
  cases hd

/-- What starts with a digit is a number without a sign. -/
lemma next?_of_isDigit {c : Char} (hc : c.isDigit) (cs : List Char) :
    next? (c :: cs) = unsigned? false (c :: cs) := by
  unfold next?
  split
  case h_12 => rfl
  all_goals next heq => exact absurd (List.cons.inj heq).1 (ne_of_isDigit hc (by decide))

lemma isBlank_of_isDigit {c : Char} (hc : c.isDigit) : isBlank c = false := by
  have hne : ∀ d : Char, d.isDigit = false → c ≠ d := fun _ => ne_of_isDigit hc
  simp [isBlank, hne ' ' rfl, hne '\t' rfl, hne '\n' rfl, hne '\r' rfl]

/-- A character that is no blank starts a token. -/
lemma read?_cons {c : Char} (hc : isBlank c = false) (cs : List Char) :
    read? (c :: cs) = next? (c :: cs) := by
  rw [read?, List.dropWhile_cons_of_neg (by simp [hc])]

lemma read?_writeInt (i : Int) (hrest : Delimited rest) :
    read? (writeInt i ++ rest) = some (number (.ofInt i), rest) := by
  unfold writeInt Numeral.ofInt
  split
  · next hneg =>
    rw [List.cons_append, read?_cons (by decide), decide_eq_true hneg]
    exact unsigned?_digits true i.natAbs hrest
  · next hpos =>
    have hnumber := unsigned?_digits false i.natAbs hrest
    obtain ⟨c, cs, hcs⟩ := List.exists_cons_of_ne_nil (Numeral.digits_ne_nil i.natAbs)
    have hc : c.isDigit := Numeral.isDigit_of_mem_digits (hcs ▸ List.mem_cons_self)
    rw [decide_eq_false hpos]
    rw [hcs, List.cons_append] at hnumber ⊢
    rw [read?_cons (isBlank_of_isDigit hc), next?_of_isDigit hc, hnumber]

/-- A plain word in quotes is a string. -/
lemma read?_word {word : String} (hword : ∀ c ∈ word.toList, Text.Plain c) (rest : List Char) :
    read? ('"' :: word.toList ++ '"' :: rest) = some (string (some word), rest) := by
  rw [List.cons_append, read?_cons (by decide)]
  change (Text.pieces? (word.toList ++ '"' :: rest) >>= _) = _
  rw [Text.pieces?_plain hword]
  change some (string ((Text.chars? (word.toList.map .char)).map String.ofList), rest) = _
  rw [Text.chars?_plain, Option.map_some, String.ofList_toList]

end Token

namespace Value

open Machine Token

variable {cs rest : List Char} {v : Value} {stack : List Frame} {m m' : Machine} {phase : Phase}

/-- Where a value may begin. -/
def Awaits (phase : Phase) : Prop := phase = .value ∨ phase = .valueOrEnd

/-- Wherever a value may begin, the text is taken for this one. -/
def Spells (cs : List Char) (v : Value) : Prop :=
  ∀ ⦃phase stack m rest⦄, Awaits phase → supply v stack = some m → Delimited rest →
    run? ⟨phase, stack⟩ (cs ++ rest) = m.run? rest

/-- The first token of a value, which is no closing bracket, is taken in. -/
lemma run?_of_begin {t : Token} (hp : Awaits phase) (ht : t ≠ .closeArray)
    (hread : Token.read? cs = some (t, rest)) (hbegin : begin stack t = some m) :
    run? ⟨phase, stack⟩ cs = m.run? rest := by
  rcases hp with rfl | rfl
  · exact run?_of_read? rfl hread hbegin
  · -- Where an array may end at once, its closing bracket alone begins no value.
    refine run?_of_read? rfl hread ?_
    rw [← hbegin]
    cases t with
    | closeArray => exact absurd rfl ht
    | _ => rfl

lemma spells_int (i : Int) : Spells (writeInt i) (.number (.ofInt i)) := by
  intro phase stack m rest hp hm hrest
  exact run?_of_begin (t := .number _) hp nofun (read?_writeInt i hrest) hm

lemma delimited_cons {c : Char} (hc : c = ',' ∨ c = ']' ∨ c = '\x7d') (cs : List Char) :
    Delimited (c :: cs) := by
  rintro _ ⟨⟩
  exact hc

section Separated

variable {α : Type} (frame : List α → Frame) (Awaiting : Phase → Prop)

/-- A text is taken for one more part of an open array or object. -/
def Extends (text : List Char) (x : α) : Prop :=
  ∀ ⦃phase xs stack rest⦄, Awaiting phase → Delimited rest →
    run? ⟨phase, frame xs :: stack⟩ (text ++ rest) =
      run? ⟨.commaOrEnd, frame (x :: xs) :: stack⟩ rest

variable {frame Awaiting} {next : Phase} (hnext : Awaiting next)
  (hcomma : ∀ xs stack, step ⟨.commaOrEnd, frame xs :: stack⟩ .comma =
    some ⟨next, frame xs :: stack⟩)
include hnext hcomma

/-- Parts with commas between them are taken one after another. -/
lemma run?_separated {texts : List (List Char)} {xs : List α}
    (h : List.Forall₂ (Extends frame Awaiting) texts xs) (hne : texts ≠ []) (ys : List α)
    (hp : Awaiting phase) (hrest : Delimited rest) :
    run? ⟨phase, frame ys :: stack⟩ (separated texts ++ rest) =
      run? ⟨.commaOrEnd, frame (xs.reverse ++ ys) :: stack⟩ rest := by
  induction h generalizing phase ys with
  | nil => exact absurd rfl hne
  | @cons text x texts xs htext htexts ih =>
    cases htexts with
    | nil => exact htext hp hrest
    | @cons following y texts xs hfollowing htexts =>
      rw [separated, List.append_assoc, List.cons_append, htext hp (delimited_cons (.inl rfl) _),
        List.reverse_cons, List.append_assoc, List.singleton_append,
        ← ih (List.cons_ne_nil _ _) (x :: ys) hnext]
      exact run?_of_read? rfl (read?_cons (by decide) _) (hcomma _ _)

/-- Parts between brackets are taken one after another, and so is the closing bracket. -/
lemma run?_closed {texts : List (List Char)} {xs : List α} {c : Char} {t : Token}
    (h : List.Forall₂ (Extends frame Awaiting) texts xs) (hp : Awaiting phase)
    (hphase : result? ⟨phase, frame [] :: stack⟩ = none) (hc : Delimited (c :: rest))
    (hread : Token.read? (c :: rest) = some (t, rest))
    (hempty : xs = [] → step ⟨phase, frame [] :: stack⟩ t = some m)
    (hclose : step ⟨.commaOrEnd, frame xs.reverse :: stack⟩ t = some m) :
    run? ⟨phase, frame [] :: stack⟩ (separated texts ++ c :: rest) = m.run? rest := by
  cases texts with
  | nil =>
    cases h
    exact run?_of_read? hphase hread (hempty rfl)
  | cons text texts =>
    rw [run?_separated hnext hcomma h (List.cons_ne_nil _ _) [] hp hc, List.append_nil]
    exact run?_of_read? rfl hread hclose

end Separated

lemma Spells.extends (h : Spells cs v) : Extends .array Awaits cs v :=
  fun _ _ _ _ hp hrest => h hp rfl hrest

/-- A text spells an array if its parts spell the items. -/
lemma spells_array {texts : List (List Char)} {vs : List Value}
    (h : List.Forall₂ Spells texts vs) : Spells (writeArray texts) (.array vs) := by
  intro phase stack m rest hp hm hrest
  have hopen : run? ⟨phase, stack⟩ (writeArray texts ++ rest) =
      run? ⟨.valueOrEnd, .array [] :: stack⟩ (separated texts ++ ']' :: rest) := by
    rw [writeArray, List.cons_append, List.cons_append, List.append_assoc]
    exact run?_of_begin (t := .openArray) hp nofun (read?_cons (by decide) _) rfl
  have hclose : supply (.array vs.reverse.reverse) stack = some m := by rwa [List.reverse_reverse]
  rw [hopen]
  refine run?_closed (.inl rfl) (fun _ _ => rfl) (h.imp fun _ _ hs => hs.extends) (.inr rfl) rfl
    (delimited_cons (.inr (.inl rfl)) rest) (read?_cons (by decide) rest) ?_ hclose
  rintro rfl
  exact hm

/-- A plain key, and a text that spells the value. -/
structure SpellsMember (written : String × List Char) (read : Option String × Value) : Prop where
  key : read.1 = some written.1
  plain : ∀ c ∈ written.1.toList, Text.Plain c
  value : Spells written.2 read.2

def AwaitsKey (phase : Phase) : Prop := phase = .key ∨ phase = .keyOrEnd

lemma SpellsMember.extends {written : String × List Char} {read : Option String × Value}
    (h : SpellsMember written read) :
    Extends .object AwaitsKey (writeMember written.1 written.2) read := by
  intro phase members stack rest hp hrest
  obtain ⟨key, v⟩ := read
  obtain rfl : key = some written.1 := h.key
  have hword := read?_word h.plain (':' :: (written.2 ++ rest))
  have hkey : run? ⟨phase, .object members :: stack⟩ (writeMember written.1 written.2 ++ rest) =
      run? ⟨.colon (some written.1), .object members :: stack⟩ (':' :: (written.2 ++ rest)) := by
    rw [writeMember, List.cons_append, List.cons_append, List.append_assoc]
    rcases hp with rfl | rfl
    · exact run?_of_read? rfl hword rfl
    · exact run?_of_read? rfl hword rfl
  have hcolon : run? ⟨.colon (some written.1), .object members :: stack⟩
      (':' :: (written.2 ++ rest)) =
      run? ⟨.value, .member members (some written.1) :: stack⟩ (written.2 ++ rest) :=
    run?_of_read? rfl (read?_cons (by decide) _) rfl
  rw [hkey, hcolon]
  exact h.value (.inl rfl) rfl hrest

/-- A text spells an object if its parts spell the members. -/
lemma spells_object {written : List (String × List Char)} {members : List (Option String × Value)}
    (h : List.Forall₂ SpellsMember written members) :
    Spells (writeObject written) (.object members) := by
  intro phase stack m rest hp hm hrest
  have hopen : run? ⟨phase, stack⟩ (writeObject written ++ rest) =
      run? ⟨.keyOrEnd, .object [] :: stack⟩
        (separated (written.map fun m => writeMember m.1 m.2) ++ '\x7d' :: rest) := by
    rw [writeObject, List.cons_append, List.cons_append, List.append_assoc]
    exact run?_of_begin (t := .openObject) hp nofun (read?_cons (by decide) _) rfl
  have hclose : supply (.object members.reverse.reverse) stack = some m := by
    rwa [List.reverse_reverse]
  rw [hopen]
  refine run?_closed (.inl rfl) (fun _ _ => rfl)
    (List.forall₂_map_left_iff.2 (h.imp fun _ _ hs => hs.extends)) (.inr rfl) rfl
    (delimited_cons (.inr (.inr rfl)) rest) (read?_cons (by decide) rest) ?_ hclose
  rintro rfl
  exact hm

/-- A text that spells a value is read as it. -/
lemma read?_of_spells (h : Spells cs v) (hrest : Delimited rest) :
    Value.read? (cs ++ rest) = some (v, rest) := by
  rw [Value.read?, Machine.start, h (.inl rfl) rfl hrest]
  exact run?_of_result? rfl rest

end Value

end StreamQuantiles.Json
