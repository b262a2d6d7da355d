import StreamQuantiles.Proofs.Wire.Reading

/-! Payloads that are cut short, or go on too long. Bytes behind a payload change no step that was
taken without them, and no refusal but one for the length. One for the length asks for more bytes
than there are, and for no more than any longer payload has that the step then takes. -/
namespace StreamQuantiles
namespace Wire

/-- The reader behind the first bytes of a payload, so many of them. -/
def Reader.behind (start : Nat) (rest : List UInt8) : Reader := .ahead (start + rest.length) rest

lemma Reader.behind_eq (start : Nat) (rest : List UInt8) :
    Reader.behind start rest = ⟨rest, start, start + rest.length⟩ := by
  rw [behind, ahead, Nat.add_sub_cancel]

lemma Reader.behind_zero (bytes : List UInt8) :
    Reader.behind 0 bytes = .ahead bytes.length bytes := by
  rw [behind, Nat.zero_add]

/-- A refusal for the length of a payload. -/
def ForLength (e : DecodeError) : Prop := ∃ expected found, e = .bufferTooShort expected found

/-- A step that starts behind so many bytes, and that tells a payload that is too short for it from
any other. -/
structure Measures {α : Type} (start : Nat) (step : Reading α) : Prop where
  short : ∀ rest expected found, start + rest.length < longest →
    step (.behind start rest) = .error (.decode (.bufferTooShort expected found)) →
    found = start + rest.length ∧ found < expected ∧
      ∀ more p, step (.behind start (rest ++ more)) = .ok p →
        expected ≤ start + (rest ++ more).length
  other : ∀ rest more e, ¬ ForLength e → step (.behind start rest) = .error (.decode e) →
    step (.behind start (rest ++ more)) = .error (.decode e)

/-- A step takes a block, and the same block whatever else follows, or it refuses. -/
lemma Parses.behind {α : Type} {step : Reading α} {form : α → List UInt8 → Prop}
    (h : Parses step form) (start : Nat) (rest : List UInt8) :
    (∃ a block rest', rest = block ++ rest' ∧ form a block ∧
      step (.behind start rest) = .ok (a, .behind (start + block.length) rest') ∧
      ∀ more, step (.behind start (rest ++ more)) =
        .ok (a, .behind (start + block.length) (rest' ++ more))) ∨
    ∃ e, step (.behind start rest) = .error (.decode e) := by
  rcases h.sound (start + rest.length) rest (Nat.le_add_left _ _) with
    ⟨a, block, rest', rfl, ha, -⟩ | he
  · have htaken : ∀ rest, step (.behind start (block ++ rest)) =
        .ok (a, .behind (start + block.length) rest) := by
      intro rest
      rw [Reader.behind, h.complete _ a block rest (Nat.le_add_left _ _) ha, Reader.behind,
        List.length_append, Nat.add_assoc]
    refine .inl ⟨a, block, rest', rfl, ha, htaken rest', fun more => ?_⟩
    rw [List.append_assoc, htaken]
  · exact .inr he

namespace Measures

variable {α β : Type} {start : Nat} {step no : Reading α} {next : α → Reading β}
  {form : α → List UInt8 → Prop} {width count : Nat}

protected lemma pure (a : α) : Measures start (pure a) where
  short := by
    intro rest expected found _ h
    cases h
  other := by
    intro rest more e _ h
    cases h

protected lemma bind (h : Measures start step) (hp : Parses step form)
    (hn : ∀ a block, form a block → Measures (start + block.length) (next a)) :
    Measures start (step >>= next) where
  short := by
    intro rest expected found hlong herror
    rw [Parses.bind_apply] at herror
    rcases hp.behind start rest with ⟨a, block, rest', rfl, ha, hs, hs'⟩ | ⟨e, he⟩
    · -- a longer payload gives up the same block, so the next step stands at the same place
      rw [hs, ok_bind] at herror
      rw [List.length_append, ← Nat.add_assoc] at hlong ⊢
      obtain ⟨hfound, hlt, hmore⟩ := (hn a block ha).short rest' expected found hlong herror
      refine ⟨hfound, hlt, fun more p hok => ?_⟩
      rw [Parses.bind_apply, hs', ok_bind] at hok
      rw [List.append_assoc, List.length_append, ← Nat.add_assoc]
      exact hmore more p hok
    · rw [he] at herror
      cases herror
      obtain ⟨hfound, hlt, hmore⟩ := h.short rest expected found hlong he
      refine ⟨hfound, hlt, fun more p hok => ?_⟩
      obtain ⟨p', hs, -⟩ := exists_of_bind_eq_ok (x := step _) hok
      exact hmore more p' hs
  other := by
    intro rest more e hne herror
    rw [Parses.bind_apply] at herror ⊢
    rcases hp.behind start rest with ⟨a, block, rest', rfl, ha, hs, hs'⟩ | ⟨e', he⟩
    · rw [hs, ok_bind] at herror
      rw [hs', ok_bind]
      exact (hn a block ha).other rest' more e hne herror
    · rw [he] at herror
      cases herror
      rw [h.other rest more e hne he]
      rfl

/-- A step whose result is only put together. -/
protected lemma map (h : Measures start step) (hp : Parses step form) (f : α → β) :
    Measures start (do return f (← step)) :=
  h.bind hp fun _ _ _ => .pure _

/-- A step that is only taken on a condition, which is not about the length. -/
lemma guard {c : Prop} [Decidable c] {e : DecodeError} (h : Measures start step)
    (hno : ∀ r, no r = .error (.decode e)) (he : ¬ ForLength e) :
    Measures start (if c then step else no) := by
  split
  · exact h
  · refine ⟨fun rest expected found _ herror => ?_, fun rest more e' _ herror => ?_⟩
    · rw [hno] at herror
      cases herror
      exact absurd ⟨_, _, rfl⟩ he
    · rw [hno] at herror ⊢
      exact herror

lemma take (start length : Nat) : Measures start (Reading.take length) where
  short := by
    intro rest expected found _ herror
    simp only [Reader.behind_eq, Reading.take] at herror ⊢
    split at herror
    · next hlt =>
      cases herror
      refine ⟨rfl, hlt, fun more p hok => ?_⟩
      split at hok
      · cases hok
      · next hle => exact Nat.not_lt.1 hle
    · split at herror <;> cases herror
  other := by
    intro rest more e hne herror
    simp only [Reader.behind_eq, Reading.take] at herror
    split at herror
    · cases herror
      exact absurd ⟨_, _, rfl⟩ hne
    · split at herror <;> cases herror

lemma number (f : Nat → α) (start width : Nat) :
    Measures start (do return f (LittleEndian.decode (← Reading.take width))) :=
  (take start width).map (.take width) fun block => f (LittleEndian.decode block)

lemma word (start : Nat) : Measures start Reading.word := number UInt64.ofNat start 8

lemma halfWord (start : Nat) : Measures start Reading.halfWord := number UInt32.ofNat start 4

lemma measurement (start : Nat) : Measures start Reading.measurement :=
  (word start).map .word UInt64.toInt64

lemma repeated (h : ∀ start, Measures start step) (hp : Parses step form) (count start : Nat) :
    Measures start (Reading.repeated step count) := by
  induction count generalizing start with
  | zero => exact .pure []
  | succ count ih =>
    exact (h start).bind hp fun a block _ => (ih _).map (hp.repeated count) (a :: ·)

lemma announced_eq (expected : Reader → Nat) (rest : List UInt8) :
    Reading.announced step width count expected (.behind start rest) =
      if rest.length / width < count then
        .error (.decode (.bufferTooShort (expected (.behind start rest)) (start + rest.length)))
      else Reading.repeated step count (.behind start rest) :=
  Parses.announced_eq (Nat.le_add_left _ _) expected

/-- Items that the payload has no room for ask for no more than their least length, and for more
than there is. -/
lemma announced (h : ∀ start, Measures start step) (hp : Parses step form) (hwidth : 0 < width)
    {expected : Reader → Nat}
    (hle : ∀ rest, expected (.behind start rest) ≤ start + count * width)
    (hlt : ∀ rest, start + rest.length < longest → rest.length < count * width →
      start + rest.length < expected (.behind start rest)) :
    Measures start (Reading.announced step width count expected) where
  short := by
    intro rest expected found hlong herror
    rw [announced_eq] at herror
    split at herror
    · next hroom =>
      cases herror
      rw [Nat.div_lt_iff_lt_mul hwidth] at hroom
      refine ⟨rfl, hlt rest hlong hroom, fun more p hok => ?_⟩
      rw [announced_eq] at hok
      split at hok
      · cases hok
      · next hroom' =>
        rw [Nat.div_lt_iff_lt_mul hwidth, Nat.not_lt] at hroom'
        exact (hle rest).trans (Nat.add_le_add_left hroom' start)
    · obtain ⟨hfound, hshort, hmore⟩ :=
        (repeated h hp count start).short rest expected found hlong herror
      refine ⟨hfound, hshort, fun more p hok => ?_⟩
      rw [announced_eq] at hok
      split at hok
      · cases hok
      · exact hmore more p hok
  other := by
    intro rest more e hne herror
    rw [announced_eq] at herror ⊢
    split at herror
    · cases herror
      exact absurd ⟨_, _, rfl⟩ hne
    · next hroom =>
      -- a longer payload has room for no fewer items
      have hroom' : rest.length / width ≤ (rest ++ more).length / width :=
        Nat.div_le_div_right (by simp)
      rw [if_neg fun h => hroom (Nat.lt_of_le_of_lt hroom' h)]
      exact (repeated h hp count start).other rest more e hne herror

lemma samples (count start : Nat) : Measures start (Reading.samples count) := by
  refine announced word .word (by decide) (fun rest => ?_) fun rest _ h => ?_
  · rw [Reader.behind_eq, Nat.mul_comm]
  · rw [Reader.behind_eq, Nat.mul_comm]
    exact Nat.add_lt_add_left h start

lemma entry (start : Nat) : Measures start Reading.entry :=
  (measurement _).bind .measurement fun value _ _ => (word _).bind .word fun g _ _ =>
    (word _).bind .word fun delta _ _ => (halfWord _).bind .halfWord fun count _ _ =>
      (samples count.toNat _).map (.samples count.toNat) (Entry.mk value g delta)

/-- The entries stand right behind the header, so the least length of a payload with so many of them
is the length that is wanted. -/
lemma entries (count : Nat) : Measures headerLength (Reading.entries count) := by
  have hlongest : longest = 2 ^ 64 - 1 := rfl
  refine announced entry .entry (by decide) (fun rest => ?_) fun rest hlong h => ?_
  · rw [leastLength, Nat.mul_comm]
    omega
  · rw [leastLength, Nat.mul_comm]
    omega

lemma header (start : Nat) : Measures start Reading.header :=
  (take start magic.length).bind (.take magic.length) fun _ _ _ =>
    guard ((halfWord _).bind .halfWord fun _ _ _ => guard (.pure ()) (fun _ => rfl) nofun)
      (fun _ => rfl) nofun

lemma snapshot : Measures 0 Reading.snapshot := by
  refine (header 0).bind .header fun _ block hblock => (word _).bind .word fun n first hfirst =>
    (word _).bind .word fun count second hsecond => .map ?_ (.entries count.toNat) _
  obtain ⟨version, rfl, hversion⟩ := hblock
  have hstart : 0 + (magic ++ version).length + first.length + second.length = headerLength := by
    rw [List.length_append, hversion.length, hfirst.length, hsecond.length]
    rfl
  rw [hstart]
  exact entries count.toNat

end Measures

variable {bytes p q : List UInt8} {s : Snapshot} {expected found : Nat}

/-- A payload that is found too short is shorter than what is expected, and all that go on from it
and are read are no shorter. -/
lemma decode_short (hlong : bytes.length < longest)
    (h : decode bytes = .error (.decode (.bufferTooShort expected found))) :
    found = bytes.length ∧ found < expected ∧
      ∀ more s, decode (bytes ++ more) = .ok s → expected ≤ (bytes ++ more).length := by
  rcases decode_cases bytes with hshort | ⟨s, block, rest, rfl, hw⟩ | ⟨e, he, he'⟩
  · rw [decode, if_pos hshort] at h
    cases h
    exact ⟨rfl, hshort, fun more s hok => headerLength_le_of_written (decode_eq_ok_iff.1 hok)⟩
  · rw [decode_append hw] at h
    split at h <;> cases h
  · cases he'.symm.trans h
    rw [← Reader.behind_zero] at he
    obtain ⟨hfound, hlt, hmore⟩ :=
      Measures.snapshot.short bytes expected found (by rwa [Nat.zero_add]) he
    rw [Nat.zero_add] at hfound
    refine ⟨hfound, hlt, fun more s hok => ?_⟩
    have hw := decode_eq_ok_iff.1 hok
    have hs := Parses.snapshot.complete _ s (bytes ++ more) [] (Nat.le_refl _) hw
    rw [List.append_nil, ← Reader.behind_zero] at hs
    have hle := hmore more _ hs
    rwa [Nat.zero_add] at hle

/-- A payload that is cut is found too short. -/
lemma exists_bufferTooShort_of_cut (hok : decode (p ++ q) = .ok s) (hq : q ≠ []) :
    ∃ expected found, decode p = .error (.decode (.bufferTooShort expected found)) := by
  rcases decode_cases p with hshort | ⟨s', block, rest, rfl, hw⟩ | ⟨e, he, he'⟩
  · exact ⟨_, _, if_pos hshort⟩
  · rw [List.append_assoc, decode_append hw, if_neg (by simp [hq])] at hok
    cases hok
  · by_cases hlength : ForLength e
    · obtain ⟨expected, found, rfl⟩ := hlength
      exact ⟨expected, found, he'⟩
    · rw [← Reader.behind_zero] at he
      have hwhole := Measures.snapshot.other p q e hlength he
      rw [Reader.behind_zero] at hwhole
      have hheader := headerLength_le_of_written (decode_eq_ok_iff.1 hok)
      cases (decode_eq_error hheader hwhole).symm.trans hok

end Wire
end StreamQuantiles
