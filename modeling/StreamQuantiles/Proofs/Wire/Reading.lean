import StreamQuantiles.Proofs.Wire.Format
import StreamQuantiles.Wire.Decode

/-! Reading accepts exactly the format. Each step takes a block of its form from the front of what
is ahead, or refuses; it never reads past the end of the payload, whatever numbers the payload
holds. -/
namespace StreamQuantiles
namespace Wire

/-- The reader in front of the last bytes of a payload. -/
def Reader.ahead (total : Nat) (rest : List UInt8) : Reader := ⟨rest, total - rest.length, total⟩

/-- A step of reading takes whatever has the given form, and nothing else. All else is refused,
which is no fault. -/
structure Parses {α : Type} (step : Reading α) (form : α → List UInt8 → Prop) : Prop where
  sound : ∀ total rest, rest.length ≤ total →
    (∃ a block rest', rest = block ++ rest' ∧ form a block ∧
      step (.ahead total rest) = .ok (a, .ahead total rest')) ∨
    ∃ e, step (.ahead total rest) = .error (.decode e)
  complete : ∀ total a block rest, (block ++ rest).length ≤ total → form a block →
    step (.ahead total (block ++ rest)) = .ok (a, .ahead total rest)

lemma remaining_eq_ok {total : Nat} {rest : List UInt8} (h : rest.length ≤ total) :
    Reading.remaining (.ahead total rest) = .ok (rest.length, .ahead total rest) := by
  have hin : total - rest.length ≤ total := Nat.sub_le _ _
  have hahead : total - (total - rest.length) = rest.length := Nat.sub_sub_self h
  simp only [Reading.remaining, Reader.ahead, if_pos hin, hahead]

namespace Parses

variable {α β : Type} {step no : Reading α} {next : α → Reading β}
  {form form' : α → List UInt8 → Prop} {after : α → β → List UInt8 → Prop} {width count : Nat}

lemma congr (h : Parses step form) (hf : ∀ a block, form a block ↔ form' a block) :
    Parses step form' := by
  have heq : form = form' := by
    funext a block
    exact propext (hf a block)
  rwa [← heq]

protected lemma pure (a : α) : Parses (pure a) fun b block => b = a ∧ block = [] where
  sound := fun _ rest _ => .inl ⟨a, [], rest, rfl, ⟨rfl, rfl⟩, rfl⟩
  complete := by
    rintro total b block rest - ⟨rfl, rfl⟩
    rfl

lemma bind_apply (step : Reading α) (next : α → Reading β) (r : Reader) :
    (step >>= next) r = step r >>= fun p => next p.1 p.2 := rfl

protected lemma bind (h : Parses step form) (hn : ∀ a, Parses (next a) (after a)) :
    Parses (step >>= next) fun b block =>
      ∃ a front back, block = front ++ back ∧ form a front ∧ after a b back where
  sound := by
    intro total rest hle
    rw [bind_apply]
    rcases h.sound total rest hle with ⟨a, front, rest₁, rfl, ha, hs⟩ | ⟨e, he⟩
    · rw [hs, ok_bind]
      rw [List.length_append] at hle
      rcases (hn a).sound total rest₁ (by omega) with ⟨b, back, rest₂, rfl, hb, hs'⟩ | ⟨e, he⟩
      · exact .inl ⟨b, front ++ back, rest₂, (List.append_assoc ..).symm,
          ⟨a, front, back, rfl, ha, hb⟩, hs'⟩
      · exact .inr ⟨e, he⟩
    · rw [he]
      exact .inr ⟨e, rfl⟩
  complete := by
    rintro total b _ rest hle ⟨a, front, back, rfl, ha, hb⟩
    rw [List.append_assoc] at hle ⊢
    have hle' : (back ++ rest).length ≤ total := by
      rw [List.length_append] at hle
      omega
    rw [bind_apply, h.complete total a front _ hle ha]
    exact (hn a).complete total b back rest hle' hb

/-- A step whose result is only put together. -/
protected lemma map (h : Parses step form) (f : α → β) :
    Parses (do return f (← step)) fun b block => ∃ a, b = f a ∧ form a block := by
  apply (h.bind fun a => .pure (f a)).congr
  intro b block
  constructor
  · rintro ⟨a, front, _, rfl, ha, rfl, rfl⟩
    rw [List.append_nil]
    exact ⟨a, rfl, ha⟩
  · rintro ⟨a, rfl, ha⟩
    exact ⟨a, block, [], (List.append_nil block).symm, ha, rfl, rfl⟩

/-- A step that is only taken on a condition. -/
lemma guard {c : Prop} [Decidable c] {e : DecodeError} (h : Parses step form)
    (hno : ∀ r, no r = .error (.decode e)) :
    Parses (if c then step else no) fun a block => c ∧ form a block where
  sound := by
    intro total rest hle
    split
    · next hc =>
      rcases h.sound total rest hle with ⟨a, block, rest', hr, ha, hs⟩ | he
      · exact .inl ⟨a, block, rest', hr, ⟨hc, ha⟩, hs⟩
      · exact .inr he
    · exact .inr ⟨e, hno _⟩
  complete := by
    rintro total a block rest hle ⟨hc, ha⟩
    rw [if_pos hc]
    exact h.complete total a block rest hle ha

lemma take (length : Nat) :
    Parses (Reading.take length) fun a block => a = block ∧ block.length = length where
  sound := by
    intro total rest hle
    by_cases hl : length ≤ rest.length
    · refine .inl ⟨_, rest.take length, rest.drop length, (List.take_append_drop ..).symm,
        ⟨rfl, List.length_take_of_le hl⟩, ?_⟩
      have hstop : total - rest.length + length = total - (rest.length - length) := by omega
      have hin : ¬ total < total - (rest.length - length) := by omega
      simp only [Reading.take, Reader.ahead, hstop, if_neg hin, List.length_take_of_le hl, if_true,
        List.length_drop]
    · have hout : total < total - rest.length + length := by omega
      refine .inr ⟨.bufferTooShort (total - rest.length + length) total, ?_⟩
      exact if_pos hout
  complete := by
    rintro total a block rest hle ⟨rfl, rfl⟩
    rw [List.length_append] at hle
    have hstop : total - (a.length + rest.length) + a.length = total - rest.length := by omega
    have hin : ¬ total < total - rest.length := by omega
    simp only [Reading.take, Reader.ahead, List.length_append, hstop, if_neg hin, List.take_left',
      List.drop_left', if_true]

/-- A number of a fixed width, for a type with one value for each such number. -/
lemma number {f : Nat → α} {toNat : α → Nat} (hf : ∀ n < 256 ^ width, toNat (f n) = n)
    (hn : ∀ a, f (toNat a) = a) :
    Parses (do return f (LittleEndian.decode (← Reading.take width))) fun a block =>
      Field width (toNat a) block := by
  apply ((take width).map fun block => f (LittleEndian.decode block)).congr
  intro a block
  constructor
  · rintro ⟨_, rfl, rfl, rfl⟩
    refine ⟨rfl, ?_⟩
    rw [hf _ (LittleEndian.decode_lt _), LittleEndian.decode_eq_ofDigits]
  · rintro ⟨hlength, hdigits⟩
    refine ⟨block, ?_, rfl, hlength⟩
    rw [LittleEndian.decode_eq_ofDigits, hdigits, hn]

lemma word : Parses Reading.word WordForm :=
  number (fun _ h => UInt64.toNat_ofNat_of_lt' h) fun _ => UInt64.ofNat_toNat

lemma halfWord : Parses Reading.halfWord fun w block => Field 4 w.toNat block :=
  number (fun _ h => UInt32.toNat_ofNat_of_lt' h) fun _ => UInt32.ofNat_toNat

lemma measurement : Parses Reading.measurement fun v block => WordForm v.toUInt64 block := by
  apply (word.map UInt64.toInt64).congr
  intro v block
  constructor
  · rintro ⟨w, rfl, hw⟩
    rwa [UInt64.toUInt64_toInt64]
  · intro hv
    exact ⟨v.toUInt64, v.toInt64_toUInt64.symm, hv⟩

lemma repeated (h : Parses step form) (count : Nat) :
    Parses (Reading.repeated step count) fun as block =>
      as.length = count ∧ Blocks form as block := by
  induction count with
  | zero =>
    apply (Parses.pure []).congr
    intro as block
    constructor
    · rintro ⟨rfl, rfl⟩
      exact ⟨rfl, .nil⟩
    · rintro ⟨hlength, hblocks⟩
      cases hblocks with
      | nil => exact ⟨rfl, rfl⟩
      | cons => cases hlength
  | succ count ih =>
    apply (h.bind fun a => ih.map (a :: ·)).congr
    intro as block
    constructor
    · rintro ⟨a, front, back, rfl, ha, as, rfl, rfl, hb⟩
      exact ⟨rfl, .cons ha hb⟩
    · rintro ⟨hlength, hblocks⟩
      cases hblocks with
      | nil => cases hlength
      | @cons a as front back ha hb =>
        exact ⟨a, front, back, rfl, ha, as, rfl, Nat.succ.inj hlength, hb⟩

lemma announced_eq {total : Nat} {rest : List UInt8} (hle : rest.length ≤ total)
    (expected : Reader → Nat) :
    Reading.announced step width count expected (.ahead total rest) =
      if rest.length / width < count then
        .error (.decode (.bufferTooShort (expected (.ahead total rest)) total))
      else Reading.repeated step count (.ahead total rest) := by
  change (Reading.remaining (.ahead total rest) >>= fun p =>
    (if p.1 / width < count then do
      let r ← get
      throw (.decode (.bufferTooShort (expected r) r.total))
    else Reading.repeated step count : Reading (List α)) p.2) = _
  rw [remaining_eq_ok hle, ok_bind]
  split <;> rfl

/-- Items that the payload has no room for are refused, and none that it has room for. -/
lemma announced (h : Parses step form) (hwidth : 0 < width)
    (hform : ∀ a block, form a block → width ≤ block.length) (count : Nat)
    (expected : Reader → Nat) :
    Parses (Reading.announced step width count expected) fun as block =>
      as.length = count ∧ Blocks form as block where
  sound := by
    intro total rest hle
    rw [announced_eq hle]
    split
    · exact .inr ⟨_, rfl⟩
    · exact (h.repeated count).sound total rest hle
  complete := by
    rintro total as block rest hle ⟨hcount, hblocks⟩
    have hroom : count ≤ (block ++ rest).length / width := by
      have hmin := hblocks.mul_length_le hform
      rw [Nat.le_div_iff_mul_le hwidth, List.length_append, Nat.mul_comm, ← hcount]
      exact Nat.le_add_right_of_le hmin
    rw [announced_eq hle, if_neg (Nat.not_lt.2 hroom)]
    exact (h.repeated count).complete total as block rest hle ⟨hcount, hblocks⟩

lemma samples (count : Nat) :
    Parses (Reading.samples count) fun ids block =>
      ids.length = count ∧ Blocks WordForm ids block :=
  word.announced (by decide) (fun _ _ h => h.length.ge) count _

lemma entry : Parses Reading.entry EntryForm := by
  apply (measurement.bind fun value => word.bind fun g => word.bind fun delta =>
    halfWord.bind fun count => (samples count.toNat).map (Entry.mk value g delta)).congr
  intro e block
  constructor
  · rintro ⟨v, value, _, rfl, hv, w, g, _, rfl, hg, d, delta, _, rfl, hd, c, count, samples, rfl,
      hc, ids, rfl, hlength, hids⟩
    rw [← hlength] at hc
    exact ⟨value, g, delta, count, samples, rfl, hv, hg, hd, hc, hids⟩
  · rintro ⟨value, g, delta, count, samples, rfl, hv, hg, hd, hc, hids⟩
    have hfits : (UInt32.ofNat e.samples.length).toNat = e.samples.length :=
      UInt32.toNat_ofNat_of_lt' (field_iff.1 hc).2
    exact ⟨e.value, value, _, rfl, hv, e.g, g, _, rfl, hg, e.delta, delta, _, rfl, hd,
      UInt32.ofNat e.samples.length, count, samples, rfl, by rwa [hfits],
      e.samples, rfl, hfits.symm, hids⟩

lemma entries (count : Nat) :
    Parses (Reading.entries count) fun es block =>
      es.length = count ∧ Blocks EntryForm es block := by
  apply entry.announced (by decide)
  intro e block h
  rw [(entryForm_iff.1 h).1, length_encodeEntry]
  exact Nat.le_add_right _ _

lemma header : Parses Reading.header fun _ block =>
    ∃ version, block = magic ++ version ∧ Field 4 1 version := by
  apply ((take magic.length).bind fun mark =>
    guard (c := mark = magic) (halfWord.bind fun found =>
      guard (c := found = version) (.pure ()) fun _ => rfl) fun _ => rfl).congr
  intro _ block
  constructor
  · rintro ⟨_, front, _, rfl, ⟨rfl, -⟩, rfl, found, back, _, rfl, hb, rfl, -, rfl⟩
    exact ⟨back, by rw [List.append_nil], hb⟩
  · rintro ⟨back, rfl, hb⟩
    exact ⟨magic, magic, back, rfl, ⟨rfl, rfl⟩, rfl, version, back, [],
      (List.append_nil back).symm, hb, rfl, rfl, rfl⟩

lemma snapshot : Parses Reading.snapshot Written := by
  apply (header.bind fun _ => word.bind fun n => word.bind fun count =>
    (entries count.toNat).map fun data => Snapshot.mk data n).congr
  intro s block
  constructor
  · rintro ⟨_, _, _, rfl, ⟨version, rfl, hversion⟩, n, front, _, rfl, hn, c, count, data, rfl, hc,
      es, rfl, hlength, hdata⟩
    rw [WordForm, ← hlength] at hc
    rw [List.append_assoc]
    exact ⟨version, front, count, data, rfl, hversion, hn, hc, hdata⟩
  · rintro ⟨version, front, count, data, rfl, hversion, hn, hc, hdata⟩
    have hfits : (UInt64.ofNat s.data.length).toNat = s.data.length :=
      UInt64.toNat_ofNat_of_lt' (field_iff.1 hc).2
    rw [← List.append_assoc]
    exact ⟨(), _, _, rfl, ⟨version, rfl, hversion⟩, s.n, front, _, rfl, hn,
      UInt64.ofNat s.data.length, count, data, rfl, by rwa [WordForm, hfits],
      s.data, rfl, hfits.symm, hdata⟩

end Parses

variable {bytes : List UInt8} {s : Snapshot}

lemma payload_eq {total : Nat} {rest : List UInt8} {r : Reader} (hle : rest.length ≤ total)
    (h : Reading.snapshot r = .ok (s, .ahead total rest)) :
    Reading.payload r =
      if rest.length = 0 then .ok (s, .ahead total rest)
      else .error (.decode (.corrupted (.trailingBytes rest.length))) := by
  change (Reading.snapshot r >>= fun p => Reading.remaining p.2 >>= fun q =>
    (if q.1 = 0 then return p.1
    else throw (.decode (.corrupted (.trailingBytes q.1))) : Reading Snapshot) q.2) = _
  rw [h, ok_bind, remaining_eq_ok hle, ok_bind]
  split <;> rfl

lemma decode_eq (h : headerLength ≤ bytes.length) :
    decode bytes = do return (← Reading.payload (.ahead bytes.length bytes)).1 := by
  rw [decode, if_neg (Nat.not_lt.2 h), Reader.ahead, Nat.sub_self]
  rfl

lemma headerLength_le_of_written (h : Written s bytes) : headerLength ≤ bytes.length := by
  rw [(written_iff.1 h).1, length_encode, Nat.add_assoc]
  exact Nat.le_add_right _ _

/-- Bytes behind the payload of a snapshot are refused for their number. -/
lemma decode_append (h : Written s bytes) (rest : List UInt8) :
    decode (bytes ++ rest) =
      if rest.length = 0 then .ok s
      else .error (.decode (.corrupted (.trailingBytes rest.length))) := by
  have hlength : (bytes ++ rest).length = bytes.length + rest.length := List.length_append
  have hheader : headerLength ≤ (bytes ++ rest).length :=
    (headerLength_le_of_written h).trans (hlength ▸ Nat.le_add_right _ _)
  have hs := Parses.snapshot.complete _ s bytes rest (Nat.le_refl _) h
  rw [decode_eq hheader, payload_eq (hlength ▸ Nat.le_add_left _ _) hs]
  split <;> rfl

theorem decode_of_written (h : Written s bytes) : decode bytes = .ok s := by
  have hend := decode_append h []
  rwa [List.append_nil] at hend

lemma decode_eq_error {e : Error} (h : headerLength ≤ bytes.length)
    (he : Reading.snapshot (.ahead bytes.length bytes) = .error e) : decode bytes = .error e := by
  rw [decode_eq h]
  change (Reading.snapshot (.ahead bytes.length bytes) >>= _) >>= _ = _
  rw [he]
  rfl

/-- A payload is shorter than a header, or goes on from the payload of a snapshot, or is refused for
the first step that refuses it. -/
lemma decode_cases (bytes : List UInt8) :
    bytes.length < headerLength ∨ (∃ s block rest, bytes = block ++ rest ∧ Written s block) ∨
      ∃ e, Reading.snapshot (.ahead bytes.length bytes) = .error (.decode e) ∧
        decode bytes = .error (.decode e) := by
  by_cases hlong : headerLength ≤ bytes.length
  · rcases Parses.snapshot.sound bytes.length bytes (Nat.le_refl _) with
      ⟨s, block, rest, hb, hw, -⟩ | ⟨e, he⟩
    · exact .inr (.inl ⟨s, block, rest, hb, hw⟩)
    · exact .inr (.inr ⟨e, he, decode_eq_error hlong he⟩)
  · exact .inl (Nat.not_le.1 hlong)

/-- What is read is the snapshot that the payload is of, and all else is refused. No payload makes
the reader fault. -/
theorem decode_sound (bytes : List UInt8) :
    (∃ s, Written s bytes ∧ decode bytes = .ok s) ∨ ∃ e, decode bytes = .error (.decode e) := by
  rcases decode_cases bytes with hshort | ⟨s, block, rest, rfl, hw⟩ | ⟨e, -, he⟩
  · exact .inr ⟨_, if_pos hshort⟩
  · have hread := decode_append hw rest
    split at hread
    · next hend =>
      rw [List.length_eq_zero_iff.1 hend, List.append_nil] at hread ⊢
      exact .inl ⟨s, hw, hread⟩
    · exact .inr ⟨_, hread⟩
  · exact .inr ⟨e, he⟩

/-- The reader accepts exactly the format. -/
theorem decode_eq_ok_iff : decode bytes = .ok s ↔ Written s bytes := by
  constructor
  · intro h
    rcases decode_sound bytes with ⟨s', hw, hs⟩ | ⟨e, he⟩
    · cases hs.symm.trans h
      exact hw
    · cases he.symm.trans h
  · exact decode_of_written

end Wire
end StreamQuantiles
