import StreamQuantiles.Proofs.Summary.Contents
import StreamQuantiles.Proofs.Wire.Truncation
import StreamQuantiles.Summary.Payload

/-! Summaries shipped as bytes. A payload is taken exactly when it is the payload of a consistent
snapshot, and the summary made of it is written as the same bytes. One that was cut is refused as
too short, and one that goes on is refused for what is behind it. -/
namespace StreamQuantiles
namespace Summary

variable {σ κ : Type} {s : Summary σ κ} {t : Snapshot} {a : Accuracy} {levels : σ} {coin : κ}
  {bytes : List UInt8}

/-- What a summary contains fills the buffer laid out for it. -/
lemma Contains.toBytes (h : s.Contains t) : s.toBytes = .ok (Wire.encode t) := by
  have htotal := Wire.length_encode t
  rw [← Wire.flatten_fields, List.sum_eq_foldl, Nat.mul_comm Wire.entryLength,
    Nat.mul_comm 8] at htotal
  obtain ⟨b, hput, -, hbytes⟩ := Wire.Buffer.exists_put htotal
  unfold Summary.toBytes
  rw [h.entries, ok_bind, h.count, h.size]
  simp only [hput, ok_bind, hbytes, Wire.flatten_fields]
  rfl

/-- What a summary contains can be read back if every number of samples fits its field. -/
lemma Contains.written_iff (h : s.Contains t) :
    Wire.Written t (Wire.encode t) ↔ ∀ e ∈ t.data, e.samples.length < 2 ^ 32 := by
  have hlength : t.data.length < 2 ^ 64 := h.length_le.trans_lt s.n.toNat_lt
  rw [Wire.written_iff]
  exact ⟨fun hw => hw.2.2, fun hs => ⟨rfl, hlength, hs⟩⟩

variable [LevelSource σ]

lemma ofBytes_of_written (h : Wire.Written t bytes) :
    ofBytes a levels coin bytes = ofSnapshot a levels coin t := by
  unfold ofBytes
  rw [Wire.decode_of_written h, ok_bind]

lemma ofBytes_of_decode_eq_error {e : Error} (h : Wire.decode bytes = .error e) :
    ofBytes a levels coin bytes = .error e := by
  unfold ofBytes
  rw [h]
  rfl

/-- The payload of a consistent snapshot makes a summary that contains it. -/
lemma exists_ofBytes (ha : a.valid) (levels : σ) (coin : κ) (hw : Wire.Written t bytes)
    (ht : t.Consistent) :
    ∃ s, ofBytes a levels coin bytes = .ok s ∧ s.Contains t ∧ s.accuracy = a := by
  rw [ofBytes_of_written hw]
  exact exists_ofSnapshot levels coin ha ht

/-- A payload is refused, or the summary made of it contains the snapshot that it is of. -/
lemma ofBytes_sound (ha : a.valid) (levels : σ) (coin : κ) (bytes : List UInt8) :
    (∃ s t, ofBytes a levels coin bytes = .ok s ∧ Wire.Written t bytes ∧ s.Contains t) ∨
      ∃ e, ofBytes a levels coin bytes = .error (.decode e) := by
  rcases Wire.decode_sound bytes with ⟨t, hw, -⟩ | ⟨e, he⟩
  · by_cases ht : t.Consistent
    · obtain ⟨s, hs, hc, -⟩ := exists_ofBytes ha levels coin hw ht
      exact .inl ⟨s, t, hs, hw, hc⟩
    · obtain ⟨c, hs⟩ := ofSnapshot_eq_error levels coin ha ht
      exact .inr ⟨_, (ofBytes_of_written hw).trans hs⟩
  · exact .inr ⟨e, ofBytes_of_decode_eq_error he⟩

lemma ofBytes_eq_ok (h : ofBytes a levels coin bytes = .ok s) :
    ∃ t, Wire.Written t bytes ∧ a.valid ∧ s.Contains t ∧ s.accuracy = a := by
  obtain ⟨t, hd, hs⟩ := exists_of_bind_eq_ok h
  exact ⟨t, Wire.decode_eq_ok_iff.1 hd, ofSnapshot_eq_ok hs⟩

/-- A summary made of the payload of another contains the same. -/
lemma Contains.of_resend {r : Summary σ κ} (h : s.Contains t)
    (hsamples : ∀ e ∈ t.data, e.samples.length < 2 ^ 32) (hb : s.toBytes = .ok bytes)
    (hr : ofBytes a levels coin bytes = .ok r) : r.Contains t := by
  cases h.toBytes.symm.trans hb
  obtain ⟨t', hw, -, hc, -⟩ := ofBytes_eq_ok hr
  have hread := Wire.decode_of_written (h.written_iff.2 hsamples)
  cases hread.symm.trans (Wire.decode_of_written hw)
  exact hc

/-- Bytes make a summary exactly when they are the payload of a consistent snapshot, and are refused
without a fault otherwise. The summary is written as the same bytes, whatever levels and coins it
was given, so no snapshot is made of two different payloads. -/
theorem ofBytes_canonical (ha : a.valid) (levels : σ) (coin : κ) (bytes : List UInt8) :
    ((∃ s, ofBytes a levels coin bytes = .ok s) ∨
      ∃ e, ofBytes a levels coin bytes = .error (.decode e)) ∧
    ((∃ s, ofBytes a levels coin bytes = .ok s) ↔ ∃ t, Wire.Written t bytes ∧ t.Consistent) ∧
    (∀ s, ofBytes a levels coin bytes = .ok s →
      s.toBytes = .ok bytes ∧ ∃ t, Wire.Written t bytes ∧ s.snapshot = .ok t) ∧
    ∀ (a' : Accuracy) (levels' : σ) (coin' : κ) (bytes' : List UInt8) s s',
      ofBytes a levels coin bytes = .ok s → ofBytes a' levels' coin' bytes' = .ok s' →
      s.snapshot = s'.snapshot → bytes = bytes' := by
  refine ⟨?_, ?_, ?_, ?_⟩
  · exact (ofBytes_sound ha levels coin bytes).imp_left fun ⟨s, _, hs, _⟩ => ⟨s, hs⟩
  · constructor
    · rintro ⟨s, hs⟩
      obtain ⟨t, hw, -, hc, -⟩ := ofBytes_eq_ok hs
      exact ⟨t, hw, hc.consistent⟩
    · rintro ⟨t, hw, ht⟩
      obtain ⟨s, hs, -⟩ := exists_ofBytes ha levels coin hw ht
      exact ⟨s, hs⟩
  · intro s hs
    obtain ⟨t, hw, -, hc, -⟩ := ofBytes_eq_ok hs
    refine ⟨?_, t, hw, hc.snapshot⟩
    rw [hc.toBytes, (Wire.written_iff.1 hw).1]
  · intro a' levels' coin' bytes' s s' hs hs' hsame
    obtain ⟨t, hw, -, hc, -⟩ := ofBytes_eq_ok hs
    obtain ⟨t', hw', -, hc', -⟩ := ofBytes_eq_ok hs'
    obtain rfl := hc'.eq_of_snapshot_eq hc hsame
    exact (Wire.written_iff.1 hw).1.trans (Wire.written_iff.1 hw').1.symm

/-- Two entries of one value, of which one stands behind a sample and one behind none. -/
theorem ofBytes_canonical_ties :
    ∃ s : Summary CyclicLevels CyclicBits,
      ofBytes ⟨0.25⟩ ⟨[40, 0], 0⟩ ⟨[true], 0⟩
        (Wire.encode ⟨[⟨-5, 1, 0, [9]⟩, ⟨-5, 2, 3, []⟩], 3⟩) = .ok s ∧
      s.toBytes = .ok (Wire.encode ⟨[⟨-5, 1, 0, [9]⟩, ⟨-5, 2, 3, []⟩], 3⟩) := by
  obtain ⟨-, haccepts, hkept, -⟩ := ofBytes_canonical (a := ⟨0.25⟩) (by decide +kernel)
    (⟨[40, 0], 0⟩ : CyclicLevels) (⟨[true], 0⟩ : CyclicBits)
    (Wire.encode ⟨[⟨-5, 1, 0, [9]⟩, ⟨-5, 2, 3, []⟩], 3⟩)
  obtain ⟨s, hs⟩ := haccepts.2 ⟨_, Wire.written_iff.2 ⟨rfl, by decide, by decide⟩, by decide⟩
  exact ⟨s, hs, (hkept s hs).1⟩

/-- Only the framing is refused for its length. -/
lemma decode_eq_of_ofBytes_eq_short {expected found : Nat}
    (h : ofBytes a levels coin bytes = .error (.decode (.bufferTooShort expected found))) :
    Wire.decode bytes = .error (.decode (.bufferTooShort expected found)) := by
  cases hd : Wire.decode bytes with
  | error e =>
    cases (ofBytes_of_decode_eq_error hd).symm.trans h
    rfl
  | ok t =>
    unfold ofBytes at h
    rw [hd, ok_bind] at h
    obtain ⟨c, hc⟩ := ofSnapshot_eq_decode_error h
    cases hc

/-- A payload that is taken is taken only as it is. Where it is cut it is found too short, and what
is expected then is no longer than the whole; and bytes behind it are refused for their number.
Whatever is found too short is shorter than what is expected. -/
theorem ofBytes_tells_length (a : Accuracy) (levels : σ) (coin : κ) (bytes : List UInt8) :
    (∀ s, ofBytes a levels coin bytes = .ok s →
      (bytes.length < 2 ^ 63 → ∀ p, p <+: bytes → p ≠ bytes → ∃ expected,
        ofBytes a levels coin p = .error (.decode (.bufferTooShort expected p.length)) ∧
        p.length < expected ∧ expected ≤ bytes.length) ∧
      ∀ more, more ≠ [] → ofBytes a levels coin (bytes ++ more) =
        .error (.decode (.corrupted (.trailingBytes more.length)))) ∧
    (bytes.length < 2 ^ 63 → ∀ expected found,
      ofBytes a levels coin bytes = .error (.decode (.bufferTooShort expected found)) →
      found = bytes.length ∧ found < expected) := by
  have hlongest : 2 ^ 63 < Wire.longest := by decide
  refine ⟨fun s hs => ⟨?_, ?_⟩, ?_⟩
  · rintro hlong p ⟨q, rfl⟩ hne
    obtain ⟨t, hd, -⟩ := exists_of_bind_eq_ok hs
    have hq : q ≠ [] := by
      rintro rfl
      exact hne (List.append_nil p).symm
    obtain ⟨expected, found, hshort⟩ := Wire.exists_bufferTooShort_of_cut hd hq
    have hlt : p.length < Wire.longest := by
      rw [List.length_append] at hlong
      omega
    obtain ⟨rfl, hexpected, hwhole⟩ := Wire.decode_short hlt hshort
    exact ⟨expected, ofBytes_of_decode_eq_error hshort, hexpected, hwhole q t hd⟩
  · intro more hmore
    obtain ⟨t, hw, -⟩ := ofBytes_eq_ok hs
    have htrailing := Wire.decode_append hw more
    rw [if_neg (by simpa using hmore)] at htrailing
    exact ofBytes_of_decode_eq_error htrailing
  · intro hlong expected found h
    obtain ⟨hfound, hlt, -⟩ :=
      Wire.decode_short (hlong.trans hlongest) (decode_eq_of_ofBytes_eq_short h)
    exact ⟨hfound, hlt⟩

/-- A payload of 88 bytes, cut between the two entries. -/
theorem ofBytes_tells_length_ties :
    ∃ expected, (ofBytes ⟨0.25⟩ ⟨[40, 0], 0⟩ ⟨[true], 0⟩
        ((Wire.encode ⟨[⟨-5, 1, 0, [9]⟩, ⟨-5, 2, 3, []⟩], 3⟩).take 60) :
          Except Error (Summary CyclicLevels CyclicBits)) =
        .error (.decode (.bufferTooShort expected 60)) ∧ 60 < expected ∧ expected ≤ 88 := by
  let t : Snapshot := ⟨[⟨-5, 1, 0, [9]⟩, ⟨-5, 2, 3, []⟩], 3⟩
  have hw : Wire.Written t (Wire.encode t) := Wire.written_iff.2 ⟨rfl, by decide, by decide⟩
  obtain ⟨s, hs, -⟩ := exists_ofBytes (a := ⟨0.25⟩) (by decide +kernel)
    (⟨[40, 0], 0⟩ : CyclicLevels) (⟨[true], 0⟩ : CyclicBits) hw (by decide)
  obtain ⟨htaken, -⟩ := ofBytes_tells_length ⟨0.25⟩ (⟨[40, 0], 0⟩ : CyclicLevels)
    (⟨[true], 0⟩ : CyclicBits) (Wire.encode t)
  exact (htaken s hs).1 (by decide) _ (List.take_prefix 60 _) (by decide)

end Summary
end StreamQuantiles
