import StreamQuantiles.Proofs.Summary.Alike
import StreamQuantiles.Proofs.Wire.Reading

/-! Payloads that differ in the IDs of samples at most. Their readers stay at the same place, and end
in the same refusal, or in snapshots that are the same but for the IDs. -/
namespace StreamQuantiles
namespace Wire

/-- What follows the header: entry after entry with the same value, `g`, `delta` and number of
samples, and as many bytes of IDs, up to where both go on the same or end within the IDs. -/
inductive TailAlike : List UInt8 → List UInt8 → Prop
  | same (bytes : List UInt8) : TailAlike bytes bytes
  | entry {v g d c ids ids' rest rest' : List UInt8} :
      v.length = 8 → g.length = 8 → d.length = 8 → c.length = 4 →
      ids.length = 8 * LittleEndian.decode c → ids'.length = ids.length → TailAlike rest rest' →
      TailAlike (v ++ (g ++ (d ++ (c ++ (ids ++ rest)))))
        (v ++ (g ++ (d ++ (c ++ (ids' ++ rest')))))
  | cut {v g d c ids ids' : List UInt8} :
      v.length = 8 → g.length = 8 → d.length = 8 → c.length = 4 →
      ids.length < 8 * LittleEndian.decode c → ids'.length = ids.length →
      TailAlike (v ++ (g ++ (d ++ (c ++ ids)))) (v ++ (g ++ (d ++ (c ++ ids'))))

/-- Payloads with the same header that differ in the IDs of samples at most. -/
inductive Alike : List UInt8 → List UInt8 → Prop
  | same (bytes : List UInt8) : Alike bytes bytes
  | entries {mark version n count rest rest' : List UInt8} :
      mark.length = 4 → version.length = 4 → n.length = 8 → count.length = 8 →
      TailAlike rest rest' →
      Alike (mark ++ (version ++ (n ++ (count ++ rest))))
        (mark ++ (version ++ (n ++ (count ++ rest'))))

lemma TailAlike.length_eq {rest rest' : List UInt8} (h : TailAlike rest rest') :
    rest.length = rest'.length := by
  induction h with
  | same => rfl
  | entry _ _ _ _ _ hids _ ih => simp only [List.length_append, hids, ih]
  | cut _ _ _ _ _ hids => simp only [List.length_append, hids]

/-- One block in front of what is related. -/
def Behind (block : List UInt8) (T : List UInt8 → List UInt8 → Prop) (rest rest' : List UInt8) :
    Prop :=
  ∃ t t', rest = block ++ t ∧ rest' = block ++ t' ∧ T t t'

/-- Two steps that read from the same place of payloads of one length end at the same place, or in
the same error. -/
def ReadsAlike {α β : Type} (before after : List UInt8 → List UInt8 → Prop) (R : α → β → Prop)
    (step : Reading α) (step' : Reading β) : Prop :=
  ∀ total rest rest', rest.length = rest'.length → rest.length ≤ total → before rest rest' →
    Agree (fun p p' => R p.1 p'.1 ∧ ∃ t t', p.2 = .ahead total t ∧ p'.2 = .ahead total t' ∧
      t.length = t'.length ∧ t.length ≤ total ∧ after t t')
      (step (.ahead total rest)) (step' (.ahead total rest'))

namespace ReadsAlike

variable {α β γ δ : Type} {before between after : List UInt8 → List UInt8 → Prop}
  {R : α → β → Prop} {S : γ → δ → Prop} {step : Reading α} {step' : Reading β}
  {next : α → Reading γ} {next' : β → Reading δ} {width : ℕ} {block : List UInt8}

protected lemma pure {a : α} {b : β} (h : R a b) : ReadsAlike after after R (pure a) (pure b) :=
  fun _ rest rest' hl hle ht => ⟨h, rest, rest', rfl, rfl, hl, hle, ht⟩

protected lemma bind (h : ReadsAlike before between R step step')
    (hn : ∀ a b, R a b → ReadsAlike between after S (next a) (next' b)) :
    ReadsAlike before after S (step >>= next) (step' >>= next') := by
  intro total rest rest' hl hle hb
  rw [Parses.bind_apply, Parses.bind_apply]
  refine (h total rest rest' hl hle hb).bind ?_
  rintro ⟨a, _⟩ ⟨b, _⟩ ⟨hr, t, t', rfl, rfl, hl', hle', ht⟩
  exact hn a b hr total t t' hl' hle' ht

/-- Steps whose results are only put together. -/
protected lemma map {f : α → γ} {f' : β → δ} (h : ReadsAlike before after R step step')
    (hf : ∀ a b, R a b → S (f a) (f' b)) :
    ReadsAlike before after S (do return f (← step)) (do return f' (← step')) :=
  h.bind fun a b hr => .pure (hf a b hr)

/-- A step that is only taken on a condition. -/
lemma guard {c : Prop} [Decidable c] {no : Reading α} {no' : Reading β} {e : Error}
    (h : ReadsAlike before after R step step') (hno : ∀ r, no r = .error e)
    (hno' : ∀ r, no' r = .error e) :
    ReadsAlike before after R (if c then step else no) (if c then step' else no') := by
  split
  · exact h
  · intro total rest rest' _ _ _
    rw [hno, hno']
    exact rfl

lemma take (hwidth : block.length = width) :
    ReadsAlike (Behind block after) after (fun a b => a = block ∧ b = block) (Reading.take width)
      (Reading.take width) := by
  rintro total _ _ hl hle ⟨t, t', rfl, rfl, ht⟩
  have hle' : (block ++ t').length ≤ total := hl ▸ hle
  rw [(Parses.take width).complete total block block t hle ⟨rfl, hwidth⟩,
    (Parses.take width).complete total block block t' hle' ⟨rfl, hwidth⟩]
  rw [List.length_append, List.length_append] at hl
  rw [List.length_append] at hle
  exact ⟨⟨rfl, rfl⟩, t, t', rfl, rfl, by omega, by omega, ht⟩

lemma word (hwidth : block.length = 8) :
    ReadsAlike (Behind block after) after Eq Reading.word Reading.word :=
  (take hwidth).map fun _ _ ⟨ha, hb⟩ => by rw [ha, hb]

lemma measurement (hwidth : block.length = 8) :
    ReadsAlike (Behind block after) after Eq Reading.measurement Reading.measurement :=
  (word hwidth).map fun _ _ h => by rw [h]

lemma halfWord (hwidth : block.length = 4) :
    ReadsAlike (Behind block after) after
      (fun a b => a = UInt32.ofNat (LittleEndian.decode block) ∧ b = a)
      Reading.halfWord Reading.halfWord :=
  (take hwidth).map fun _ _ ⟨ha, hb⟩ => ⟨by rw [ha], by rw [ha, hb]⟩

lemma repeated (h : ReadsAlike after after R step step') (count : ℕ) :
    ReadsAlike after after (List.Forall₂ R) (Reading.repeated step count)
      (Reading.repeated step' count) := by
  induction count with
  | zero => exact .pure .nil
  | succ count ih => exact h.bind fun a b hr => ih.map fun as bs hrs => .cons hr hrs

lemma announced {expected : Reader → ℕ} (h : ReadsAlike after after R step step')
    (width count : ℕ)
    (hexpected : ∀ total rest rest', rest.length = rest'.length →
      expected (.ahead total rest) = expected (.ahead total rest')) :
    ReadsAlike after after (List.Forall₂ R) (Reading.announced step width count expected)
      (Reading.announced step' width count expected) := by
  intro total rest rest' hl hle ht
  rw [Parses.announced_eq hle, Parses.announced_eq (hl ▸ hle), hexpected total rest rest' hl, hl]
  split
  · exact rfl
  · exact h.repeated count total rest rest' hl hle ht

/-- From the same place of the same payload. -/
lemma same {form : α → List UInt8 → Prop} {R : α → α → Prop} (h : Parses step form)
    (hafter : ∀ t, after t t) (hR : ∀ a, R a a) : ReadsAlike Eq after R step step := by
  rintro total rest _ - hle rfl
  rcases h.sound total rest hle with ⟨a, block, t, rfl, -, hs⟩ | ⟨e, he⟩
  · rw [hs]
    rw [List.length_append] at hle
    exact ⟨hR a, t, t, rfl, rfl, rfl, by omega, hafter t⟩
  · rw [he]
    exact rfl

end ReadsAlike

/-- So many bytes are so many IDs. -/
lemma exists_blocks_wordForm {count : ℕ} {bytes : List UInt8} (h : bytes.length = 8 * count) :
    ∃ ids : List SampleId, ids.length = count ∧ Blocks WordForm ids bytes := by
  induction count generalizing bytes with
  | zero =>
    rw [List.length_eq_zero_iff.1 h]
    exact ⟨[], rfl, .nil⟩
  | succ count ih =>
    have hrest : (bytes.drop 8).length = 8 * count := by
      rw [List.length_drop]
      omega
    obtain ⟨ids, hcount, hids⟩ := ih hrest
    have hwidth : (bytes.take 8).length = 8 := List.length_take_of_le (by omega)
    have hlt := LittleEndian.decode_lt (bytes.take 8)
    rw [hwidth] at hlt
    have hword : WordForm (UInt64.ofNat (LittleEndian.decode (bytes.take 8))) (bytes.take 8) := by
      refine ⟨hwidth, ?_⟩
      rw [UInt64.toNat_ofNat_of_lt' hlt, LittleEndian.decode_eq_ofDigits]
    rw [← List.take_append_drop 8 bytes]
    exact ⟨_ :: ids, congrArg (· + 1) hcount, .cons hword hids⟩

/-- As many bytes of IDs in front of what is alike, or no room for them. -/
def IdsAlike (count : ℕ) (rest rest' : List UInt8) : Prop :=
  rest.length < 8 * count ∨
    ∃ ids ids' t t', ids.length = 8 * count ∧ ids'.length = 8 * count ∧ rest = ids ++ t ∧
      rest' = ids' ++ t' ∧ TailAlike t t'

namespace ReadsAlike

variable {after : List UInt8 → List UInt8 → Prop}

lemma samples (count : ℕ) :
    ReadsAlike (IdsAlike count) TailAlike (fun _ _ => True) (Reading.samples count)
      (Reading.samples count) := by
  rintro total rest rest' hl hle (hshort | ⟨ids, ids', t, t', hids, hids', rfl, rfl, ht⟩)
  · have hroom : rest.length / 8 < count := by omega
    unfold Reading.samples
    rw [Parses.announced_eq hle, Parses.announced_eq (hl ▸ hle), if_pos hroom,
      if_pos (hl ▸ hroom)]
    simp only [Reader.ahead, hl]
    exact rfl
  · have hle' : (ids' ++ t').length ≤ total := hl ▸ hle
    obtain ⟨ws, hws, hblocks⟩ := exists_blocks_wordForm hids
    obtain ⟨ws', hws', hblocks'⟩ := exists_blocks_wordForm hids'
    rw [(Parses.samples count).complete total ws ids t hle ⟨hws, hblocks⟩,
      (Parses.samples count).complete total ws' ids' t' hle' ⟨hws', hblocks'⟩]
    rw [List.length_append, List.length_append] at hl
    rw [List.length_append] at hle
    exact ⟨trivial, t, t', rfl, rfl, by omega, by omega, ht⟩

/-- An entry behind its fields. -/
lemma fields {v g d c : List UInt8} (hv : v.length = 8) (hg : g.length = 8) (hd : d.length = 8)
    (hc : c.length = 4) :
    ReadsAlike (Behind v (Behind g (Behind d (Behind c (IdsAlike (LittleEndian.decode c))))))
      TailAlike (Entry.Alike fun _ _ => True) Reading.entry Reading.entry := by
  have hlt := LittleEndian.decode_lt c
  rw [hc] at hlt
  have hcount : (UInt32.ofNat (LittleEndian.decode c)).toNat = LittleEndian.decode c :=
    UInt32.toNat_ofNat_of_lt' hlt
  refine (measurement hv).bind ?_
  rintro value _ rfl
  refine (word hg).bind ?_
  rintro weight _ rfl
  refine (word hd).bind ?_
  rintro delta _ rfl
  refine (halfWord hc).bind ?_
  rintro _ _ ⟨rfl, rfl⟩
  rw [hcount]
  exact (samples _).map fun _ _ _ => ⟨rfl, rfl, rfl, trivial⟩

lemma entry :
    ReadsAlike TailAlike TailAlike (Entry.Alike fun _ _ => True) Reading.entry Reading.entry := by
  intro total rest rest' hl hle h
  cases h with
  | same => exact same Parses.entry .same (.refl fun _ => trivial) total rest rest hl hle rfl
  | entry hv hg hd hc hids hids' ht =>
    exact fields hv hg hd hc total _ _ hl hle ⟨_, _, rfl, rfl, _, _, rfl, rfl, _, _, rfl, rfl, _, _,
      rfl, rfl, .inr ⟨_, _, _, _, hids, hids'.trans hids, rfl, rfl, ht⟩⟩
  | cut hv hg hd hc hids hids' =>
    exact fields hv hg hd hc total _ _ hl hle ⟨_, _, rfl, rfl, _, _, rfl, rfl, _, _, rfl, rfl, _, _,
      rfl, rfl, .inl hids⟩

lemma entries (count : ℕ) :
    ReadsAlike TailAlike TailAlike (EachAlike fun _ _ => True) (Reading.entries count)
      (Reading.entries count) :=
  entry.announced entryLength count fun _ _ _ _ => rfl

lemma header {mark version : List UInt8} (hmark : mark.length = magic.length)
    (hversion : version.length = 4) :
    ReadsAlike (Behind mark (Behind version after)) after (fun _ _ => True) Reading.header
      Reading.header := by
  refine (take hmark).bind ?_
  rintro mark _ ⟨rfl, rfl⟩
  refine guard ?_ (fun _ => rfl) fun _ => rfl
  refine (halfWord hversion).bind ?_
  rintro found _ ⟨-, rfl⟩
  exact guard (.pure trivial) (fun _ => rfl) fun _ => rfl

lemma snapshot {mark version n count : List UInt8} (hmark : mark.length = magic.length)
    (hversion : version.length = 4) (hn : n.length = 8) (hcount : count.length = 8) :
    ReadsAlike (Behind mark (Behind version (Behind n (Behind count TailAlike)))) TailAlike
      (Snapshot.Alike fun _ _ => True) Reading.snapshot Reading.snapshot := by
  refine (header hmark hversion).bind fun _ _ _ => (word hn).bind ?_
  rintro n _ rfl
  refine (word hcount).bind ?_
  rintro count _ rfl
  exact (entries _).map fun _ _ h => ⟨h, rfl⟩

lemma payload {before : List UInt8 → List UInt8 → Prop}
    (h : ReadsAlike before TailAlike (Snapshot.Alike fun _ _ => True) Reading.snapshot
      Reading.snapshot) :
    ReadsAlike before TailAlike (Snapshot.Alike fun _ _ => True) Reading.payload
      Reading.payload := by
  refine h.bind fun s s' hs => ?_
  intro total rest rest' hl hle ht
  rw [Parses.bind_apply, Parses.bind_apply, remaining_eq_ok hle, remaining_eq_ok (hl ▸ hle), hl,
    ok_bind, ok_bind]
  exact (guard (.pure hs) (fun _ => rfl) fun _ => rfl) total rest rest' hl hle ht

end ReadsAlike

/-- Payloads that differ in the IDs of samples at most are refused for the same reason, or are of
snapshots that are the same but for samples. -/
theorem decode_alike {bytes bytes' : List UInt8} (h : Alike bytes bytes') :
    Agree (Snapshot.Alike fun _ _ => True) (decode bytes) (decode bytes') := by
  cases h with
  | same =>
    exact .refl (fun t => ⟨.refl (fun _ => trivial) t.data, rfl⟩) _
  | @entries mark version n count rest rest' hmark hversion hn hcount ht =>
    have hl : (mark ++ (version ++ (n ++ (count ++ rest)))).length =
        (mark ++ (version ++ (n ++ (count ++ rest')))).length := by
      simp only [List.length_append, ht.length_eq]
    have hlong : headerLength ≤ (mark ++ (version ++ (n ++ (count ++ rest)))).length := by
      simp only [List.length_append, hmark, hversion, hn, hcount, headerLength]
      omega
    rw [decode_eq hlong, decode_eq (hl ▸ hlong), ← hl]
    have hpayload := (ReadsAlike.snapshot hmark hversion hn hcount).payload
    refine (hpayload _ _ _ hl (Nat.le_refl _) ?_).bind fun _ _ h => h.1
    exact ⟨_, _, rfl, rfl, _, _, rfl, rfl, _, _, rfl, rfl, _, _, rfl, rfl, ht⟩

/-- The entries of two snapshots, with as many samples each. -/
lemma tailAlike_of_eachAlike {es es' : List Entry}
    (h : EachAlike (fun ids ids' => ids.length = ids'.length) es es')
    (hfits : ∀ e ∈ es, e.samples.length < 2 ^ 32) :
    TailAlike (es.flatMap encodeEntry) (es'.flatMap encodeEntry) := by
  induction h with
  | nil => exact .same []
  | @cons e e' es es' he _ ih =>
    obtain ⟨hlt, hrest⟩ := List.forall_mem_cons.1 hfits
    have hdecode : LittleEndian.decode (LittleEndian.encode 4 e.samples.length) =
        e.samples.length := by
      rw [LittleEndian.decode_encode]
      exact Nat.mod_eq_of_lt hlt
    rw [List.flatMap_cons, List.flatMap_cons, encodeEntry_eq, encodeEntry_eq, ← he.value, ← he.g,
      ← he.delta, ← he.samples]
    simp only [List.append_assoc]
    refine .entry (length_encodeMeasurement _) (length_encodeWord _) (length_encodeWord _)
      (LittleEndian.length_encode _ _) ?_ ?_ (ih hrest)
    · rw [hdecode, length_flatMap_encodeWord]
    · rw [length_flatMap_encodeWord, length_flatMap_encodeWord, he.samples]

/-- Snapshots that are the same but for the IDs of samples have payloads that are. -/
theorem alike_encode {t t' : Snapshot}
    (h : t.Alike (fun ids ids' => ids.length = ids'.length) t')
    (hfits : ∀ e ∈ t.data, e.samples.length < 2 ^ 32) : Alike (encode t) (encode t') := by
  rw [encode_eq, encode_eq, ← h.n, ← h.data.length_eq]
  exact .entries rfl (LittleEndian.length_encode _ _) (length_encodeWord _)
    (LittleEndian.length_encode _ _) (tailAlike_of_eachAlike h.data hfits)

end Wire
end StreamQuantiles
