import StreamQuantiles.Proofs.Summary.Payload
import StreamQuantiles.Proofs.Summary.Traces

/-! Summaries together with the log of what they took in. Whatever recordings, compressions and
merges keep of a log and the entries for it holds of every summary that they lead to, round trips on
the way among them. -/
namespace StreamQuantiles

open Entries

/-- How a summary came about: from empty ones, by calls and merges, and by being made anew of what
another hands out. -/
inductive Lineage (σ κ : Type) where
  | fresh (a : Accuracy) (store : Skiplist Entry σ) (coin : κ)
  | call (before : Lineage σ κ) (op : Op)
  | merge (before partner : Lineage σ κ)
  /-- By way of a snapshot. -/
  | reload (before : Lineage σ κ) (a : Accuracy) (levels : σ) (coin : κ)
  /-- By way of a payload. -/
  | resend (before : Lineage σ κ) (a : Accuracy) (levels : σ) (coin : κ)

/-- The log after a call. A measurement that is added has the number of those before it for an
ID. -/
def Op.record (log : List Observation) : Op → List Observation
  | insert value id => log ++ [(value, id)]
  | update observation => log ++ [observation]
  | add value => log ++ [(value, UInt64.ofNat log.length)]
  | compress => log
  | clear => []

/-- A call that chooses no ID. -/
def Op.Numbers : Op → Prop
  | insert _ _ | update _ => False
  | add _ | compress | clear => True

namespace Lineage

variable {σ κ : Type}

/-- What was taken in since the last clearing. -/
def log : Lineage σ κ → List Observation
  | fresh _ _ _ => []
  | call before op => op.record before.log
  | merge before partner => before.log ++ partner.log
  | reload before _ _ _ | resend before _ _ _ => before.log

/-- The measurements represented. -/
def values (lineage : Lineage σ κ) : Multiset Measurement := lineage.log.map Prod.fst

/-- Nothing was merged, and no ID chosen. -/
def Numbers : Lineage σ κ → Prop
  | fresh _ _ _ => True
  | call before op => before.Numbers ∧ op.Numbers
  | merge _ _ => False
  | reload before _ _ _ | resend before _ _ _ => before.Numbers

/-- All summaries work to one accuracy, and every count on the way fits a word. -/
def Fits (a : Accuracy) : Lineage σ κ → Prop
  | fresh b _ _ => b = a
  | call before op => before.Fits a ∧ (op.record before.log).length < 2 ^ 64
  | merge before partner =>
    before.Fits a ∧ partner.Fits a ∧ (before.log ++ partner.log).length < 2 ^ 64
  | reload before b _ _ | resend before b _ _ => before.Fits a ∧ b = a

/-- Every summary on the way works to an accuracy of `p`. -/
def WorksTo (p : Accuracy → Prop) : Lineage σ κ → Prop
  | fresh a _ _ => p a
  | call before _ => before.WorksTo p
  | merge before partner => before.WorksTo p ∧ partner.WorksTo p
  | reload before a _ _ | resend before a _ _ => before.WorksTo p ∧ p a

lemma worksTo_true (lineage : Lineage σ κ) : lineage.WorksTo fun _ => True := by
  induction lineage with
  | fresh => trivial
  | call _ _ ih => exact ih
  | merge _ _ ih ih' => exact ⟨ih, ih'⟩
  | reload _ _ _ _ ih | resend _ _ _ _ ih => exact ⟨ih, trivial⟩

lemma Fits.worksTo {a : Accuracy} {lineage : Lineage σ κ} (h : lineage.Fits a) :
    lineage.WorksTo (· = a) := by
  induction lineage with
  | fresh => exact h
  | call _ _ ih => exact ih h.1
  | merge _ _ ih ih' => exact ⟨ih h.1, ih' h.2.1⟩
  | reload _ _ _ _ ih | resend _ _ _ _ ih => exact ⟨ih h.1, h.2⟩

/-- A call gathers the measurements of what it puts into the log. -/
lemma values_call (before : Lineage σ κ) (op : Op) :
    (call before op).values = op.gather before.values := by
  cases op <;> simp [values, log, Op.record, Op.gather, ← Multiset.coe_add, Multiset.add_comm]

lemma values_merge (before partner : Lineage σ κ) :
    (merge before partner).values = before.values + partner.values := by
  simp [values, log]

lemma card_values (lineage : Lineage σ κ) : lineage.values.card = lineage.log.length := by
  simp [values]

lemma mem_values {lineage : Lineage σ κ} {v : Measurement} :
    v ∈ lineage.values ↔ ∃ o ∈ lineage.log, o.1 = v :=
  Multiset.mem_coe.trans List.mem_map

lemma forall_values {lineage : Lineage σ κ} {P : Measurement → Prop} :
    (∀ v ∈ lineage.values, P v) ↔ ∀ o ∈ lineage.log, P o.1 := by
  simp only [mem_values, forall_exists_index, and_imp, forall_apply_eq_imp_iff₂]

/-- Numbers as IDs are those of the places. -/
lemma ids_of_numbers {lineage : Lineage σ κ} (h : lineage.Numbers) :
    lineage.log.map Prod.snd = (List.range lineage.log.length).map UInt64.ofNat := by
  induction lineage with
  | fresh => rfl
  | call before op ih =>
    obtain ⟨hbefore, hop⟩ := h
    have ih := ih hbefore
    cases op with
    | insert | update => cases hop
    | add value =>
      simp only [log, Op.record, List.map_append, List.length_append, List.length_singleton,
        List.range_succ, ih, List.map_singleton]
    | compress => exact ih
    | clear => rfl
  | merge => cases h
  | reload before _ _ _ ih | resend before _ _ _ ih => exact ih h

lemma nodup_ids {lineage : Lineage σ κ} (h : lineage.Numbers)
    (hfits : lineage.log.length < 2 ^ 64) : (lineage.log.map Prod.snd).Nodup := by
  rw [ids_of_numbers h]
  refine List.Nodup.map_on (fun p hp q hq heq => ?_) List.nodup_range
  rw [List.mem_range] at hp hq
  have hnat := congrArg UInt64.toNat heq
  rwa [UInt64.toNat_ofNat_of_lt' (hp.trans hfits),
    UInt64.toNat_ofNat_of_lt' (hq.trans hfits)] at hnat

variable [LevelSource σ] [Coin κ]

def summary : Lineage σ κ → Except Error (Summary σ κ)
  | fresh a store coin => Summary.ofStore a store coin
  | call before op => do (← before.summary).apply op
  | merge before partner => do (← before.summary).merge (← partner.summary)
  | reload before a levels coin => do
    Summary.ofSnapshot a levels coin (← (← before.summary).snapshot)
  | resend before a levels coin => do
    Summary.ofBytes a levels coin (← (← before.summary).toBytes)

end Lineage

/-- What recordings, compressions and merges keep of a log and the entries for it, as long as
compressions have the budget that an accuracy of `p` allows to the observations of the log. -/
structure TrackedUnder (κ : Type) [Coin κ] (p : Accuracy → Prop)
    (P : List Observation → List Entry → Prop) : Prop where
  nil : P [] []
  recorded : ∀ {log es}, Sorted es → P log es →
    ∀ v id delta, P (log ++ [(v, id)]) (recorded v id delta es)
  compressed : ∀ {log es}, Sorted es → P log es → ∀ {a : Accuracy} {n : Count}, p a →
    n.toNat = log.length → ∀ coin : κ, P log (compressed (a.budget n) es coin).1
  merged : ∀ {log more es es'}, P log es → P more es' → P (log ++ more) (merged es es')
  /-- The number of samples fits its field. -/
  writable : ∀ {log es}, P log es → ∀ e ∈ es, e.samples.length < 2 ^ 32

/-- What is kept whatever the accuracy. -/
abbrev Tracked (κ : Type) [Coin κ] (P : List Observation → List Entry → Prop) : Prop :=
  TrackedUnder κ (fun _ => True) P

variable {σ κ : Type} [LevelSource σ] [Coin κ] {p : Accuracy → Prop}
  {P : List Observation → List Entry → Prop}

theorem tracked_traced (κ : Type) [Coin κ] : Tracked κ Traced where
  nil := traced_nil
  recorded := fun _ h => h.recorded
  compressed := fun hs h _ _ _ hn => h.compressed hs (hn ▸ UInt64.toNat_lt _) _
  merged := Traced.merged
  writable := by
    intro log es h e he
    obtain ⟨places, hb⟩ := h.backed he
    obtain ⟨-, -, o, -, hsamples⟩ := hb.sampled
    rw [hsamples, List.length_singleton]
    decide

lemma TrackedUnder.inserted {log : List Observation} {es : List Entry} {a : Accuracy} {n : Count}
    (hP : TrackedUnder κ p P) (hs : Sorted es) (h : P log es) (ha : p a)
    (hn : n.toNat = log.length + 1) (due : Bool) (v : Measurement) (id : SampleId) (coin : κ) :
    P (log ++ [(v, id)]) (inserted a n due v id es coin).1 := by
  have hrec := hP.recorded hs h v id
  unfold Entries.inserted
  split
  · exact hP.compressed (Sorted.recorded hs v id _) (hrec _) ha (by simpa using hn) coin
  · exact hrec _

namespace Summary

variable {s s' other : Summary σ κ} {log more : List Observation}

/-- The summary counts the observations of the log, and contains entries of which `P` holds. -/
def Tracks (P : List Observation → List Entry → Prop) (s : Summary σ κ) (log : List Observation) :
    Prop :=
  ∃ t, s.Contains t ∧ s.n.toNat = log.length ∧ P log t.data

lemma Tracks.insert (hP : TrackedUnder κ p P) (ha : p s.accuracy) (h : s.Tracks P log)
    {v : Measurement} {id : SampleId} (hs : s.insert v id = .ok s') :
    p s'.accuracy ∧ s'.Tracks P (log ++ [(v, id)]) := by
  obtain ⟨t, hc, hn, hp⟩ := h
  obtain ⟨hfits, hb⟩ := hc.of_insert hs
  have hn' : (s.n + 1).toNat = log.length + 1 := by
    rw [Count.toNat_add_of_lt hfits, hn]
    rfl
  refine ⟨hb.accuracy ▸ ha, _, hb.contains, ?_,
    hP.inserted hc.consistent.ascending hp ha hn' _ _ _ _⟩
  rw [hb.contains.count, hn', List.length_append, List.length_singleton]

lemma Tracks.apply (hP : TrackedUnder κ p P) (ha : p s.accuracy) (h : s.Tracks P log) {op : Op}
    (hs : s.apply op = .ok s') : p s'.accuracy ∧ s'.Tracks P (op.record log) := by
  cases op with
  | insert value id => exact h.insert hP ha hs
  | update observation => exact h.insert hP ha hs
  | add value =>
    have hid : UInt64.ofNat log.length = s.n := by
      obtain ⟨-, -, hn, -⟩ := h
      rw [← hn, UInt64.ofNat_toNat]
    change p s'.accuracy ∧ s'.Tracks P (log ++ [(value, UInt64.ofNat log.length)])
    rw [hid]
    exact h.insert hP ha hs
  | compress =>
    obtain ⟨t, hc, hn, hp⟩ := h
    have hb := hc.of_compress hs
    refine ⟨hb.accuracy ▸ ha, _, hb.contains, ?_,
      hP.compressed hc.consistent.ascending hp ha hn s.coin⟩
    rw [hb.contains.count]
    exact hc.count ▸ hn
  | clear =>
    cases hs
    exact ⟨ha, _, contains_clear s, rfl, hP.nil⟩

lemma Tracks.merge (hP : TrackedUnder κ p P) (ha : p s.accuracy) (h : s.Tracks P log)
    (ho : other.Tracks P more) (hs : s.merge other = .ok s') :
    p s'.accuracy ∧ s'.Tracks P (log ++ more) := by
  obtain ⟨t, hc, hn, hp⟩ := id h
  obtain ⟨u, hc', hn', hp'⟩ := ho
  rcases hc.of_merge hc' hs with ⟨hzero, rfl⟩ | ⟨hfits, hb⟩
  · rw [hzero] at hn'
    rw [List.length_eq_zero_iff.1 hn'.symm, List.append_nil]
    exact ⟨ha, h⟩
  · have hlength : (s.n + other.n).toNat = (log ++ more).length := by
      rw [Count.toNat_add_of_lt hfits, hn, hn', List.length_append]
    refine ⟨hb.accuracy ▸ ha, _, hb.contains, by rw [hb.contains.count, hlength], ?_⟩
    exact hP.compressed (Sorted.merged hc.consistent.ascending hc'.consistent.ascending)
      (hP.merged hp hp') ha hlength s.coin

end Summary

namespace Lineage

open Summary

/-- What is tracked under the accuracies on the way holds of every summary, for the log of its
lineage. -/
theorem tracks_under {lineage : Lineage σ κ} {s : Summary σ κ} (hP : TrackedUnder κ p P)
    (hw : lineage.WorksTo p) (h : lineage.summary = .ok s) :
    p s.accuracy ∧ s.Tracks P lineage.log := by
  induction lineage generalizing s with
  | fresh a store coin =>
    obtain ⟨-, hc, rfl⟩ := ofStore_eq_ok (liftM_eq_ok h)
    exact ⟨hw, _, hc, congrArg UInt64.toNat hc.count, hP.nil⟩
  | call before op ih =>
    obtain ⟨s₀, hs₀, hs⟩ := exists_of_bind_eq_ok (x := before.summary) h
    obtain ⟨ha, hk⟩ := ih hw hs₀
    exact hk.apply hP ha (liftM_eq_ok hs)
  | merge before partner ih ih' =>
    obtain ⟨s₀, hs₀, hrest⟩ := exists_of_bind_eq_ok (x := before.summary) h
    obtain ⟨s₁, hs₁, hs⟩ := exists_of_bind_eq_ok (x := partner.summary) hrest
    obtain ⟨ha, hk⟩ := ih hw.1 hs₀
    exact hk.merge hP ha (ih' hw.2 hs₁).2 hs
  | reload before a levels coin ih =>
    obtain ⟨s₀, hs₀, hrest⟩ := exists_of_bind_eq_ok (x := before.summary) h
    obtain ⟨t', ht', hs⟩ := exists_of_bind_eq_ok hrest
    obtain ⟨-, t, hc, hn, hp⟩ := ih hw.1 hs₀
    obtain ⟨hc', rfl⟩ := hc.of_reload (liftM_eq_ok ht') hs
    exact ⟨hw.2, t, hc', by rw [hc'.count, ← hc.count, hn]; rfl, hp⟩
  | resend before a levels coin ih =>
    obtain ⟨s₀, hs₀, hrest⟩ := exists_of_bind_eq_ok (x := before.summary) h
    obtain ⟨bytes, hb, hs⟩ := exists_of_bind_eq_ok hrest
    obtain ⟨-, t, hc, hn, hp⟩ := ih hw.1 hs₀
    obtain ⟨-, -, -, -, rfl⟩ := ofBytes_eq_ok hs
    have hc' := hc.of_resend (hP.writable hp) (liftM_eq_ok hb) hs
    exact ⟨hw.2, t, hc', by rw [hc'.count, ← hc.count, hn]; rfl, hp⟩

theorem tracks {lineage : Lineage σ κ} {s : Summary σ κ} (hP : Tracked κ P)
    (h : lineage.summary = .ok s) : s.Tracks P lineage.log :=
  (tracks_under hP lineage.worksTo_true h).2

/-- A lineage answers, as long as every count on the way fits a word. -/
theorem exists_summary {a : Accuracy} (ha : a.valid) {lineage : Lineage σ κ}
    (hfits : lineage.Fits a) : ∃ s, lineage.summary = .ok s ∧ s.accuracy = a := by
  induction lineage with
  | fresh b store coin =>
    obtain rfl : b = a := hfits
    obtain ⟨s, hs, -, he⟩ := exists_ofStore ha store coin
    exact ⟨s, by rw [summary, hs, liftM_ok], he⟩
  | call before op ih =>
    obtain ⟨hbefore, hlog⟩ := hfits
    obtain ⟨s, hs, rfl⟩ := ih hbefore
    obtain ⟨t, hc, hn, -⟩ := tracks (tracked_traced κ) hs
    have hadded : s.n.toNat + op.added < 2 ^ 64 := by
      cases op with
      | insert | update | add =>
        rw [Op.record, List.length_append] at hlog
        rwa [hn]
      | compress | clear => exact s.n.toNat_lt
    obtain ⟨s', -, hs', -, he⟩ := hc.exists_apply op hadded
    exact ⟨s', by rw [summary, hs, ok_bind, hs', liftM_ok], he⟩
  | merge before partner ih ih' =>
    obtain ⟨hbefore, hpartner, hlog⟩ := hfits
    obtain ⟨s, hs, rfl⟩ := ih hbefore
    obtain ⟨s', hs', he⟩ := ih' hpartner
    obtain ⟨t, hc, hn, -⟩ := tracks (tracked_traced κ) hs
    obtain ⟨t', hc', hn', -⟩ := tracks (tracked_traced κ) hs'
    rw [List.length_append, ← hn, ← hn'] at hlog
    suffices hmerge : ∃ r, s.merge s' = .ok r ∧ r.accuracy = s.accuracy by
      obtain ⟨r, hr, her⟩ := hmerge
      exact ⟨r, by rw [summary, hs, ok_bind, hs', ok_bind, hr], her⟩
    by_cases hempty : s'.isEmpty
    · exact ⟨s, merge_empty hempty, rfl⟩
    · obtain ⟨r, hr, hb⟩ := hc.exists_merge hc' hempty (Accuracy.compatible_of_eq ha he) hlog
      exact ⟨r, hr, hb.accuracy⟩
  | reload before b levels coin ih =>
    obtain ⟨hbefore, rfl⟩ := hfits
    obtain ⟨s, hs, -⟩ := ih hbefore
    obtain ⟨t, hc, -⟩ := tracks (tracked_traced κ) hs
    obtain ⟨r, hr, -, her⟩ := exists_ofSnapshot levels coin ha hc.consistent
    exact ⟨r, by rw [summary, hs, ok_bind, hc.snapshot, liftM_ok, ok_bind, hr], her⟩
  | resend before b levels coin ih =>
    obtain ⟨hbefore, rfl⟩ := hfits
    obtain ⟨s, hs, -⟩ := ih hbefore
    obtain ⟨t, hc, -, htraced⟩ := tracks (tracked_traced κ) hs
    have hw := hc.written_iff.2 ((tracked_traced κ).writable htraced)
    obtain ⟨r, hr, -, her⟩ := exists_ofBytes ha levels coin hw hc.consistent
    exact ⟨r, by rw [summary, hs, ok_bind, hc.toBytes, liftM_ok, ok_bind, hr], her⟩

/-- The count of a summary is that of its log, so the log is no longer than a word can count. -/
lemma length_log_lt {lineage : Lineage σ κ} {s : Summary σ κ} (h : lineage.summary = .ok s) :
    lineage.log.length < 2 ^ 64 := by
  obtain ⟨-, -, hn, -⟩ := tracks (tracked_traced κ) h
  exact hn ▸ s.n.toNat_lt

/-- Where all summaries work to one accuracy, a lineage answers exactly when every count on the way
fits a word. -/
theorem exists_summary_iff {a : Accuracy} (ha : a.valid) {lineage : Lineage σ κ}
    (hw : lineage.WorksTo (· = a)) : (∃ s, lineage.summary = .ok s) ↔ lineage.Fits a := by
  constructor
  · rintro ⟨s, h⟩
    induction lineage generalizing s with
    | fresh => exact hw
    | call before op ih =>
      obtain ⟨s₀, hs₀, -⟩ := exists_of_bind_eq_ok (x := before.summary) h
      exact ⟨ih hw s₀ hs₀, length_log_lt h⟩
    | merge before partner ih ih' =>
      obtain ⟨s₀, hs₀, hrest⟩ := exists_of_bind_eq_ok (x := before.summary) h
      obtain ⟨s₁, hs₁, -⟩ := exists_of_bind_eq_ok (x := partner.summary) hrest
      exact ⟨ih hw.1 s₀ hs₀, ih' hw.2 s₁ hs₁, length_log_lt h⟩
    | reload before _ _ _ ih | resend before _ _ _ ih =>
      obtain ⟨s₀, hs₀, -⟩ := exists_of_bind_eq_ok (x := before.summary) h
      exact ⟨ih hw.1 s₀ hs₀, hw.2⟩
  · intro hfits
    obtain ⟨s, hs, -⟩ := exists_summary ha hfits
    exact ⟨s, hs⟩

/-- How entries account for the observations of a log. -/
structure AccountsFor (log : List Observation) (es : List Entry) : Prop where
  /-- Each place of the log belongs to one entry, which weighs as much as there are places of it,
  has the largest measurement there for its value, and keeps the ID of one of them. -/
  owner : ∃ owner : ℕ → ℕ, (∀ p < log.length, owner p < es.length) ∧
    ∀ i e, es[i]? = some e →
      Entry.BackedBy log e ((List.range log.length).filter (owner · = i))
  /-- No two entries keep the ID of one observation. -/
  sources : ∃ sources : List ℕ, sources.Nodup ∧ List.Forall₂ (SampledAt log) es sources
  /-- An entry at the minimum keeps an ID recorded with it. -/
  least : ∀ e ∈ es, (∀ o ∈ log, e.value ≤ o.1) → ∃ o ∈ log, o.1 = e.value ∧ e.samples = [o.2]

/-- The entries of a summary account for its observations, and IDs that the summary chose itself are
kept once. -/
theorem traceable {lineage : Lineage σ κ} {s : Summary σ κ} (h : lineage.summary = .ok s) :
    ∃ es, s.entries = .ok es ∧ s.n.toNat = lineage.log.length ∧ AccountsFor lineage.log es ∧
      (lineage.Numbers → (es.flatMap Entry.samples).Nodup) := by
  obtain ⟨t, hc, hn, htraced⟩ := tracks (tracked_traced κ) h
  have haccounts : AccountsFor lineage.log t.data :=
    ⟨htraced.exists_owner, htraced.exists_sources, fun e he => htraced.sampled_of_least he⟩
  refine ⟨t.data, hc.entries, hn, haccounts, fun hnumbers => htraced.nodup_samples ?_⟩
  exact nodup_ids hnumbers (hn ▸ s.n.toNat_lt)

/-- A shard that was shipped, merged with one of a tie; and one that numbers its observations. -/
theorem traceable_of_shards :
    (∃ s : Summary CyclicLevels CyclicBits,
      (merge
        (resend
          (call (call (fresh ⟨0.25⟩ (.empty ⟨[40, 0], 0⟩) ⟨[true, false], 0⟩) (.insert 5 7))
            (.insert 3 1))
          ⟨0.25⟩ ⟨[2], 0⟩ ⟨[false], 0⟩)
        (call (call (fresh ⟨0.25⟩ (.empty ⟨[2], 0⟩) ⟨[false], 0⟩) (.update (5, 9))) .compress)
          ).summary = .ok s ∧
      ∃ es, s.entries = .ok es ∧ ∃ sources : List ℕ, sources.Nodup ∧
        List.Forall₂ (SampledAt [(5, 7), (3, 1), (5, 9)]) es sources) ∧
    ∃ s : Summary CyclicLevels CyclicBits,
      (call (call (call (call (fresh ⟨0.25⟩ (.empty ⟨[40, 0], 0⟩) ⟨[true], 0⟩) (.add 5)) .clear)
        (.add 3)) (.add 3)).summary = .ok s ∧
      ∃ es, s.entries = .ok es ∧ s.n.toNat = 2 ∧ (es.flatMap Entry.samples).Nodup := by
  have ha : (⟨0.25⟩ : Accuracy).valid := by decide +kernel
  constructor
  · refine (exists_summary ha ?_).imp fun s hs => ⟨hs.1, ?_⟩
    · exact ⟨⟨⟨⟨rfl, by decide⟩, by decide⟩, rfl⟩, ⟨⟨rfl, by decide⟩, by decide⟩, by decide⟩
    · obtain ⟨es, hes, -, haccounts, -⟩ := traceable hs.1
      exact ⟨es, hes, haccounts.sources⟩
  · refine (exists_summary ha ?_).imp fun s hs => ⟨hs.1, ?_⟩
    · exact ⟨⟨⟨⟨rfl, by decide⟩, by decide⟩, by decide⟩, by decide⟩
    · obtain ⟨es, hes, hn, -, hnodup⟩ := traceable hs.1
      exact ⟨es, hes, hn, hnodup ⟨⟨⟨⟨trivial, trivial⟩, trivial⟩, trivial⟩, trivial⟩⟩

end Lineage
end StreamQuantiles
