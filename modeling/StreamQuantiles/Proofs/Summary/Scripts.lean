import StreamQuantiles.Proofs.Summary.Coupling
import StreamQuantiles.Proofs.Summary.Reachable

/-! The same calls made twice, over any levels and coins: what is answered is the same but for
samples, and with the coins in one state the samples are the same too.

A script is no lineage: the snapshots and payloads it takes in come from outside, so there is no log
of what is behind them, and it goes on from calls that are refused. -/
namespace StreamQuantiles

/-- A sequence of calls. The summaries to be merged are built by sequences of their own. -/
inductive Script (σ κ : Type) where
  | fresh (a : Accuracy) (store : Skiplist Entry σ) (coin : κ)
  | call (before : Script σ κ) (op : Op)
  | merge (before partner : Script σ κ)
  | restore (before : Script σ κ) (t : Snapshot)
  /-- A payload takes the place of what there was. -/
  | receive (before : Script σ κ) (a : Accuracy) (levels : σ) (coin : κ) (bytes : List UInt8)

namespace Summary

variable {σ κ σ' κ' : Type}

/-- Why a call was refused, if it was. -/
def refusal : Except Error (Summary σ κ) → Option Error
  | .ok _ => none
  | .error e => some e

/-- A call that may be refused, noted behind the outcomes so far. -/
def conclude (s : Summary σ κ) (outcomes : List (Option Error))
    (result : Except Error (Summary σ κ)) : Except Fault (Summary σ κ × List (Option Error)) := do
  return (← s.settle result, outcomes ++ [refusal result])

/-- The same numbers, and the same answers but for samples. -/
structure AnswersAlike (s : Summary σ κ) (s' : Summary σ' κ') : Prop where
  n : s.n = s'.n
  sinceSweep : s.sinceSweep = s'.sinceSweep
  entries : ∃ es es', s.entries = .ok es ∧ s'.entries = .ok es' ∧
    es.map Entry.bare = es'.map Entry.bare
  quantile : ∀ q, s.quantile q = s'.quantile q
  rank : ∀ v, s.rank v = s'.rank v
  minimum : s.minimum = s'.minimum
  maximum : s.maximum = s'.maximum
  slices : ∀ most, ∃ buckets buckets', s.slices most = .ok buckets ∧ s'.slices most = .ok buckets' ∧
    buckets.map Slice.bare = buckets'.map Slice.bare

variable [Coin κ] [Coin κ'] {C : Coupling κ κ'} {s : Summary σ κ} {s' : Summary σ' κ'}

lemma Matches.answersAlike (h : s.Matches C s') : s.AnswersAlike s' := by
  obtain ⟨ha, hn, hsince, -, -, t, t', hc, hc', halike⟩ := h
  refine ⟨hn, hsince, ⟨_, _, hc.entries, hc'.entries, halike.map_bare⟩, ?_, ?_, ?_, ?_, ?_⟩
  · intro q
    have hvalue : ∀ e : Option Entry, (e.map Entry.estimate).map Estimate.value =
        e.map Entry.value := fun _ => Option.map_map ..
    unfold quantile
    rw [hc.query_eq, hc'.query_eq, ok_bind, ok_bind, hvalue, hvalue, ha, hn, halike.entry?_eq]
  · intro v
    unfold rank isEmpty
    rw [hc.entries, hc'.entries, ok_bind, ok_bind, hn, halike.weightUpTo_eq]
  · rw [hc.minimum, hc'.minimum, ← List.head?_map, ← List.head?_map, halike.map_value]
  · rw [hc.maximum, hc'.maximum, ← List.getLast?_map, ← List.getLast?_map, halike.map_value]
  · intro most
    exact ⟨_, _, hc.slices_eq most, hc'.slices_eq most, halike.slices_eq most⟩

lemma Matches.conclude {x : Except Error (Summary σ κ)} {x' : Except Error (Summary σ' κ')}
    (h : s.Matches C s') (hx : Agree (Matches C) x x') (outcomes : List (Option Error)) :
    Agree (fun r r' => r.1.Matches C r'.1 ∧ r.2 = r'.2) (s.conclude outcomes x)
      (s'.conclude outcomes x') := by
  cases x with
  | ok => cases x' with
    | ok => exact ⟨hx, rfl⟩
    | error => cases hx
  | error e => cases x' with
    | ok => cases hx
    | error =>
      obtain rfl := hx
      cases e with
      | fault => exact rfl
      | merge | decode | malformed => exact ⟨h, rfl⟩

end Summary

namespace Script

variable {σ κ σ' κ' : Type}

section

variable [LevelSource σ] [Coin κ]

/-- The summary that the calls lead to, with the refusals on the way. -/
def run : Script σ κ → Except Fault (Summary σ κ × List (Option Error))
  | fresh a store coin => return (← Summary.ofStore a store coin, [])
  | call before op => do
    let (s, outcomes) ← before.run
    return (← s.apply op, outcomes ++ [none])
  | merge before partner => do
    let (s, outcomes) ← before.run
    let (other, outcomes') ← partner.run
    s.conclude (outcomes ++ outcomes') (s.merge other)
  | restore before t => do
    let (s, outcomes) ← before.run
    s.conclude outcomes (s.restore t)
  | receive before a levels coin bytes => do
    let (s, outcomes) ← before.run
    s.conclude outcomes (Summary.ofBytes a levels coin bytes)

variable {before : Script σ κ} {s s' : Summary σ κ} {outcomes : List (Option Error)}

lemma run_call (h : before.run = .ok (s, outcomes)) {op : Op} (hs : s.apply op = .ok s') :
    (call before op).run = .ok (s', outcomes ++ [none]) := by
  rw [run, h, ok_bind]
  simp only [hs]
  rfl

lemma run_restore (h : before.run = .ok (s, outcomes)) {t : Snapshot}
    (hs : s.restore t = .ok s') : (restore before t).run = .ok (s', outcomes ++ [none]) := by
  rw [run, h, ok_bind]
  simp only [hs]
  rfl

lemma run_receive (h : before.run = .ok (s, outcomes)) {a : Accuracy} {levels : σ} {coin : κ}
    {bytes : List UInt8} (hs : Summary.ofBytes a levels coin bytes = .ok s') :
    (receive before a levels coin bytes).run = .ok (s', outcomes ++ [none]) := by
  rw [run, h, ok_bind]
  simp only [hs]
  rfl

end

/-- The same calls over any levels, where coins, snapshots and payloads are related. -/
inductive Alike [Coin κ] [Coin κ'] (C : Coupling κ κ') : Script σ κ → Script σ' κ' → Prop
  | fresh {a store store' coin coin'} : C.coins coin coin' →
      Alike C (.fresh a store coin) (.fresh a store' coin')
  | call {p p' op} : Alike C p p' → Alike C (.call p op) (.call p' op)
  | merge {p p' q q'} : Alike C p p' → Alike C q q' → Alike C (.merge p q) (.merge p' q')
  | restore {p p' t t'} : Alike C p p' → Snapshot.Alike C.samples t t' →
      Alike C (.restore p t) (.restore p' t')
  | receive {p p' a levels levels' coin coin' bytes bytes'} : Alike C p p' →
      C.coins coin coin' → C.payloads bytes bytes' →
      Alike C (.receive p a levels coin bytes) (.receive p' a levels' coin' bytes')

variable [LevelSource σ] [Coin κ] [LevelSource σ'] [Coin κ'] {C : Coupling κ κ'}

/-- Runs of the same calls match, step by step. -/
theorem Alike.agree_run {p : Script σ κ} {p' : Script σ' κ'} (h : p.Alike C p') :
    Agree (fun r r' => r.1.Matches C r'.1 ∧ r.2 = r'.2) p.run p'.run := by
  induction h with
  | @fresh a store store' _ _ hc =>
    exact (Summary.agree_ofStore hc a store store').bind fun _ _ hs => ⟨hs, rfl⟩
  | @call _ _ op _ ih =>
    refine ih.bind ?_
    rintro ⟨s, outcomes⟩ ⟨s', _⟩ ⟨hs, rfl⟩
    exact (hs.apply op).bind fun _ _ hs' => ⟨hs', rfl⟩
  | merge _ _ ih ih' =>
    refine ih.bind ?_
    rintro ⟨s, outcomes⟩ ⟨s', _⟩ ⟨hs, rfl⟩
    refine ih'.bind ?_
    rintro ⟨other, outcomes'⟩ ⟨other', _⟩ ⟨ho, rfl⟩
    exact hs.conclude (hs.merge ho) _
  | restore _ ht ih =>
    refine ih.bind ?_
    rintro ⟨s, outcomes⟩ ⟨s', _⟩ ⟨hs, rfl⟩
    exact hs.conclude (hs.restore ht) _
  | @receive _ _ a levels levels' _ _ _ _ _ hc hb ih =>
    refine ih.bind ?_
    rintro ⟨s, outcomes⟩ ⟨s', _⟩ ⟨hs, rfl⟩
    exact hs.conclude (Summary.agree_ofBytes hc hb a levels levels') _

/-- Whatever levels and coins are given, the same calls have the same outcomes and leave the same
numbers and the same answers but for samples. With coins in one state and the same payloads, the
samples are the same too. -/
theorem answers_agree :
    (∀ (p : Script σ κ) (p' : Script σ' κ'), p.Alike .free p' →
      Agree (fun r r' => r.1.AnswersAlike r'.1 ∧ r.2 = r'.2) p.run p'.run) ∧
    ∀ (p : Script σ κ) (p' : Script σ' κ), p.Alike .equal p' →
      Agree (fun r r' => (r.1.AnswersAlike r'.1 ∧
        ∃ es, r.1.entries = .ok es ∧ r'.1.entries = .ok es) ∧ r.2 = r'.2) p.run p'.run := by
  refine ⟨fun p p' h => h.agree_run.imp fun r r' hr => ⟨hr.1.answersAlike, hr.2⟩,
    fun p p' h => h.agree_run.imp fun r r' hr => ⟨⟨hr.1.answersAlike, ?_⟩, hr.2⟩⟩
  obtain ⟨-, -, -, -, -, t, t', hc, hc', halike⟩ := hr.1
  exact ⟨t.data, hc.entries, EachAlike.eq halike ▸ hc'.entries⟩

lemma exists_run_of_agree {p : Script σ κ} {p' : Script σ' κ'}
    {R : Summary σ κ → Summary σ' κ' → Prop} {s : Summary σ κ} {outcomes : List (Option Error)}
    (h : Agree (fun r r' => R r.1 r'.1 ∧ r.2 = r'.2) p.run p'.run)
    (hp : p.run = .ok (s, outcomes)) : ∃ s', p'.run = .ok (s', outcomes) ∧ R s s' := by
  obtain ⟨⟨s', _⟩, hs', hR, rfl⟩ := h.exists_of_eq_ok hp
  exact ⟨s', hs', hR⟩

/-- A snapshot and a payload with other IDs, over other levels and coins; and over other levels
alone. -/
theorem answers_agree_of_reseeded :
    ∃ s : Summary CyclicLevels CyclicBits,
      run (call (receive (restore (fresh ⟨0.25⟩ (.empty ⟨[40, 0], 0⟩) ⟨[true], 0⟩)
        ⟨[⟨-5, 1, 0, [9]⟩], 1⟩) ⟨0.25⟩ ⟨[2], 0⟩ ⟨[false], 0⟩
        (Wire.encode ⟨[⟨4, 2, 0, [7]⟩], 2⟩)) (.add 3)) = .ok (s, [none, none, none]) ∧
      (∃ s' : Summary LevelRule Xoshiro,
        run (call (receive (restore (fresh ⟨0.25⟩ (.empty (.seeded 1)) (.ofSeed 1))
          ⟨[⟨-5, 1, 0, [8, 8]⟩], 1⟩) ⟨0.25⟩ (.seeded 2) (.ofSeed 2)
          (Wire.encode ⟨[⟨4, 2, 0, [6]⟩], 2⟩)) (.add 3)) = .ok (s', [none, none, none]) ∧
        s.AnswersAlike s') ∧
      ∃ s' : Summary LevelRule CyclicBits,
        run (call (receive (restore (fresh ⟨0.25⟩ (.empty (.seeded 1)) ⟨[true], 0⟩)
          ⟨[⟨-5, 1, 0, [9]⟩], 1⟩) ⟨0.25⟩ (.seeded 2) ⟨[false], 0⟩
          (Wire.encode ⟨[⟨4, 2, 0, [7]⟩], 2⟩)) (.add 3)) = .ok (s', [none, none, none]) ∧
        s.AnswersAlike s' ∧ ∃ es, s.entries = .ok es ∧ s'.entries = .ok es := by
  have ha : (⟨0.25⟩ : Accuracy).valid := by decide +kernel
  obtain ⟨s₀, hs₀, -⟩ := Summary.exists_ofStore ha
    (.empty ⟨[40, 0], 0⟩ : Skiplist Entry CyclicLevels) (⟨[true], 0⟩ : CyclicBits)
  obtain ⟨s₁, hs₁, -⟩ := Summary.exists_restore s₀ (t := ⟨[⟨-5, 1, 0, [9]⟩], 1⟩) (by decide)
  obtain ⟨s₂, hs₂, hc, -⟩ := Summary.exists_ofBytes ha (⟨[2], 0⟩ : CyclicLevels)
    (⟨[false], 0⟩ : CyclicBits) (t := ⟨[⟨4, 2, 0, [7]⟩], 2⟩)
    (Wire.written_iff.2 ⟨rfl, by decide, by decide⟩) (by decide)
  obtain ⟨s₃, -, hs₃, -⟩ := hc.exists_apply (.add 3) (by rw [hc.count]; decide)
  have hfresh : run (fresh ⟨0.25⟩ (.empty ⟨[40, 0], 0⟩) ⟨[true], 0⟩) = .ok (s₀, []) := by
    rw [run, hs₀]
    rfl
  have hrun := run_call (run_receive (run_restore hfresh hs₁) hs₂) hs₃
  have hpayload : Wire.Alike (Wire.encode ⟨[⟨4, 2, 0, [7]⟩], 2⟩)
      (Wire.encode ⟨[⟨4, 2, 0, [6]⟩], 2⟩) :=
    Wire.alike_encode ⟨.cons ⟨rfl, rfl, rfl, rfl⟩ .nil, rfl⟩ (by decide)
  refine ⟨s₃, hrun, ?_, ?_⟩
  · refine exists_run_of_agree (answers_agree.1 _ _ ?_) hrun
    exact .call (.receive (.restore (.fresh trivial)
      ⟨.cons ⟨rfl, rfl, rfl, trivial⟩ .nil, rfl⟩) trivial hpayload)
  · obtain ⟨-, hequal⟩ := @answers_agree CyclicLevels CyclicBits LevelRule CyclicBits _ _ _ _
    refine exists_run_of_agree (R := fun s s' => s.AnswersAlike s' ∧
      ∃ es, s.entries = .ok es ∧ s'.entries = .ok es) (hequal _ _ ?_) hrun
    exact .call (.receive (.restore (.fresh rfl) ⟨.refl (fun _ => rfl) _, rfl⟩) rfl rfl)

end Script
end StreamQuantiles
