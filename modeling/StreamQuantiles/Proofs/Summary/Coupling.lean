import StreamQuantiles.Proofs.Summary.Payload
import StreamQuantiles.Proofs.Wire.Alike

/-! Two summaries side by side, with levels and coins of their own. Calls take them to entries that
are the same but for samples, since neither levels nor coins decide what is folded. -/
namespace StreamQuantiles

/-- How the coins of two summaries, their samples and the payloads they are given are related. Folds
keep the samples related. -/
structure Coupling (κ κ' : Type) [Coin κ] [Coin κ'] where
  coins : κ → κ' → Prop
  samples : List SampleId → List SampleId → Prop
  payloads : List UInt8 → List UInt8 → Prop
  refl : ∀ ids, samples ids ids
  flipped : ∀ {c c'}, coins c c' → coins (Coin.flip c).2 (Coin.flip c').2
  kept : ∀ {c c' a a' b b'}, coins c c' → samples a a' → samples b b' →
    samples (if (Coin.flip c).1 then a else b) (if (Coin.flip c').1 then a' else b')
  decoded : ∀ {bytes bytes'}, payloads bytes bytes' →
    Agree (Snapshot.Alike samples) (Wire.decode bytes) (Wire.decode bytes')

namespace Coupling

variable {κ κ' : Type} [Coin κ] [Coin κ']

/-- Nothing is known of coins and samples. -/
def free : Coupling κ κ' where
  coins := fun _ _ => True
  samples := fun _ _ => True
  payloads := Wire.Alike
  refl := fun _ => trivial
  flipped := fun _ => trivial
  kept := fun _ _ _ => trivial
  decoded := Wire.decode_alike

/-- The coins are in one state and the payloads are the same. -/
def equal : Coupling κ κ where
  coins := Eq
  samples := Eq
  payloads := Eq
  refl := fun _ => rfl
  flipped := fun h => by rw [h]
  kept := fun hc ha hb => by rw [hc, ha, hb]
  decoded := fun h => by
    rw [h]
    exact .refl (fun t => ⟨.refl (fun _ => rfl) t.data, rfl⟩) _

end Coupling

namespace Entries

variable {S : List SampleId → List SampleId → Prop} {es es' fs fs' : List Entry}

lemma eachAlike_takeWhile (h : EachAlike S es es') (v : Measurement) :
    EachAlike S (es.takeWhile (·.value ≤ v)) (es'.takeWhile (·.value ≤ v)) := by
  induction h with
  | nil => exact .nil
  | cons he _ ih =>
    rw [List.takeWhile_cons, List.takeWhile_cons, he.value]
    split
    · exact .cons he ih
    · exact .nil

lemma eachAlike_dropWhile (h : EachAlike S es es') (v : Measurement) :
    EachAlike S (es.dropWhile (·.value ≤ v)) (es'.dropWhile (·.value ≤ v)) := by
  induction h with
  | nil => exact .nil
  | cons he hes ih =>
    rw [List.dropWhile_cons, List.dropWhile_cons, he.value]
    split
    · exact ih
    · exact .cons he hes

lemma isEmpty_eq_of_eachAlike (h : EachAlike S es es') : es.isEmpty = es'.isEmpty := by
  cases h <;> rfl

lemma eachAlike_recorded (hS : ∀ ids, S ids ids) (h : EachAlike S es es') (v : Measurement)
    (id : SampleId) (delta : Count) :
    EachAlike S (recorded v id delta es) (recorded v id delta es') := by
  have hbelow := eachAlike_takeWhile h v
  have habove := eachAlike_dropWhile h v
  simp only [recorded, isEmpty_eq_of_eachAlike hbelow, isEmpty_eq_of_eachAlike habove]
  exact List.rel_append hbelow (.cons (.refl hS _) habove)

lemma eachAlike_merged (h : EachAlike S es es') (h' : EachAlike S fs fs') :
    EachAlike S (merged es fs) (merged es' fs') := by
  induction h generalizing fs fs' with
  | nil => simpa only [merged, List.nil_merge] using h'
  | cons he hes ih =>
    induction h' with
    | nil => simpa only [merged, List.merge_right] using List.Forall₂.cons he hes
    | cons hf hfs ih' =>
      unfold merged at ih ih' ⊢
      rw [List.cons_merge_cons, List.cons_merge_cons, he.value, hf.value]
      split
      · exact .cons he (ih (.cons hf hfs))
      · exact .cons hf ih'

lemma eachAlike_exact {e e' : Entry} (h : e.Alike S e') : e.exact.Alike S e'.exact :=
  ⟨h.value, h.g, rfl, h.samples⟩

lemma eachAlike_pinned (h : EachAlike S es es') : EachAlike S (pinned es) (pinned es') := by
  have hhead : EachAlike S (es.modifyHead Entry.exact) (es'.modifyHead Entry.exact) := by
    cases h with
    | nil => exact .nil
    | cons he hes => exact .cons (eachAlike_exact he) hes
  unfold pinned
  generalize es.modifyHead Entry.exact = fs at hhead ⊢
  generalize es'.modifyHead Entry.exact = fs' at hhead ⊢
  induction hhead with
  | nil => exact .nil
  | cons he hfs ih =>
    cases hfs with
    | nil => exact .cons (eachAlike_exact he) .nil
    | cons hf hfs =>
      rw [modifyLast_cons_cons, modifyLast_cons_cons]
      exact .cons he ih

end Entries

namespace Coupling

open Entries

variable {κ κ' : Type} [Coin κ] [Coin κ'] {C : Coupling κ κ'} {es es' fs fs' : List Entry}
  {cur cur' next next' : Entry} {coin : κ} {coin' : κ'}

lemma folds_iff {S : List SampleId → List SampleId → Prop} (hcur : cur.Alike S cur')
    (hnext : next.Alike S next') (budget : Count) (isFirst : Bool) :
    Summary.Folds budget isFirst cur next ↔ Summary.Folds budget isFirst cur' next' := by
  unfold Summary.Folds
  rw [hcur.value, hcur.g, hnext.value, hnext.g, hnext.delta]

lemma foldInto (hcur : cur.Alike C.samples cur') (hnext : next.Alike C.samples next')
    (hc : C.coins coin coin') :
    (cur.foldInto next (Coin.flip coin).1).Alike C.samples
      (cur'.foldInto next' (Coin.flip coin').1) where
  value := hnext.value
  g := congrArg₂ (· + ·) hnext.g hcur.g
  delta := hnext.delta
  samples := C.kept hc hcur.samples hnext.samples

/-- Sweeps side by side fold the same entries, and flip as many coins. -/
lemma swept (hcur : cur.Alike C.samples cur') (h : EachAlike C.samples es es')
    (hc : C.coins coin coin') (budget : Count) (isFirst : Bool) :
    EachAlike C.samples (swept budget isFirst cur es coin).1 (swept budget isFirst cur' es' coin').1 ∧
      C.coins (swept budget isFirst cur es coin).2 (swept budget isFirst cur' es' coin').2 := by
  induction h generalizing cur cur' coin coin' isFirst with
  | nil => exact ⟨.cons hcur .nil, hc⟩
  | @cons next _ _ _ hnext hes ih =>
    have hiff := folds_iff hcur hnext budget isFirst
    by_cases hf : Summary.Folds budget isFirst cur next
    · rw [swept_of_folds hf, swept_of_folds (hiff.1 hf)]
      exact ih (foldInto hcur hnext hc) (C.flipped hc) isFirst
    · rw [swept_of_not_folds hf, swept_of_not_folds (hiff.not.1 hf)]
      obtain ⟨hswept, hcoins⟩ := ih hnext hc false
      exact ⟨.cons hcur hswept, hcoins⟩

lemma compressed (h : EachAlike C.samples es es') (hc : C.coins coin coin') (budget : Count) :
    EachAlike C.samples (compressed budget es coin).1 (compressed budget es' coin').1 ∧
      C.coins (compressed budget es coin).2 (compressed budget es' coin').2 := by
  cases h with
  | nil => exact ⟨.nil, hc⟩
  | cons he hes =>
    obtain ⟨hswept, hcoins⟩ := swept he hes hc budget true
    exact ⟨eachAlike_pinned hswept, hcoins⟩

lemma inserted (h : EachAlike C.samples es es') (hc : C.coins coin coin') (a : Accuracy) (n : Count)
    (due : Bool) (v : Measurement) (id : SampleId) :
    EachAlike C.samples (inserted a n due v id es coin).1 (inserted a n due v id es' coin').1 ∧
      C.coins (inserted a n due v id es coin).2 (inserted a n due v id es' coin').2 := by
  have hrec := eachAlike_recorded C.refl h v id (min (a.budget n) (n - 1))
  unfold Entries.inserted
  cases due with
  | true => exact compressed hrec hc _
  | false => exact ⟨hrec, hc⟩

end Coupling

/-- The same error, in a wider type. -/
lemma Agree.liftM {α β : Type} {R : α → β → Prop} {x : Except Fault α} {y : Except Fault β}
    (h : Agree R x y) : Agree R (liftM x : Except Error α) (liftM y : Except Error β) := by
  cases x with
  | error => cases y with
    | error => exact congrArg Error.fault h
    | ok => cases h
  | ok => cases y with
    | error => cases h
    | ok => exact h

namespace Summary

open Entries

variable {σ κ σ' κ' : Type} [Coin κ] [Coin κ'] {C : Coupling κ κ'} {s other : Summary σ κ}
  {s' other' : Summary σ' κ'} {t t' : Snapshot}

/-- Two summaries that are the same but for levels, coins and samples. -/
structure Matches (C : Coupling κ κ') (s : Summary σ κ) (s' : Summary σ' κ') : Prop where
  accuracy : s.accuracy = s'.accuracy
  n : s.n = s'.n
  sinceSweep : s.sinceSweep = s'.sinceSweep
  period : s.period = s'.period
  coins : C.coins s.coin s'.coin
  contents : ∃ t t', s.Contains t ∧ s'.Contains t' ∧ EachAlike C.samples t.data t'.data

lemma agree_ofStore {coin : κ} {coin' : κ'} (hc : C.coins coin coin') (a : Accuracy)
    (store : Skiplist Entry σ) (store' : Skiplist Entry σ') :
    Agree (Matches C) (ofStore a store coin) (ofStore a store' coin') := by
  refine (Agree.refl (R := Eq) (fun _ => rfl) a.check).bind fun _ _ _ => ?_
  exact ⟨rfl, rfl, rfl, rfl, hc, ⟨[], 0⟩, ⟨[], 0⟩,
    ⟨Skiplist.holds_empty _, rfl, Snapshot.consistent_nil⟩,
    ⟨Skiplist.holds_empty _, rfl, Snapshot.consistent_nil⟩, .nil⟩

namespace Matches

lemma clear (h : s.Matches C s') : s.clear.Matches C s'.clear :=
  ⟨h.accuracy, rfl, rfl, h.period, h.coins, _, _, contains_clear s, contains_clear s', .nil⟩

/-- What the same call makes of both. -/
lemma of_becomes {r : Summary σ κ} {r' : Summary σ' κ'} {since since' : Nat} {coin : κ} {coin' : κ'}
    (h : s.Matches C s') (hb : s.Becomes r t since coin) (hb' : s'.Becomes r' t' since' coin')
    (ht : t.Alike C.samples t') (hsince : since = since') (hcoins : C.coins coin coin') :
    r.Matches C r' where
  accuracy := by rw [hb.accuracy, hb'.accuracy, h.accuracy]
  n := by rw [hb.contains.count, hb'.contains.count, ht.n]
  sinceSweep := by rw [hb.sinceSweep, hb'.sinceSweep, hsince]
  period := by rw [hb.period, hb'.period, h.period]
  coins := by
    rw [hb.coin, hb'.coin]
    exact hcoins
  contents := ⟨t, t', hb.contains, hb'.contains, ht.data⟩

lemma compress (h : s.Matches C s') : Agree (Matches C) s.compress s'.compress := by
  obtain ⟨t, t', hc, hc', halike⟩ := h.contents
  obtain ⟨r, hr, hb⟩ := hc.exists_compress
  obtain ⟨r', hr', hb'⟩ := hc'.exists_compress
  have hbudget : s.budget = s'.budget := by rw [budget, budget, h.accuracy, h.n]
  rw [hbudget] at hb
  rw [hr, hr']
  obtain ⟨hentries, hcoins⟩ := Coupling.compressed halike h.coins s'.budget
  have hn : t.n = t'.n := by rw [← hc.count, ← hc'.count, h.n]
  exact h.of_becomes hb hb' ⟨hentries, hn⟩ h.sinceSweep hcoins

variable [LevelSource σ] [LevelSource σ']

lemma insert (h : s.Matches C s') (v : Measurement) (id : SampleId) :
    Agree (Matches C) (s.insert v id) (s'.insert v id) := by
  obtain ⟨t, t', hc, hc', halike⟩ := h.contents
  by_cases hfits : s.n.toNat + 1 < 2 ^ 64
  · obtain ⟨r, hr, hb⟩ := hc.exists_insert hfits v id
    obtain ⟨r', hr', hb'⟩ := hc'.exists_insert (h.n ▸ hfits) v id
    have hdue : s.due = s'.due := by rw [due, due, h.period, h.sinceSweep]
    rw [h.accuracy, h.n, hdue, h.sinceSweep] at hb
    rw [hr, hr']
    obtain ⟨hentries, hcoins⟩ :=
      Coupling.inserted halike h.coins s'.accuracy (s'.n + 1) s'.due v id
    exact h.of_becomes hb hb' ⟨hentries, rfl⟩ rfl hcoins
  · have hfull := Nat.not_lt.1 hfits
    rw [hc.insert_eq_error hfull, hc'.insert_eq_error (h.n ▸ hfull)]
    exact rfl

lemma apply (h : s.Matches C s') (op : Op) : Agree (Matches C) (s.apply op) (s'.apply op) := by
  cases op with
  | insert value id => exact h.insert value id
  | update observation => exact h.insert observation.1 observation.2
  | add value =>
    change Agree _ (s.insert value s.n) (s'.insert value s'.n)
    rw [h.n]
    exact h.insert value s'.n
  | compress => exact h.compress
  | clear => exact h.clear

lemma merge (h : s.Matches C s') (ho : other.Matches C other') :
    Agree (Matches C) (s.merge other) (s'.merge other') := by
  obtain ⟨t, t', hc, hc', halike⟩ := h.contents
  obtain ⟨u, u', hd, hd', halike₀⟩ := ho.contents
  have hisEmpty : other.isEmpty = other'.isEmpty := by rw [isEmpty, isEmpty, ho.n]
  by_cases hempty : other.isEmpty
  · rw [merge_empty hempty, merge_empty (hisEmpty ▸ hempty)]
    exact h
  have hempty' : ¬ other'.isEmpty := hisEmpty ▸ hempty
  by_cases hcomp : s.accuracy.compatible other.accuracy
  · have hcomp' : s'.accuracy.compatible other'.accuracy := by rwa [← h.accuracy, ← ho.accuracy]
    by_cases hfits : s.n.toNat + other.n.toNat < 2 ^ 64
    · obtain ⟨r, hr, hb⟩ := hc.exists_merge hd hempty hcomp hfits
      obtain ⟨r', hr', hb'⟩ := hc'.exists_merge hd' hempty' hcomp' (h.n ▸ ho.n ▸ hfits)
      rw [h.accuracy, h.n, ho.n] at hb
      rw [hr, hr']
      obtain ⟨hentries, hcoins⟩ := Coupling.compressed (eachAlike_merged halike halike₀) h.coins
        (s'.accuracy.budget (s'.n + other'.n))
      exact h.of_becomes hb hb' ⟨hentries, rfl⟩ h.sinceSweep hcoins
    · have hfull := Nat.not_lt.1 hfits
      rw [merge_eq_error hempty hcomp hfull, merge_eq_error hempty' hcomp' (h.n ▸ ho.n ▸ hfull)]
      exact rfl
  · rw [merge_eq_refusal hempty hcomp,
      merge_eq_refusal hempty' (h.accuracy ▸ ho.accuracy ▸ hcomp), h.accuracy, ho.accuracy]
    exact rfl

lemma restore (h : s.Matches C s') (ht : t.Alike C.samples t') :
    Agree (Matches C) (s.restore t) (s'.restore t') := by
  cases hcheck : t'.check with
  | error c =>
    unfold Summary.restore
    rw [ht.check_eq, hcheck]
    exact rfl
  | ok =>
    obtain ⟨r, hr, hb⟩ := restore_eq_ok s (Snapshot.check_eq_ok_iff.1 (ht.check_eq.trans hcheck))
    obtain ⟨r', hr', hb'⟩ := restore_eq_ok s' (Snapshot.check_eq_ok_iff.1 hcheck)
    rw [hr, hr']
    exact h.of_becomes hb hb' ht rfl h.coins

end Matches

variable [LevelSource σ] [LevelSource σ']

lemma agree_ofSnapshot {coin : κ} {coin' : κ'} (hc : C.coins coin coin') (ht : t.Alike C.samples t')
    (a : Accuracy) (levels : σ) (levels' : σ') :
    Agree (Matches C) (ofSnapshot a levels coin t) (ofSnapshot a levels' coin' t') :=
  (agree_ofStore hc a (.empty levels) (.empty levels')).liftM.bind fun _ _ h => h.restore ht

lemma agree_ofBytes {coin : κ} {coin' : κ'} {bytes bytes' : List UInt8} (hc : C.coins coin coin')
    (hb : C.payloads bytes bytes') (a : Accuracy) (levels : σ) (levels' : σ') :
    Agree (Matches C) (ofBytes a levels coin bytes) (ofBytes a levels' coin' bytes') :=
  (C.decoded hb).bind fun _ _ ht => agree_ofSnapshot hc ht a levels levels'

end Summary
end StreamQuantiles
