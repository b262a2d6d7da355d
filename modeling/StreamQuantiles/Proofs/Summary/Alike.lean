import Mathlib.Data.List.Forall2
import Mathlib.Tactic.Lemma
import StreamQuantiles.Quantile
import StreamQuantiles.Snapshot

/-! Entries that are the same but for their samples. The check of a snapshot and the answers to
questions, samples apart, are functions of the rest. -/
namespace StreamQuantiles

/-- Results that are related, or the same error. -/
def Agree {ε α β : Type} (R : α → β → Prop) : Except ε α → Except ε β → Prop
  | .ok a, .ok b => R a b
  | .error e, .error e' => e = e'
  | _, _ => False

namespace Agree

variable {ε α β γ δ : Type} {R R' : α → β → Prop} {S : γ → δ → Prop} {x : Except ε α}
  {y : Except ε β} {f : α → Except ε γ} {g : β → Except ε δ}

lemma imp (h : Agree R x y) (hi : ∀ a b, R a b → R' a b) : Agree R' x y := by
  cases x with
  | error => cases y with
    | error => exact h
    | ok => cases h
  | ok => cases y with
    | error => cases h
    | ok => exact hi _ _ h

lemma bind (h : Agree R x y) (hf : ∀ a b, R a b → Agree S (f a) (g b)) :
    Agree S (x >>= f) (y >>= g) := by
  cases x with
  | error => cases y with
    | error => exact h
    | ok => cases h
  | ok => cases y with
    | error => cases h
    | ok => exact hf _ _ h

protected lemma refl {R : α → α → Prop} (h : ∀ a, R a a) (x : Except ε α) : Agree R x x := by
  cases x with
  | error => exact rfl
  | ok a => exact h a

lemma exists_of_eq_ok (h : Agree R x y) {a : α} (hx : x = .ok a) : ∃ b, y = .ok b ∧ R a b := by
  subst hx
  cases y with
  | error => cases h
  | ok b => exact ⟨b, rfl, h⟩

end Agree

namespace Entry

/-- The same but for the samples, which are related. -/
structure Alike (S : List SampleId → List SampleId → Prop) (e e' : Entry) : Prop where
  value : e.value = e'.value
  g : e.g = e'.g
  delta : e.delta = e'.delta
  samples : S e.samples e'.samples

/-- The entry without samples. -/
def bare (e : Entry) : Entry := { e with samples := [] }

variable {S : List SampleId → List SampleId → Prop} {e e' : Entry}

lemma Alike.refl (hS : ∀ ids, S ids ids) (e : Entry) : e.Alike S e := ⟨rfl, rfl, rfl, hS _⟩

lemma Alike.bare_eq (h : e.Alike S e') : e.bare = e'.bare := by
  unfold bare
  rw [h.value, h.g, h.delta]

end Entry

/-- The bucket without samples. -/
def Slice.bare (s : Slice) : Slice := { s with samples := [] }

section

variable {S : List SampleId → List SampleId → Prop} {es es' : List Entry} {n : Count}

/-- The same but for samples, entry by entry. -/
abbrev EachAlike (S : List SampleId → List SampleId → Prop) : List Entry → List Entry → Prop :=
  List.Forall₂ (Entry.Alike S)

lemma EachAlike.refl (hS : ∀ ids, S ids ids) (es : List Entry) : EachAlike S es es :=
  List.forall₂_same.2 fun e _ => .refl hS e

lemma EachAlike.map_bare (h : EachAlike S es es') : es.map Entry.bare = es'.map Entry.bare := by
  induction h with
  | nil => rfl
  | cons he _ ih => rw [List.map_cons, List.map_cons, he.bare_eq, ih]

lemma EachAlike.map_value (h : EachAlike S es es') : es.map Entry.value = es'.map Entry.value := by
  have hvalue : ∀ es : List Entry, (es.map Entry.bare).map Entry.value = es.map Entry.value :=
    fun _ => List.map_map
  rw [← hvalue, h.map_bare, hvalue]

/-- Entries with the same samples are the same. -/
lemma EachAlike.eq (h : EachAlike Eq es es') : es = es' := by
  induction h with
  | nil => rfl
  | @cons e e' es es' he _ ih =>
    obtain ⟨hvalue, hg, hdelta, hsamples⟩ := he
    cases e
    cases e'
    cases hvalue
    cases hg
    cases hdelta
    cases hsamples
    rw [ih]

/-- The same number of observations, and entries that are the same but for samples. -/
structure Snapshot.Alike (S : List SampleId → List SampleId → Prop) (t t' : Snapshot) : Prop where
  data : EachAlike S t.data t'.data
  n : t.n = t'.n

lemma Snapshot.check_bare (es : List Entry) (n : Count) :
    check ⟨es.map Entry.bare, n⟩ = check ⟨es, n⟩ := by
  have hascending : ascending (es.map Entry.bare) = ascending es := by
    unfold ascending
    rw [← List.map_tail, List.zip_map, List.all_map]
    rfl
  have hweights : (es.map Entry.bare).map Entry.g = es.map Entry.g := List.map_map
  have hzero : (es.map Entry.bare).any (·.g == 0) = es.any (·.g == 0) := List.any_map
  have hdelta : (es.map Entry.bare).find? (n < ·.delta) = (es.find? (n < ·.delta)).map Entry.bare :=
    List.find?_map ..
  unfold check
  rw [hascending, hweights, hzero, hdelta]
  cases es.find? (n < ·.delta) <;> rfl

lemma Snapshot.Alike.check_eq {t t' : Snapshot} (h : t.Alike S t') : t.check = t'.check := by
  obtain ⟨data, n⟩ := t
  obtain ⟨data', n'⟩ := t'
  obtain ⟨hdata, rfl⟩ := h
  rw [← check_bare data, ← check_bare data', hdata.map_bare]

end

namespace Quantile

variable {a : Accuracy} {n target slack passed : Count} {q : Float} {es : List Entry}

lemma walk_bare : walk target slack passed (es.map Entry.bare) = walk target slack passed es := by
  fun_induction walk target slack passed es with
  | case1 passed cur next rest least greatest hstop hnear =>
    rw [List.map_cons, List.map_cons, walk]
    exact (if_pos hstop).trans (if_pos hnear)
  | case2 passed cur next rest least greatest hstop hfar =>
    rw [List.map_cons, List.map_cons, walk]
    exact (if_pos hstop).trans (if_neg hfar)
  | case3 passed cur next rest least greatest hpass ih =>
    rw [List.map_cons, List.map_cons, walk]
    exact (if_neg hpass).trans (congrArg (· + 1) ih)
  | case4 es passed hshort =>
    rcases es with _ | ⟨e, _ | ⟨next, rest⟩⟩
    · rfl
    · rfl
    · cases hshort e next rest rfl

lemma position?_bare : position? a n q (es.map Entry.bare) = position? a n q es := by
  unfold position?
  rw [List.isEmpty_map, List.length_map, walk_bare]

lemma entry?_bare : entry? a n q (es.map Entry.bare) = (Quantile.entry? a n q es).map Entry.bare := by
  change (position? a n q _).bind (fun i => (es.map Entry.bare)[i]?) =
    ((position? a n q es).bind fun i => es[i]?).map Entry.bare
  rw [position?_bare, Option.map_bind]
  congr 1
  funext i
  exact List.getElem?_map

lemma weightUpTo_bare (v : Measurement) :
    weightUpTo v (es.map Entry.bare) = weightUpTo v es := by
  unfold weightUpTo
  rw [List.takeWhile_map, List.map_map]
  rfl

lemma slices_bare (most : Nat) :
    (slices most es).map Slice.bare = slices 0 (es.map Entry.bare) := by
  unfold slices
  rw [← List.map_tail, List.zipWith_map, List.map_zipWith]
  rfl

end Quantile

section

variable {S : List SampleId → List SampleId → Prop} {es es' : List Entry}

/-- The value that answers for a quantile. -/
lemma EachAlike.entry?_eq (h : EachAlike S es es') (a : Accuracy) (n : Count) (q : Float) :
    (Quantile.entry? a n q es).map Entry.value = (Quantile.entry? a n q es').map Entry.value := by
  have hvalue : ∀ es : List Entry, (Quantile.entry? a n q (es.map Entry.bare)).map Entry.value =
      (Quantile.entry? a n q es).map Entry.value := by
    intro es
    rw [Quantile.entry?_bare, Option.map_map]
    rfl
  rw [← hvalue, h.map_bare, hvalue]

lemma EachAlike.weightUpTo_eq (h : EachAlike S es es') (v : Measurement) :
    Quantile.weightUpTo v es = Quantile.weightUpTo v es' := by
  rw [← Quantile.weightUpTo_bare, h.map_bare, Quantile.weightUpTo_bare]

lemma EachAlike.slices_eq (h : EachAlike S es es') (most : Nat) :
    (Quantile.slices most es).map Slice.bare = (Quantile.slices most es').map Slice.bare := by
  rw [Quantile.slices_bare, Quantile.slices_bare, h.map_bare]

end

end StreamQuantiles
