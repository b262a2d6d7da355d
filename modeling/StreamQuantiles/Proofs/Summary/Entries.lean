import Mathlib.Data.List.ModifyLast
import StreamQuantiles.Proofs.Count
import StreamQuantiles.Summary.Compress

/-! What a summary does to its entries, as operations on lists of entries. -/
namespace StreamQuantiles

/-- The successor after an entry has been folded into it. -/
def Entry.foldInto (cur next : Entry) (keepFolded : Bool) : Entry :=
  { next with
    g := next.g + cur.g
    samples := if keepFolded then cur.samples else next.samples }

/-- The entry as one whose rank is known. -/
def Entry.exact (e : Entry) : Entry := { e with delta := 0 }

namespace Entries

variable {κ : Type} [Coin κ] {es xs ys : List Entry}

def Sorted (es : List Entry) : Prop := es.Pairwise (·.value ≤ ·.value)

/-- The observations that the entries stand for. -/
def mass (es : List Entry) : Nat := (es.map fun e => e.g.toNat).sum

@[simp] lemma mass_nil : mass [] = 0 := rfl

@[simp] lemma mass_cons (e : Entry) : mass (e :: es) = e.g.toNat + mass es := rfl

@[simp] lemma mass_append : mass (xs ++ ys) = mass xs + mass ys := by
  simp [mass]

lemma mass_perm (h : xs.Perm ys) : mass xs = mass ys := (h.map _).sum_nat

/-- A fold keeps the mass, as long as it fits a word. -/
lemma toNat_foldInto {cur next : Entry} (h : cur.g.toNat + next.g.toNat < 2 ^ 64) (keep : Bool) :
    (cur.foldInto next keep).g.toNat = cur.g.toNat + next.g.toNat := by
  change (next.g + cur.g).toNat = _
  rw [Count.toNat_add_of_lt (by omega)]
  exact Nat.add_comm _ _

/-- The entries with a further observation behind those at or below it. Between two others its rank
is uncertain by `delta`. -/
def recorded (value : Measurement) (id : SampleId) (delta : Count) (es : List Entry) : List Entry :=
  let below := es.takeWhile (·.value ≤ value)
  let above := es.dropWhile (·.value ≤ value)
  below ++
    { Entry.single value id with delta := if below.isEmpty || above.isEmpty then 0 else delta } :: above

lemma mass_recorded (value : Measurement) (id : SampleId) (delta : Count) (es : List Entry) :
    mass (recorded value id delta es) = mass es + 1 := by
  have hone : (Entry.single value id).g.toNat = 1 := rfl
  have hsplit := congrArg mass
    (List.takeWhile_append_dropWhile (p := fun e : Entry => decide (e.value ≤ value)) (l := es))
  rw [mass_append] at hsplit
  simp only [recorded, mass_append, mass_cons, hone]
  omega

/-- The entries that a sweep leaves of an entry and those after it, and the coin that is left. -/
def swept (budget : Count) : Bool → Entry → List Entry → κ → List Entry × κ
  | _, cur, [], coin => ([cur], coin)
  | isFirst, cur, next :: rest, coin =>
    if Summary.Folds budget isFirst cur next then
      let (keepFolded, coin) := Coin.flip coin
      swept budget isFirst (cur.foldInto next keepFolded) rest coin
    else
      let (es, coin) := swept budget false next rest coin
      (cur :: es, coin)

lemma swept_of_folds {budget : Count} {isFirst : Bool} {cur next : Entry} {rest : List Entry}
    {coin : κ} (h : Summary.Folds budget isFirst cur next) :
    swept budget isFirst cur (next :: rest) coin =
      swept budget isFirst (cur.foldInto next (Coin.flip coin).1) rest (Coin.flip coin).2 := by
  rw [swept, if_pos h]

lemma swept_of_not_folds {budget : Count} {isFirst : Bool} {cur next : Entry} {rest : List Entry}
    {coin : κ} (h : ¬ Summary.Folds budget isFirst cur next) :
    swept budget isFirst cur (next :: rest) coin =
      (cur :: (swept budget false next rest coin).1, (swept budget false next rest coin).2) := by
  rw [swept, if_neg h]

lemma modifyLast_cons_cons (f : Entry → Entry) (cur next : Entry) (rest : List Entry) :
    (cur :: next :: rest).modifyLast f = cur :: (next :: rest).modifyLast f :=
  List.modifyLast_append_of_right_ne_nil f [cur] (next :: rest) (List.cons_ne_nil _ _)

/-- The entries with the ranks of both ends known. -/
def pinned (es : List Entry) : List Entry := (es.modifyHead Entry.exact).modifyLast Entry.exact

/-- The entries that a compression leaves, and the coin that is left. -/
def compressed (budget : Count) : List Entry → κ → List Entry × κ
  | [], coin => ([], coin)
  | e :: es, coin =>
    let (es, coin) := swept budget true e es coin
    (pinned es, coin)

/-- What is kept of the entries behind a sweep, the one it is at and those ahead, whether it folds or
goes on. -/
theorem swept_cut_induction {P : List Entry → Entry → List Entry → Prop} {budget : Count}
    (hfold : ∀ done cur next rest keep, Summary.Folds budget done.isEmpty cur next →
      P done cur (next :: rest) → P done (cur.foldInto next keep) rest)
    (hpass : ∀ done cur next rest, ¬ Summary.Folds budget done.isEmpty cur next →
      P done cur (next :: rest) → P (done ++ [cur]) next rest)
    (done : List Entry) {cur : Entry} {rest : List Entry} (coin : κ) (h : P done cur rest) :
    ∃ done' last, done ++ (swept budget done.isEmpty cur rest coin).1 = done' ++ [last] ∧
      P done' last [] := by
  induction rest generalizing done cur coin with
  | nil => exact ⟨done, cur, rfl, h⟩
  | cons next rest ih =>
    by_cases hf : Summary.Folds budget done.isEmpty cur next
    · rw [swept_of_folds hf]
      exact ih _ _ (hfold _ _ _ _ _ hf h)
    · have hempty : (done ++ [cur]).isEmpty = false := by simp
      have hstep := ih (done ++ [cur]) coin (hpass _ _ _ _ hf h)
      rw [hempty, List.append_assoc] at hstep
      rw [swept_of_not_folds hf]
      exact hstep

/-- What every fold keeps is kept by a sweep. -/
theorem swept_induction {P : List Entry → Prop} {budget : Count}
    (hfold : ∀ xs cur next ys keep, Summary.Folds budget xs.isEmpty cur next →
      P (xs ++ cur :: next :: ys) → P (xs ++ cur.foldInto next keep :: ys))
    (done : List Entry) {cur : Entry} {rest : List Entry} (coin : κ) (h : P (done ++ cur :: rest)) :
    P (done ++ (swept budget done.isEmpty cur rest coin).1) := by
  obtain ⟨done', last, hs, hp⟩ := swept_cut_induction (P := fun xs e ys => P (xs ++ e :: ys)) hfold
    (fun xs cur next ys _ h => by rwa [List.append_assoc]) done coin h
  rwa [hs]

/-- What is kept when an end is pinned is kept when both are. -/
theorem pinned_induction {P : List Entry → Prop}
    (hpin : ∀ xs e ys, xs = [] ∨ ys = [] → P (xs ++ e :: ys) → P (xs ++ e.exact :: ys))
    (h : P es) : P (pinned es) := by
  have hhead : P (es.modifyHead Entry.exact) := by
    cases es with
    | nil => exact h
    | cons e es => exact hpin [] e es (.inl rfl) h
  unfold pinned
  rcases List.eq_nil_or_concat (es.modifyHead Entry.exact) with he | ⟨xs, e, he⟩
  · rw [he] at hhead ⊢
    exact hhead
  · rw [he] at hhead ⊢
    rw [List.concat_eq_append, List.modifyLast_concat]
    rw [List.concat_eq_append] at hhead
    exact hpin xs e [] (.inr rfl) hhead

/-- What every fold keeps, and every pinning of an end, is kept by a compression. -/
theorem compressed_induction {P : List Entry → Prop} {budget : Count}
    (hfold : ∀ xs cur next ys keep, Summary.Folds budget xs.isEmpty cur next →
      P (xs ++ cur :: next :: ys) → P (xs ++ cur.foldInto next keep :: ys))
    (hpin : ∀ xs e ys, xs = [] ∨ ys = [] → P (xs ++ e :: ys) → P (xs ++ e.exact :: ys))
    (coin : κ) (h : P es) : P (compressed budget es coin).1 := by
  cases es with
  | nil => exact h
  | cons e es => exact pinned_induction hpin (swept_induction hfold [] coin h)

end Entries
end StreamQuantiles
