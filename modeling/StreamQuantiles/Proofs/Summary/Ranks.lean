import Mathlib.Data.Multiset.Filter
import StreamQuantiles.Proofs.Summary.Merge

/-! What the entries say about the ranks of their values among the observations. Beside the interval
of an entry, a bound on the observations below its value that are not in the entries before it is
carried along: folds of equal values leave entries heavier than the budget, and the bound is what a
new entry in front of them needs. A merge blurs both by a credit. -/
namespace StreamQuantiles
namespace Entries

variable {M : Multiset Measurement} {v w : Measurement} {es xs ys : List Entry} {e : Entry}

lemma countP_le_of_imp {p q : Measurement → Prop} [DecidablePred p] [DecidablePred q]
    (M : Multiset Measurement) (h : ∀ x, p x → q x) : M.countP p ≤ M.countP q := by
  rw [Multiset.countP_eq_card_filter, Multiset.countP_eq_card_filter]
  exact Multiset.card_le_card (Multiset.monotone_filter_right M h)

lemma countP_lt_le_of_le (M : Multiset Measurement) (h : v ≤ w) :
    M.countP (· < v) ≤ M.countP (· < w) :=
  countP_le_of_imp M fun _ hx => Int64.lt_of_lt_of_le hx h

lemma countP_le_le_of_le (M : Multiset Measurement) (h : v ≤ w) :
    M.countP (· ≤ v) ≤ M.countP (· ≤ w) :=
  countP_le_of_imp M fun _ hx => Int64.le_trans hx h

/-- A value that occurs is not below itself. -/
lemma countP_lt_lt_card (h : v ∈ M) : M.countP (· < v) < M.card := by
  obtain ⟨N, rfl⟩ := Multiset.exists_cons_of_mem h
  rw [Multiset.countP_cons_of_neg (p := (· < v)) N Int64.lt_irrefl, Multiset.card_cons]
  exact Nat.lt_succ_of_le (Multiset.countP_le_card _ N)

/-- The entries account for the observations, each once and under a value that occurs. -/
structure Accounts (M : Multiset Measurement) (es : List Entry) : Prop where
  sorted : Sorted es
  positive : ∀ e ∈ es, 1 ≤ e.g.toNat
  observed : ∀ e ∈ es, e.value ∈ M
  total : mass es = M.card

/-- What is known of the rank of an entry behind others, where no entry is uncertain by more than
`b`, and merges have blurred the ranks by `c`. -/
structure Ranked (b c : Nat) (M : Multiset Measurement) (xs : List Entry) (e : Entry) : Prop where
  delta : e.delta.toNat ≤ b
  least : mass xs + e.g.toNat ≤ M.countP (· ≤ e.value)
  greatest : M.countP (· < e.value) + 1 ≤ mass xs + e.g.toNat + e.delta.toNat + c
  gap : M.countP (· < e.value) ≤ mass xs + if xs = [] then 0 else b + c

/-- A statement on every entry behind those before it. -/
def EachCut (P : List Entry → Entry → Prop) (es : List Entry) : Prop :=
  ∀ xs e ys, es = xs ++ e :: ys → P xs e

/-- The entries account for the observations and know their ranks. -/
structure Ranks (b c : Nat) (M : Multiset Measurement) (es : List Entry) : Prop
    extends Accounts M es where
  ranked : EachCut (Ranked b c M) es

section EachCut

variable {P Q : List Entry → Entry → Prop}

lemma EachCut.imp (h : EachCut P es) (hi : ∀ xs, ∀ e ∈ es, P xs e → Q xs e) : EachCut Q es := by
  rintro xs e ys rfl
  exact hi xs e (by simp) (h xs e ys rfl)

lemma eachCut_nil : EachCut P [] := by
  intro xs e ys h
  cases xs <;> cases h

lemma eachCut_cons :
    EachCut P (e :: es) ↔ P [] e ∧ EachCut (fun zs => P (e :: zs)) es := by
  constructor
  · intro h
    refine ⟨h [] e es rfl, ?_⟩
    rintro xs x ys rfl
    exact h (e :: xs) x ys rfl
  · rintro ⟨he, hes⟩ xs x ys h
    cases xs with
    | nil =>
      obtain ⟨rfl, rfl⟩ := List.cons.inj h
      exact he
    | cons z zs =>
      obtain ⟨rfl, rfl⟩ := List.cons.inj h
      exact hes zs x ys rfl

lemma eachCut_append :
    EachCut P (xs ++ ys) ↔ EachCut P xs ∧ EachCut (fun zs => P (xs ++ zs)) ys := by
  induction xs generalizing P with
  | nil => exact ⟨fun h => ⟨eachCut_nil, h⟩, fun h => h.2⟩
  | cons x xs ih =>
    rw [List.cons_append, eachCut_cons, ih, eachCut_cons, and_assoc]
    rfl

lemma eachCut_append_cons :
    EachCut P (xs ++ e :: ys) ↔
      EachCut P xs ∧ P xs e ∧ EachCut (fun zs => P (xs ++ e :: zs)) ys := by
  rw [eachCut_append, eachCut_cons, List.append_nil]

end EachCut

variable {b b' c c' : Nat}

/-- Only the mass before an entry counts, and whether there is any. -/
lemma Ranked.congr (hr : Ranked b c M xs e) (hm : mass ys = mass xs) (hn : ys = [] ↔ xs = []) :
    Ranked b c M ys e where
  delta := hr.delta
  least := by rw [hm]; exact hr.least
  greatest := by rw [hm]; exact hr.greatest
  gap := by simp only [hm, hn]; exact hr.gap

lemma Ranks.mono (hr : Ranks b c M es) (hb : b ≤ b') (hc : c ≤ c') : Ranks b' c' M es where
  toAccounts := hr.toAccounts
  ranked := by
    refine hr.ranked.imp fun xs e _ h => ⟨h.delta.trans hb, h.least, ?_, ?_⟩
    · have := h.greatest
      omega
    · refine h.gap.trans ?_
      split <;> omega

lemma accounts_nil : Accounts 0 [] where
  sorted := List.Pairwise.nil
  positive := by simp
  observed := by simp
  total := rfl

lemma ranks_nil (b c : Nat) : Ranks b c 0 [] where
  toAccounts := accounts_nil
  ranked := eachCut_nil

/-- The entries at or below a value are no heavier than the observations there. -/
lemma Ranks.mass_le_countP (hr : Ranks b c M (xs ++ ys)) (hx : ∀ x ∈ xs, x.value ≤ v) :
    mass xs ≤ M.countP (· ≤ v) := by
  rcases List.eq_nil_or_concat xs with rfl | ⟨zs, e, rfl⟩
  · exact Nat.zero_le _
  · rw [List.concat_eq_append] at hr hx ⊢
    have hleast := (hr.ranked zs e ys (by simp)).least
    have hle := countP_le_le_of_le M (hx e (by simp))
    simp only [mass_append, mass_cons, mass_nil]
    omega

/-- The observations below a value are in the entries before it, but for the budget and the
credit. -/
lemma Ranks.countP_le_mass (hr : Ranks b c M (xs ++ ys)) (hy : ∀ y ∈ ys, v ≤ y.value) :
    M.countP (· < v) ≤ mass xs + if xs = [] then 0 else b + c := by
  cases ys with
  | nil =>
    have htotal := hr.total
    rw [List.append_nil] at htotal
    have := Multiset.countP_le_card (· < v) M
    omega
  | cons y ys =>
    have hgap := (hr.ranked xs y ys rfl).gap
    exact (countP_lt_le_of_le M (hy y (by simp))).trans hgap

/-- Order is a matter of the values alone. -/
lemma Sorted.congr (hs : Sorted xs) (h : ys.map Entry.value = xs.map Entry.value) : Sorted ys := by
  have hv : (xs.map Entry.value).Pairwise (· ≤ ·) := List.pairwise_map.2 hs
  rw [← h] at hv
  exact List.pairwise_map.1 hv

lemma Sorted.fold {cur next : Entry} (hs : Sorted (xs ++ cur :: next :: ys)) (keep : Bool) :
    Sorted (xs ++ cur.foldInto next keep :: ys) := by
  have hsub : (xs ++ next :: ys).Sublist (xs ++ cur :: next :: ys) :=
    List.Sublist.append_left (List.sublist_cons_self _ _) xs
  exact Sorted.congr (hs.sublist hsub) (by simp [Entry.foldInto])

lemma Sorted.pin (hs : Sorted (xs ++ e :: ys)) : Sorted (xs ++ e.exact :: ys) :=
  hs.congr (by simp [Entry.exact])

theorem Accounts.fold {cur next : Entry} (ha : Accounts M (xs ++ cur :: next :: ys))
    (hM : M.card < 2 ^ 64) (keep : Bool) : Accounts M (xs ++ cur.foldInto next keep :: ys) := by
  obtain ⟨hsorted, hpositive, hobserved, htotal⟩ := ha
  simp only [List.forall_mem_append, List.forall_mem_cons] at hpositive hobserved
  simp only [mass_append, mass_cons] at htotal
  have hfits : cur.g.toNat + next.g.toNat < 2 ^ 64 := by omega
  have hg := toNat_foldInto hfits keep
  refine ⟨hsorted.fold keep, ?_, ?_, ?_⟩
  · simp only [List.forall_mem_append, List.forall_mem_cons]
    exact ⟨hpositive.1, by omega, hpositive.2.2.2⟩
  · simp only [List.forall_mem_append, List.forall_mem_cons]
    exact ⟨hobserved.1, hobserved.2.2⟩
  · simp only [mass_append, mass_cons]
    omega

theorem Accounts.pin (ha : Accounts M (xs ++ e :: ys)) : Accounts M (xs ++ e.exact :: ys) := by
  obtain ⟨hsorted, hpositive, hobserved, htotal⟩ := ha
  simp only [List.forall_mem_append, List.forall_mem_cons] at hpositive hobserved
  refine ⟨hsorted.pin, ?_, ?_, ?_⟩
  · simp only [List.forall_mem_append, List.forall_mem_cons]
    exact hpositive
  · simp only [List.forall_mem_append, List.forall_mem_cons]
    exact hobserved
  · rw [← htotal]
    simp only [mass_append, mass_cons]
    rfl

/-- A fold within the budget keeps the ranks. -/
theorem Ranks.fold {budget : Count} {cur next : Entry} (hr : Ranks b c M (xs ++ cur :: next :: ys))
    (hM : M.card < 2 ^ 64) (hb : budget.toNat ≤ b)
    (hf : Summary.Folds budget xs.isEmpty cur next) (keep : Bool) :
    Ranks b c M (xs ++ cur.foldInto next keep :: ys) := by
  refine ⟨hr.toAccounts.fold hM keep, ?_⟩
  have htotal := hr.total
  simp only [mass_append, mass_cons] at htotal
  have hfits : cur.g.toNat + next.g.toNat < 2 ^ 64 := by omega
  have hg := toNat_foldInto hfits keep
  obtain ⟨hxs, hcur, hrest⟩ := eachCut_append_cons.1 hr.ranked
  obtain ⟨hnext, hys⟩ := eachCut_cons.1 hrest
  refine eachCut_append_cons.2 ⟨hxs, ?_, hys.imp fun zs y _ hy => ?_⟩
  · have hgap := hcur.gap
    obtain ⟨hdelta, hleast, hgreatest, -⟩ := hnext
    simp only [mass_append, mass_cons, mass_nil] at hleast hgreatest
    refine ⟨hdelta, ?_, ?_, ?_⟩
    · change _ ≤ M.countP (· ≤ next.value)
      omega
    · change M.countP (· < next.value) + 1 ≤ mass xs + _ + next.delta.toNat + c
      omega
    · change M.countP (· < next.value) ≤ _
      rcases hf with hv | ⟨hx, hlt⟩
      · rwa [← hv]
      · rw [UInt64.lt_iff_toNat_lt, Count.toNat_addSat, Count.toNat_addSat] at hlt
        have hmax := budget.toNat_lt
        have hne : xs ≠ [] := by
          rintro rfl
          cases hx
        rw [if_neg hne]
        omega
  · exact hy.congr (by simp only [mass_append, mass_cons]; omega) (by simp)

/-- The rank of an end is known. -/
theorem Ranks.pin (hr : Ranks b c M (xs ++ e :: ys)) (hend : xs = [] ∨ ys = []) :
    Ranks b c M (xs ++ e.exact :: ys) := by
  refine ⟨hr.toAccounts.pin, ?_⟩
  have htotal := hr.total
  obtain ⟨hxs, he, hys⟩ := eachCut_append_cons.1 hr.ranked
  refine eachCut_append_cons.2 ⟨hxs, ?_, hys.imp fun zs y _ hy => ?_⟩
  · obtain ⟨-, hleast, hgreatest, hgap⟩ := he
    refine ⟨Nat.zero_le _, hleast, ?_, hgap⟩
    change M.countP (· < e.value) + 1 ≤ mass xs + e.g.toNat + 0 + c
    rcases hend with rfl | rfl
    · have := hr.positive e (by simp)
      rw [if_pos rfl] at hgap
      omega
    · have := countP_lt_lt_card (hr.observed e (by simp))
      simp only [mass_append, mass_cons, mass_nil] at htotal
      omega
  · refine hy.congr ?_ (by simp)
    simp only [mass_append, mass_cons]
    rfl

theorem Accounts.compressed {κ : Type} [Coin κ] (ha : Accounts M es) (hM : M.card < 2 ^ 64)
    (budget : Count) (coin : κ) : Accounts M (compressed budget es coin).1 :=
  compressed_induction (fun _ _ _ _ keep _ h => h.fold hM keep) (fun _ _ _ _ h => h.pin) coin ha

/-- A compression within the budget keeps the ranks. -/
theorem Ranks.compressed {κ : Type} [Coin κ] (hr : Ranks b c M es) (hM : M.card < 2 ^ 64)
    {budget : Count} (hb : budget.toNat ≤ b) (coin : κ) :
    Ranks b c M (compressed budget es coin).1 :=
  compressed_induction (fun _ _ _ _ keep hf h => h.fold hM hb hf keep)
    (fun _ _ _ hend h => h.pin hend) coin hr

/-- Where a further observation goes. -/
lemma Sorted.exists_recorded (hs : Sorted es) (v : Measurement) (id : SampleId) (delta : Count) :
    ∃ below above x, es = below ++ above ∧ recorded v id delta es = below ++ x :: above ∧
      (∀ e ∈ below, e.value ≤ v) ∧ (∀ e ∈ above, v < e.value) ∧ x.value = v ∧ x.g.toNat = 1 ∧
      x.delta = if below = [] ∨ above = [] then 0 else delta := by
  refine ⟨es.takeWhile (·.value ≤ v), es.dropWhile (·.value ≤ v), _,
    List.takeWhile_append_dropWhile.symm, rfl, fun e he => key_le_of_mem_takeWhile Entry.value he,
    fun e he => Int64.not_le.1 (not_key_le_of_mem_dropWhile Entry.value hs he), rfl, rfl, ?_⟩
  simp only [List.isEmpty_iff, Bool.or_eq_true]

lemma Sorted.recorded (hs : Sorted es) (v : Measurement) (id : SampleId) (delta : Count) :
    Sorted (recorded v id delta es) := by
  obtain ⟨below, above, x, rfl, hrec, hbelow, habove, rfl, -⟩ := hs.exists_recorded v id delta
  obtain ⟨hl, hh, hlh⟩ := List.pairwise_append.1 hs
  rw [hrec]
  refine List.pairwise_append.2 ⟨hl, List.pairwise_cons.2 ⟨fun e he => ?_, hh⟩, fun e he f hf => ?_⟩
  · exact Int64.le_of_lt (habove e he)
  · rcases List.mem_cons.1 hf with rfl | hf
    · exact hbelow e he
    · exact hlh e he f hf

theorem Accounts.recorded (ha : Accounts M es) (v : Measurement) (id : SampleId) (delta : Count) :
    Accounts (v ::ₘ M) (recorded v id delta es) := by
  have htotal : mass (Entries.recorded v id delta es) = (v ::ₘ M).card := by
    rw [mass_recorded, ha.total, Multiset.card_cons]
  have hrecorded := ha.sorted.recorded v id delta
  obtain ⟨hsorted, hpositive, hobserved, -⟩ := ha
  obtain ⟨below, above, x, rfl, hrec, -, -, rfl, hg, -⟩ := hsorted.exists_recorded v id delta
  replace hobserved : ∀ e ∈ below ++ above, e.value ∈ x.value ::ₘ M :=
    fun e he => Multiset.mem_cons_of_mem (hobserved e he)
  simp only [List.forall_mem_append] at hpositive hobserved
  rw [hrec] at hrecorded htotal ⊢
  refine ⟨hrecorded, ?_, ?_, htotal⟩
  · simp only [List.forall_mem_append, List.forall_mem_cons]
    exact ⟨hpositive.1, hg.ge, hpositive.2⟩
  · simp only [List.forall_mem_append, List.forall_mem_cons]
    exact ⟨hobserved.1, Multiset.mem_cons_self _ M, hobserved.2⟩

/-- A further observation behind an entry. -/
lemma Ranked.cons_of_le (he : Ranked b c M xs e) (h : e.value ≤ v) :
    Ranked b c (v ::ₘ M) xs e := by
  have hlt : (v ::ₘ M).countP (· < e.value) = M.countP (· < e.value) :=
    Multiset.countP_cons_of_neg (p := (· < e.value)) M (Int64.not_lt.2 h)
  have hle : M.countP (· ≤ e.value) ≤ (v ::ₘ M).countP (· ≤ e.value) :=
    Multiset.countP_le_of_le _ (Multiset.le_cons_self M v)
  obtain ⟨hdelta, hleast, hgreatest, hgap⟩ := he
  rw [← hlt] at hgreatest hgap
  exact ⟨hdelta, hleast.trans hle, hgreatest, hgap⟩

/-- A further observation in front of an entry moves both of its ranks on. -/
lemma Ranked.cons_of_lt {x : Entry} {zs : List Entry} (he : Ranked b c M (xs ++ zs) e)
    (h : v < e.value) (hg : x.g.toNat = 1) : Ranked b c (v ::ₘ M) (xs ++ x :: zs) e := by
  have hlt : (v ::ₘ M).countP (· < e.value) = M.countP (· < e.value) + 1 :=
    Multiset.countP_cons_of_pos (p := (· < e.value)) M h
  have hle : (v ::ₘ M).countP (· ≤ e.value) = M.countP (· ≤ e.value) + 1 :=
    Multiset.countP_cons_of_pos (p := (· ≤ e.value)) M (Int64.le_of_lt h)
  have hm : mass (xs ++ x :: zs) = mass (xs ++ zs) + 1 := by
    simp only [mass_append, mass_cons, hg]
    omega
  obtain ⟨hdelta, hleast, hgreatest, hgap⟩ := he
  refine ⟨hdelta, by omega, by omega, ?_⟩
  rw [hlt, hm, if_neg (by simp)]
  split at hgap <;> omega

/-- The entry of a further observation. At an end its rank is known. Between two others no more is
known than how many observations can be below it: those in the entries before it, and those that the
next entry may hide, which the budget bounds. -/
lemma Ranks.ranked_new (hr : Ranks b c M (xs ++ ys)) (hx : ∀ x ∈ xs, x.value ≤ e.value)
    (hy : ∀ y ∈ ys, e.value < y.value) (hg : e.g.toNat = 1)
    (hdelta : e.delta.toNat = if xs = [] ∨ ys = [] then 0 else min b M.card) :
    Ranked b c (e.value ::ₘ M) xs e := by
  have hleast := hr.mass_le_countP hx
  have hgap := hr.countP_le_mass fun y hm => Int64.le_of_lt (hy y hm)
  have hcard := Multiset.countP_le_card (· < e.value) M
  have htotal := hr.total
  rw [mass_append] at htotal
  have hlt : (e.value ::ₘ M).countP (· < e.value) = M.countP (· < e.value) :=
    Multiset.countP_cons_of_neg (p := (· < e.value)) M Int64.lt_irrefl
  have hle : (e.value ::ₘ M).countP (· ≤ e.value) = M.countP (· ≤ e.value) + 1 :=
    Multiset.countP_cons_of_pos (p := (· ≤ e.value)) M (Int64.le_refl e.value)
  refine ⟨?_, by omega, ?_, by rwa [hlt]⟩
  · rw [hdelta]
    split <;> omega
  · rw [hlt, hdelta, hg]
    by_cases hl : xs = []
    · rw [if_pos hl] at hgap
      omega
    · by_cases hh : ys = []
      · rw [hh, mass_nil] at htotal
        omega
      · rw [if_neg (by simp [hl, hh])]
        rw [if_neg hl] at hgap
        omega

/-- A further observation keeps the ranks, if between two others it is as uncertain as the budget
allows, or as the number of observations before it. -/
theorem Ranks.recorded (hr : Ranks b c M es) (hb : b ≤ b') (v : Measurement) (id : SampleId)
    {delta : Count} (hd : delta.toNat = min b' M.card) :
    Ranks b' c (v ::ₘ M) (recorded v id delta es) := by
  refine ⟨hr.toAccounts.recorded v id delta, ?_⟩
  obtain ⟨below, above, x, rfl, hrec, hbelow, habove, rfl, hg, hdelta⟩ :=
    hr.sorted.exists_recorded v id delta
  have hr' := hr.mono hb (Nat.le_refl c)
  obtain ⟨hlow, hhigh⟩ := eachCut_append.1 hr'.ranked
  rw [hrec]
  refine eachCut_append_cons.2 ⟨?_, ?_, ?_⟩
  · exact hlow.imp fun _ e he h => h.cons_of_le (hbelow e he)
  · apply hr'.ranked_new hbelow habove hg
    rw [hdelta, ← hd]
    split <;> rfl
  · exact hhigh.imp fun _ e he h => h.cons_of_lt (habove e he) hg

theorem Accounts.inserted {κ : Type} [Coin κ] (ha : Accounts M es) (hM : (v ::ₘ M).card < 2 ^ 64)
    (a : Accuracy) (n : Count) (due : Bool) (id : SampleId) (coin : κ) :
    Accounts (v ::ₘ M) (inserted a n due v id es coin).1 := by
  unfold Entries.inserted
  split
  · exact (ha.recorded v id _).compressed hM _ coin
  · exact ha.recorded v id _

/-- An insertion keeps the ranks, with whatever sweep it sets off. -/
theorem Ranks.inserted {κ : Type} [Coin κ] {a : Accuracy} {n : Count} (hr : Ranks b c M es)
    (hM : (v ::ₘ M).card < 2 ^ 64) (hb : b ≤ (a.budget (n + 1)).toNat) (hn : n.toNat = M.card)
    (due : Bool) (id : SampleId) (coin : κ) :
    Ranks (a.budget (n + 1)).toNat c (v ::ₘ M) (inserted a (n + 1) due v id es coin).1 := by
  have hd : (min (a.budget (n + 1)) (n + 1 - 1)).toNat = min (a.budget (n + 1)).toNat M.card := by
    rw [Count.toNat_min, UInt64.add_sub_cancel, hn]
  unfold Entries.inserted
  split
  · exact (hr.recorded hb v id hd).compressed hM (Nat.le_refl _) coin
  · exact hr.recorded hb v id hd

theorem Accounts.merged {N : Multiset Measurement} {as bs : List Entry} (ha : Accounts M as)
    (hb : Accounts N bs) : Accounts (M + N) (merged as bs) where
  sorted := ha.sorted.merged hb.sorted
  positive := by
    intro e he
    rcases List.mem_append.1 (merged_perm.mem_iff.1 he) with h | h
    · exact ha.positive e h
    · exact hb.positive e h
  observed := by
    intro e he
    rcases List.mem_append.1 (merged_perm.mem_iff.1 he) with h | h
    · exact Multiset.mem_add.2 (.inl (ha.observed e h))
    · exact Multiset.mem_add.2 (.inr (hb.observed e h))
  total := by
    rw [mass_perm merged_perm, mass_append, ha.total, hb.total, Multiset.card_add]

/-- An entry among those of another list, where its own ranks and the other's add up. -/
lemma Ranked.among {b₁ b₂ c₁ c₂ : Nat} {N : Multiset Measurement} {as bs₁ bs₂ : List Entry}
    (he : Ranked b₁ c₁ M as e) (hb : Ranks b₂ c₂ N (bs₁ ++ bs₂))
    (hl : ∀ x ∈ bs₁, x.value ≤ e.value) (hh : ∀ x ∈ bs₂, e.value ≤ x.value)
    (hp : xs.Perm (as ++ bs₁)) (h₁ : b₁ ≤ b) (h₂ : b₂ ≤ b) :
    Ranked b (c₁ + c₂ + max b₁ b₂) (M + N) xs e := by
  have hle := hb.mass_le_countP hl
  have hlt := hb.countP_le_mass hh
  have hm := mass_perm hp
  have hn : xs = [] → as = [] ∧ bs₁ = [] := by
    rintro rfl
    exact List.append_eq_nil_iff.1 hp.nil_eq.symm
  rw [mass_append] at hm
  obtain ⟨hdelta, hleast, hgreatest, hgap⟩ := he
  refine ⟨hdelta.trans h₁, ?_, ?_, ?_⟩
  · rw [Multiset.countP_add]
    omega
  · rw [Multiset.countP_add]
    split at hlt <;> omega
  · rw [Multiset.countP_add]
    by_cases hx : xs = []
    · obtain ⟨rfl, rfl⟩ := hn hx
      rw [if_pos rfl] at hlt hgap
      omega
    · rw [if_neg hx]
      split at hlt <;> split at hgap <;> omega

/-- A merge adds up the credits, and the larger of the budgets. -/
theorem Ranks.merged {b₁ b₂ c₁ c₂ : Nat} {N : Multiset Measurement} {as bs : List Entry}
    (ha : Ranks b₁ c₁ M as) (hb : Ranks b₂ c₂ N bs) (h₁ : b₁ ≤ b) (h₂ : b₂ ≤ b) :
    Ranks b (c₁ + c₂ + max b₁ b₂) (M + N) (merged as bs) := by
  refine ⟨ha.toAccounts.merged hb.toAccounts, ?_⟩
  intro xs e ys hcut
  have hsorted := ha.sorted.merged hb.sorted
  rw [hcut] at hsorted
  obtain ⟨-, he, hxe⟩ := List.pairwise_append.1 hsorted
  obtain ⟨he, -⟩ := List.pairwise_cons.1 he
  obtain ⟨as₁, as₂, bs₁, bs₂, rfl, rfl, hp, hm⟩ := exists_cut_of_merged hcut
  have hlow : ∀ x ∈ as₁ ++ bs₁, x.value ≤ e.value :=
    fun x hx => hxe x (hp.mem_iff.2 hx) e List.mem_cons_self
  simp only [List.forall_mem_append] at hlow
  rcases eq_cons_of_merged_eq_cons hm with ⟨as', rfl, rfl⟩ | ⟨bs', rfl, rfl⟩
  · have hhigh : ∀ x ∈ bs₂, e.value ≤ x.value := fun x hx =>
      he x (merged_perm.mem_iff.2 (List.mem_append_right _ hx))
    exact (ha.ranked as₁ e as' rfl).among hb hlow.2 hhigh hp h₁ h₂
  · have hhigh : ∀ x ∈ as₂, e.value ≤ x.value := fun x hx =>
      he x (merged_perm.mem_iff.2 (List.mem_append_left _ hx))
    have hr := (hb.ranked bs₁ e bs' rfl).among ha hlow.1 hhigh (hp.trans List.perm_append_comm) h₂ h₁
    rwa [Nat.add_comm c₂, Nat.max_comm b₂, Multiset.add_comm N] at hr

end Entries
end StreamQuantiles
