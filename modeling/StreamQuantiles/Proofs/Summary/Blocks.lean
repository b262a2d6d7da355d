import Mathlib.Data.List.Chain
import StreamQuantiles.Proofs.Summary.Reachable

/-! A compression block by block. From the left, a block takes in the entry after it as long as it
may, and becomes one entry. The entry under way carries the weight of its whole block, so to decide
on the next one a sweep needs to look at no more than a pair. -/
namespace StreamQuantiles
namespace Entries

variable {budget : Count} {isFirst : Bool} {block es es' folded : List Entry} {cur next : Entry}
  {bs : List (List Entry)}

/-- Whether a block takes in the entry after it: one of its last value always, and any other if the
block is not the first and what is left uncertain stays below the budget. -/
def Absorbs (budget : Count) (isFirst : Bool) (block : List Entry) (next : Entry) : Prop :=
  block.getLast?.map Entry.value = some next.value ∨
    isFirst = false ∧ mass block + next.g.toNat + next.delta.toNat < budget.toNat

instance : Decidable (Absorbs budget isFirst block next) := by
  unfold Absorbs; infer_instance

/-- The block under way, with all that it takes in, and the blocks after it. -/
def blocksFrom (budget : Count) : Bool → List Entry → List Entry → List (List Entry)
  | _, block, [] => [block]
  | isFirst, block, next :: rest =>
    if Absorbs budget isFirst block next then blocksFrom budget isFirst (block ++ [next]) rest
    else block :: blocksFrom budget false [next] rest

/-- The entries, cut into blocks. -/
def blocks (budget : Count) : List Entry → List (List Entry)
  | [] => []
  | e :: es => blocksFrom budget true [e] es

example : blocks 4 [⟨1, 1, 0, []⟩, ⟨1, 1, 0, []⟩, ⟨2, 1, 1, []⟩, ⟨3, 1, 0, []⟩, ⟨4, 1, 2, []⟩] =
    [[⟨1, 1, 0, []⟩, ⟨1, 1, 0, []⟩], [⟨2, 1, 1, []⟩, ⟨3, 1, 0, []⟩], [⟨4, 1, 2, []⟩]] := by
  decide

/-- Every entry of a block but the first was taken in by those before it. -/
def Grown (budget : Count) (isFirst : Bool) (block : List Entry) : Prop :=
  ∀ xs next ys, block = xs ++ next :: ys → xs ≠ [] → Absorbs budget isFirst xs next

/-- Blocks of which none is empty, and each goes on exactly as long as it takes in the next entry. -/
inductive Greedy (budget : Count) : Bool → List (List Entry) → Prop where
  | nil {isFirst : Bool} : Greedy budget isFirst []
  | cons {isFirst : Bool} {block : List Entry} {bs : List (List Entry)} (nonempty : block ≠ [])
      (grown : Grown budget isFirst block)
      (ends : ∀ next ∈ bs.flatten.head?, ¬ Absorbs budget isFirst block next)
      (rest : Greedy budget false bs) : Greedy budget isFirst (block :: bs)

/-- An entry stands for a block: it has the value and the `delta` of the last of its entries, the
weight of all and the samples of one. -/
structure StandsFor (e : Entry) (block : List Entry) : Prop where
  last : ∃ last, block.getLast? = some last ∧ e.value = last.value ∧ e.delta = last.delta
  weight : e.g.toNat = mass block
  samples : ∃ member ∈ block, e.samples = member.samples

lemma flatten_blocksFrom (budget : Count) (isFirst : Bool) (block es : List Entry) :
    (blocksFrom budget isFirst block es).flatten = block ++ es := by
  induction es generalizing isFirst block with
  | nil => simp [blocksFrom]
  | cons next rest ih =>
    rw [blocksFrom]
    split
    · rw [ih, List.append_assoc, List.singleton_append]
    · rw [List.flatten_cons, ih, List.singleton_append]

lemma flatten_blocks (budget : Count) (es : List Entry) : (blocks budget es).flatten = es := by
  cases es with
  | nil => rfl
  | cons e es => exact flatten_blocksFrom budget true [e] es

lemma grown_single (e : Entry) : Grown budget isFirst [e] := by
  intro xs next ys hcut hxs
  obtain ⟨x, xs, rfl⟩ := List.exists_cons_of_ne_nil hxs
  simp at hcut

lemma Grown.concat (h : Grown budget isFirst block) (habsorbs : Absorbs budget isFirst block next) :
    Grown budget isFirst (block ++ [next]) := by
  intro xs e ys hcut hxs
  rcases List.eq_nil_or_concat ys with rfl | ⟨zs, z, rfl⟩
  · obtain ⟨rfl, he⟩ := List.append_inj' hcut rfl
    cases he
    exact habsorbs
  · rw [List.concat_eq_append, ← List.cons_append, ← List.append_assoc] at hcut
    exact h xs e zs (List.append_inj' hcut rfl).1 hxs

lemma greedy_blocksFrom (hne : block ≠ []) (hgrown : Grown budget isFirst block)
    (es : List Entry) : Greedy budget isFirst (blocksFrom budget isFirst block es) := by
  induction es generalizing isFirst block with
  | nil => exact .cons hne hgrown (by simp) .nil
  | cons next rest ih =>
    rw [blocksFrom]
    split
    · next habsorbs =>
      exact ih (List.append_ne_nil_of_right_ne_nil _ (List.cons_ne_nil _ _)) (hgrown.concat habsorbs)
    · next habsorbs =>
      refine .cons hne hgrown ?_ (ih (List.cons_ne_nil _ _) (grown_single next))
      rw [flatten_blocksFrom]
      rintro e ⟨⟩
      exact habsorbs

lemma greedy_blocks (budget : Count) (es : List Entry) : Greedy budget true (blocks budget es) := by
  cases es with
  | nil => exact .nil
  | cons e es => exact greedy_blocksFrom (List.cons_ne_nil _ _) (grown_single e) es

lemma standsFor_single (e : Entry) : StandsFor e [e] :=
  ⟨⟨e, rfl, rfl, rfl⟩, rfl, e, List.mem_singleton_self e, rfl⟩

/-- The pair decides as the whole block does. -/
lemma StandsFor.folds_iff (h : StandsFor cur block) (isFirst : Bool) :
    Summary.Folds budget isFirst cur next ↔ Absorbs budget isFirst block next := by
  obtain ⟨last, hlast, hvalue, -⟩ := h.last
  rw [Summary.Folds, Absorbs, Count.addSat_addSat_lt_iff, h.weight, hvalue, hlast, Option.map_some,
    Option.some.injEq]

lemma StandsFor.foldInto (h : StandsFor cur block) (hfits : mass block + next.g.toNat < 2 ^ 64)
    (keep : Bool) : StandsFor (cur.foldInto next keep) (block ++ [next]) where
  last := ⟨next, List.getLast?_concat, rfl, rfl⟩
  weight := by
    rw [toNat_foldInto (by rwa [h.weight]), h.weight, mass_append]
    rfl
  samples := by
    cases keep with
    | true =>
      obtain ⟨member, hm, hs⟩ := h.samples
      exact ⟨member, List.mem_append_left _ hm, hs⟩
    | false => exact ⟨next, List.mem_append_right _ (List.mem_singleton_self _), rfl⟩

/-- A sweep leaves one entry for each block. -/
lemma StandsFor.swept {κ : Type} [Coin κ] (h : StandsFor cur block)
    (hfits : mass block + mass es < 2 ^ 64) (isFirst : Bool) (coin : κ) :
    List.Forall₂ StandsFor (swept budget isFirst cur es coin).1
      (blocksFrom budget isFirst block es) := by
  induction es generalizing isFirst block cur coin with
  | nil => exact .cons h .nil
  | cons next rest ih =>
    rw [mass_cons] at hfits
    rw [blocksFrom]
    by_cases hf : Summary.Folds budget isFirst cur next
    · rw [swept_of_folds hf, if_pos ((h.folds_iff isFirst).1 hf)]
      refine ih (h.foldInto (by omega) _) ?_ isFirst _
      rw [mass_append, mass_cons, mass_nil]
      omega
    · rw [swept_of_not_folds hf, if_neg (mt (h.folds_iff isFirst).2 hf)]
      refine .cons h (ih (standsFor_single next) ?_ false coin)
      rw [mass_cons, mass_nil]
      omega

section Consequences

variable (h : List.Forall₂ StandsFor folded bs)
include h

/-- The entries of the blocks weigh as much as those of the list. -/
lemma mass_of_standsFor : mass folded = mass bs.flatten := by
  induction h with
  | nil => rfl
  | cons he _ ih => rw [mass_cons, List.flatten_cons, mass_append, he.weight, ih]

/-- Every value is that of an entry of the list. -/
lemma exists_of_standsFor {e : Entry} (he : e ∈ folded) :
    ∃ member ∈ bs.flatten, e.value = member.value := by
  induction h with
  | nil => cases he
  | @cons e' block _ bs hs _ ih =>
    rcases List.mem_cons.1 he with rfl | he
    · obtain ⟨last, hlast, hvalue, -⟩ := hs.last
      exact ⟨last, List.mem_append_left _ (List.mem_of_getLast? hlast), hvalue⟩
    · obtain ⟨member, hm, hvalue⟩ := ih he
      exact ⟨member, List.mem_append_right _ hm, hvalue⟩

lemma getLast?_value_of_standsFor :
    folded.getLast?.map Entry.value = bs.flatten.getLast?.map Entry.value := by
  induction h with
  | nil => rfl
  | @cons e block folded bs hs hrest ih =>
    obtain ⟨last, hlast, hvalue, -⟩ := hs.last
    rw [List.flatten_cons, List.getLast?_append, List.getLast?_cons, hlast]
    cases hf : folded.getLast? with
    | none =>
      rw [hf] at ih
      rw [Option.map_eq_none_iff.1 ih.symm]
      exact congrArg some hvalue
    | some e' =>
      rw [hf] at ih
      obtain ⟨last', hlast', hvalue'⟩ := Option.map_eq_some_iff.1 ih.symm
      rw [hlast']
      exact congrArg some hvalue'.symm

end Consequences

/-- The values of a first block are all the same. -/
lemma Grown.value_eq (hg : Grown budget true (cur :: block)) {e : Entry} (he : e ∈ cur :: block) :
    e.value = cur.value := by
  have hchain : (cur :: block).IsChain fun x y => x.value = y.value := by
    rw [List.isChain_iff_forall_rel_of_append_cons_cons]
    intro x y xs ys hcut
    have hcut : cur :: block = (xs ++ [x]) ++ y :: ys := by simpa using hcut
    rcases hg _ _ _ hcut (by simp) with hvalue | ⟨hfalse, -⟩
    · rw [List.getLast?_concat] at hvalue
      exact Option.some.inj hvalue
    · cases hfalse
  have : IsTrans Entry fun x y => x.value = y.value := ⟨fun _ _ _ => Eq.trans⟩
  rcases List.mem_cons.1 he with rfl | he
  · rfl
  · exact ((List.pairwise_cons.1 hchain.pairwise).1 e he).symm

lemma Greedy.length_le (hg : Greedy budget isFirst bs) : bs.length ≤ bs.flatten.length := by
  induction hg with
  | nil => rfl
  | cons hne _ _ _ ih =>
    have hpos := List.length_pos_of_ne_nil hne
    rw [List.flatten_cons, List.length_append, List.length_cons]
    omega

/-- A block ends below the entry after it, so the entries of the blocks ascend strictly. -/
lemma Greedy.pairwise_lt (hg : Greedy budget isFirst bs) (hs : Sorted bs.flatten)
    (h : List.Forall₂ StandsFor folded bs) : folded.Pairwise (·.value < ·.value) := by
  induction hg generalizing folded with
  | nil =>
    cases h
    exact .nil
  | @cons isFirst block bs hne hgrown hends hrest ih =>
    obtain ⟨e, folded, he, hfolded, rfl⟩ := List.forall₂_cons_right_iff.1 h
    rw [List.flatten_cons] at hs
    obtain ⟨-, hsorted, hcross⟩ := List.pairwise_append.1 hs
    refine List.pairwise_cons.2 ⟨fun e' he' => ?_, ih hsorted hfolded⟩
    obtain ⟨last, hlast, hvalue, -⟩ := he.last
    obtain ⟨member, hmember, hvalue'⟩ := exists_of_standsFor hfolded he'
    -- `next` opens the block after this one, which did not take it in.
    obtain ⟨next, more, hmore⟩ := List.exists_cons_of_ne_nil (List.ne_nil_of_mem hmember)
    rw [hmore] at hsorted hmember hends hcross
    have hle : last.value ≤ next.value :=
      hcross last (List.mem_of_getLast? hlast) next List.mem_cons_self
    have hnot : last.value ≠ next.value := by
      intro heq
      refine hends next rfl (.inl ?_)
      rw [hlast, ← heq]
      rfl
    have hnext : next.value ≤ member.value := by
      rcases List.mem_cons.1 hmember with rfl | hmember
      · exact Int64.le_refl _
      · exact (List.pairwise_cons.1 hsorted).1 member hmember
    rw [hvalue, hvalue']
    exact Int64.lt_of_lt_of_le (Int64.lt_of_le_of_ne hle hnot) hnext

/-- All entries of the first block have the first value. -/
lemma Greedy.least (hg : Greedy budget true bs) (hb : block ∈ bs.head?) {e : Entry}
    (he : e ∈ block) : bs.flatten.head?.map Entry.value = some e.value := by
  cases hg with
  | nil => cases hb
  | cons hne hgrown _ _ =>
    cases hb
    obtain ⟨cur, rest, rfl⟩ := List.exists_cons_of_ne_nil hne
    exact congrArg some (hgrown.value_eq he).symm

lemma Greedy.head?_value (hg : Greedy budget true bs) (h : List.Forall₂ StandsFor folded bs) :
    folded.head?.map Entry.value = bs.flatten.head?.map Entry.value := by
  cases h with
  | nil => rfl
  | @cons e block folded bs he _ =>
    obtain ⟨last, hlast, hvalue, -⟩ := he.last
    rw [hg.least rfl (List.mem_of_getLast? hlast)]
    exact congrArg some hvalue

/-- Pinning changes nothing but the ranks of the ends. -/
lemma map_pinned {β : Type} (f : Entry → β) (hf : ∀ e, f e.exact = f e) (es : List Entry) :
    (pinned es).map f = es.map f := by
  refine pinned_induction (P := fun xs => xs.map f = es.map f) ?_ rfl
  intro xs e ys _ h
  rw [List.map_append, List.map_cons, hf]
  rwa [List.map_append, List.map_cons] at h

/-- What a compression to a budget makes of entries. -/
structure Compacts (budget : Count) (es es' : List Entry) : Prop where
  flatten : (blocks budget es).flatten = es
  greedy : Greedy budget true (blocks budget es)
  /-- Each block becomes one entry, and the ranks of both ends are known. -/
  folded : ∃ folded, List.Forall₂ StandsFor folded (blocks budget es) ∧ es' = pinned folded
  ascending : es'.Pairwise (·.value < ·.value)
  length : es'.length ≤ es.length
  mass : mass es' = mass es
  first : es'.head?.map Entry.value = es.head?.map Entry.value
  last : es'.getLast?.map Entry.value = es.getLast?.map Entry.value
  /-- Only equal values go into the first block. -/
  least : ∀ block ∈ (blocks budget es).head?, ∀ e ∈ block,
    es.head?.map Entry.value = some e.value

/-- One entry for each block is all that the rest follows from. -/
lemma compacts_of_standsFor (hs : Sorted es)
    (h : List.Forall₂ StandsFor folded (blocks budget es)) : Compacts budget es (pinned folded) := by
  have hflat := flatten_blocks budget es
  have hgreedy := greedy_blocks budget es
  have hvalues : (pinned folded).map Entry.value = folded.map Entry.value :=
    map_pinned Entry.value (fun _ => rfl) folded
  refine ⟨hflat, hgreedy, ⟨folded, h, rfl⟩, ?_, ?_, ?_, ?_, ?_, ?_⟩
  · have hlt := hgreedy.pairwise_lt (hflat.symm ▸ hs) h
    rw [← List.pairwise_map] at hlt ⊢
    rwa [hvalues]
  · have hlen := congrArg List.length hvalues
    have hle := hgreedy.length_le
    rw [List.length_map, List.length_map, h.length_eq] at hlen
    rw [hflat] at hle
    rwa [hlen]
  · have hweights := map_pinned (fun e => e.g.toNat) (fun _ => rfl) folded
    have hmass := mass_of_standsFor h
    rw [hflat] at hmass
    exact (congrArg List.sum hweights).trans hmass
  · have hhead := hgreedy.head?_value h
    rwa [hflat, ← List.head?_map, ← hvalues, List.head?_map] at hhead
  · have hlast := getLast?_value_of_standsFor h
    rwa [hflat, ← List.getLast?_map, ← hvalues, List.getLast?_map] at hlast
  · intro block hblock e he
    have hleast := hgreedy.least hblock he
    rwa [hflat] at hleast

lemma compacts_compressed {κ : Type} [Coin κ] (budget : Count) (hs : Sorted es)
    (hfits : mass es < 2 ^ 64) (coin : κ) : Compacts budget es (compressed budget es coin).1 := by
  cases es with
  | nil => exact compacts_of_standsFor hs .nil
  | cons e es =>
    have hswept : List.Forall₂ StandsFor (swept budget true e es coin).1 (blocks budget (e :: es)) :=
      (standsFor_single e).swept (by simpa using hfits) true coin
    exact compacts_of_standsFor hs hswept

end Entries

namespace Summary

open Entries

variable {σ κ : Type} [LevelSource σ] [Coin κ] {s : Summary σ κ}

/-- A compression joins the entries block by block, each block greedily from the left, and changes
nothing but the entries and the state of the coins. -/
theorem Reachable.compress_compacts (hr : Reachable s) :
    ∃ es s' es', s.entries = .ok es ∧ s.compress = .ok s' ∧ s'.entries = .ok es' ∧
      Compacts s.budget es es' ∧ s'.n = s.n ∧ s'.accuracy = s.accuracy ∧ s'.period = s.period ∧
      s'.sinceSweep = s.sinceSweep := by
  obtain ⟨-, t, hc⟩ := hr.exists_contains
  obtain ⟨s', hs', hb⟩ := hc.exists_compress
  have hfits : mass t.data < 2 ^ 64 := by
    rw [hc.mass_eq]
    exact s.n.toNat_lt
  refine ⟨t.data, s', _, hc.entries, hs', hb.contains.entries,
    compacts_compressed s.budget hc.consistent.ascending hfits s.coin, ?_, hb.accuracy, hb.period,
    hb.sinceSweep⟩
  rw [hb.contains.count, hc.count]

/-- Equal values at the lower end, a block of two values, and an entry too heavy for any. -/
theorem Reachable.compress_compacts_ties :
    ∃ s s' : Summary CyclicLevels CyclicBits, ∃ es',
      ofSnapshot ⟨0.25⟩ ⟨[40, 0], 0⟩ ⟨[true, false], 0⟩
        ⟨[⟨1, 1, 0, [4]⟩, ⟨1, 1, 0, [7]⟩, ⟨2, 1, 1, [9]⟩, ⟨3, 1, 0, []⟩, ⟨4, 3, 0, [8]⟩], 7⟩ =
          .ok s ∧
      s.compress = .ok s' ∧ s'.entries = .ok es' ∧
      Compacts s.budget
        [⟨1, 1, 0, [4]⟩, ⟨1, 1, 0, [7]⟩, ⟨2, 1, 1, [9]⟩, ⟨3, 1, 0, []⟩, ⟨4, 3, 0, [8]⟩] es' := by
  obtain ⟨s, hs, hc, -⟩ := exists_ofSnapshot (a := ⟨0.25⟩)
    (t := ⟨[⟨1, 1, 0, [4]⟩, ⟨1, 1, 0, [7]⟩, ⟨2, 1, 1, [9]⟩, ⟨3, 1, 0, []⟩, ⟨4, 3, 0, [8]⟩], 7⟩)
    (⟨[40, 0], 0⟩ : CyclicLevels) (⟨[true, false], 0⟩ : CyclicBits) (by decide +kernel) (by decide)
  obtain ⟨es, s', es', hes, hs', hes', hcompacts, -⟩ := (Reachable.loaded hs).compress_compacts
  obtain rfl := Except.ok.inj (hc.entries.symm.trans hes)
  exact ⟨s, s', es', hs, hs', hes', hcompacts⟩

end Summary
end StreamQuantiles
