import Mathlib.Data.List.Nodup
import Mathlib.Data.List.Forall2
import StreamQuantiles.Proofs.Summary.Ranks

/-! Which observations stand behind which entry. Each place of a log of observations belongs to one
entry, so no observation is lost or counted twice, and the sample that an entry keeps is the ID of
one of its own. Folds join the places of two entries; everything else that is done to entries keeps
them together with their places, in whatever order. -/
namespace StreamQuantiles

/-- A measurement together with the ID that it was recorded under. -/
abbrev Observation := Measurement × SampleId

namespace Entry

/-- The entry stands for the observations at some places of a log: as many as it weighs, none above
its value and one of that value. Its one sample is the ID of one of them. -/
structure BackedBy (log : List Observation) (e : Entry) (places : List ℕ) : Prop where
  weight : places.length = e.g.toNat
  bounded : ∀ p ∈ places, ∃ o, log[p]? = some o ∧ o.1 ≤ e.value
  reached : ∃ p ∈ places, ∃ o, log[p]? = some o ∧ o.1 = e.value
  sampled : ∃ p ∈ places, ∃ o, log[p]? = some o ∧ e.samples = [o.2]

variable {log more : List Observation} {e cur next : Entry} {ps qs : List ℕ}

lemma BackedBy.perm (h : e.BackedBy log ps) (hp : ps.Perm qs) : e.BackedBy log qs where
  weight := hp.length_eq.symm.trans h.weight
  bounded := fun p hq => h.bounded p (hp.mem_iff.2 hq)
  reached := by
    obtain ⟨p, hm, ho⟩ := h.reached
    exact ⟨p, hp.mem_iff.1 hm, ho⟩
  sampled := by
    obtain ⟨p, hm, ho⟩ := h.sampled
    exact ⟨p, hp.mem_iff.1 hm, ho⟩

/-- Places keep their observations where those of one log are found, moved, in another. -/
lemma BackedBy.move {log' : List Observation} {f : ℕ → ℕ} (h : e.BackedBy log ps)
    (hf : ∀ p o, log[p]? = some o → log'[f p]? = some o) : e.BackedBy log' (ps.map f) where
  weight := (List.length_map f).trans h.weight
  bounded := by
    intro q hq
    obtain ⟨p, hp, rfl⟩ := List.mem_map.1 hq
    obtain ⟨o, ho, hle⟩ := h.bounded p hp
    exact ⟨o, hf p o ho, hle⟩
  reached := by
    obtain ⟨p, hp, o, ho, hv⟩ := h.reached
    exact ⟨f p, List.mem_map_of_mem hp, o, hf p o ho, hv⟩
  sampled := by
    obtain ⟨p, hp, o, ho, hs⟩ := h.sampled
    exact ⟨f p, List.mem_map_of_mem hp, o, hf p o ho, hs⟩

lemma BackedBy.append_right (h : e.BackedBy log ps) (more : List Observation) :
    e.BackedBy (log ++ more) ps := by
  have hm : e.BackedBy (log ++ more) (ps.map id) := h.move fun p o ho => by
    rw [id, List.getElem?_append_left (List.getElem?_eq_some_iff.1 ho).1, ho]
  rwa [List.map_id] at hm

lemma BackedBy.append_left (h : e.BackedBy more ps) (log : List Observation) :
    e.BackedBy (log ++ more) (ps.map (log.length + ·)) :=
  h.move fun p o ho => by
    rw [List.getElem?_append_right (Nat.le_add_right _ _), Nat.add_sub_cancel_left, ho]

/-- A fold joins the places. -/
lemma BackedBy.fold (hc : cur.BackedBy log ps) (hn : next.BackedBy log qs)
    (hle : cur.value ≤ next.value) (hfits : cur.g.toNat + next.g.toNat < 2 ^ 64) (keep : Bool) :
    (cur.foldInto next keep).BackedBy log (ps ++ qs) where
  weight := by
    rw [List.length_append, hc.weight, hn.weight, Entries.toNat_foldInto hfits]
  bounded := by
    intro p hp
    rcases List.mem_append.1 hp with hp | hp
    · obtain ⟨o, ho, hv⟩ := hc.bounded p hp
      exact ⟨o, ho, Int64.le_trans hv hle⟩
    · exact hn.bounded p hp
  reached := by
    obtain ⟨p, hp, ho⟩ := hn.reached
    exact ⟨p, List.mem_append_right ps hp, ho⟩
  sampled := by
    cases keep with
    | true =>
      obtain ⟨p, hp, ho⟩ := hc.sampled
      exact ⟨p, List.mem_append_left qs hp, ho⟩
    | false =>
      obtain ⟨p, hp, ho⟩ := hn.sampled
      exact ⟨p, List.mem_append_right ps hp, ho⟩

lemma BackedBy.exact (h : e.BackedBy log ps) : e.exact.BackedBy log ps :=
  ⟨h.weight, h.bounded, h.reached, h.sampled⟩

end Entry

namespace Entries

variable {log more : List Observation} {es es' xs ys zs : List Entry} {e cur next : Entry}

/-- The places of the log are shared out among the entries. -/
def Traced (log : List Observation) (es : List Entry) : Prop :=
  ∃ groups : List (List ℕ), groups.flatten.Perm (List.range log.length) ∧
    List.Forall₂ (Entry.BackedBy log) es groups

lemma traced_nil : Traced [] [] := ⟨[], .refl _, .nil⟩

lemma Traced.perm (h : Traced log es) (hp : es'.Perm es) : Traced log es' := by
  obtain ⟨groups, hg, hb⟩ := h
  obtain ⟨groups', hb', hp'⟩ := List.perm_comp_forall₂ hp hb
  exact ⟨groups', hp'.flatten.trans hg, hb'⟩

lemma Traced.append (h : Traced log es) (h' : Traced more es') :
    Traced (log ++ more) (es ++ es') := by
  obtain ⟨groups, hg, hb⟩ := h
  obtain ⟨groups', hg', hb'⟩ := h'
  refine ⟨groups ++ groups'.map (List.map (log.length + ·)), ?_, ?_⟩
  · rw [List.flatten_append, ← List.map_flatten, List.length_append, List.range_add]
    exact hg.append (hg'.map _)
  · refine List.rel_append (hb.imp fun _ _ hp => hp.append_right more) ?_
    exact List.forall₂_map_right_iff.2 (hb'.imp fun _ _ hp => hp.append_left log)

/-- An entry of its own for an observation. -/
lemma traced_single {v : Measurement} {id : SampleId} (hv : e.value = v) (hg : e.g.toNat = 1)
    (hs : e.samples = [id]) : Traced [(v, id)] [e] := by
  refine ⟨[[0]], .refl _, .cons ⟨hg.symm, ?_, ?_, ?_⟩ .nil⟩
  · intro p hp
    obtain rfl := List.mem_singleton.1 hp
    exact ⟨(v, id), rfl, hv ▸ Int64.le_refl v⟩
  · exact ⟨0, List.mem_singleton_self 0, (v, id), rfl, hv.symm⟩
  · exact ⟨0, List.mem_singleton_self 0, (v, id), rfl, hs⟩

/-- The entries weigh as much as there are observations. -/
lemma Traced.mass_eq (h : Traced log es) : mass es = log.length := by
  obtain ⟨groups, hg, hb⟩ := h
  have hlength := hg.length_eq
  rw [List.length_range] at hlength
  rw [← hlength]
  clear hg hlength
  induction hb with
  | nil => rfl
  | cons he _ ih => rw [mass_cons, List.flatten_cons, List.length_append, ih, he.weight]

lemma Traced.fold (h : Traced log (xs ++ cur :: next :: ys)) (hle : cur.value ≤ next.value)
    (hfits : log.length < 2 ^ 64) (keep : Bool) :
    Traced log (xs ++ cur.foldInto next keep :: ys) := by
  have hmass := h.mass_eq
  simp only [mass_append, mass_cons] at hmass
  have hfront : (cur :: next :: (xs ++ ys)).Perm (xs ++ cur :: next :: ys) :=
    ((List.perm_middle.trans (List.perm_middle.cons cur)).symm)
  obtain ⟨groups, hg, hb⟩ := h.perm hfront
  cases hb with
  | cons hcur hb =>
    cases hb with
    | cons hnext hb =>
      refine Traced.perm ⟨_, ?_, .cons (hcur.fold hnext hle (by omega) keep) hb⟩ List.perm_middle
      simpa only [List.flatten_cons, List.append_assoc] using hg

lemma Traced.pin (h : Traced log (xs ++ e :: ys)) : Traced log (xs ++ e.exact :: ys) := by
  obtain ⟨groups, hg, hb⟩ := h.perm List.perm_middle.symm
  cases hb with
  | cons he hb => exact Traced.perm ⟨_, hg, .cons he.exact hb⟩ List.perm_middle

/-- A compression keeps the observations with entries at or above them. -/
theorem Traced.compressed {κ : Type} [Coin κ] (h : Traced log es) (hs : Sorted es)
    (hfits : log.length < 2 ^ 64) (budget : Count) (coin : κ) :
    Traced log (compressed budget es coin).1 := by
  suffices hboth : Sorted (Entries.compressed budget es coin).1 ∧
      Traced log (Entries.compressed budget es coin).1 from hboth.2
  refine compressed_induction (P := fun es => Sorted es ∧ Traced log es) ?_ ?_ coin ⟨hs, h⟩
  · intro xs cur next ys keep _ h
    have hle : cur.value ≤ next.value :=
      (List.pairwise_cons.1 (List.pairwise_append.1 h.1).2.1).1 next List.mem_cons_self
    exact ⟨h.1.fold keep, h.2.fold hle hfits keep⟩
  · intro xs e ys _ h
    exact ⟨h.1.pin, h.2.pin⟩

/-- A further observation has an entry of its own. -/
lemma recorded_perm (v : Measurement) (id : SampleId) (delta : Count) (es : List Entry) :
    ∃ d, (recorded v id delta es).Perm (es ++ [{ Entry.single v id with delta := d }]) := by
  let below := es.takeWhile (·.value ≤ v)
  let above := es.dropWhile (·.value ≤ v)
  let d := if below.isEmpty || above.isEmpty then 0 else delta
  have hp : (recorded v id delta es).Perm ({ Entry.single v id with delta := d } :: (below ++ above)) :=
    List.perm_middle
  have hsplit : below ++ above = es := List.takeWhile_append_dropWhile
  rw [hsplit] at hp
  exact ⟨d, hp.trans (List.perm_append_singleton _ _).symm⟩

theorem Traced.recorded (h : Traced log es) (v : Measurement) (id : SampleId) (delta : Count) :
    Traced (log ++ [(v, id)]) (recorded v id delta es) := by
  obtain ⟨d, hp⟩ := recorded_perm v id delta es
  exact (h.append (traced_single rfl rfl rfl)).perm hp

theorem Traced.merged (h : Traced log es) (h' : Traced more es') :
    Traced (log ++ more) (merged es es') :=
  (h.append h').perm merged_perm

/-- In groups that share no member, each member is in the first group that has it, and in no
other. -/
lemma mem_getElem_iff_findIdx {groups : List (List ℕ)} (hn : groups.flatten.Nodup) {i p : ℕ}
    (hi : i < groups.length) :
    p ∈ groups[i] ↔ p ∈ groups.flatten ∧ groups.findIdx (p ∈ ·) = i := by
  constructor
  · intro hp
    refine ⟨List.mem_flatten_of_mem (List.getElem_mem hi) hp, ?_⟩
    rw [List.findIdx_eq hi]
    refine ⟨decide_eq_true hp, fun j hj => ?_⟩
    have hdisjoint := List.pairwise_iff_getElem.1 (List.nodup_flatten.1 hn).2 j i (hj.trans hi) hi hj
    exact decide_eq_false fun hpj => hdisjoint hpj hp
  · rintro ⟨hp, rfl⟩
    exact of_decide_eq_true (List.findIdx_getElem (p := fun g : List ℕ => decide (p ∈ g)))

/-- Each place has one entry that it belongs to. -/
theorem Traced.exists_owner (h : Traced log es) :
    ∃ owner : ℕ → ℕ, (∀ p < log.length, owner p < es.length) ∧
      ∀ i e, es[i]? = some e →
        Entry.BackedBy log e ((List.range log.length).filter (owner · = i)) := by
  obtain ⟨groups, hg, hb⟩ := h
  have hn : groups.flatten.Nodup := hg.nodup_iff.2 List.nodup_range
  refine ⟨fun p => groups.findIdx (p ∈ ·), ?_, ?_⟩
  · intro p hp
    rw [hb.length_eq, List.findIdx_lt_length]
    obtain ⟨g, hm, hpg⟩ := List.mem_flatten.1 (hg.mem_iff.2 (List.mem_range.2 hp))
    exact ⟨g, hm, decide_eq_true hpg⟩
  · intro i e he
    obtain ⟨hi, rfl⟩ := List.getElem?_eq_some_iff.1 he
    have hi' : i < groups.length := hb.length_eq ▸ hi
    have hbacked : es[i].BackedBy log groups[i] := (List.forall₂_iff_get.1 hb).2 i hi hi'
    refine hbacked.perm ((List.perm_ext_iff_of_nodup ?_ (List.nodup_range.filter _)).2 fun p => ?_)
    · exact (List.nodup_flatten.1 hn).1 _ (List.getElem_mem hi')
    · rw [mem_getElem_iff_findIdx hn hi', hg.mem_iff, List.mem_filter, decide_eq_true_iff]

/-- The sample of the entry is the ID recorded at a place of the log. -/
def SampledAt (log : List Observation) (e : Entry) (p : ℕ) : Prop :=
  ∃ o, log[p]? = some o ∧ e.samples = [o.2]

/-- No two entries have their samples from one observation. -/
theorem Traced.exists_sources (h : Traced log es) :
    ∃ sources : List ℕ, sources.Nodup ∧ List.Forall₂ (SampledAt log) es sources := by
  obtain ⟨groups, hg, hb⟩ := h
  have hn : groups.flatten.Nodup := hg.nodup_iff.2 List.nodup_range
  -- Each source is in its group, and groups share no place.
  suffices hall : ∃ sources : List ℕ, sources.Nodup ∧ sources ⊆ groups.flatten ∧
      List.Forall₂ (SampledAt log) es sources by
    obtain ⟨sources, hs, -, hf⟩ := hall
    exact ⟨sources, hs, hf⟩
  clear hg
  induction hb with
  | nil => exact ⟨[], .nil, List.nil_subset _, .nil⟩
  | @cons e group es groups he _ ih =>
    obtain ⟨-, hrest, hdisjoint⟩ := List.nodup_append'.1 hn
    obtain ⟨sources, hs, hsub, hf⟩ := ih hrest
    obtain ⟨p, hp, hsampled⟩ := he.sampled
    refine ⟨p :: sources, List.nodup_cons.2 ⟨fun hm => ?_, hs⟩, ?_, .cons hsampled hf⟩
    · exact hdisjoint hp (hsub hm)
    · exact List.cons_subset.2
        ⟨List.mem_append_left _ hp, fun q hq => List.mem_append_right _ (hsub hq)⟩

lemma SampledAt.getElem?_ids {p : ℕ} (h : SampledAt log e p) :
    ∃ id, (log.map Prod.snd)[p]? = some id ∧ e.samples = [id] := by
  obtain ⟨o, ho, hs⟩ := h
  exact ⟨o.2, by rw [List.getElem?_map, ho]; rfl, hs⟩

/-- Where no ID is recorded twice, none is kept twice. -/
theorem Traced.nodup_samples (h : Traced log es) (hids : (log.map Prod.snd).Nodup) :
    (es.flatMap Entry.samples).Nodup := by
  obtain ⟨sources, hs, hf⟩ := h.exists_sources
  -- An ID kept twice would be recorded at two sources.
  suffices hboth : (es.flatMap Entry.samples).Nodup ∧
      ∀ id ∈ es.flatMap Entry.samples, ∃ p ∈ sources, (log.map Prod.snd)[p]? = some id from hboth.1
  clear h
  induction hf with
  | nil => exact ⟨.nil, fun id hm => by cases hm⟩
  | @cons e p es sources he _ ih =>
    obtain ⟨hp, hrest⟩ := List.nodup_cons.1 hs
    obtain ⟨hnodup, hmem⟩ := ih hrest
    obtain ⟨id, hid, hsamples⟩ := he.getElem?_ids
    rw [List.flatMap_cons, hsamples, List.singleton_append]
    refine ⟨List.nodup_cons.2 ⟨fun hm => ?_, hnodup⟩, List.forall_mem_cons.2 ⟨?_, ?_⟩⟩
    · obtain ⟨q, hq, hidq⟩ := hmem id hm
      obtain ⟨hlt, -⟩ := List.getElem?_eq_some_iff.1 hid
      obtain rfl := (List.getElem?_inj hlt hids).1 (hid.trans hidq.symm)
      exact hp hq
    · exact ⟨p, List.mem_cons_self, hid⟩
    · intro id' hm
      obtain ⟨q, hq, hidq⟩ := hmem id' hm
      exact ⟨q, List.mem_cons_of_mem p hq, hidq⟩

lemma Traced.backed (h : Traced log es) (he : e ∈ es) : ∃ places, e.BackedBy log places := by
  obtain ⟨groups, -, hb⟩ := h
  induction hb with
  | nil => cases he
  | cons hf _ ih =>
    rcases List.mem_cons.1 he with rfl | he
    · exact ⟨_, hf⟩
    · exact ih he

/-- The value of an entry is that of an observation. -/
lemma Traced.observed (h : Traced log es) (he : e ∈ es) : ∃ o ∈ log, o.1 = e.value := by
  obtain ⟨places, hb⟩ := h.backed he
  obtain ⟨p, -, o, ho, hv⟩ := hb.reached
  exact ⟨o, List.mem_of_getElem? ho, hv⟩

/-- Each observation has an entry at or above it. -/
lemma Traced.exists_ge (h : Traced log es) {o : Observation} (ho : o ∈ log) :
    ∃ e ∈ es, o.1 ≤ e.value := by
  obtain ⟨owner, howner, hb⟩ := h.exists_owner
  obtain ⟨p, hp⟩ := List.mem_iff_getElem?.1 ho
  obtain ⟨hlt, -⟩ := List.getElem?_eq_some_iff.1 hp
  have he := List.getElem?_eq_getElem (howner p hlt)
  have hplace : p ∈ (List.range log.length).filter (owner · = owner p) :=
    List.mem_filter.2 ⟨List.mem_range.2 hlt, decide_eq_true rfl⟩
  obtain ⟨o', ho', hle⟩ := (hb _ _ he).bounded p hplace
  obtain rfl := Option.some.inj (hp.symm.trans ho')
  exact ⟨_, List.getElem_mem _, hle⟩

/-- Where no observation is below an entry, its sample was recorded with its very value. -/
theorem Traced.sampled_of_least (h : Traced log es) (he : e ∈ es)
    (hleast : ∀ o ∈ log, e.value ≤ o.1) : ∃ o ∈ log, o.1 = e.value ∧ e.samples = [o.2] := by
  obtain ⟨places, hb⟩ := h.backed he
  obtain ⟨p, hp, o, ho, hs⟩ := hb.sampled
  obtain ⟨o', ho', hle⟩ := hb.bounded p hp
  obtain rfl := Option.some.inj (ho.symm.trans ho')
  have hm := List.mem_of_getElem? ho
  exact ⟨o, hm, Int64.le_antisymm hle (hleast o hm), hs⟩

end Entries
end StreamQuantiles
