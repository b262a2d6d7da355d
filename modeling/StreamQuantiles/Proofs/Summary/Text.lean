import StreamQuantiles.Proofs.Json.Records
import StreamQuantiles.Proofs.Summary.Reachable

/-! The JSON form of a summary is that of its snapshot, and it is read as the same snapshot. -/
namespace StreamQuantiles

namespace Snapshot

lemma ofText?_toText (t : Snapshot) : ofText? t.toText = some t := by
  have hvalue : Json.Value.ofText? t.toText = some t.toValue := by
    rw [Json.Value.ofText?, t.read?_toText]
    rfl
  rw [ofText?, hvalue]
  exact t.ofValue?_toValue

end Snapshot

namespace Summary

variable {σ κ σ' κ' : Type} {s : Summary σ κ} {t : Snapshot}

/-- Written entry by entry, a summary has the text of what it contains. -/
lemma Contains.toText (h : s.Contains t) : s.toText = .ok t.toText := by
  obtain ⟨cells, hr, hdata⟩ := h.holds
  have hentries : (cells.map Cell.handle).mapM (fun h => do
      return (← s.store.get h).write) = .ok (t.data.map Entry.write) := by
    rw [List.mapM_map, ← hdata, List.map_map]
    refine Skiplist.mapM_eq_ok fun c hc => ?_
    change (do return (← s.store.get c.handle).write : Except Fault _) = _
    rw [hr.get hc]
    rfl
  rw [Summary.toText, hr.handles, ok_bind, hentries, ok_bind, h.count]
  rfl

variable [LevelSource σ]

/-- The text of a snapshot makes what the snapshot makes to the default accuracy. -/
lemma ofText_toText (levels : σ) (coin : κ) (t : Snapshot) :
    ofText levels coin t.toText = ofSnapshot {} levels coin t := by
  have hread : Snapshot.read? t.toText.toList = some (t, []) := by
    rw [Snapshot.read?, t.read?_toText]
    change (Snapshot.ofValue? t.toValue >>= fun t => some (t, [])) = _
    rw [t.ofValue?_toValue]
    rfl
  rw [ofText, hread]
  change (ofSnapshot {} levels coin t >>= fun s => .ok s) = _
  cases ofSnapshot {} levels coin t <;> rfl

variable [Coin κ] [LevelSource σ']

/-- A summary and its snapshot have one text, and a summary read from it has the default accuracy
and the same snapshot. Every snapshot is read from its text, and makes a summary exactly if it
passes its check. -/
theorem text_roundTrip (levels : σ') (coin : κ') :
    (∀ s : Summary σ κ, Reachable s →
      ∃ t, s.snapshot = .ok t ∧ s.toText = .ok t.toText ∧
        ∃ r, ofText levels coin t.toText = .ok r ∧ r.accuracy = {} ∧ r.snapshot = .ok t) ∧
    ∀ t : Snapshot, Snapshot.ofText? t.toText = some t ∧
      ((∃ r, ofText levels coin t.toText = .ok r) ↔ t.check = .ok ()) := by
  have hvalid : ({} : Accuracy).valid := by decide +kernel
  refine ⟨fun s hr => ?_, fun t => ⟨t.ofText?_toText, ?_⟩⟩
  · obtain ⟨-, t, hc⟩ := hr.exists_contains
    obtain ⟨r, hs, hc', ha⟩ := exists_ofSnapshot levels coin hvalid hc.consistent
    refine ⟨t, hc.snapshot, hc.toText, r, ?_, ha, hc'.snapshot⟩
    rw [ofText_toText, hs]
  · rw [ofText_toText, Snapshot.check_eq_ok_iff]
    constructor
    · rintro ⟨r, hs⟩
      by_contra ht
      obtain ⟨c, hrefused⟩ := ofSnapshot_eq_error levels coin hvalid ht
      cases hs.symm.trans hrefused
    · intro ht
      obtain ⟨r, hs, -⟩ := exists_ofSnapshot levels coin hvalid ht
      exact ⟨r, hs⟩

/-- The least and the largest measurement, and the largest name of a sample. -/
theorem text_roundTrip_extremes :
    ∃ (s : Summary CyclicLevels CyclicBits) (text : String) (r : Summary LevelRule Xoshiro),
      ofSnapshot ⟨0.25⟩ ⟨[40, 0], 0⟩ ⟨[true], 0⟩
        ⟨[⟨-9223372036854775808, 1, 0, [18446744073709551615, 0]⟩,
          ⟨9223372036854775807, 2, 3, []⟩], 3⟩ = .ok s ∧
      s.toText = .ok text ∧ ofText (LevelRule.seeded 7) (Xoshiro.ofSeed 7) text = .ok r ∧
      r.accuracy = {} ∧
      r.snapshot = .ok ⟨[⟨-9223372036854775808, 1, 0, [18446744073709551615, 0]⟩,
        ⟨9223372036854775807, 2, 3, []⟩], 3⟩ := by
  obtain ⟨s, hs, hc, -⟩ := exists_ofSnapshot (a := ⟨0.25⟩)
    (t := ⟨[⟨-9223372036854775808, 1, 0, [18446744073709551615, 0]⟩,
      ⟨9223372036854775807, 2, 3, []⟩], 3⟩)
    (⟨[40, 0], 0⟩ : CyclicLevels) (⟨[true], 0⟩ : CyclicBits) (by decide +kernel) (by decide)
  obtain ⟨hread, -⟩ := text_roundTrip (σ := CyclicLevels) (κ := CyclicBits)
    (LevelRule.seeded 7) (Xoshiro.ofSeed 7)
  obtain ⟨t, ht, htext, r, hr, ha, hsame⟩ := hread s (.loaded hs)
  cases hc.snapshot.symm.trans ht
  exact ⟨s, _, r, hs, htext, hr, ha, hsame⟩

end Summary
end StreamQuantiles
