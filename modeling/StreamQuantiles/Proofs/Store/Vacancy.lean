import Mathlib.Data.List.Nodup
import Mathlib.Logic.Function.Basic
import Mathlib.Tactic.Lemma
import StreamQuantiles.Store.Arena

/-! The chain of free slots. Seen from outside an arena is a partial map from slots to values; behind
it every free slot stands on the chain exactly once, and no slot in use does. -/
namespace StreamQuantiles

def Slot.value? {β : Type} : Slot β → Option β
  | occupied b => some b
  | vacant _ => none

namespace Arena

variable {β : Type} {a a' : Arena β} {free : List Nat} {i : Nat} {b : β}

/-- The value of a slot in use. -/
def content (a : Arena β) (i : Nat) : Option β :=
  match a.slots[i]? with
  | some (.occupied b) => some b
  | _ => none

lemma content_eq_some_iff :
    a.content i = some b ↔ a.slots[i]? = some (.occupied b) := by
  unfold content
  split <;> simp_all

lemma get_eq_ok_iff_content :
    a.get i = .ok b ↔ a.content i = some b := by
  rw [get_eq_ok_iff, content_eq_some_iff]

lemma lt_size_of_content (h : a.content i = some b) : i < a.size := by
  rw [content_eq_some_iff, Array.getElem?_eq_some_iff] at h
  exact h.1

@[simp] lemma content_empty (i : Nat) : (({} : Arena β)).content i = none := by
  simp [content]

/-- The free slots from a link on, each leading to the one to take after it. -/
def FreeFrom (a : Arena β) : Option Nat → List Nat → Prop
  | link, [] => link = none
  | link, i :: rest =>
    link = some i ∧ ∃ next, a.slots[i]? = some (.vacant next) ∧ a.FreeFrom next rest

/-- The chain of free slots is `free`, without repetition, and leaves out no free slot. -/
structure Vacancies (a : Arena β) (free : List Nat) : Prop where
  chain : a.FreeFrom a.free free
  nodup : free.Nodup
  complete : ∀ i next, a.slots[i]? = some (.vacant next) → i ∈ free

lemma vacancies_empty : Vacancies ({} : Arena β) [] :=
  ⟨rfl, List.nodup_nil, by simp⟩

/-- Only the slots on the chain matter to it. -/
lemma FreeFrom.congr (h : ∀ i ∈ free, a'.slots[i]? = a.slots[i]?) {link : Option Nat}
    (hf : a.FreeFrom link free) : a'.FreeFrom link free := by
  induction free generalizing link with
  | nil => exact hf
  | cons i rest ih =>
    obtain ⟨rfl, next, hi, hr⟩ := hf
    refine ⟨rfl, next, ?_, ih (fun j hj => h j (List.mem_cons_of_mem _ hj)) hr⟩
    rw [h i List.mem_cons_self, hi]

lemma FreeFrom.vacant {link : Option Nat} (hf : a.FreeFrom link free) (hi : i ∈ free) :
    ∃ next, a.slots[i]? = some (.vacant next) := by
  induction free generalizing link with
  | nil => cases hi
  | cons j rest ih =>
    obtain ⟨rfl, next, hj, hr⟩ := hf
    rcases List.mem_cons.1 hi with rfl | hi
    · exact ⟨next, hj⟩
    · exact ih hr hi

/-- No slot in use is on the chain. -/
lemma Vacancies.content_eq_none (hv : a.Vacancies free) (hi : i ∈ free) : a.content i = none := by
  obtain ⟨next, h⟩ := hv.chain.vacant hi
  simp [content, h]

lemma Vacancies.not_mem (hv : a.Vacancies free) (h : a.content i = some b) : i ∉ free := by
  intro hi
  rw [hv.content_eq_none hi] at h
  cases h

section

variable (slot : Slot β) (first : Option Nat)

/-- A slot written over holds what was written, and the others are left. -/
lemma content_setIfInBounds (hi : i < a.slots.size) :
    content ⟨a.slots.setIfInBounds i slot, first⟩ = Function.update a.content i slot.value? := by
  funext j
  by_cases hj : j = i
  · subst hj
    cases slot <;> simp [content, Slot.value?, hi]
  · rw [Function.update_of_ne hj]
    simp [content, Array.getElem?_setIfInBounds_ne (Ne.symm hj)]

/-- A slot off the chain can be written over. -/
lemma FreeFrom.setIfInBounds {link : Option Nat} (hf : a.FreeFrom link free) (hi : i ∉ free) :
    FreeFrom ⟨a.slots.setIfInBounds i slot, first⟩ link free := by
  apply hf.congr
  intro j hj
  apply Array.getElem?_setIfInBounds_ne
  rintro rfl
  exact hi hj

/-- Every other slot that is free was free before. -/
lemma Vacancies.eq_or_mem (hv : a.Vacancies free) {j : Nat} {next : Option Nat}
    (hj : (a.slots.setIfInBounds i slot)[j]? = some (.vacant next)) : i = j ∨ j ∈ free := by
  by_cases hji : i = j
  · exact .inl hji
  · rw [Array.getElem?_setIfInBounds_ne hji] at hj
    exact .inr (hv.complete j next hj)

end

lemma content_set (h : a.content i = some b) (c : β) :
    (a.set i c).content = Function.update a.content i (some c) :=
  content_setIfInBounds (.occupied c) a.free (lt_size_of_content h)

lemma Vacancies.set (hv : a.Vacancies free) (h : a.content i = some b) (c : β) :
    (a.set i c).Vacancies free where
  chain := hv.chain.setIfInBounds (.occupied c) a.free (hv.not_mem h)
  nodup := hv.nodup
  complete := by
    intro j next hj
    rcases hv.eq_or_mem (.occupied c) hj with rfl | hj'
    · have hi : i < a.slots.size := lt_size_of_content h
      simp [Arena.set, hi] at hj
    · exact hj'

/-- A change in place that answers writes one slot. -/
lemma modify_eq_ok {c : β} {f : β → Except Fault β} (h : a.content i = some b)
    (hf : f b = .ok c) : a.modify i f = .ok (a.set i c) := by
  rw [← get_eq_ok_iff_content] at h
  unfold modify
  rw [h, ok_bind, hf]
  rfl

lemma content_size : a.content a.size = none := by
  simp [content, size]

lemma content_push (b : β) : content { a with slots := a.slots.push (.occupied b) } =
    Function.update a.content a.size (some b) := by
  funext j
  by_cases hj : j = a.size
  · subst hj
    simp [content, size]
  · rw [Function.update_of_ne hj]
    have hj : j ≠ a.slots.size := hj
    simp [content, Array.getElem?_push, hj]

lemma Vacancies.push (hv : a.Vacancies free) (b : β) :
    Vacancies { a with slots := a.slots.push (.occupied b) } free where
  chain := by
    apply hv.chain.congr
    intro j hj
    obtain ⟨next, hj⟩ := hv.chain.vacant hj
    have hlt : j < a.slots.size := (Array.getElem?_eq_some_iff.1 hj).1
    rw [Array.getElem?_push_lt hlt, Array.getElem?_eq_getElem hlt]
  nodup := hv.nodup
  complete := by
    intro j next hj
    rw [Array.getElem?_push] at hj
    split at hj
    · cases hj
    · exact hv.complete j next hj

/-- An insertion takes the first slot of the chain, or a new one, and no slot in use. -/
theorem Vacancies.exists_insert (hv : a.Vacancies free) (b : β) :
    ∃ i a', a.insert b = .ok (i, a') ∧ a.content i = none ∧
      a'.content = Function.update a.content i (some b) ∧ a'.Vacancies free.tail := by
  cases free with
  | nil =>
    have hfree : a.free = none := hv.chain
    refine ⟨a.size, _, ?_, content_size, content_push b, hv.push b⟩
    simp [Arena.insert, hfree]
  | cons i rest =>
    obtain ⟨hfree, next, hi, hrest⟩ := hv.chain
    have hlt : i < a.slots.size := (Array.getElem?_eq_some_iff.1 hi).1
    obtain ⟨hni, hnodup⟩ := List.nodup_cons.1 hv.nodup
    refine ⟨i, ⟨a.slots.setIfInBounds i (.occupied b), next⟩, ?_,
      hv.content_eq_none List.mem_cons_self, content_setIfInBounds _ _ hlt,
      hrest.setIfInBounds _ _ hni, hnodup, fun j following hj => ?_⟩
    · simp [Arena.insert, hfree, hi]
    · rcases hv.eq_or_mem (.occupied b) hj with rfl | hj'
      · simp [hlt] at hj
      · rcases List.mem_cons.1 hj' with rfl | hj'
        · simp [hlt] at hj
        · exact hj'

/-- The slot taken is the first of the chain, or a new one behind all the others if there is none. -/
lemma Vacancies.slot_of_insert (hv : a.Vacancies free) (h : a.insert b = .ok (i, a')) :
    i = free.head?.getD a.size ∧ a'.Vacancies free.tail ∧
      a'.size = if free = [] then a.size + 1 else a.size := by
  obtain ⟨j, a₁, hins, -, -, hvac⟩ := hv.exists_insert b
  obtain ⟨rfl, rfl⟩ : j = i ∧ a₁ = a' := by simpa [hins] using h
  cases free with
  | nil =>
    have hfree : a.free = none := hv.chain
    obtain ⟨rfl, rfl⟩ : a.size = j ∧ _ = a₁ := by simpa [Arena.insert, hfree] using h
    exact ⟨rfl, hvac, by simp [size]⟩
  | cons k rest =>
    obtain ⟨hfree, next, hk, -⟩ := hv.chain
    obtain ⟨rfl, rfl⟩ : k = j ∧ _ = a₁ := by simpa [Arena.insert, hfree, hk] using h
    exact ⟨rfl, hvac, by simp [size]⟩

/-- A removal answers the value of a slot in use and puts the slot in front of the chain. -/
theorem Vacancies.exists_remove (hv : a.Vacancies free) (h : a.content i = some b) :
    ∃ a', a.remove i = .ok (b, a') ∧ a'.content = Function.update a.content i none ∧
      a'.Vacancies (i :: free) := by
  have hlt : i < a.slots.size := lt_size_of_content h
  refine ⟨⟨a.slots.setIfInBounds i (.vacant a.free), some i⟩, ?_, content_setIfInBounds _ _ hlt,
    ⟨rfl, a.free, by simp [hlt], ?_⟩, ?_, ?_⟩
  · rw [remove_eq_ok_iff, get_eq_ok_iff_content]
    exact ⟨h, rfl⟩
  · exact hv.chain.setIfInBounds _ _ (hv.not_mem h)
  · exact List.nodup_cons.2 ⟨hv.not_mem h, hv.nodup⟩
  · intro j next hj
    rcases hv.eq_or_mem (.vacant a.free) hj with rfl | hj
    · exact List.mem_cons_self
    · exact List.mem_cons_of_mem _ hj

end Arena
end StreamQuantiles
