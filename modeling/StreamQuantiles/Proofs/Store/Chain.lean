import Mathlib.Data.List.Nodup
import Mathlib.Tactic.Lemma
import StreamQuantiles.Store.Skiplist.Basic

/-! One chain of elements, linked both ways, cut open at every place. A chain is told by its cuts:
across each of them the last element before it and the first element after it lead to each other,
where the open ends count as elements. Adding or taking out an element changes one cut. -/
namespace StreamQuantiles
namespace Chain

/-- Across every cut of `hs` the links lead forward and backward. -/
def Threads (succ : Link → Option Link) (pred : Handle → Option Link) (hs : List Handle) : Prop :=
  ∀ xs ys, hs = xs ++ ys →
    succ xs.getLast? = some ys.head? ∧ ∀ h, ys.head? = some h → pred h = some xs.getLast?

section

variable {succ succ' : Link → Option Link} {pred pred' : Handle → Option Link}
  {hs xs ys : List Handle} {h : Handle}

lemma threads_nil (hs : succ none = some none) : Threads succ pred [] := by
  intro xs ys he
  obtain ⟨rfl, rfl⟩ := List.append_eq_nil_iff.1 he.symm
  exact ⟨hs, by simp⟩

/-- The links of an element lead to its neighbours. -/
lemma Threads.links (ht : Threads succ pred (xs ++ h :: ys)) :
    succ (some h) = some ys.head? ∧ pred h = some xs.getLast? := by
  have hn := (ht (xs ++ [h]) ys (by simp)).1
  rw [List.getLast?_concat] at hn
  exact ⟨hn, (ht xs (h :: ys) rfl).2 h rfl⟩

/-- Only the links at the elements of the chain and before the first one matter to it. -/
lemma Threads.congr (ht : Threads succ pred hs)
    (hn : ∀ p, (∀ g, p = some g → g ∈ hs) → succ' p = succ p)
    (hp : ∀ g ∈ hs, pred' g = pred g) : Threads succ' pred' hs := by
  intro xs ys he
  obtain ⟨h1, h2⟩ := ht xs ys he
  constructor
  · rw [hn, h1]
    intro g hg
    rw [he]
    exact List.mem_append_left _ (List.mem_of_getLast? hg)
  · intro g hg
    rw [hp, h2 g hg]
    rw [he]
    exact List.mem_append_right _ (List.mem_of_head? hg)

lemma head?_ne_of_nodup (z : Handle) (zs : List Handle) (hd : (z :: zs ++ ys).Nodup) :
    ys.head? ≠ some z := by
  intro he
  have hz := (List.nodup_append.1 hd).2.2 z List.mem_cons_self z (List.mem_of_head? he)
  exact hz rfl

lemma getLast?_append_cons (z : Handle) (zs : List Handle) :
    (xs ++ z :: zs).getLast? = (z :: zs).getLast? := by
  simp [List.getLast?_append, List.getLast?_cons]

lemma getLast?_ne_of_nodup {z : Handle} {zs : List Handle} (hd : (xs ++ z :: zs).Nodup) :
    xs.getLast? ≠ (z :: zs).getLast? := by
  intro he
  obtain ⟨w, hw⟩ : ∃ w, (z :: zs).getLast? = some w := by simp [List.getLast?_cons]
  rw [hw] at he
  have hne := (List.nodup_append.1 hd).2.2 w (List.mem_of_getLast? he) w (List.mem_of_getLast? hw)
  exact hne rfl

/-- The links change at most at `h` and across the cut between `xs` and `ys`. -/
structure Elsewhere (succ succ' : Link → Option Link) (pred pred' : Handle → Option Link)
    (xs : List Handle) (h : Handle) (ys : List Handle) : Prop where
  forward : ∀ p, p ≠ xs.getLast? → p ≠ some h → succ' p = succ p
  backward : ∀ g, ys.head? ≠ some g → g ≠ h → pred' g = pred g

/-- Nothing changes across a cut further to the left. -/
lemma Elsewhere.left (he : Elsewhere succ succ' pred pred' xs h ys) (hd : (xs ++ h :: ys).Nodup)
    {as cs : List Handle} {c : Handle} (hxs : xs = as ++ c :: cs) :
    succ' as.getLast? = succ as.getLast? ∧ pred' c = pred c := by
  subst hxs
  constructor
  · apply he.forward
    · rw [getLast?_append_cons]
      exact getLast?_ne_of_nodup (hd.sublist (by simp))
    · rw [List.append_assoc] at hd
      intro hlast
      have hne := (List.nodup_append.1 hd).2.2 h (List.mem_of_getLast? hlast) h (by simp)
      exact hne rfl
  · apply he.backward
    · exact head?_ne_of_nodup c cs (hd.sublist (by simp))
    · have hne := (List.nodup_append.1 hd).2.2 c (by simp) h (by simp)
      exact hne

/-- Nothing changes across a cut further to the right. -/
lemma Elsewhere.right (he : Elsewhere succ succ' pred pred' xs h ys) (hd : (xs ++ h :: ys).Nodup)
    {cs bs : List Handle} {c : Handle} (hys : ys = c :: cs ++ bs) :
    succ' (c :: cs).getLast? = succ (c :: cs).getLast? ∧
      ∀ g, bs.head? = some g → pred' g = pred g := by
  subst hys
  have hh : h ∉ c :: cs ++ bs := (List.nodup_cons.1 (hd.of_append_right)).1
  constructor
  · apply he.forward
    · exact (getLast?_ne_of_nodup (hd.sublist (by simp))).symm
    · intro hlast
      exact hh (List.mem_append_left _ (List.mem_of_getLast? hlast))
  · intro g hg
    apply he.backward
    · rintro ⟨rfl⟩
      exact head?_ne_of_nodup c cs (hd.sublist (by simp)) hg
    · rintro rfl
      exact hh (List.mem_append_right _ (List.mem_of_head? hg))

/-- A new element joins the neighbours of the cut it is put into. -/
theorem Threads.insert (ht : Threads succ pred (xs ++ ys)) (hd : (xs ++ h :: ys).Nodup)
    (he : Elsewhere succ succ' pred pred' xs h ys)
    (hl : succ' xs.getLast? = some (some h)) (hh : succ' (some h) = some ys.head?)
    (hb : pred' h = some xs.getLast?) (hr : ∀ g, ys.head? = some g → pred' g = some (some h)) :
    Threads succ' pred' (xs ++ h :: ys) := by
  intro as bs hcut
  rcases List.append_eq_append_iff.1 hcut with ⟨cs, rfl, hcs⟩ | ⟨cs, rfl, rfl⟩
  · match cs with
    | [] =>
      -- the cut right before the new element
      obtain rfl : bs = h :: ys := by simpa using hcs.symm
      simpa using ⟨hl, hb⟩
    | [c] =>
      -- the cut right behind it
      obtain ⟨rfl, rfl⟩ : h = c ∧ ys = bs := by simpa using hcs
      rw [List.getLast?_concat]
      exact ⟨hh, hr⟩
    | d :: c :: cs =>
      obtain ⟨rfl, rfl⟩ : h = d ∧ ys = c :: cs ++ bs := by simpa using hcs
      obtain ⟨h1, h2⟩ := he.right hd rfl
      obtain ⟨h3, h4⟩ := ht (xs ++ c :: cs) bs (by simp)
      rw [getLast?_append_cons] at h3 h4
      rw [getLast?_append_cons, List.getLast?_cons_cons]
      exact ⟨h1.trans h3, fun g hg => (h2 g hg).trans (h4 g hg)⟩
  · match cs with
    | [] => simpa using ⟨by simpa using hl, by simpa using hb⟩
    | c :: cs =>
      obtain ⟨h1, h2⟩ := he.left hd rfl
      obtain ⟨h3, h4⟩ := ht as (c :: cs ++ ys) (by simp)
      refine ⟨h1.trans h3, fun g hg => ?_⟩
      obtain rfl : c = g := by simpa using hg
      exact h2.trans (h4 c rfl)

/-- The neighbours of an element taken out join each other. -/
theorem Threads.erase (ht : Threads succ pred (xs ++ h :: ys)) (hd : (xs ++ h :: ys).Nodup)
    (he : Elsewhere succ succ' pred pred' xs h ys) (hl : succ' xs.getLast? = some ys.head?)
    (hr : ∀ g, ys.head? = some g → pred' g = some xs.getLast?) :
    Threads succ' pred' (xs ++ ys) := by
  intro as bs hcut
  rcases List.append_eq_append_iff.1 hcut with ⟨cs, rfl, rfl⟩ | ⟨cs, rfl, rfl⟩
  · match cs with
    | [] => simpa using ⟨hl, hr⟩
    | c :: cs =>
      obtain ⟨h1, h2⟩ := he.right hd rfl
      obtain ⟨h3, h4⟩ := ht (xs ++ h :: c :: cs) bs (by simp)
      rw [getLast?_append_cons, List.getLast?_cons_cons] at h3 h4
      rw [getLast?_append_cons]
      exact ⟨h1.trans h3, fun g hg => (h2 g hg).trans (h4 g hg)⟩
  · match cs with
    | [] => simpa using ⟨by simpa using hl, by simpa using hr⟩
    | c :: cs =>
      obtain ⟨h1, h2⟩ := he.left hd rfl
      obtain ⟨h3, h4⟩ := ht as (c :: cs ++ h :: ys) (by simp)
      refine ⟨h1.trans h3, fun g hg => ?_⟩
      obtain rfl : c = g := by simpa using hg
      exact h2.trans (h4 c rfl)

end

end Chain
end StreamQuantiles
