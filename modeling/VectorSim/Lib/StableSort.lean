/-
# Stable sorting by a key

A list is sorted by a key of its elements: what has a smaller key stands before
(`mem_before`), nothing that stands before has a greater one (`le_of_mem_before`).
Elements that were in order among themselves stay as they were (`filter_sortBy`), so
that only the order among elements of one key matters (`sortBy_congr`).
-/
import Mathlib.Data.List.Sort

namespace StableSort

variable {α κ : Type*} [LinearOrder κ] (key : α → κ)

/-- `sorted(values, key=key)`. -/
def sortBy (l : List α) : List α := l.mergeSort fun a b => decide (key a ≤ key b)

theorem sortBy_perm (l : List α) : (sortBy key l).Perm l := List.mergeSort_perm l _

@[simp] theorem mem_sortBy {l : List α} {a : α} : a ∈ sortBy key l ↔ a ∈ l := (sortBy_perm key l).mem_iff

theorem key_trans (a b c : α) (h : decide (key a ≤ key b) = true) (h' : decide (key b ≤ key c) = true) :
    decide (key a ≤ key c) = true := by
  rw [decide_eq_true_eq] at h h' ⊢
  exact h.trans h'

theorem key_total (a b : α) : (decide (key a ≤ key b) || decide (key b ≤ key a)) = true := by
  rcases le_total (key a) (key b) with h | h <;> simp [h]

theorem sortBy_sorted (l : List α) : (sortBy key l).Pairwise fun a b => key a ≤ key b := by
  have h := List.pairwise_mergeSort (key_trans key) (key_total key) l
  simpa [sortBy] using h

variable {key} {l before after : List α} {a b : α}

/-- **What has a smaller key stands before.** -/
theorem mem_before (h : sortBy key l = before ++ b :: after) (ha : a ∈ l) (hlt : key a < key b) : a ∈ before := by
  have hmem : a ∈ before ++ b :: after := h ▸ (mem_sortBy key).mpr ha
  have hsorted := sortBy_sorted key l
  rw [h, List.pairwise_append, List.pairwise_cons] at hsorted
  obtain ⟨-, ⟨hafter, -⟩, -⟩ := hsorted
  rcases List.mem_append.mp hmem with hin | hin
  · exact hin
  · rcases List.mem_cons.mp hin with rfl | hin
    · exact absurd hlt (lt_irrefl _)
    · exact absurd hlt (not_lt.mpr (hafter a hin))

/-- Nothing that stands before has a greater key. -/
theorem le_of_mem_before (h : sortBy key l = before ++ b :: after) (ha : a ∈ before) : key a ≤ key b := by
  have hsorted := sortBy_sorted key l
  rw [h, List.pairwise_append] at hsorted
  exact hsorted.2.2 a ha b List.mem_cons_self

/-- **Stability.** -/
theorem filter_sortBy {p : α → Bool} (h : (l.filter p).Pairwise fun a b => key a ≤ key b) :
    (sortBy key l).filter p = l.filter p := by
  have hsub : (l.filter p).Sublist (sortBy key l) := by
    refine List.sublist_mergeSort (key_trans key) (key_total key) ?_ List.filter_sublist
    simpa using h
  have hfilter := hsub.filter p
  simp only [List.filter_filter, Bool.and_self] at hfilter
  refine (hfilter.eq_of_length ?_).symm
  exact ((sortBy_perm key l).filter p).length_eq.symm

/-- Sorted lists with the same elements at every key, in the same order, are one list. -/
theorem eq_of_filter_key : ∀ {l l' : List α}, (l.Pairwise fun a b => key a ≤ key b) →
    (l'.Pairwise fun a b => key a ≤ key b) → (∀ k, l.filter (key · = k) = l'.filter (key · = k)) → l = l'
  | [], [], _, _, _ => rfl
  | [], b :: l', _, _, h => by
    have hb := h (key b)
    simp at hb
  | a :: l, [], _, _, h => by
    have ha := h (key a)
    simp at ha
  | a :: l, b :: l', hl, hl', h => by
    rw [List.pairwise_cons] at hl hl'
    have hab : key a ≤ key b := by
      have hin : b ∈ (a :: l).filter (key · = key b) := by
        rw [h (key b)]
        simp
      rcases List.mem_cons.mp (List.mem_of_mem_filter hin) with rfl | hin
      · exact le_rfl
      · exact hl.1 b hin
    have hba : key b ≤ key a := by
      have hin : a ∈ (b :: l').filter (key · = key a) := by
        rw [← h (key a)]
        simp
      rcases List.mem_cons.mp (List.mem_of_mem_filter hin) with rfl | hin
      · exact le_rfl
      · exact hl'.1 a hin
    have hkey : key a = key b := le_antisymm hab hba
    have hhead : a = b := by
      have ha := h (key a)
      rw [List.filter_cons_of_pos (by simp), List.filter_cons_of_pos (by simp [hkey])] at ha
      exact (List.cons.inj ha).1
    subst hhead
    refine congrArg (a :: ·) (eq_of_filter_key hl.2 hl'.2 fun k => ?_)
    have hk := h k
    by_cases ha : key a = k
    · rw [List.filter_cons_of_pos (by simpa using ha), List.filter_cons_of_pos (by simpa using ha)] at hk
      exact (List.cons.inj hk).2
    · rwa [List.filter_cons_of_neg (by simpa using ha), List.filter_cons_of_neg (by simpa using ha)] at hk

/-- **The order among elements of different keys does not matter.** -/
theorem sortBy_congr {l l' : List α} (h : ∀ k, l.filter (key · = k) = l'.filter (key · = k)) :
    sortBy key l = sortBy key l' := by
  refine eq_of_filter_key (sortBy_sorted key l) (sortBy_sorted key l') fun k => ?_
  have hsame : ∀ l : List α, (sortBy key l).filter (key · = k) = l.filter (key · = k) := by
    intro l
    refine filter_sortBy (List.pairwise_of_forall_mem_list fun a ha b hb => ?_)
    have ha := (List.mem_filter.mp ha).2
    have hb := (List.mem_filter.mp hb).2
    rw [decide_eq_true_eq] at ha hb
    exact (ha.trans hb.symm).le
  rw [hsame, hsame, h k]

end StableSort
