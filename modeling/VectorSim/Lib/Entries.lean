/-
# Counted entries

A list of pairs of a key and a number, read as a multiset of keys: what it has
of a key (`count`) and how many entries it has in all (`total`). Both do not
depend on the order of the list.
-/
import Mathlib.Algebra.BigOperators.Group.Finset.Piecewise
import Mathlib.Algebra.GroupWithZero.Nat
import Mathlib.Algebra.Order.BigOperators.Group.List

namespace Entries

variable {κ : Type*} [DecidableEq κ]

/-- The entries of a key. -/
def count (k : κ) (l : List (κ × ℕ)) : ℕ := (l.map fun e => if e.1 = k then e.2 else 0).sum

/-- All entries. -/
def total (l : List (κ × ℕ)) : ℕ := (l.map (·.2)).sum

variable {k : κ} {l l' : List (κ × ℕ)}

@[simp] theorem count_nil : count k ([] : List (κ × ℕ)) = 0 := rfl

@[simp] theorem count_cons (e : κ × ℕ) : count k (e :: l) = (if e.1 = k then e.2 else 0) + count k l :=
  List.sum_cons

omit [DecidableEq κ] in
@[simp] theorem total_nil : total ([] : List (κ × ℕ)) = 0 := rfl

omit [DecidableEq κ] in
@[simp] theorem total_cons (e : κ × ℕ) : total (e :: l) = e.2 + total l := List.sum_cons

theorem count_perm (h : l.Perm l') : count k l = count k l' := (h.map _).sum_eq

omit [DecidableEq κ] in
theorem total_perm (h : l.Perm l') : total l = total l' := (h.map _).sum_eq

/-- A key that is not listed has no entries. -/
theorem count_of_notMem (h : k ∉ l.map (·.1)) : count k l = 0 := by
  refine List.sum_eq_zero fun n hn => ?_
  obtain ⟨e, he, rfl⟩ := List.mem_map.mp hn
  have hne : e.1 ≠ k := fun heq => h (List.mem_map.mpr ⟨e, he, heq⟩)
  rw [if_neg hne]

/-- In a dictionary a key has the entries listed with it. -/
theorem count_of_mem : ∀ {l : List (κ × ℕ)}, (l.map (·.1)).Nodup → ∀ e ∈ l, count e.1 l = e.2
  | a :: l, hn, e, he => by
    obtain ⟨hnot, hn⟩ := List.nodup_cons.mp hn
    rw [count_cons]
    rcases List.mem_cons.mp he with rfl | he
    · rw [if_pos rfl, count_of_notMem hnot, Nat.add_zero]
    · have hne : a.1 ≠ e.1 := fun heq => hnot (List.mem_map.mpr ⟨e, he, heq.symm⟩)
      rw [if_neg hne, Nat.zero_add]
      exact count_of_mem hn e he

/-- The entries of all keys are all entries. -/
theorem sum_count : ∀ {l : List (κ × ℕ)} {S : Finset κ}, (∀ e ∈ l, e.1 ∈ S) →
    ∑ k ∈ S, count k l = total l
  | [], _, _ => by simp
  | e :: l, S, h => by
    have hrest : ∑ k ∈ S, count k l = total l := sum_count fun e' he' => h e' (List.mem_cons_of_mem _ he')
    have hself : ∑ k ∈ S, (if e.1 = k then e.2 else 0) = e.2 := by
      rw [Finset.sum_ite_eq, if_pos (h e List.mem_cons_self)]
    simp only [count_cons, total_cons, Finset.sum_add_distrib, hself, hrest]

/-- Taking the entries of a list away one by one takes its counts away. -/
theorem foldl_sub (l : List (κ × ℕ)) (f : κ → ℤ) (k : κ) :
    l.foldl (fun (f : κ → ℤ) e => Function.update f e.1 (f e.1 - (e.2 : ℤ))) f k = f k - count k l := by
  induction l generalizing f with
  | nil => simp
  | cons e l ih =>
    rw [List.foldl_cons, ih, count_cons]
    by_cases hk : e.1 = k
    · subst hk
      rw [Function.update_self, if_pos rfl]
      push_cast
      omega
    · rw [Function.update_of_ne (Ne.symm hk), if_neg hk]
      simp

/-! ### Demands served up to a width -/

/-- What is not cut off is served in full. -/
theorem sum_min_of_lt {w : ℕ} : ∀ {l : List ℕ}, (l.map (min w)).sum < w → (l.map (min w)).sum = l.sum
  | [], _ => rfl
  | a :: l, h => by
    rw [List.map_cons, List.sum_cons] at h
    have hrest := sum_min_of_lt (l := l) (w := w) (by omega)
    rw [List.map_cons, List.sum_cons, List.sum_cons, hrest]
    omega

theorem sum_min_le {w : ℕ} : ∀ l : List ℕ, (l.map (min w)).sum ≤ l.sum
  | [] => le_rfl
  | a :: l => by
    have hrest := sum_min_le (w := w) l
    simp only [List.map_cons, List.sum_cons]
    omega

/-- Nothing is served where nothing is demanded. -/
theorem sum_min_eq_zero {w : ℕ} (hw : 0 < w) : ∀ l : List ℕ,
    (l.map (min w)).sum = 0 ↔ (l.filter (0 < ·)).length = 0
  | [] => by simp
  | a :: l => by
    have hrest := sum_min_eq_zero hw l
    rw [List.map_cons, List.sum_cons]
    by_cases ha : 0 < a
    · rw [List.filter_cons_of_pos (by simpa using ha), List.length_cons]
      omega
    · rw [List.filter_cons_of_neg (by simpa using ha)]
      omega

/-- Demands that are each served up to a width are served within it together when they fit
it together, or when there is no more than one. -/
theorem sum_min_le_iff {w : ℕ} (hw : 0 < w) : ∀ l : List ℕ,
    (l.map (min w)).sum ≤ w ↔ l.sum ≤ w ∨ (l.filter (0 < ·)).length ≤ 1
  | [] => by simp
  | a :: l => by
    have hle := sum_min_le (w := w) l
    have hzero := sum_min_eq_zero hw l
    rw [List.map_cons, List.sum_cons, List.sum_cons]
    by_cases ha : 0 < a
    · rw [List.filter_cons_of_pos (by simpa using ha), List.length_cons]
      constructor
      · intro h
        by_cases hz : (l.map (min w)).sum = 0
        · exact .inr (by rw [hzero.mp hz])
        · have hrest := sum_min_of_lt (l := l) (w := w) (by omega)
          exact .inl (by omega)
      · rintro (h | h)
        · omega
        · have := hzero.mpr (by omega)
          omega
    · have hrest := sum_min_le_iff hw l
      rw [List.filter_cons_of_neg (by simpa using ha)]
      omega

end Entries
