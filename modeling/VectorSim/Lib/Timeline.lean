/-
# Timelines

A quantity that changes at some keys, written down as the list of its
changes. `samples` puts the changes of each key together and adds them up, key
after key; `shown` reads such a list of samples at any key, between two of
them too. What is shown is the sum of the changes so far (`shown_samples`),
whatever the order in which they were written down.
-/
import Mathlib.Data.List.Sort
import Mathlib.Data.List.Dedup
import Mathlib.Algebra.BigOperators.Group.List.Basic

namespace Timeline

variable {κ α β : Type*} [LinearOrder κ] [AddCommMonoid α] [AddCommMonoid β]

/-- The changes of one key, together. -/
def at_ (changes : List (κ × α)) (k : κ) : α := ((changes.filter (·.1 = k)).map (·.2)).sum

/-- The keys at which something changes, in order. -/
def keys (changes : List (κ × α)) : List κ := (changes.map (·.1)).dedup.insertionSort (· ≤ ·)

/-- The running total after each of some keys. -/
def totals (changes : List (κ × α)) : α → List κ → List (κ × α)
  | _, [] => []
  | current, k :: ks => (k, current + at_ changes k) :: totals changes (current + at_ changes k) ks

/-- The running total after each key. -/
def samples (changes : List (κ × α)) : List (κ × α) := totals changes 0 (keys changes)

/-- The last sample up to a key. -/
def shown (l : List (κ × α)) (k : κ) : α := ((l.filter (·.1 ≤ k)).getLast?.map (·.2)).getD 0

/-- All changes up to a key. -/
def upTo (changes : List (κ × α)) (k : κ) : α := ((changes.filter (·.1 ≤ k)).map (·.2)).sum

/-! ### Sums of changes -/

@[simp] theorem upTo_nil (k : κ) : upTo ([] : List (κ × α)) k = 0 := rfl

@[simp] theorem upTo_cons (c : κ × α) (l : List (κ × α)) (k : κ) :
    upTo (c :: l) k = (if c.1 ≤ k then c.2 else 0) + upTo l k := by
  unfold upTo
  by_cases h : c.1 ≤ k <;> simp [h]

@[simp] theorem upTo_append (l l' : List (κ × α)) (k : κ) : upTo (l ++ l') k = upTo l k + upTo l' k := by
  simp [upTo]

theorem upTo_flatMap {γ : Type*} (l : List γ) (f : γ → List (κ × α)) (k : κ) :
    upTo (l.flatMap f) k = (l.map fun c => upTo (f c) k).sum := by
  induction l with
  | nil => rfl
  | cons c l ih => rw [List.flatMap_cons, upTo_append, ih, List.map_cons, List.sum_cons]

@[simp] theorem at_nil (k : κ) : at_ ([] : List (κ × α)) k = 0 := rfl

theorem at_cons (c : κ × α) (l : List (κ × α)) (k : κ) :
    at_ (c :: l) k = (if c.1 = k then c.2 else 0) + at_ l k := by
  unfold at_
  by_cases h : c.1 = k <;> simp [h]

theorem at_flatMap {γ : Type*} (l : List γ) (f : γ → List (κ × α)) (k : κ) :
    at_ (l.flatMap f) k = (l.map fun c => at_ (f c) k).sum := by
  induction l with
  | nil => rfl
  | cons c l ih =>
    rw [List.flatMap_cons, List.map_cons, List.sum_cons, ← ih, at_, List.filter_append, List.map_append,
      List.sum_append]
    rfl

/-- Over keys that are listed once and are all there are, the changes add up. -/
theorem sum_at {ks : List κ} (hks : ks.Nodup) : ∀ l : List (κ × α), (∀ c ∈ l, c.1 ∈ ks) →
    (ks.map (at_ l)).sum = (l.map (·.2)).sum
  | [], _ => by
    have hzero : at_ ([] : List (κ × α)) = fun _ => 0 := funext at_nil
    simp [hzero]
  | c :: l, h => by
    have hone : (ks.map fun k => if c.1 = k then c.2 else 0).sum = c.2 := by
      rw [List.sum_map_eq_nsmul_single c.1, hks.count, if_pos (h c List.mem_cons_self), one_nsmul]
      · exact if_pos rfl
      · exact fun k hk _ => if_neg (Ne.symm hk)
    have hcons : at_ (c :: l) = fun k => (if c.1 = k then c.2 else 0) + at_ l k := funext (at_cons c l)
    rw [hcons, List.sum_map_add, hone, sum_at hks l fun c' hc' => h c' (List.mem_cons_of_mem _ hc'),
      List.map_cons, List.sum_cons]

theorem upTo_succ (l : List (ℕ × α)) (n : ℕ) : upTo l (n + 1) = upTo l n + at_ l (n + 1) := by
  induction l with
  | nil => simp
  | cons c l ih =>
    rw [upTo_cons, upTo_cons, at_cons, ih]
    rcases lt_trichotomy c.1 (n + 1) with h | h | h
    · rw [if_pos h.le, if_pos (Nat.lt_succ_iff.mp h), if_neg h.ne, zero_add, add_assoc]
    · rw [if_pos h.le, if_neg (by omega), if_pos h, zero_add, ← add_assoc, ← add_assoc, add_comm c.2]
    · rw [if_neg (by omega), if_neg (by omega), if_neg h.ne', zero_add, zero_add, zero_add]

theorem upTo_zero (l : List (ℕ × α)) : upTo l 0 = at_ l 0 := by
  simp [upTo, at_]

/-- Nothing is ever there where the changes at each tick come to nothing. -/
theorem upTo_eq_zero_iff {l : List (ℕ × α)} : (∀ n, upTo l n = 0) ↔ ∀ n, at_ l n = 0 := by
  constructor
  · intro h n
    rcases n with _ | n
    · rw [← upTo_zero, h]
    · have := upTo_succ l n
      rw [h, h, zero_add] at this
      exact this.symm
  · intro h n
    induction n with
    | zero => rw [upTo_zero, h]
    | succ n ih => rw [upTo_succ, ih, h, zero_add]

/-! ### Samples -/

theorem shown_totals (changes : List (κ × α)) (k : κ) : ∀ (current : α) (ks : List κ), ks.Pairwise (· ≤ ·) →
    (((totals changes current ks).filter (·.1 ≤ k)).getLast?.map (·.2)).getD current =
      current + ((ks.filter (· ≤ k)).map (at_ changes)).sum
  | current, [], _ => by simp [totals]
  | current, a :: ks, h => by
    obtain ⟨hle, h⟩ := List.pairwise_cons.mp h
    by_cases ha : a ≤ k
    · have ih := shown_totals changes k (current + at_ changes a) ks h
      simp only [totals, List.filter_cons, ha, decide_true, if_true, List.map_cons, List.sum_cons,
        List.getLast?_cons, Option.map_some, Option.getD_some]
      rw [← add_assoc, ← ih]
      cases ((totals changes (current + at_ changes a) ks).filter (·.1 ≤ k)).getLast? <;> rfl
    · -- the keys behind are later still
      have hnone : (a :: ks).filter (· ≤ k) = [] := by
        rw [List.filter_eq_nil_iff]
        intro b hb
        rcases List.mem_cons.mp hb with rfl | hb
        · simpa using ha
        · simpa using (lt_of_not_ge ha).trans_le (hle b hb)
      have hkeys : ∀ (c : α) (l : List κ), (totals changes c l).map (·.1) = l := by
        intro c l
        induction l generalizing c with
        | nil => rfl
        | cons b l ih => rw [totals, List.map_cons, ih]
      have hsamples : (totals changes current (a :: ks)).filter (·.1 ≤ k) = [] := by
        rw [List.filter_eq_nil_iff]
        intro s hs
        have hmem : s.1 ∈ a :: ks := by
          rw [← hkeys current (a :: ks)]
          exact List.mem_map_of_mem hs
        exact List.filter_eq_nil_iff.mp hnone s.1 hmem
      rw [hsamples, hnone]
      simp

/-- **What is shown is the sum of the changes so far.** -/
theorem shown_samples (changes : List (κ × α)) (k : κ) : shown (samples changes) k = upTo changes k := by
  have hperm : (keys changes).Perm (changes.map (·.1)).dedup := List.perm_insertionSort _ _
  have hnodup : (keys changes).Nodup := hperm.nodup_iff.mpr (List.nodup_dedup _)
  have hsorted : (keys changes).Pairwise (· ≤ ·) := List.pairwise_insertionSort _ _
  have hat : ∀ b ∈ (keys changes).filter (· ≤ k), at_ changes b = at_ (changes.filter (·.1 ≤ k)) b := by
    intro b hb
    have hbk : b ≤ k := by simpa using (List.mem_filter.mp hb).2
    unfold at_
    rw [List.filter_filter]
    congr 2
    refine List.filter_congr fun c _ => ?_
    by_cases hc : c.1 = b <;> simp [hc, hbk]
  rw [shown, samples, shown_totals changes k 0 _ hsorted, zero_add, List.map_congr_left hat]
  refine sum_at (hnodup.filter _) _ fun c hc => ?_
  obtain ⟨hmem, hck⟩ := List.mem_filter.mp hc
  refine List.mem_filter.mpr ⟨hperm.mem_iff.mpr (List.mem_dedup.mpr (List.mem_map_of_mem hmem)), hck⟩

/-- A part of each sample is shown as that part of what is shown. -/
theorem shown_map (f : α →+ β) (l : List (κ × α)) (k : κ) :
    shown (l.map fun s => (s.1, f s.2)) k = f (shown l k) := by
  have hfilter : (l.map fun s => (s.1, f s.2)).filter (·.1 ≤ k) =
      (l.filter (·.1 ≤ k)).map fun s => (s.1, f s.2) := by
    rw [List.filter_map]
    rfl
  rw [shown, hfilter, List.getLast?_map, shown]
  cases (l.filter (·.1 ≤ k)).getLast? with
  | none => exact f.map_zero.symm
  | some s => rfl

end Timeline
