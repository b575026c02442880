/-
# Partition assignments

What the backtracking search of `_plan_partition_assignment` finds: one of its
own choices for each uop that has any, within the entries of every partition
and, where they count, within the enqueue widths.
-/
import VectorSim.Backend.XsaiSteps
import VectorSim.Lib.Serial

namespace VectorSim
namespace Xsai

open Checked Setup

variable {E : Config} {enforce : Bool}

/-- How many uops an assignment puts into a partition. -/
def load (a : List (Id × String)) (p : String) : ℕ := a.countP fun e => e.2 = p

theorem increment_int (f : String → ℤ) (p q : String) :
    increment f p q = f q + if p = q then 1 else 0 := by
  unfold increment
  by_cases h : q = p
  · subst h; simp
  · simp [h, Ne.symm h]

theorem increment_nat (f : String → ℕ) (p q : String) :
    increment f p q = f q + if p = q then 1 else 0 := by
  unfold increment
  by_cases h : q = p
  · subst h; simp
  · simp [h, Ne.symm h]

/-- What the search has found. -/
structure Assigns (E : Config) (enforce : Bool) (xs : List ExecutionUop) (occupancy : String → ℤ)
    (enqueues : String → ℕ) (a : List (Id × String)) : Prop where
  ids : a.map (·.1) = xs.map (·.id)
  choices : ∀ e ∈ a, ∃ x ∈ xs, x.id = e.1 ∧ e.2 ∈ x.schedulerPartitionChoices
  entries : ∀ p, occupancy p ≤ entries E p → occupancy p + load a p ≤ entries E p
  widths : enforce = true → ∀ p, enqueues p ≤ enqueueWidth E p →
    enqueues p + load a p ≤ enqueueWidth E p

theorem assign_some : ∀ {xs : List ExecutionUop} {occupancy : String → ℤ} {enqueues : String → ℕ}
    {a : List (Id × String)}, assign E enforce xs occupancy enqueues = some a →
    Assigns E enforce xs occupancy enqueues a
  | [], occupancy, enqueues, a, h => by
    cases h
    exact ⟨rfl, by simp, fun p h => by simpa [load] using h, fun _ p h => by simpa [load] using h⟩
  | x :: xs, occupancy, enqueues, a, h => by
    obtain ⟨p, hp, h⟩ := List.exists_of_findSome?_eq_some h
    obtain ⟨b, hb, rfl⟩ := Option.map_eq_some_iff.mp h
    have ih := assign_some hb
    have hperm := List.perm_insertionSort (partitionLe E occupancy)
      (x.schedulerPartitionChoices.filter (hasRoom E enforce occupancy enqueues))
    obtain ⟨hchoice, hroom⟩ := List.mem_filter.mp (hperm.mem_iff.mp hp)
    simp only [hasRoom, Bool.and_eq_true, decide_eq_true_eq, Bool.or_eq_true, Bool.not_eq_true'] at hroom
    have hload : ∀ q, load ((x.id, p) :: b) q = load b q + if p = q then 1 else 0 := by
      intro q
      simp [load, List.countP_cons]
    refine ⟨by rw [List.map_cons, List.map_cons, ih.ids], ?_, fun q hq => ?_, fun he q hq => ?_⟩
    · intro e he
      rcases List.mem_cons.mp he with rfl | he
      · exact ⟨x, List.mem_cons_self, rfl, hchoice⟩
      · obtain ⟨y, hy, h⟩ := ih.choices e he
        exact ⟨y, List.mem_cons_of_mem _ hy, h⟩
    · have := ih.entries q
      rw [increment_int] at this
      rw [hload]
      by_cases hpq : p = q
      · subst hpq
        simp only [if_true] at this ⊢
        push_cast
        have := this (by omega)
        omega
      · simp only [if_neg hpq, add_zero] at this ⊢
        exact this hq
    · have := ih.widths he q
      rw [increment_nat] at this
      rw [hload]
      have hlt : enqueues p < enqueueWidth E p := by
        rcases hroom.2 with h | h
        · rw [he] at h; cases h
        · exact h
      by_cases hpq : p = q
      · subst hpq
        simp only [if_true] at this ⊢
        have := this (by omega)
        omega
      · simp only [if_neg hpq, Nat.add_zero] at this ⊢
        exact this hq

/-! ### The assignment as a function of the uops -/

theorem lookup_reverse {a : List (Id × String)} (hn : (a.map (·.1)).Nodup) {e : Id × String}
    (he : e ∈ a) : assigned a e.1 = some e.2 := by
  have key : ∀ (l : List (Id × String)), (l.map (·.1)).Nodup → e ∈ l → l.lookup e.1 = some e.2 := by
    intro l
    induction l with
    | nil => intro _ h; cases h
    | cons f l ih =>
      intro hn he
      obtain ⟨k, v⟩ := f
      have hn := List.nodup_cons.mp hn
      rcases List.mem_cons.mp he with rfl | hl
      · simp
      · have hne : e.1 ≠ k := by
          rintro rfl
          exact hn.1 (List.mem_map.mpr ⟨e, hl, rfl⟩)
        rw [List.lookup_cons, beq_false_of_ne hne]
        exact ih hn.2 hl
  refine key _ ?_ (List.mem_reverse.mpr he)
  rw [List.map_reverse]
  exact List.nodup_reverse.mpr hn

theorem assigned_mem {a : List (Id × String)} {u : Id} {p : String} (h : assigned a u = some p) :
    (u, p) ∈ a := by
  have key : ∀ l : List (Id × String), l.lookup u = some p → (u, p) ∈ l := by
    intro l
    induction l with
    | nil => intro h; cases h
    | cons f l ih =>
      intro h
      obtain ⟨k, v⟩ := f
      rw [List.lookup_cons] at h
      cases hk : u == k with
      | true =>
        rw [hk] at h
        obtain rfl := eq_of_beq hk
        cases h
        exact List.mem_cons_self
      | false =>
        rw [hk] at h
        exact List.mem_cons_of_mem _ (ih h)
  exact List.mem_reverse.mp (key _ h)

theorem partitioned_perm (us : List Id) : (partitioned E us).Perm
    ((us.map E.uop).filter fun x => !x.schedulerPartitionChoices.isEmpty) :=
  List.perm_insertionSort _ _

/-- The uops of a chunk, each once and under its own id. -/
structure Chunked (E : Config) (us : List Id) : Prop where
  nodup : us.Nodup
  known : ∀ u ∈ us, (E.uop u).id = u

theorem Chunked.ids_nodup {us : List Id} (h : Chunked E us) : ((partitioned E us).map (·.id)).Nodup := by
  have hperm := (partitioned_perm (E := E) us).map (·.id)
  refine hperm.nodup_iff.mpr (List.Nodup.sublist (List.filter_sublist.map _) ?_)
  rw [List.map_map]
  have : us.map ((fun x => x.id) ∘ E.uop) = us := by
    conv_rhs => rw [← List.map_id us]
    exact List.map_congr_left fun u hu => h.known u hu
  rw [this]
  exact h.nodup

/-- The number of uops of a chunk in a partition is the assignment's load. -/
theorem enqueued_eq_load {us : List Id} {occupancy : String → ℤ} {enqueues : String → ℕ}
    {a : List (Id × String)} (hus : Chunked E us)
    (h : Assigns E enforce (partitioned E us) occupancy enqueues a) (p : String) :
    enqueued us a p = load a p := by
  have hn : (a.map (·.1)).Nodup := by rw [h.ids]; exact hus.ids_nodup
  have hsub : ∀ e ∈ a, e.1 ∈ us := by
    intro e he
    have hmem : e.1 ∈ a.map (·.1) := List.mem_map.mpr ⟨e, he, rfl⟩
    rw [h.ids] at hmem
    obtain ⟨x, hx, hid⟩ := List.mem_map.mp hmem
    obtain ⟨u, hu, rfl⟩ := List.mem_map.mp
      (List.mem_filter.mp ((partitioned_perm us).mem_iff.mp hx)).1
    rw [← hid, hus.known u hu]
    exact hu
  have hkeys := Serial.countP_of_keys (l := us)
    (by rw [List.map_id']; exact hus.nodup) hn (fun u hu => by
      obtain ⟨e, he, rfl⟩ := List.mem_map.mp hu
      rw [List.map_id']
      exact hsub e he) fun u => decide (assigned a u = some p)
  rw [List.countP_map] at hkeys
  have hleft : enqueued us a p =
      us.countP fun u => decide (u ∈ a.map (·.1)) && decide (assigned a u = some p) := by
    refine List.countP_congr fun u _ => ?_
    simp only [Bool.and_eq_true, decide_eq_true_eq, iff_and_self]
    exact fun hu => List.mem_map.mpr ⟨_, assigned_mem hu, rfl⟩
  rw [hleft, hkeys, load]
  refine List.countP_congr fun e he => ?_
  simp [lookup_reverse hn he]

end Xsai
end VectorSim
