/-
# How long work takes

Users hold a capacity, each from its start on for its length. Where those that
hold it at a tick never weigh more than the capacity, all of them together have
been served for no more than the capacity times the ticks (`work_le`). Users that
start at a distance from each other are no more than fit in the time
(`spaced_le`).
-/
import Mathlib.Algebra.BigOperators.Group.Finset.Piecewise
import Mathlib.Algebra.Order.BigOperators.Group.List
import Mathlib.Algebra.Order.BigOperators.Group.Finset
import Mathlib.Data.List.Nodup
import Mathlib.Tactic

namespace Throughput

variable {υ : Type} {start length weight : υ → ℕ} {capacity ticks : ℕ}

/-- The user holds the capacity at a tick. -/
def holds (start length : υ → ℕ) (t : ℕ) (u : υ) : Bool := start u ≤ t ∧ t < start u + length u

/-- Tick by tick, one user is served for its length. -/
theorem sum_holds (u : υ) (h : start u + length u ≤ ticks) :
    (∑ t ∈ Finset.range ticks, if holds start length t u then weight u else 0) = length u * weight u := by
  have hfilter : (Finset.range ticks).filter (fun t => holds start length t u = true) =
      Finset.Ico (start u) (start u + length u) := by
    ext t
    simp only [holds, Finset.mem_filter, Finset.mem_range, Finset.mem_Ico, decide_eq_true_eq]
    omega
  rw [← Finset.sum_filter, hfilter, Finset.sum_const, Nat.card_Ico, smul_eq_mul, Nat.add_sub_cancel_left]

/-- The users that hold the capacity at a tick, summed over the ticks, are all the work. -/
theorem sum_work : ∀ {users : List υ}, (∀ u ∈ users, start u + length u ≤ ticks) →
    (∑ t ∈ Finset.range ticks, ((users.filter (holds start length t)).map weight).sum) =
      (users.map fun u => length u * weight u).sum
  | [], _ => by simp
  | u :: users, h => by
    have hrest := sum_work fun v hv => h v (List.mem_cons_of_mem u hv)
    have hone : (∑ t ∈ Finset.range ticks, if holds start length t u then weight u else 0) = length u * weight u :=
      sum_holds u (h u List.mem_cons_self)
    rw [List.map_cons, List.sum_cons, ← hrest, ← hone, ← Finset.sum_add_distrib]
    refine Finset.sum_congr rfl fun t _ => ?_
    by_cases ht : holds start length t u = true <;> simp [ht]

/-- **Work is at most the capacity times the time.** -/
theorem work_le {users : List υ} (within : ∀ u ∈ users, start u + length u ≤ ticks)
    (bounded : ∀ t, ((users.filter (holds start length t)).map weight).sum ≤ capacity) :
    (users.map fun u => length u * weight u).sum ≤ capacity * ticks := by
  calc (users.map fun u => length u * weight u).sum
      = ∑ t ∈ Finset.range ticks, ((users.filter (holds start length t)).map weight).sum := (sum_work within).symm
    _ ≤ ∑ _t ∈ Finset.range ticks, capacity := Finset.sum_le_sum fun t _ => bounded t
    _ = capacity * ticks := by rw [Finset.sum_const, Finset.card_range, smul_eq_mul, mul_comm]

/-- Numbers at a distance of `gap` fall into different multiples of it. -/
theorem div_ne {gap a b : ℕ} (hgap : 0 < gap) (h : a + gap ≤ b) : a / gap ≠ b / gap := by
  have hle : (a + gap) / gap ≤ b / gap := Nat.div_le_div_right h
  rw [Nat.add_div_right a hgap] at hle
  omega

/-- **Users that start at a distance are no more than fit in the time.** -/
theorem spaced_le {users : List υ} {gap last : ℕ} (hn : users.Nodup) (hgap : 0 < gap)
    (within : ∀ u ∈ users, start u ≤ last)
    (apart : ∀ u ∈ users, ∀ v ∈ users, u ≠ v → start u + gap ≤ start v ∨ start v + gap ≤ start u) :
    users.length ≤ last / gap + 1 := by
  have hnodup : (users.map fun u => start u / gap).Nodup := by
    refine hn.map_on fun u hu v hv he => ?_
    by_contra hne
    rcases apart u hu v hv hne with h | h
    · exact div_ne hgap h he
    · exact div_ne hgap h he.symm
  have hsub : (users.map fun u => start u / gap) ⊆ List.range (last / gap + 1) := by
    intro k hk
    obtain ⟨u, hu, rfl⟩ := List.mem_map.mp hk
    exact List.mem_range.mpr (Nat.lt_succ_of_le (Nat.div_le_div_right (within u hu)))
  have hle := (hnodup.subperm hsub).length_le
  rwa [List.length_map, List.length_range] at hle

end Throughput
