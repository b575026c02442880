/-
# Draining a job part by part

A job has parts that cost units. In a turn with a budget it either finishes
some of the next parts, for what they cost less what the first of them has been
charged already, or charges less than the rest of the next part, or waits. What
has been charged is then what the finished parts cost and a remainder, which is
less than the cost of the part it goes to (`Kept`); and a job whose parts are
all finished has been charged what they cost.
-/
import Mathlib.Data.List.TakeDrop
import Mathlib.Algebra.BigOperators.Group.List.Basic
import Mathlib.Algebra.GroupWithZero.Nat
import Mathlib.Order.Defs.LinearOrder
import Mathlib.Order.Nat

namespace Draining

/-- How many parts are finished, and the units charged. -/
structure Progress where
  finished : ℕ := 0
  spent : ℕ := 0
  deriving DecidableEq, Repr

/-- What the first `n` parts cost. -/
def priceOf (costs : List ℕ) (n : ℕ) : ℕ := (costs.take n).sum

variable (costs : List ℕ)

/-- A turn that charges a number of units. -/
inductive Charge : ℕ → Progress → Progress → Prop
  | finish {p : Progress} {k units : ℕ} (within : p.finished + k ≤ costs.length)
      (paid : p.spent + units = priceOf costs (p.finished + k)) :
      Charge units p ⟨p.finished + k, p.spent + units⟩
  | start {p : Progress} {units : ℕ} (short : p.spent + units < priceOf costs (p.finished + 1)) :
      Charge units p ⟨p.finished, p.spent + units⟩
  | wait {p : Progress} : Charge 0 p p

/-- What every turn keeps. -/
structure Kept (p : Progress) : Prop where
  within : p.finished ≤ costs.length
  covered : priceOf costs p.finished ≤ p.spent
  remainder : p.spent = priceOf costs p.finished ∨ p.spent < priceOf costs (p.finished + 1)

/-- Turns one after the other, with what each charges. -/
inductive Charges : List ℕ → Progress → Progress → Prop
  | nil {p : Progress} : Charges [] p p
  | cons {p q r : Progress} {units : ℕ} {charges : List ℕ} (first : Charge costs units p q)
      (rest : Charges charges q r) : Charges (units :: charges) p r

variable {costs} {p q : Progress} {units : ℕ} {charges : List ℕ}

@[simp] theorem priceOf_zero : priceOf costs 0 = 0 := by simp [priceOf]

theorem priceOf_length : priceOf costs costs.length = costs.sum := by simp [priceOf]

theorem priceOf_succ {n cost : ℕ} (h : costs[n]? = some cost) : priceOf costs (n + 1) = priceOf costs n + cost := by
  simp [priceOf, List.take_add_one, h]

theorem priceOf_of_le {n : ℕ} (h : costs.length ≤ n) : priceOf costs n = costs.sum := by
  rw [priceOf, List.take_of_length_le h]

theorem priceOf_le (costs : List ℕ) (n : ℕ) : priceOf costs n ≤ costs.sum := by
  have := List.sum_take_add_sum_drop costs n
  rw [priceOf]
  omega

theorem Charge.spent (h : Charge costs units p q) : q.spent = p.spent + units := by
  cases h <;> rfl

theorem kept_zero : Kept costs {} := ⟨Nat.zero_le _, by simp, .inl (by simp)⟩

/-- A turn keeps the account. -/
theorem Kept.charge (hp : Kept costs p) (h : Charge costs units p q) : Kept costs q := by
  cases h with
  | finish within paid => exact ⟨within, paid.ge, .inl paid⟩
  | start short => exact ⟨hp.within, hp.covered.trans (Nat.le_add_right _ _), .inr short⟩
  | wait => exact hp

/-- Any number of turns keep it, and charge what the job has then been charged. -/
theorem Charges.kept (h : Charges costs charges p q) (hp : Kept costs p) :
    Kept costs q ∧ q.spent = p.spent + charges.sum := by
  induction h with
  | nil => exact ⟨hp, rfl⟩
  | cons first rest ih =>
    obtain ⟨hkept, hspent⟩ := ih (hp.charge first)
    refine ⟨hkept, ?_⟩
    rw [hspent, first.spent, List.sum_cons, Nat.add_assoc]

/-- The units charged are those of the finished parts and a remainder: none, or less than
the next part costs. -/
theorem Kept.remainder_lt (hp : Kept costs p) : ∃ remainder, p.spent = priceOf costs p.finished + remainder ∧
    (remainder = 0 ∨ ∃ cost, costs[p.finished]? = some cost ∧ remainder < cost) := by
  refine ⟨p.spent - priceOf costs p.finished, by have := hp.covered; omega, ?_⟩
  rcases hp.remainder with heq | hlt
  · exact .inl (by omega)
  · cases hc : costs[p.finished]? with
    | none =>
      -- there is no next part
      have hlen := List.getElem?_eq_none_iff.mp hc
      rw [priceOf_of_le (by omega), ← priceOf_of_le hlen] at hlt
      exact absurd hlt (not_lt.mpr hp.covered)
    | some cost =>
      rw [priceOf_succ hc] at hlt
      have := hp.covered
      exact .inr ⟨cost, rfl, by omega⟩

/-- A job whose parts are finished has been charged what they cost. -/
theorem Kept.whole (hp : Kept costs p) (h : p.finished = costs.length) : p.spent = costs.sum := by
  rcases hp.remainder with heq | hlt
  · rw [heq, h, priceOf_length]
  · rw [h, priceOf_of_le (Nat.le_succ _), ← priceOf_length, ← h] at hlt
    exact absurd hlt (not_lt.mpr hp.covered)

end Draining
