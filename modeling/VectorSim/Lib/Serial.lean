/-
# Resources that serve one user at a time

Users take resources: a user holds the resource `key u` from the tick
`start u` on, for `length u` ticks. Where every user takes a resource that is
free, the times at which two users hold one resource are disjoint
(`Exclusive.take`), and no more users hold resources of a pool at a tick than
the pool has (`Exclusive.count_le`).

The last section counts users of a list: what happens to a count, or to a sum,
when one user's share changes.
-/
import Mathlib.Data.List.Nodup
import Mathlib.Data.List.Perm.Subperm
import Mathlib.Logic.Function.Basic
import Mathlib.Algebra.Order.Monoid.Unbundled.Basic
import Mathlib.Algebra.BigOperators.Group.List.Basic
import Mathlib.Tactic

namespace Serial

variable {υ κ : Type}

/-- Which resource each user has taken, since when and for how long. -/
structure Uses (υ κ : Type) where
  start : υ → Option ℕ
  length : υ → ℕ
  key : υ → Option κ

/-- The user holds its resource at a tick. -/
def Uses.holds (U : Uses υ κ) (u : υ) (t : ℕ) : Bool :=
  (U.start u).any fun i => i ≤ t ∧ t < i + U.length u

theorem Uses.holds_iff {U : Uses υ κ} {u : υ} {t : ℕ} :
    U.holds u t = true ↔ ∃ i, U.start u = some i ∧ i ≤ t ∧ t < i + U.length u := by
  simp [holds, Option.any_eq_true]

theorem Uses.holds_congr {U U' : Uses υ κ} {u : υ} {t : ℕ} (hs : U'.start u = U.start u)
    (hl : U'.length u = U.length u) : U'.holds u t = U.holds u t := by
  simp [holds, hs, hl]

/-- Every resource is held by one user at a time and is free from `free` on. -/
structure Exclusive (U : Uses υ κ) (free : κ → ℕ) : Prop where
  free_le : ∀ {u k i}, U.start u = some i → U.key u = some k → i + U.length u ≤ free k
  disjoint : ∀ {u v k i j}, u ≠ v → U.start u = some i → U.start v = some j →
    U.key u = some k → U.key v = some k → i + U.length u ≤ j ∨ j + U.length v ≤ i

/-- Nobody has taken anything. -/
theorem Exclusive.init {U : Uses υ κ} {free : κ → ℕ} (h : ∀ u, U.start u = none) :
    Exclusive U free where
  free_le hu := by rw [h] at hu; cases hu
  disjoint _ hu := by rw [h] at hu; cases hu

theorem Exclusive.congr {U U' : Uses υ κ} {free free' : κ → ℕ} (h : Exclusive U free) (hU : U' = U)
    (hfree : free' = free) : Exclusive U' free' := by
  rw [hU, hfree]; exact h

variable [DecidableEq κ] {U U' : Uses υ κ} {free : κ → ℕ} {x : υ} {now : ℕ}

/-- A user takes a resource that is free. -/
theorem Exclusive.take (h : Exclusive U free) {k : κ} (hfree : free k ≤ now)
    (hlength : U'.length = U.length) (hstart : ∀ u, u ≠ x → U'.start u = U.start u)
    (hkey : ∀ u, u ≠ x → U'.key u = U.key u) (hx : U'.start x = some now) (hk : U'.key x = some k) :
    Exclusive U' (Function.update free k (now + U.length x)) where
  free_le {u k' i} hu hu' := by
    rw [hlength]
    by_cases hux : u = x
    · subst hux
      rw [hx] at hu; rw [hk] at hu'
      cases hu; cases hu'
      rw [Function.update_self]
    · rw [hstart u hux] at hu; rw [hkey u hux] at hu'
      have := h.free_le hu hu'
      by_cases hkk : k' = k
      · subst hkk; rw [Function.update_self]; omega
      · rw [Function.update_of_ne hkk]; exact this
  disjoint {u v k' i j} huv hu hv hu' hv' := by
    rw [hlength]
    by_cases hux : u = x
    · subst hux
      rw [hstart v huv.symm] at hv; rw [hkey v huv.symm] at hv'
      rw [hx] at hu; rw [hk] at hu'
      cases hu; cases hu'
      exact .inr ((h.free_le hv hv').trans hfree)
    · rw [hstart u hux] at hu; rw [hkey u hux] at hu'
      by_cases hvx : v = x
      · subst hvx
        rw [hx] at hv; rw [hk] at hv'
        cases hv; cases hv'
        exact .inl ((h.free_le hu hu').trans hfree)
      · rw [hstart v hvx] at hv; rw [hkey v hvx] at hv'
        exact h.disjoint huv hu hv hu' hv'

omit [DecidableEq κ] in
/-- A user that takes nothing changes nothing. -/
theorem Exclusive.skip (h : Exclusive U free) (hlength : U'.length = U.length)
    (hstart : ∀ u, u ≠ x → U'.start u = U.start u) (hkey : ∀ u, u ≠ x → U'.key u = U.key u)
    (hk : U'.key x = none) : Exclusive U' free where
  free_le {u k i} hu hu' := by
    have hux : u ≠ x := by rintro rfl; rw [hk] at hu'; cases hu'
    rw [hstart u hux] at hu; rw [hkey u hux] at hu'
    rw [hlength]
    exact h.free_le hu hu'
  disjoint {u v k i j} huv hu hv hu' hv' := by
    have hux : u ≠ x := by rintro rfl; rw [hk] at hu'; cases hu'
    have hvx : v ≠ x := by rintro rfl; rw [hk] at hv'; cases hv'
    rw [hstart u hux] at hu; rw [hkey u hux] at hu'
    rw [hstart v hvx] at hv; rw [hkey v hvx] at hv'
    rw [hlength]
    exact h.disjoint huv hu hv hu' hv'

omit [DecidableEq κ] in
/-- No more users hold resources of a pool at a tick than the pool has resources. -/
theorem Exclusive.count_le (h : Exclusive U free) {users : List υ} (hn : users.Nodup)
    {p : υ → Bool} {pool : List κ} (t : ℕ)
    (hpool : ∀ u ∈ users, p u = true → U.holds u t = true → ∃ k ∈ pool, U.key u = some k) :
    users.countP (fun u => p u && U.holds u t) ≤ pool.length := by
  have hmem : ∀ u ∈ users.filter fun u => p u && U.holds u t,
      U.holds u t = true ∧ ∃ k ∈ pool, U.key u = some k := by
    intro u hu
    simp only [List.mem_filter, Bool.and_eq_true] at hu
    exact ⟨hu.2.2, hpool u hu.1 hu.2.1 hu.2.2⟩
  have hnodup : ((users.filter fun u => p u && U.holds u t).map U.key).Nodup := by
    refine (hn.filter _).map_on fun u hu v hv he => ?_
    by_contra huv
    obtain ⟨hut, k, -, hk⟩ := hmem u hu
    obtain ⟨hvt, -⟩ := hmem v hv
    obtain ⟨i, hi, hi1, hi2⟩ := Uses.holds_iff.mp hut
    obtain ⟨j, hj, hj1, hj2⟩ := Uses.holds_iff.mp hvt
    rcases h.disjoint huv hi hj hk (he ▸ hk) with h | h <;> omega
  have hsub : ((users.filter fun u => p u && U.holds u t).map U.key) ⊆ pool.map some := by
    intro k hk
    obtain ⟨u, hu, rfl⟩ := List.mem_map.mp hk
    obtain ⟨-, k, hk, he⟩ := hmem u hu
    rw [he]
    exact List.mem_map_of_mem hk
  have hle := (hnodup.subperm hsub).length_le
  rw [List.length_map, List.length_map] at hle
  rwa [List.countP_eq_length_filter]

/-! ### Counts of users -/

variable {α : Type}

/-- A sum changes as one user's share does. -/
theorem sum_of_step {l : List α} (hl : l.Nodup) {f g : α → ℕ} {x : α} (hx : x ∈ l)
    (h : ∀ y ∈ l, y ≠ x → g y = f y) : (l.map g).sum + f x = (l.map f).sum + g x := by
  induction l with
  | nil => cases hx
  | cons y l ih =>
    have hy := List.nodup_cons.mp hl
    rw [List.map_cons, List.map_cons, List.sum_cons, List.sum_cons]
    by_cases hyx : y = x
    · subst hyx
      have hrest : l.map g = l.map f := List.map_congr_left fun z hz =>
        h z (List.mem_cons_of_mem _ hz) (by rintro rfl; exact hy.1 hz)
      rw [hrest]
      omega
    · have hxl : x ∈ l := (List.mem_cons.mp hx).resolve_left (Ne.symm hyx)
      have := ih hy.2 hxl fun z hz => h z (List.mem_cons_of_mem _ hz)
      rw [h y List.mem_cons_self hyx]
      omega

theorem countP_eq_sum (l : List α) (p : α → Bool) : l.countP p = (l.map fun x => (p x).toNat).sum := by
  induction l with
  | nil => rfl
  | cons x l ih =>
    rw [List.countP_cons, List.map_cons, List.sum_cons, ← ih]
    cases p x <;> simp; omega

/-- A count changes as one user's answer does. -/
theorem countP_of_step {l : List α} (hl : l.Nodup) {p p' : α → Bool} {x : α} (hx : x ∈ l)
    (h : ∀ y ∈ l, y ≠ x → p' y = p y) :
    l.countP p' + (p x).toNat = l.countP p + (p' x).toNat := by
  rw [countP_eq_sum, countP_eq_sum]
  exact sum_of_step (f := fun y => (p y).toNat) (g := fun y => (p' y).toNat) hl hx
    fun y hy hyx => congrArg Bool.toNat (h y hy hyx)

/-- A count of some users and of others is the sum of both. -/
theorem countP_or {l : List α} {p q : α → Bool} (h : ∀ y ∈ l, p y = true → q y = false) :
    l.countP (fun y => p y || q y) = l.countP p + l.countP q := by
  induction l with
  | nil => rfl
  | cons y l ih =>
    have hy := h y List.mem_cons_self
    rw [List.countP_cons, List.countP_cons, List.countP_cons,
      ih fun z hz => h z (List.mem_cons_of_mem _ hz)]
    cases hp : p y with
    | true => simp [hy hp]; omega
    | false => cases q y <;> simp; omega

/-- To count over the users with some keys is to count over the keys. -/
theorem countP_of_keys {β : Type} [DecidableEq β] {key : α → β} {l : List α} {ks : List β}
    (hl : (l.map key).Nodup) (hks : ks.Nodup) (hsub : ks ⊆ l.map key) (q : β → Bool) :
    l.countP (fun x => decide (key x ∈ ks) && q (key x)) = ks.countP q := by
  have hperm : ((l.filter fun x => key x ∈ ks).map key).Perm ks := by
    refine (List.perm_ext_iff_of_nodup (hl.sublist (List.filter_sublist.map _)) hks).mpr fun k => ?_
    simp only [List.mem_map, List.mem_filter, decide_eq_true_eq]
    constructor
    · rintro ⟨x, ⟨-, hx⟩, rfl⟩; exact hx
    · intro hk
      obtain ⟨x, hx, rfl⟩ := List.mem_map.mp (hsub hk)
      exact ⟨x, ⟨hx, hk⟩, rfl⟩
  rw [← hperm.countP_eq, List.countP_map, List.countP_filter]
  refine List.countP_congr fun x _ => ?_
  rw [Function.comp_apply, Bool.and_comm]

end Serial
