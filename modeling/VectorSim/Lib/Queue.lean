/-
# Priority queues

A binary heap of tuples, as `heapq` keeps it, is determined by the multiset of
its entries and pops them in the order of their keys: a list sorted by key.
-/
import Mathlib.Data.List.Sort
import Mathlib.Data.List.Perm.Basic

namespace Queue

/-- Lexicographic order of three-part keys. -/
def KeyLe (a b : ℕ × ℕ × ℕ) : Prop :=
  a.1 < b.1 ∨ a.1 = b.1 ∧ (a.2.1 < b.2.1 ∨ a.2.1 = b.2.1 ∧ a.2.2 ≤ b.2.2)

instance (a b : ℕ × ℕ × ℕ) : Decidable (KeyLe a b) := by unfold KeyLe; infer_instance

theorem KeyLe.fst {a b : ℕ × ℕ × ℕ} (h : KeyLe a b) : a.1 ≤ b.1 := by
  unfold KeyLe at h; omega

theorem KeyLe.trans {a b c : ℕ × ℕ × ℕ} (h : KeyLe a b) (h' : KeyLe b c) : KeyLe a c := by
  unfold KeyLe at *; omega

theorem keyLe_total (a b : ℕ × ℕ × ℕ) : KeyLe a b ∨ KeyLe b a := by
  unfold KeyLe; omega

variable {α : Type*} (key : α → ℕ × ℕ × ℕ)

/-- `heappush`. -/
def push (x : α) (q : List α) : List α := q.orderedInsert (fun a b => KeyLe (key a) (key b)) x

/-- The entries stand in the order they are popped. -/
def Sorted (q : List α) : Prop := q.Pairwise fun a b => KeyLe (key a) (key b)

variable {key}

@[simp] theorem mem_push {x y : α} {q : List α} : y ∈ push key x q ↔ y = x ∨ y ∈ q := by
  simp [push, List.mem_orderedInsert]

theorem push_perm (x : α) (q : List α) : (push key x q).Perm (x :: q) :=
  List.perm_orderedInsert _ x q

theorem Sorted.push {x : α} : ∀ {q : List α}, Sorted key q → Sorted key (push key x q)
  | [], _ => by simp [Queue.push, Sorted]
  | y :: q, h => by
    have hy := List.pairwise_cons.mp h
    by_cases hxy : KeyLe (key x) (key y)
    · have : Queue.push key x (y :: q) = x :: y :: q := by
        simp [Queue.push, List.orderedInsert, hxy]
      rw [this]
      refine List.pairwise_cons.mpr ⟨fun z hz => ?_, h⟩
      rcases List.mem_cons.mp hz with rfl | hz
      · exact hxy
      · exact hxy.trans (hy.1 z hz)
    · have : Queue.push key x (y :: q) = y :: Queue.push key x q := by
        simp [Queue.push, List.orderedInsert, hxy]
      rw [this]
      refine List.pairwise_cons.mpr ⟨fun z hz => ?_, Sorted.push hy.2⟩
      rcases mem_push.mp hz with rfl | hz
      · exact (keyLe_total _ _).resolve_left hxy
      · exact hy.1 z hz

theorem Sorted.tail {x : α} {q : List α} (h : Sorted key (x :: q)) : Sorted key q :=
  (List.pairwise_cons.mp h).2

/-- The head is due first. -/
theorem Sorted.head_le {x y : α} {q : List α} (h : Sorted key (x :: q)) (hy : y ∈ q) :
    (key x).1 ≤ (key y).1 :=
  ((List.pairwise_cons.mp h).1 y hy).fst

/-- Queues whose entries correspond, with the same keys, go on to when corresponding entries are
pushed. -/
theorem push_forall₂ {R : α → α → Prop} (hkey : ∀ a b, R a b → key b = key a) {x y : α} {q r : List α}
    (hxy : R x y) (h : List.Forall₂ R q r) : List.Forall₂ R (push key x q) (push key y r) := by
  unfold push
  induction h with
  | nil => exact .cons hxy .nil
  | @cons a b q r hab h ih =>
    rw [List.orderedInsert_cons, List.orderedInsert_cons, hkey x y hxy, hkey a b hab]
    split
    · exact .cons hxy (.cons hab h)
    · exact .cons hab ih

end Queue
