/-
# Numbers at first sight

A table gives each key the next number when it first meets it: a key that is in the
table keeps its number (`number_enter`, `number_grow`), and two keys of the
table have different ones (`number_inj`).
-/
import Mathlib.Data.List.Basic

namespace Numbering

variable {κ : Type*} [DecidableEq κ]

/-- `if key not in table: table[key] = len(table) + 1`, the keys in the order of their numbers. -/
def enter (table : List κ) (key : κ) : List κ := if key ∈ table then table else table ++ [key]

/-- `table[key]`, where it has one. -/
def number (table : List κ) (key : κ) : ℕ := table.idxOf key + 1

theorem prefix_enter (table : List κ) (key : κ) : table <+: enter table key := by
  unfold enter
  split
  · exact List.prefix_refl _
  · exact List.prefix_append _ _

theorem mem_enter (table : List κ) (key : κ) : key ∈ enter table key := by
  unfold enter
  split
  · assumption
  · simp

theorem number_grow {table table' : List κ} {key : κ} (h : table <+: table') (hkey : key ∈ table) :
    number table' key = number table key := by
  obtain ⟨rest, rfl⟩ := h
  rw [number, number, List.idxOf_append, if_pos hkey]

theorem number_inj {table : List κ} {key key' : κ} (h : key ∈ table) :
    number table key = number table key' ↔ key = key' := by
  rw [number, number, Nat.add_right_cancel_iff, List.idxOf_inj h]

end Numbering
