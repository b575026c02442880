/-
# Last writers

A list of sets of keys, each written at its position; the last writer of a key
is the greatest position that wrote it. `record` keeps a table of last writers
up to date one position at a time, and `Tracks` says that the table has them
(`tracks_append`). A last writer stays one under writes that are fewer
(`IsLast.narrow`).
-/
import Mathlib.Data.List.Basic
import Mathlib.Order.Basic
import Mathlib.Algebra.Order.Group.Nat

namespace LastWriter

variable {κ : Type} {writes : List (List κ)} {last : κ → Option ℕ} {k : κ} {i j : ℕ} {ks : List κ}

/-- The position is the last that wrote the key. -/
structure IsLast (writes : List (List κ)) (k : κ) (i : ℕ) : Prop where
  written : ∃ ks, writes[i]? = some ks ∧ k ∈ ks
  after : ∀ j ks, i < j → writes[j]? = some ks → k ∉ ks

theorem IsLast.lt (h : IsLast writes k i) : i < writes.length := by
  obtain ⟨ks, hks, -⟩ := h.written
  exact (List.getElem?_eq_some_iff.mp hks).1

theorem IsLast.unique (h : IsLast writes k i) (h' : IsLast writes k j) : i = j := by
  obtain ⟨ks, hks, hk⟩ := h.written
  obtain ⟨ks', hks', hk'⟩ := h'.written
  rcases Nat.lt_trichotomy i j with hlt | rfl | hlt
  · exact absurd hk' (h.after j ks' hlt hks')
  · rfl
  · exact absurd hk (h'.after i ks hlt hks)

theorem getElem?_of_take {α : Type} {l : List α} {n k : ℕ} {a : α} (h : (l.take n)[k]? = some a) :
    l[k]? = some a := by
  rw [List.getElem?_take] at h
  split at h
  · exact h
  · cases h

section Map

variable {α : Type} {l : List α} {f g : α → List κ} {u : α}

theorem isLast_map : IsLast (l.map f) k i ↔
    (∃ u, l[i]? = some u ∧ k ∈ f u) ∧ ∀ j u, i < j → l[j]? = some u → k ∉ f u := by
  constructor
  · rintro ⟨⟨ks, hks, hk⟩, hafter⟩
    rw [List.getElem?_map, Option.map_eq_some_iff] at hks
    obtain ⟨u, hu, rfl⟩ := hks
    refine ⟨⟨u, hu, hk⟩, fun j u' hij hj => hafter j (f u') hij ?_⟩
    rw [List.getElem?_map, hj]
    rfl
  · rintro ⟨⟨u, hu, hk⟩, hafter⟩
    refine ⟨⟨f u, by rw [List.getElem?_map, hu]; rfl, hk⟩, fun j ks hij hj => ?_⟩
    rw [List.getElem?_map, Option.map_eq_some_iff] at hj
    obtain ⟨u', hu', rfl⟩ := hj
    exact hafter j u' hij hu'

/-- A last writer stays one under writes that are fewer, where it still writes the key. -/
theorem IsLast.narrow (h : IsLast (l.map f) k i) (sub : ∀ u ∈ l, k ∈ g u → k ∈ f u) (hi : l[i]? = some u)
    (hk : k ∈ g u) : IsLast (l.map g) k i := by
  rw [isLast_map] at h ⊢
  exact ⟨⟨u, hi, hk⟩, fun j u' hij hj hk' => h.2 j u' hij hj (sub u' (List.mem_of_getElem? hj) hk')⟩

theorem isLast_congr (h : ∀ u ∈ l, k ∈ f u ↔ k ∈ g u) : IsLast (l.map f) k i ↔ IsLast (l.map g) k i := by
  constructor
  · intro hf
    obtain ⟨⟨u, hu, hk⟩, -⟩ := isLast_map.mp hf
    exact hf.narrow (fun u hu => (h u hu).mpr) hu ((h u (List.mem_of_getElem? hu)).mp hk)
  · intro hg
    obtain ⟨⟨u, hu, hk⟩, -⟩ := isLast_map.mp hg
    exact hg.narrow (fun u hu => (h u hu).mp) hu ((h u (List.mem_of_getElem? hu)).mpr hk)

end Map

/-- The table has the last writer of every key that was written. -/
def Tracks (writes : List (List κ)) (last : κ → Option ℕ) : Prop :=
  ∀ k i, last k = some i ↔ IsLast writes k i

theorem tracks_nil : Tracks ([] : List (List κ)) fun _ => none := by
  intro k i
  constructor
  · intro h; cases h
  · intro h
    have := h.lt
    exact absurd this (Nat.not_lt_zero i)

/-- The table after the next writes. -/
theorem tracks_append (h : Tracks writes last) {last' : κ → Option ℕ}
    (hwritten : ∀ k ∈ ks, last' k = some writes.length) (hother : ∀ k, k ∉ ks → last' k = last k) :
    Tracks (writes ++ [ks]) last' := by
  intro k i
  have hnew : (writes ++ [ks])[writes.length]? = some ks := by simp
  have hold : ∀ {j}, j < writes.length → (writes ++ [ks])[j]? = writes[j]? := fun hj =>
    List.getElem?_append_left hj
  by_cases hk : k ∈ ks
  · rw [hwritten k hk]
    constructor
    · intro he
      cases he
      refine ⟨⟨ks, hnew, hk⟩, fun j ks' hj hks' => ?_⟩
      have hlt := (List.getElem?_eq_some_iff.mp hks').1
      rw [List.length_append, List.length_singleton] at hlt
      omega
    · intro hlast
      have hlen : IsLast (writes ++ [ks]) k writes.length := by
        refine ⟨⟨ks, hnew, hk⟩, fun j ks' hj hks' => ?_⟩
        have hlt := (List.getElem?_eq_some_iff.mp hks').1
        rw [List.length_append, List.length_singleton] at hlt
        omega
      rw [hlast.unique hlen]
  · rw [hother k hk, h k i]
    constructor
    · rintro ⟨⟨ks', hi, hk'⟩, hafter⟩
      have hlt := (List.getElem?_eq_some_iff.mp hi).1
      refine ⟨⟨ks', by rw [hold hlt]; exact hi, hk'⟩, fun j ks'' hij hj => ?_⟩
      by_cases hjl : j < writes.length
      · rw [hold hjl] at hj
        exact hafter j ks'' hij hj
      · have hlt' := (List.getElem?_eq_some_iff.mp hj).1
        rw [List.length_append, List.length_singleton] at hlt'
        obtain rfl : j = writes.length := by omega
        rw [hnew] at hj
        cases hj
        exact hk
    · rintro ⟨⟨ks', hi, hk'⟩, hafter⟩
      have hlt : i < writes.length := by
        by_contra hge
        have hlt' := (List.getElem?_eq_some_iff.mp hi).1
        rw [List.length_append, List.length_singleton] at hlt'
        obtain rfl : i = writes.length := by omega
        rw [hnew] at hi
        cases hi
        exact hk hk'
      refine ⟨⟨ks', by rw [← hold hlt]; exact hi, hk'⟩, fun j ks'' hij hj => ?_⟩
      have hjl := (List.getElem?_eq_some_iff.mp hj).1
      exact hafter j ks'' hij (by rw [hold hjl]; exact hj)

end LastWriter
