/-
# Nested documents

What a parser makes of a text: numbers, texts and truth values in lists and
mappings, to any depth. A walk collects the numbers; whatever is read at a path is
among them (`numbers_of_at`). The least common multiple of denominators makes whole
numbers of all the rationals they belong to (`whole_of_dvd`, `den_dvd_lcm`).
-/
import Mathlib.Data.Rat.Lemmas
import Mathlib.Algebra.Order.Field.Rat
import Mathlib.Tactic.FieldSimp

/-- A document. -/
inductive Document
  | null
  | bool (b : Bool)
  | num (q : ℚ)
  | text (s : String)
  | list (vs : List Document)
  | mapping (es : List (String × Document))

namespace Document

/-- A key of a mapping, or a position of a list. -/
inductive Step
  | key (k : String)
  | index (n : ℕ)
  deriving DecidableEq, Repr

/-! ### The walk -/

mutual

/-- The numbers, at every depth. -/
def numbers : Document → List ℚ
  | .num q => [q]
  | .list vs => numbersOfList vs
  | .mapping es => numbersOfEntries es
  | _ => []

def numbersOfList : List Document → List ℚ
  | [] => []
  | v :: vs => v.numbers ++ numbersOfList vs

def numbersOfEntries : List (String × Document) → List ℚ
  | [] => []
  | e :: es => numbersOfEntry e ++ numbersOfEntries es

def numbersOfEntry : String × Document → List ℚ
  | (_, v) => v.numbers

end

theorem numbers_subset_of_mem {v : Document} : ∀ {vs : List Document}, v ∈ vs → v.numbers ⊆ numbersOfList vs
  | w :: vs, h => by
    rw [numbersOfList]
    rcases List.mem_cons.mp h with rfl | h
    · exact List.subset_append_left _ _
    · exact List.Subset.trans (numbers_subset_of_mem h) (List.subset_append_right _ _)

theorem numbers_subset_of_entry {k : String} {v : Document} :
    ∀ {es : List (String × Document)}, (k, v) ∈ es → v.numbers ⊆ numbersOfEntries es
  | e :: es, h => by
    rw [numbersOfEntries]
    rcases List.mem_cons.mp h with rfl | h
    · exact List.subset_append_left _ _
    · exact List.Subset.trans (numbers_subset_of_entry h) (List.subset_append_right _ _)

/-! ### Reading at a path -/

/-- The value under a key, or at a position. -/
def get : Document → Step → Option Document
  | .mapping es, .key k => es.lookup k
  | .list vs, .index n => vs[n]?
  | _, _ => none

/-- The value at the end of a path. -/
def at? : Document → List Step → Option Document
  | d, [] => some d
  | d, p :: ps => (d.get p).bind fun v => v.at? ps

theorem numbers_of_get {d v : Document} {p : Step} (h : d.get p = some v) : v.numbers ⊆ d.numbers := by
  cases d with
  | mapping es =>
    cases p with
    | key k =>
      obtain ⟨l₁, l₂, hes, -⟩ := List.lookup_eq_some_iff.mp h
      have hmem : (k, v) ∈ es := by
        rw [hes]
        simp
      exact numbers_subset_of_entry hmem
    | index n => cases h
  | list vs =>
    cases p with
    | key k => cases h
    | index n => exact numbers_subset_of_mem (List.mem_of_getElem? h)
  | null => cases h
  | bool b => cases h
  | num q => cases h
  | text s => cases h

/-- **What is read at a path has been walked over.** -/
theorem numbers_of_at : ∀ {path : List Step} {d v : Document}, d.at? path = some v → v.numbers ⊆ d.numbers
  | [], d, v, h => by
    cases h
    exact List.Subset.refl _
  | p :: ps, d, v, h => by
    obtain ⟨w, hw, h⟩ := Option.bind_eq_some_iff.mp h
    exact List.Subset.trans (numbers_of_at h) (numbers_of_get hw)

theorem mem_numbers_of_at {path : List Step} {d : Document} {q : ℚ} (h : d.at? path = some (.num q)) :
    q ∈ d.numbers :=
  numbers_of_at h (List.mem_singleton_self q)

/-! ### A common denominator -/

/-- A multiple of the denominator makes a whole number. -/
theorem whole_of_dvd {q : ℚ} {n : ℕ} (h : q.den ∣ n) : (q * n).den = 1 := by
  obtain ⟨k, rfl⟩ := h
  have hwhole : q * ((q.den * k : ℕ) : ℚ) = ((q.num * k : ℤ) : ℚ) := by
    push_cast
    rw [← mul_assoc, Rat.mul_den_eq_num]
  rw [hwhole]
  exact Rat.den_intCast _

theorem dvd_foldl_lcm : ∀ (ds : List ℕ) (n : ℕ), n ∣ ds.foldl Nat.lcm n ∧ ∀ d ∈ ds, d ∣ ds.foldl Nat.lcm n
  | [], n => ⟨dvd_rfl, by simp⟩
  | d :: ds, n => by
    obtain ⟨hfirst, hrest⟩ := dvd_foldl_lcm ds (n.lcm d)
    refine ⟨(Nat.dvd_lcm_left n d).trans hfirst, fun e he => ?_⟩
    rcases List.mem_cons.mp he with rfl | he
    · exact (Nat.dvd_lcm_right n e).trans hfirst
    · exact hrest e he

theorem foldl_lcm_pos : ∀ (ds : List ℕ) {n : ℕ}, 0 < n → (∀ d ∈ ds, 0 < d) → 0 < ds.foldl Nat.lcm n
  | [], _, hn, _ => hn
  | d :: ds, _, hn, h => foldl_lcm_pos ds (Nat.lcm_pos hn (h d List.mem_cons_self))
      fun e he => h e (List.mem_cons_of_mem _ he)

end Document
