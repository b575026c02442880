/-
# Tilings of an interval

Pieces of integers that follow on one another, none of them empty. They cover the
interval from the first to the end of the last and nothing else (`Tiles.mem_iff`),
each integer once (`Tiles.disjoint`). Cut into pieces of one width, the last one
shorter, an interval is tiled as far as the pieces reach (`tiles_chunks`).
-/
import Mathlib.Data.List.Basic
import Mathlib.Data.List.Pairwise
import Mathlib.Tactic.Linarith

namespace Tiling

/-- Pieces `(start, length)` from one end of an interval to the other. -/
def Tiles : ℤ → ℤ → List (ℤ × ℕ) → Prop
  | a, b, [] => a = b
  | a, b, p :: ps => p.1 = a ∧ 0 < p.2 ∧ Tiles (a + p.2) b ps

/-- The integer lies in the piece. -/
def Inside (x : ℤ) (p : ℤ × ℕ) : Prop := p.1 ≤ x ∧ x < p.1 + p.2

theorem Tiles.le : ∀ {ps : List (ℤ × ℕ)} {a b : ℤ}, Tiles a b ps → a ≤ b
  | [], _, _, h => le_of_eq h
  | p :: ps, _, _, ⟨_, _, h⟩ => by
    have := h.le
    omega

/-- **No gap and nothing outside.** -/
theorem Tiles.mem_iff : ∀ {ps : List (ℤ × ℕ)} {a b : ℤ}, Tiles a b ps → ∀ x, (∃ p ∈ ps, Inside x p) ↔ a ≤ x ∧ x < b
  | [], a, b, h, x => by
    obtain rfl : a = b := h
    simp
  | p :: ps, a, b, ⟨hp, hpos, h⟩, x => by
    have hle := h.le
    have hrest := h.mem_iff x
    simp only [List.mem_cons, exists_eq_or_imp, hrest]
    unfold Inside
    omega

/-- **No overlap.** -/
theorem Tiles.disjoint : ∀ {ps : List (ℤ × ℕ)} {a b : ℤ}, Tiles a b ps →
    ps.Pairwise fun p q => ∀ x, ¬ (Inside x p ∧ Inside x q)
  | [], _, _, _ => List.Pairwise.nil
  | p :: ps, a, b, ⟨hp, hpos, h⟩ => by
    refine List.Pairwise.cons (fun q hq x hx => ?_) h.disjoint
    have hin := (h.mem_iff x).mp ⟨q, hq, hx.2⟩
    have hx := hx.1
    unfold Inside at hx
    omega

theorem Tiles.snoc : ∀ {ps : List (ℤ × ℕ)} {a b : ℤ} {n : ℕ}, Tiles a b ps → 0 < n → Tiles a (b + n) (ps ++ [(b, n)])
  | [], a, b, n, h, hn => by
    obtain rfl : a = b := h
    exact ⟨rfl, hn, rfl⟩
  | p :: ps, a, b, n, ⟨hp, hpos, h⟩, hn => ⟨hp, hpos, h.snoc hn⟩

/-- A tiling goes on where another one ends. -/
theorem Tiles.append : ∀ {ps qs : List (ℤ × ℕ)} {a b c : ℤ}, Tiles a b ps → Tiles b c qs → Tiles a c (ps ++ qs)
  | [], _, a, b, _, h, h' => by
    obtain rfl : a = b := h
    exact h'
  | _ :: _, _, _, _, _, ⟨hp, hpos, h⟩, h' => ⟨hp, hpos, h.append h'⟩

theorem Tiles.unique : ∀ {ps : List (ℤ × ℕ)} {a b b' : ℤ}, Tiles a b ps → Tiles a b' ps → b = b'
  | [], _, _, _, h, h' => (show _ = _ from h).symm.trans h'
  | _ :: _, _, _, _, ⟨_, _, h⟩, ⟨_, _, h'⟩ => h.unique h'

/-- A piece of a length cut into pieces of a width. -/
def chunk (a : ℤ) (total width k : ℕ) : ℤ × ℕ := (a + (k * width : ℕ), min width (total - k * width))

/-- **The pieces tile as far as they reach.** -/
theorem tiles_chunks (a : ℤ) {total width : ℕ} (hw : 0 < width) : ∀ n : ℕ, (∀ k < n, k * width < total) →
    Tiles a (a + (min (n * width) total : ℕ)) ((List.range n).map (chunk a total width))
  | 0, _ => by simp [Tiles]
  | n + 1, h => by
    have ih := tiles_chunks a hw n fun k hk => h k (hk.trans n.lt_succ_self)
    have hn := h n n.lt_succ_self
    rw [List.range_succ, List.map_append, List.map_singleton]
    have hend : a + (min (n * width) total : ℕ) = a + (n * width : ℕ) := by
      rw [Nat.min_eq_left hn.le]
    rw [hend] at ih
    have hstep := ih.snoc (n := min width (total - n * width)) (by omega)
    have hlast : a + (min ((n + 1) * width) total : ℕ) = a + (n * width : ℕ) + (min width (total - n * width) : ℕ) := by
      rw [Nat.succ_mul]
      push_cast
      omega
    rw [hlast]
    exact hstep

/-- The pieces tile the whole just where they reach its end. -/
theorem tiles_chunks_iff (a : ℤ) {total width n : ℕ} (hw : 0 < width) (h : ∀ k < n, k * width < total) :
    Tiles a (a + total) ((List.range n).map (chunk a total width)) ↔ total ≤ n * width := by
  have htiles := tiles_chunks a hw n h
  constructor
  · intro ht
    have hend := ht.unique htiles
    omega
  · intro hle
    rwa [Nat.min_eq_right hle] at htiles

end Tiling
