/-
# Which lines are resident

What the operations of the hierarchy do to the lines of each level: a touch
brings a line in and may evict another (`contains_touch`), a back-invalidation
takes the evicted line from the levels above (`contains_backInvalidate`). The
states a hierarchy passes through keep each set to its own lines, without
repetition and within its ways (`Lawful`).
-/
import VectorSim.Memory
import VectorSim.Lib.Recency

namespace VectorSim
namespace MemoryConfig

open Checked

variable {C : MemoryConfig} {s s' : MemoryState} {now : ℕ}

/-- The sets of a state: its lines belong to their set and are listed once, within the ways. -/
structure Lawful (C : MemoryConfig) (s : MemoryState) : Prop where
  placed : ∀ level i, ∀ x ∈ s.sets level i, C.setIndex level x = i
  nodup : ∀ level i, (s.sets level i).Nodup
  bounded : ∀ level i, (s.sets level i).length ≤ C.ways level

theorem lawful_empty : Lawful C empty :=
  ⟨fun _ _ _ h => (List.not_mem_nil h).elim, fun _ _ => List.nodup_nil, fun _ _ => Nat.zero_le _⟩

theorem contains_iff {level : ℕ} {x : ℤ} :
    C.contains s level x = true ↔ x ∈ s.sets level (C.setIndex level x) := by simp [contains]

/-! ### One set -/

@[simp] theorem setLines_sets (level : ℕ) (line : ℤ) (lines : List ℤ) (k i : ℕ) :
    (C.setLines s level line lines).sets k i =
      if k = level ∧ i = C.setIndex level line then lines else s.sets k i := by
  unfold setLines
  dsimp only
  by_cases hk : k = level
  · subst hk
    by_cases hi : i = C.setIndex k line <;> simp [hi]
  · simp [hk]

@[simp] theorem setLines_pendingFills (level : ℕ) (line : ℤ) (lines : List ℤ) :
    (C.setLines s level line lines).pendingFills = s.pendingFills := rfl

theorem touch_eq (level : ℕ) (line : ℤ) :
    C.touch s level line =
      let r := Recency.touch (C.ways level) line (s.sets level (C.setIndex level line))
      (C.setLines s level line r.1, r.2) := by
  unfold touch Recency.touch
  dsimp only
  split
  · rfl
  · split <;> rfl

theorem touch_sets (level : ℕ) (line : ℤ) (k i : ℕ) :
    (C.touch s level line).1.sets k i =
      if k = level ∧ i = C.setIndex level line then
        (Recency.touch (C.ways level) line (s.sets level (C.setIndex level line))).1
      else s.sets k i := by
  rw [touch_eq]
  exact setLines_sets _ _ _ _ _

theorem remove_sets (level : ℕ) (line : ℤ) (k i : ℕ) :
    (C.remove s level line).sets k i =
      if k = level ∧ i = C.setIndex level line then (s.sets k i).filter (· ≠ line) else s.sets k i := by
  unfold remove
  rw [setLines_sets]
  split
  · next h => rw [h.1, h.2]
  · rfl

/-- A set changes to another without repetition, within the ways. -/
theorem Lawful.setLines (h : Lawful C s) {level : ℕ} {line : ℤ} {lines : List ℤ} (hn : lines.Nodup)
    (hw : lines.length ≤ C.ways level) (hp : ∀ x ∈ lines, C.setIndex level x = C.setIndex level line) :
    Lawful C (C.setLines s level line lines) := by
  refine ⟨fun k i x hx => ?_, fun k i => ?_, fun k i => ?_⟩
  · rw [setLines_sets] at hx
    split at hx
    · next hk => rw [hk.1, hk.2]; exact hp x hx
    · exact h.placed k i x hx
  · rw [setLines_sets]
    split
    · exact hn
    · exact h.nodup k i
  · rw [setLines_sets]
    split
    · next hk => rw [hk.1]; exact hw
    · exact h.bounded k i

theorem Lawful.touch (h : Lawful C s) (level : ℕ) (line : ℤ) : Lawful C (C.touch s level line).1 := by
  rw [touch_eq]
  refine h.setLines (Recency.nodup_touch (h.nodup _ _)) (Recency.length_touch (h.bounded _ _) (h.nodup _ _)) ?_
  intro x hx
  rcases ((Recency.mem_touch (h.nodup _ _)).mp hx).1 with rfl | hx
  · rfl
  · exact h.placed _ _ x hx

theorem Lawful.remove (h : Lawful C s) (level : ℕ) (line : ℤ) : Lawful C (C.remove s level line) :=
  h.setLines ((h.nodup _ _).filter _) ((List.length_filter_le _ _).trans (h.bounded _ _))
    fun x hx => h.placed _ _ x (List.mem_of_mem_filter hx)

/-- **What a touch brings in and what it evicts.** -/
theorem contains_touch (h : Lawful C s) (level : ℕ) (line : ℤ) (k : ℕ) (y : ℤ) :
    C.contains (C.touch s level line).1 k y = true ↔
      if k = level then (y = line ∨ C.contains s level y = true) ∧ (C.touch s level line).2 ≠ some y
      else C.contains s k y = true := by
  rw [contains_iff, touch_sets]
  by_cases hk : k = level
  · subst hk
    rw [if_pos rfl]
    by_cases hi : C.setIndex k y = C.setIndex k line
    · rw [if_pos ⟨rfl, hi⟩, Recency.mem_touch (h.nodup _ _), contains_iff, hi, touch_eq]
    · rw [if_neg fun hc => hi hc.2, contains_iff]
      have hne : y ≠ line := by rintro rfl; exact hi rfl
      have hev : (C.touch s k line).2 ≠ some y := by
        intro he
        rw [touch_eq] at he
        rcases Recency.evicted_mem he with rfl | hy
        · exact hne rfl
        · exact hi (h.placed _ _ y hy)
      simp [hne, hev]
  · rw [if_neg fun hc => hk hc.1, if_neg hk, contains_iff]

theorem contains_remove (h : Lawful C s) (level : ℕ) (line : ℤ) (k : ℕ) (y : ℤ) :
    C.contains (C.remove s level line) k y = true ↔ C.contains s k y = true ∧ ¬ (k = level ∧ y = line) := by
  rw [contains_iff, remove_sets, contains_iff]
  by_cases hc : k = level ∧ C.setIndex k y = C.setIndex level line
  · rw [if_pos hc]
    obtain ⟨rfl, -⟩ := hc
    simp
  · rw [if_neg hc]
    have : ¬ (k = level ∧ y = line) := by
      rintro ⟨rfl, rfl⟩
      exact hc ⟨rfl, rfl⟩
    simp [this]

/-! ### Back-invalidation -/

/-- The levels above lose a line one after the other. -/
theorem removeAbove (line : ℤ) : ∀ (levels : List ℕ) {s : MemoryState}, Lawful C s →
    Lawful C (levels.foldl (fun s upper => C.remove s upper line) s) ∧ ∀ k y,
      (C.contains (levels.foldl (fun s upper => C.remove s upper line) s) k y = true ↔
        C.contains s k y = true ∧ ¬ (k ∈ levels ∧ y = line))
  | [], s, h => ⟨h, fun k y => by simp⟩
  | upper :: levels, s, h => by
    obtain ⟨hl, hc⟩ := removeAbove line levels (h.remove upper line)
    refine ⟨hl, fun k y => ?_⟩
    rw [List.foldl_cons, hc, contains_remove h, List.mem_cons]
    constructor
    · rintro ⟨⟨hs, h1⟩, h2⟩
      exact ⟨hs, fun ⟨hk, hy⟩ => hk.elim (fun hk => h1 ⟨hk, hy⟩) fun hk => h2 ⟨hk, hy⟩⟩
    · rintro ⟨hs, h1⟩
      exact ⟨⟨hs, fun ⟨hk, hy⟩ => h1 ⟨.inl hk, hy⟩⟩, fun ⟨hk, hy⟩ => h1 ⟨.inr hk, hy⟩⟩

theorem Lawful.backInvalidate (h : Lawful C s) (level : ℕ) (e : Option ℤ) :
    Lawful C (C.backInvalidate s level e) := by
  cases e with
  | none => exact h
  | some line => exact (removeAbove line _ h).1

theorem contains_backInvalidate (h : Lawful C s) (level : ℕ) (e : Option ℤ) (k : ℕ) (y : ℤ) :
    C.contains (C.backInvalidate s level e) k y = true ↔
      C.contains s k y = true ∧ ¬ (k < level ∧ e = some y) := by
  cases e with
  | none => simp [MemoryConfig.backInvalidate]
  | some line =>
    refine ((removeAbove line _ h).2 k y).trans ?_
    simp only [List.mem_range, Option.some.injEq, eq_comm (a := y)]

/-! ### Fills -/

/-- The part of a fill that concerns one level. -/
def fillLevel (C : MemoryConfig) (line : ℤ) (s : MemoryState) (level : ℕ) : MemoryState :=
  let r := C.touch s level line
  C.backInvalidate r.1 level r.2

theorem Lawful.fillLevel (h : Lawful C s) (line : ℤ) (level : ℕ) : Lawful C (C.fillLevel line s level) :=
  (h.touch level line).backInvalidate _ _

theorem Lawful.foldl {f : MemoryState → ℕ → MemoryState} (hf : ∀ s k, Lawful C s → Lawful C (f s k)) :
    ∀ (levels : List ℕ) {s : MemoryState}, Lawful C s → Lawful C (levels.foldl f s)
  | [], _, h => h
  | k :: levels, s, h => Lawful.foldl hf levels (hf s k h)

theorem Lawful.fillInclusive (h : Lawful C s) (line : ℤ) : Lawful C (C.fillInclusive s line) :=
  h.foldl (fun _ k hs => hs.fillLevel line k) _

theorem Lawful.fills : ∀ (fs : List (ℤ × ℕ × ℕ)) {s : MemoryState}, Lawful C s →
    Lawful C (fs.foldl (fun s f => C.fillInclusive s f.1) s)
  | [], _, h => h
  | f :: fs, s, h => Lawful.fills fs (h.fillInclusive f.1)

theorem Lawful.congr (h : Lawful C s) (hs : s'.sets = s.sets) : Lawful C s' :=
  ⟨hs ▸ h.placed, hs ▸ h.nodup, hs ▸ h.bounded⟩

theorem Lawful.completeFills (h : Lawful C s) (now : ℕ) : Lawful C (C.completeFills s now) :=
  (Lawful.fills _ h).congr rfl

end MemoryConfig
end VectorSim
