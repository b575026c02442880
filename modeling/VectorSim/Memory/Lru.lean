/-
# A cache level keeps what was used most recently

`SetAssociativeCache` of `src/simulator/memory.py`, over any sequence of touches
and removals from empty: its sets stay within their ways, hold lines of their own
only, once each, in the order of their last touches; where lines are only touched,
a set holds those of its lines that were touched most recently, and what a touch
evicts is the least recently used. `can_hold` says whether lines can be touched,
in any order, without an eviction.
-/
import VectorSim.Memory.Inclusion

namespace VectorSim
namespace MemoryConfig

open Recency

variable {C : MemoryConfig} {level i : ℕ}

inductive CacheOp
  | touch (line : ℤ)
  | remove (line : ℤ)
  deriving DecidableEq, Repr

/-- The line that an operation uses. -/
def CacheOp.used? : CacheOp → Option ℤ
  | .touch line => some line
  | .remove _ => none

variable (C level)

/-- One operation on a level. -/
def operate (s : MemoryState) : CacheOp → MemoryState
  | .touch line => (C.touch s level line).1
  | .remove line => C.remove s level line

/-- Operations on a level, one after the other, from empty. -/
def operations (ops : List CacheOp) : MemoryState := ops.foldl (C.operate level) empty

/-- The lines of a set that the operations touch, in order. -/
def usesIn (ops : List CacheOp) (i : ℕ) : List ℤ := (ops.filterMap (·.used?)).filter fun x => C.setIndex level x = i

/-- A set after touches only. -/
def touchedSet (touches : List ℤ) (i : ℕ) : List ℤ := (C.operations level (touches.map .touch)).sets level i

/-- The lines that touches evict, one after the other. -/
def evictions : List ℤ → MemoryState → List ℤ
  | [], _ => []
  | x :: xs, s => (C.touch s level x).2.toList ++ evictions xs (C.touch s level x).1

/-- The loop of `can_hold`. -/
def holdLoop : List ℤ → (ℕ → ℕ) → Bool
  | [], _ => true
  | line :: lines, occupancy =>
    let index := C.setIndex level line
    let occupancy := Function.update occupancy index (occupancy index + 1)
    if C.ways level < occupancy index then false else holdLoop lines occupancy

variable {C level}

/-! ### The sets -/

theorem filter_snoc (touches : List ℤ) (x : ℤ) (i : ℕ) : ((touches ++ [x]).filter fun y => C.setIndex level y = i) =
    if C.setIndex level x = i then (touches.filter fun y => C.setIndex level y = i) ++ [x]
    else touches.filter fun y => C.setIndex level y = i := by
  rw [List.filter_append]
  by_cases hi : C.setIndex level x = i <;> simp [hi]

theorem operations_snoc (ops : List CacheOp) (op : CacheOp) :
    C.operations level (ops ++ [op]) = C.operate level (C.operations level ops) op := by
  rw [operations, List.foldl_append]
  rfl

theorem usesIn_touch (ops : List CacheOp) (x : ℤ) (i : ℕ) : C.usesIn level (ops ++ [.touch x]) i =
    if C.setIndex level x = i then C.usesIn level ops i ++ [x] else C.usesIn level ops i := by
  rw [usesIn, List.filterMap_append, List.filter_append]
  by_cases hi : C.setIndex level x = i
  · simp [CacheOp.used?, hi, usesIn]
  · simp [CacheOp.used?, hi, usesIn]

theorem usesIn_remove (ops : List CacheOp) (x : ℤ) (i : ℕ) :
    C.usesIn level (ops ++ [.remove x]) i = C.usesIn level ops i := by
  simp [usesIn, CacheOp.used?]

/-- A set after one more touch. -/
theorem operations_touch (ops : List CacheOp) (x : ℤ) (i : ℕ) :
    (C.operations level (ops ++ [.touch x])).sets level i =
      if C.setIndex level x = i then (Recency.touch (C.ways level) x ((C.operations level ops).sets level i)).1
      else (C.operations level ops).sets level i := by
  rw [operations_snoc]
  show (C.touch (C.operations level ops) level x).1.sets level i = _
  rw [touch_sets]
  by_cases hi : C.setIndex level x = i
  · rw [if_pos ⟨rfl, hi.symm⟩, if_pos hi, hi]
  · rw [if_neg fun h => hi h.2.symm, if_neg hi]

theorem operations_lawful (ops : List CacheOp) : Lawful C (C.operations level ops) := by
  induction ops using List.reverseRecOn with
  | nil => exact lawful_empty
  | append_singleton ops op ih =>
    rw [operations_snoc]
    cases op with
    | touch x => exact ih.touch level x
    | remove x => exact ih.remove level x

/-- The lines of a set are in the order of their last touches. -/
theorem operations_order (ops : List CacheOp) (i : ℕ) :
    ((C.operations level ops).sets level i).Pairwise (Older (C.usesIn level ops i)) := by
  induction ops using List.reverseRecOn with
  | nil => exact .nil
  | append_singleton ops op ih =>
    cases op with
    | touch x =>
      rw [operations_touch, usesIn_touch]
      by_cases hi : C.setIndex level x = i
      · rw [if_pos hi, if_pos hi]
        exact pairwise_touch ih
      · rw [if_neg hi, if_neg hi]
        exact ih
    | remove x =>
      rw [operations_snoc, usesIn_remove]
      show ((C.remove (C.operations level ops) level x).sets level i).Pairwise _
      rw [remove_sets]
      split
      · exact ih.filter _
      · exact ih

/-- A set that is only touched holds the lines that were touched most recently. -/
theorem touchedSet_recent (touches : List ℤ) (i : ℕ) :
    Recent (C.ways level) (touches.filter fun x => C.setIndex level x = i) (C.touchedSet level touches i) := by
  induction touches using List.reverseRecOn with
  | nil => exact recent_nil
  | append_singleton touches x ih =>
    unfold touchedSet at ih ⊢
    rw [List.map_append, List.map_singleton, operations_touch, filter_snoc]
    by_cases hi : C.setIndex level x = i
    · rw [if_pos hi, if_pos hi]
      exact ih.touch x
    · rw [if_neg hi, if_neg hi]
      exact ih

/-- What a touch evicts. -/
theorem touch_evicts (s : MemoryState) (x : ℤ) : (C.touch s level x).2 =
    if x ∈ s.sets level (C.setIndex level x) ∨ (s.sets level (C.setIndex level x)).length < C.ways level then none
    else (s.sets level (C.setIndex level x) ++ [x]).head? := by
  rw [touch_eq]
  dsimp only
  unfold Recency.touch
  rw [List.length_append, List.length_singleton]
  by_cases hx : x ∈ s.sets level (C.setIndex level x)
  · rw [if_pos hx, if_pos (.inl hx)]
  · rw [if_neg hx]
    by_cases hfull : C.ways level < (s.sets level (C.setIndex level x)).length + 1
    · rw [if_pos hfull, if_neg (by rintro (h | h); exacts [hx h, by omega])]
    · rw [if_neg hfull, if_pos (.inr (by omega))]

/-! ### `can_hold` -/

theorem holdLoop_iff : ∀ {lines : List ℤ} {occupancy : ℕ → ℕ}, (∀ i, occupancy i ≤ C.ways level) →
    (C.holdLoop level lines occupancy = true ↔
      ∀ i, occupancy i + (lines.filter fun x => C.setIndex level x = i).length ≤ C.ways level)
  | [], occupancy, h => by simp [holdLoop, h]
  | line :: lines, occupancy, h => by
    have hcount : ∀ i, Function.update occupancy (C.setIndex level line) (occupancy (C.setIndex level line) + 1) i +
        (lines.filter fun x => C.setIndex level x = i).length =
          occupancy i + ((line :: lines).filter fun x => C.setIndex level x = i).length := by
      intro i
      by_cases hi : C.setIndex level line = i
      · subst hi
        simp
        omega
      · rw [Function.update_of_ne (Ne.symm hi), List.filter_cons_of_neg (by simpa using hi)]
    unfold holdLoop
    dsimp only
    rw [Function.update_self]
    split
    · next hfull =>
      simp only [Bool.false_eq_true, false_iff, not_forall]
      refine ⟨C.setIndex level line, ?_⟩
      have := hcount (C.setIndex level line)
      rw [Function.update_self] at this
      omega
    · next hroom =>
      rw [holdLoop_iff]
      · exact forall_congr' fun i => by rw [hcount]
      · intro i
        by_cases hi : i = C.setIndex level line
        · rw [hi, Function.update_self]
          omega
        · rw [Function.update_of_ne hi]
          exact h i

/-- `can_hold` is its loop. -/
theorem canHold_eq_loop (lines : List ℤ) : C.canHold level lines = C.holdLoop level lines fun _ => 0 := by
  have hloop : C.holdLoop level lines (fun _ => 0) = true ↔
      ∀ i, 0 + (lines.filter fun x => C.setIndex level x = i).length ≤ C.ways level :=
    holdLoop_iff fun _ => Nat.zero_le _
  simp only [Nat.zero_add] at hloop
  rw [Bool.eq_iff_iff, canHold_iff, hloop]

/-- Touching new lines evicts none of them just when their sets have room for all. -/
theorem evictions_nil : ∀ (rest before : List ℤ) (s : MemoryState), (before ++ rest).Nodup →
    (∀ i, s.sets level i = before.filter fun x => C.setIndex level x = i) →
    (∀ i, (s.sets level i).length ≤ C.ways level) →
    (C.evictions level rest s = [] ↔
      ∀ i, ((before ++ rest).filter fun x => C.setIndex level x = i).length ≤ C.ways level)
  | [], before, s, _, hs, hw => by
    simp only [evictions, List.append_nil, true_iff]
    exact fun i => hs i ▸ hw i
  | x :: rest, before, s, hn, hs, hw => by
    have hnew : x ∉ s.sets level (C.setIndex level x) := by
      rw [hs]
      intro hx
      have := (List.nodup_append.mp hn).2.2 x (List.mem_of_mem_filter hx) x List.mem_cons_self
      exact this rfl
    have hsplit : before ++ x :: rest = (before ++ [x]) ++ rest := by simp
    unfold evictions
    rw [touch_evicts]
    by_cases hroom : (s.sets level (C.setIndex level x)).length < C.ways level
    · rw [if_pos (.inr hroom), Option.toList_none, List.nil_append, hsplit]
      have hafter : ∀ i, (C.touch s level x).1.sets level i = (before ++ [x]).filter fun y => C.setIndex level y = i := by
        intro i
        rw [touch_sets, filter_snoc]
        by_cases hi : C.setIndex level x = i
        · rw [if_pos ⟨rfl, hi.symm⟩, touch_room hnew hroom, if_pos hi, hs, hi]
        · rw [if_neg fun h => hi h.2.symm, hs, if_neg hi]
      refine evictions_nil rest (before ++ [x]) _ (hsplit ▸ hn) hafter fun i => ?_
      rw [touch_sets]
      split
      · next hi =>
        rw [touch_room hnew hroom, List.length_append, List.length_singleton]
        omega
      · exact hw i
    · rw [if_neg (by rintro (h | h); exacts [hnew h, hroom h])]
      constructor
      · intro h
        cases hl : s.sets level (C.setIndex level x) with
        | nil => rw [hl] at h; cases h
        | cons y l => rw [hl] at h; cases h
      · intro h
        have hcount := h (C.setIndex level x)
        rw [List.filter_append, List.length_append, ← hs, List.filter_cons_of_pos (by simp), List.length_cons] at hcount
        omega

/-- What a level promises. -/
structure LruExact (C : MemoryConfig) (level : ℕ) : Prop where
  bounded : ∀ ops i, ((C.operations level ops).sets level i).length ≤ C.ways level
  distinct : ∀ ops i, ((C.operations level ops).sets level i).Nodup
  placed : ∀ ops i, ∀ x ∈ (C.operations level ops).sets level i, C.setIndex level x = i
  order : ∀ ops i, ((C.operations level ops).sets level i).Pairwise (Older (C.usesIn level ops i))
  /-- After touches only, the lines of the set that were touched most recently. -/
  recent : ∀ touches i, Recent (C.ways level) (touches.filter fun x => C.setIndex level x = i) (C.touchedSet level touches i)
  /-- The line that is evicted is the least recently used. -/
  evicted : ∀ touches x e,
    (C.touch (C.operations level (touches.map .touch)) level x).2 = some e →
      ∃ rest, C.touchedSet level touches (C.setIndex level x) ++ [x] = e :: rest ∧
        ∀ y ∈ rest, Older ((touches ++ [x]).filter fun z => C.setIndex level z = C.setIndex level x) e y
  canHold : ∀ lines : List ℤ, lines.Nodup →
    (C.holdLoop level lines (fun _ => 0) = true ↔ ∀ order : List ℤ, order.Perm lines → C.evictions level order empty = [])
  /-- One order without an eviction is enough. -/
  anyOrder : ∀ lines order : List ℤ, lines.Nodup → order.Perm lines → C.evictions level order empty = [] →
    C.holdLoop level lines (fun _ => 0) = true

/-- **A cache level is LRU**, whatever its geometry. -/
theorem lru_exact (C : MemoryConfig) (level : ℕ) : LruExact C level := by
  have hhold : ∀ {lines order : List ℤ}, lines.Nodup → order.Perm lines →
      (C.holdLoop level lines (fun _ => 0) = true ↔ C.evictions level order empty = []) := by
    intro lines order hn hperm
    have hev : C.evictions level order empty = [] ↔
        ∀ i, (([] ++ order).filter fun x => C.setIndex level x = i).length ≤ C.ways level :=
      evictions_nil order [] empty (hperm.nodup_iff.mpr hn) (fun _ => rfl) fun _ => Nat.zero_le _
    rw [← canHold_eq_loop, canHold_iff, hev]
    exact forall_congr' fun i => by rw [List.nil_append, (hperm.filter _).length_eq]
  refine ⟨fun ops i => (operations_lawful ops).bounded level i, fun ops i => (operations_lawful ops).nodup level i,
    fun ops i => (operations_lawful ops).placed level i, operations_order, touchedSet_recent, ?_, ?_, ?_⟩
  · intro touches x e he
    rw [touch_evicts] at he
    split at he
    · cases he
    · next hfull =>
      have hx : x ∉ C.touchedSet level touches (C.setIndex level x) := fun h => hfull (.inl h)
      obtain ⟨rest, hrest⟩ := List.head?_eq_some_iff.mp he
      have hpair := pairwise_append hx (touchedSet_recent touches (C.setIndex level x)).order
      refine ⟨rest, hrest, ?_⟩
      rw [filter_snoc, if_pos rfl]
      rw [show C.touchedSet level touches (C.setIndex level x) ++ [x] = e :: rest from hrest] at hpair
      exact (List.pairwise_cons.mp hpair).1
  · intro lines hn
    constructor
    · exact fun h order hperm => (hhold hn hperm).mp h
    · exact fun h => (hhold hn (List.Perm.refl lines)).mpr (h lines (List.Perm.refl lines))
  · exact fun lines order hn hperm h => (hhold hn hperm).mpr h

end MemoryConfig
end VectorSim
