/-
# A working set in L1, and accesses to no line

`Hot` of `Memory/HotL1.lean` follows the accesses that L1 serves. An access to
no line is served by the last level instead, which it charges; it requests
nothing, and the working set stays in L1 all the same (`Resident`). So under
any accesses to a working set the latency of each is that of a level its
operand alone determines (`servedLevel`).
-/
import VectorSim.Memory.HotL1
import VectorSim.Memory.Floor

namespace VectorSim
namespace MemoryConfig

open Checked

variable {C : MemoryConfig} {s s' : MemoryState} {now : ℕ} {lines : List ℤ} {a : MemoryAccess}

/-- The L1 holds the working set, and no fill is on its way. -/
structure Resident (C : MemoryConfig) (lines : List ℤ) (s : MemoryState) : Prop where
  lawful : Lawful C s
  resident : ∀ x ∈ lines, C.contains s 0 x = true
  pendingFills : s.pendingFills = []

/-- The level that serves an access to a resident working set: L1, or the last one where the
access names no line. -/
def servedLevel (C : MemoryConfig) (a : MemoryAccess) : ℕ :=
  if a.cacheLines = [] then C.levels.length - 1 else 0

theorem Resident.same (h : Resident C lines s) (hs : SameLines s s') : Resident C lines s' where
  lawful := h.lawful.congr hs.sets
  resident x hx := by
    unfold contains
    rw [hs.sets]
    exact h.resident x hx
  pendingFills := hs.pendingFills.trans h.pendingFills

theorem Resident.completeFills (h : Resident C lines s) (now : ℕ) : C.completeFills s now = s :=
  completeFills_eq_self fun f hf => by
    rw [h.pendingFills] at hf
    exact (List.not_mem_nil hf).elim

theorem Resident.lineLevel (h : Resident C lines s) {x : ℤ} (hx : x ∈ lines) : C.lineLevel s x = 0 := by
  have hin := h.resident x hx
  unfold MemoryConfig.lineLevel dramLevel
  rw [h.pendingFills, List.find?_nil]
  dsimp only
  cases hn : C.levels.length with
  | zero => rfl
  | succ n =>
    have hfirst : (List.range (n + 1)).find? (fun l => C.contains s l x) = some 0 := by
      rw [List.range_succ_eq_map]
      exact List.find?_cons_of_pos hin
    rw [hfirst]
    rfl

theorem Resident.worstLevel (h : Resident C lines s) (ha : Inside lines a) :
    C.worstLevel s a.cacheLines = C.servedLevel a := by
  unfold MemoryConfig.worstLevel servedLevel
  split
  · rfl
  · have hall : a.cacheLines.map (C.lineLevel s) = a.cacheLines.map fun _ => 0 :=
      List.map_congr_left fun x hx => h.lineLevel (ha x hx)
    have hzero : ∀ l : List ℤ, (l.map fun _ => 0).foldl max 0 = 0 := by
      intro l
      induction l with
      | nil => rfl
      | cons x l ih => exact ih
    rw [hall, hzero]

/-- A check changes nothing of the working set. -/
theorem Resident.blocker {m : Option MemoryAccess} {r : MemoryState × Option (MemoryStall × ℕ)}
    (h : Resident C lines s) (hr : C.blocker s m now = .ok r) : Resident C lines r.1 := by
  have hsame := blocker_same hr
  rw [h.completeFills] at hsame
  exact h.same hsame

/-- An access to the working set leaves it in L1, and takes the latency of the level that
serves it. -/
theorem Resident.access {r : MemoryState × AccessResult} (h : Resident C lines s) (ha : Inside lines a)
    (hr : C.access s (some a) now = .ok r) :
    Resident C lines r.1 ∧ (C.levelEntry (C.servedLevel a)).latencyTicks = some r.2.latencyTicks := by
  obtain ⟨a', t, he, hb, -, hcases⟩ := access_ok hr
  obtain rfl := Option.some.inj he
  have ht : Resident C lines t := h.blocker hb
  rcases hcases with ⟨completion, hmax, -⟩ | ⟨-, hcharge⟩
  · rw [ht.pendingFills] at hmax
    cases hmax
  · have hlatency : (C.levelEntry (C.worstLevel t a.cacheLines)).latencyTicks = some r.2.latencyTicks := by
      unfold charge at hcharge
      dsimp only at hcharge
      split at hcharge
      · next hlatency _ =>
        obtain ⟨bandwidth, -, hcharge⟩ := ok_bind.mp hcharge
        cases hcharge
        exact hlatency
      · cases hcharge
    refine ⟨?_, by rw [← ht.worstLevel ha]; exact hlatency⟩
    cases charge_requests hcharge with
    | hit level sets fills =>
      have htouched := contains_touchLines a.cacheLines ht.lawful fun x hx => ht.resident x (ha x hx)
      refine ⟨(Lawful.touchLines _ ht.lawful).congr sets, fun x hx => ?_, fills.trans ht.pendingFills⟩
      unfold contains
      rw [sets]
      exact (htouched 0 x).mpr (ht.resident x hx)
    | miss completion level sets fills =>
      have hnil : a.cacheLines = [] := by
        by_contra hne
        rw [ht.worstLevel ha, servedLevel, if_neg hne] at level
        exact level rfl
      rw [hnil] at fills
      exact ht.same ⟨sets, fills⟩

/-- The hot hierarchy holds its working set. -/
theorem resident_initialState (h : C.initialState .hotL1 lines = .ok s) : Resident C lines s := by
  rcases initialState_cases h with ⟨hw, -⟩ | ⟨target, hw, hcan, rfl⟩
  · cases hw
  obtain rfl : 0 = target := Option.some.inj hw
  by_cases hC : 0 < C.levels.length
  · have hhot := hot_warm hC hcan
    exact ⟨hhot.lawful, fun x hx => (hhot.resident x).mpr hx, hhot.pendingFills⟩
  · refine ⟨.warm _ _, fun x hx => ?_, warm_pendingFills _ _⟩
    -- no set has a way
    have hroom := (canHold_iff.mp hcan) (C.setIndex 0 x)
    have hways : C.ways 0 = 0 := by simp [ways, List.getElem?_eq_none (Nat.not_lt.mp hC)]
    have hmem : x ∈ lines.dedup.filter fun y => C.setIndex 0 y = C.setIndex 0 x :=
      List.mem_filter.mpr ⟨List.mem_dedup.mpr hx, by simp⟩
    have hpos := List.length_pos_of_mem hmem
    omega

end MemoryConfig
end VectorSim
