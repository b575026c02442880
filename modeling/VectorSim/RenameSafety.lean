/-
# The rename free lists of a run

The free lists of an XSAI run lose no entry and keep their guard, and a cycle
allocates within the allocation width (`rename_conserved`). What a cycle
returns is within the release width when its visits find no more than that
due, or at most one of them finds anything due (`rename_released`).
-/
import VectorSim.Backend.XsaiRelease

namespace VectorSim
namespace Xsai

open Checked

/-- The accounts of the rename free lists. -/
structure RenameAccounts (E : Config) (s : Sched) : Prop where
  conserved : ∀ f, s.renameFree f + heldEntries E s f + pendingEntries s f = initialFree E f
  guarded : ∀ f ∈ E.rename.freeLists.map (·.1), E.rename.guardEntries ≤ s.renameFree f
  bounded : ∀ f, s.renameFree f ≤ initialFree E f
  allocated : ∀ cycle, admittedIn E s allocationTotal cycle ≤ E.rename.allocationWidth

/-- **No rename entry is lost or duplicated in a run.** -/
theorem rename_conserved (T : BoundTrace) (hR : ∀ m ∈ T.macros, (m.renameAllocations.map (·.1)).Nodup)
    (P : EngineProfile) (inOrder : Bool) (mode : CacheMode) (limit : Option Bool) (expand : Bool) (E : Config)
    (hE : init T P inOrder mode limit expand = .ok E) (henabled : E.rename.enabled = true)
    (hguard : ∀ f ∈ E.rename.freeLists.map (·.1), E.rename.guardEntries ≤ initialFree E f)
    (now : ℕ) (s : Sched) (h : Reachable E now s) : RenameAccounts E s := by
  have hA := init_ok hE
  have hT := hA.wellFormed
  have hn : ∀ m ∈ E.trace.macros, (m.renameAllocations.map (·.1)).Nodup := by
    intro m hm
    obtain ⟨m', hm', he⟩ := schedulerTrace_renames hA.scheduled m hm
    rw [he]
    exact hR m' hm'
  have hconserved := h.conserved hT henabled
  refine ⟨hconserved, h.guarded hT henabled hn hguard, fun f => ?_, h.allocations hT henabled⟩
  have := hconserved f
  omega

/-- The visits in an architectural cycle. -/
def visitsIn (E : Config) (vs : List (ℕ × Sched)) (cycle : ℕ) : List (ℕ × Sched) :=
  vs.filter (·.1 / E.ticksPerCycle = cycle)

/-- The visits of a cycle find no more due than the width, or at most one of them finds
anything due. -/
def DueWithin (E : Config) (vs : List (ℕ × Sched)) (cycle : ℕ) : Prop :=
  ((visitsIn E vs cycle).map (dueAt E)).sum ≤ E.rename.releaseWidth ∨
    ((visitsIn E vs cycle).filter (0 < dueAt E ·)).length ≤ 1

/-- **What a cycle returns is within the width just when that holds.** -/
theorem rename_released (T : BoundTrace) (P : EngineProfile) (inOrder : Bool) (mode : CacheMode)
    (limit : Option Bool) (expand : Bool) (E : Config) (hE : init T P inOrder mode limit expand = .ok E)
    (henabled : E.rename.enabled = true) (vs : List (ℕ × Sched)) (now : ℕ) (s : Sched)
    (h : EventLoop.Path (loop E) vs 0 (schedInit E) now s) (cycle : ℕ) :
    ((visitsIn E (vs ++ [(now, s)]) cycle).map (returnedAt E)).sum ≤ E.rename.releaseWidth ↔
      DueWithin E (vs ++ [(now, s)]) cycle := by
  have hT := (init_ok hE).wellFormed
  have hat : ∀ v ∈ vs ++ [(now, s)], AtTick E v.1 v.2 := by
    intro v hv
    rcases List.mem_append.mp hv with hv | hv
    · exact h.mem v hv
    · rw [List.mem_singleton.mp hv]
      exact ⟨vs.length, h.reaches⟩
  have hserved : ((visitsIn E (vs ++ [(now, s)]) cycle).map (returnedAt E)).sum =
      ((((visitsIn E (vs ++ [(now, s)]) cycle).map (dueAt E)).map (min E.rename.releaseWidth)).sum : ℕ) := by
    rw [List.map_map, Nat.cast_list_sum, List.map_map]
    refine congrArg List.sum (List.map_congr_left fun v hv => ?_)
    exact returnedAt_eq hT henabled (hat v (List.mem_of_mem_filter hv))
  rw [hserved, Nat.cast_le, Entries.sum_min_le_iff (releaseWidth_pos hE henabled), DueWithin, List.filter_map,
    List.length_map]
  rfl

/-! ### A machine that returns one entry a cycle -/

namespace Sample

/-- A clock of two ticks, one free list of four entries, and a release width of one. -/
def renameProfile : EngineProfile where
  id := "sample"
  ticksPerCycle := 2
  pipeline := ⟨some 2, some 2, some 4, some 4, some 4, some 4⟩
  memory := .oneLine ⟨none, none, none, none⟩ 2
  rename := { enabled := true, freeLists := [("vector", some 4)], allocationWidth := some 2,
              releaseWidth := some 1, releaseDelayCycles := some 0, availabilityDelayCycles := some 0,
              guardEntries := some 0 }

def renameUop (u : Id) (latency : ℕ) : ExecutionUop where
  id := u
  sequence := u
  parentId := u
  kind := .scalarAlu
  schedulingClass := .recipe "scalar" "add" none
  latencyTicks := latency
  issueIntervalTicks := 0
  occupancyTicks := 1
  resourceChoices := ["alu"]

def renameMacro (u : Id) (allocations : List (String × ℕ)) : MacroOp where
  id := u
  sequence := u
  uopIds := [u]
  decodedMacroOps := 1
  retireMacroOps := 1
  usesVectorScheduler := false
  usesLoadQueue := false
  usesStoreQueue := false
  renameAllocations := allocations

/-- A macro-op that takes two entries, and one that completes between two cycle boundaries. -/
def renameTrace : BoundTrace where
  profileId := "sample"
  ticksPerCycle := 2
  macros := [renameMacro 0 [("vector", 2)], renameMacro 1 []]
  uops := [renameUop 0 2, renameUop 1 5]
  resources := [("alu", 2)]

end Sample

theorem rename_conserved_sample : ∃ E now s,
    init Sample.renameTrace Sample.renameProfile false .cold none false = .ok E ∧ run E = .ok (s, now) ∧
      RenameAccounts E s := by
  obtain ⟨E, hE⟩ := exists_ok (x := init Sample.renameTrace Sample.renameProfile false .cold none false)
    (by decide +kernel)
  have hpolicy : (init Sample.renameTrace Sample.renameProfile false .cold none false).map (·.rename) =
      .ok ⟨true, [("vector", 4)], 2, 1, 0, 0, 0⟩ := by decide +kernel
  rw [hE] at hpolicy
  have hrename : E.rename = ⟨true, [("vector", 4)], 2, 1, 0, 0, 0⟩ := Except.ok.inj hpolicy
  have hrun : ((init Sample.renameTrace Sample.renameProfile false .cold none false).bind run).toOption.isSome := by
    decide +kernel
  rw [hE] at hrun
  obtain ⟨⟨s, t⟩, h⟩ := exists_ok hrun
  exact ⟨E, t, s, hE, h, rename_conserved _ (by decide) _ _ _ _ _ E hE (by rw [hrename])
    (fun f _ => by rw [hrename]; exact Nat.zero_le _) t s (run_reachable h)⟩

/-- Cycle 2 has visits at ticks 4 and 5, and each of them returns an entry. -/
theorem returned_twice : ∃ E vs now s,
    init Sample.renameTrace Sample.renameProfile false .cold none false = .ok E ∧
      EventLoop.Path (loop E) vs 0 (schedInit E) now s ∧
      (E.rename.releaseWidth : ℤ) < ((visitsIn E (vs ++ [(now, s)]) 2).map (returnedAt E)).sum := by
  obtain ⟨E, hE⟩ := exists_ok (x := init Sample.renameTrace Sample.renameProfile false .cold none false)
    (by decide +kernel)
  have hrun : ((init Sample.renameTrace Sample.renameProfile false .cold none false).toOption.bind fun E =>
      (EventLoop.follow (loop E) 3 0 (schedInit E)).map fun r => decide ((E.rename.releaseWidth : ℤ) <
        ((visitsIn E (r.1 ++ [r.2]) 2).map (returnedAt E)).sum)) = some true := by
    decide +kernel
  rw [hE] at hrun
  obtain ⟨⟨vs, t, s⟩, h, hlt⟩ := Option.map_eq_some_iff.mp hrun
  exact ⟨E, vs, t, s, hE, (EventLoop.follow_path h).1, of_decide_eq_true hlt⟩

theorem rename_released_sample : ∃ E vs now s,
    init Sample.renameTrace Sample.renameProfile false .cold none false = .ok E ∧
      EventLoop.Path (loop E) vs 0 (schedInit E) now s ∧
      (((visitsIn E (vs ++ [(now, s)]) 2).map (returnedAt E)).sum ≤ E.rename.releaseWidth ↔
        DueWithin E (vs ++ [(now, s)]) 2) := by
  obtain ⟨E, hE⟩ := exists_ok (x := init Sample.renameTrace Sample.renameProfile false .cold none false)
    (by decide +kernel)
  have hrun : ((init Sample.renameTrace Sample.renameProfile false .cold none false).toOption.bind fun E =>
      (EventLoop.follow (loop E) 3 0 (schedInit E)).map fun _ => E.rename.enabled) = some true := by
    decide +kernel
  rw [hE] at hrun
  obtain ⟨⟨vs, t, s⟩, h, henabled⟩ := Option.map_eq_some_iff.mp hrun
  have hpath := (EventLoop.follow_path h).1
  exact ⟨E, vs, t, s, hE, hpath, rename_released _ _ _ _ _ _ E hE henabled vs t s hpath 2⟩

end Xsai
end VectorSim
