/-
# The occupancies of the XSAI engine

In every state of a run the counters of the pipeline and of the scheduler
partitions are what they count, within their entries, and no rename free list
is negative (`Reachable.occupied`). A uop is in its partition from its dispatch
to its issue; a macro-op is in the reorder buffer from its admission on, while
its uops may still be waiting to be dispatched.
-/
import VectorSim.Backend.Counters
import VectorSim.Backend.Partitions
import VectorSim.Backend.Hazards
import VectorSim.Lib.Entries

namespace VectorSim
namespace Xsai

open Checked Setup Core

variable {E : Config} {now : ℕ} {s s' : Sched}

/-- The counters of the engine. -/
abbrev PipelineCounters (E : Config) (s : Sched) : Prop :=
  Counters E.toSetup (·.robEntryCount) (usesLegacyVectorScheduler E) s.toMachine

/-! ### Counters -/

theorem completeEntry_same (e : HeapEntry) (rest : List HeapEntry) :
    SameCounters s.toMachine (completeEntry E s e rest).2.toMachine := by
  unfold completeEntry
  dsimp only
  split
  · exact ⟨⟨fun _ => rfl, fun _ => rfl⟩, fun _ => rfl, rfl, rfl, rfl, rfl⟩
  · refine ⟨⟨fun m => (completedMacros_ticks _ _ _ m).1, fun m => (completedMacros_ticks _ _ _ m).2⟩,
      fun u => ?_, rfl, rfl, rfl, rfl⟩
    rw [completeUop_uop]
    split <;> rfl

theorem enqueue_same (r : Sched × DispatchCycle) (m : MacroOp) (units : ℕ) (us : List Id)
    (a : List (Id × String)) :
    SameCounters r.1.toMachine (enqueue (spend r m units) us a now).1.toMachine := by
  refine ⟨⟨fun m' => ?_, fun m' => ?_⟩, fun u => ?_, rfl, rfl, rfl, rfl⟩
  · simp [enqueue, spend]
  · simp [enqueue, spend]
  · simp only [enqueue, spend, dispatchAll_uop]
    split <;> rfl

theorem vectorFull_false {m : MacroOp} (h : vectorFull E s m = .ok false)
    (used : usesLegacyVectorScheduler E m = true) :
    ∀ n ∈ E.pipeline.vectorSchedulerEntries, s.vectorSchedulerOccupancy + 1 ≤ n := by
  intro n hn
  unfold vectorFull at h
  rw [if_pos used] at h
  obtain ⟨k, hk, h⟩ := ok_bind.mp h
  rw [pipelineInt_ok.mp hk] at hn
  cases hn
  have hu : m.usesVectorScheduler = true := by
    simp only [usesLegacyVectorScheduler, Bool.and_eq_true] at used
    exact used.1
  have := of_decide_eq_false (Except.ok.inj h)
  rw [hu] at this
  exact not_lt.mp this

/-- What the admission checks have found. -/
structure Admissible (E : Config) (s : Sched) (c : DispatchCycle) (m : MacroOp) : Prop where
  rob : ∃ n, E.pipeline.robEntries = some n ∧ s.robOccupancy + m.robEntryCount ≤ n
  domains : domainFull E c m m.dispatchDomains = .ok none
  rename : renameBlocker E s c m = .ok none
  queues : queueBlocker E s m = .ok none

theorem admissionBlocker_none {c : DispatchCycle} {m : MacroOp}
    (h : admissionBlocker E s c m = .ok none) : Admissible E s c m := by
  obtain ⟨n, hn, h⟩ := ok_bind.mp h
  split at h
  · cases h
  · next hfit =>
    obtain ⟨b, hb, h⟩ := ok_bind.mp h
    cases b with
    | some reason => cases h
    | none =>
      obtain ⟨b', hb', h⟩ := ok_bind.mp h
      cases b' with
      | some reason => cases h
      | none => exact ⟨⟨n, pipelineInt_ok.mp hn, not_lt.mp hfit⟩, hb, hb', h⟩

/-- A macro-op that is admitted has room. -/
theorem Admissible.room {c : DispatchCycle} {m : MacroOp} (h : Admissible E s c m) :
    Room E.toSetup (·.robEntryCount) (usesLegacyVectorScheduler E) s.toMachine m := by
  obtain ⟨n, hn, hfit⟩ := h.rob
  obtain ⟨vector, hvector, hq⟩ := ok_bind.mp h.queues
  cases vector with
  | true => cases hq
  | false =>
    obtain ⟨load, hload, hq⟩ := ok_bind.mp hq
    cases load with
    | true => cases hq
    | false =>
      obtain ⟨store, hstore, hq⟩ := ok_bind.mp hq
      cases store with
      | true => cases hq
      | false =>
        refine ⟨fun k hk => ?_, vectorFull_false hvector, queueFull_false hload, queueFull_false hstore⟩
        rw [hn] at hk
        cases hk
        exact hfit

/-- A macro-op is admitted at its first turn, when the checks let it in. -/
theorem admitOnce_cases (now : ℕ) {c : DispatchCycle} {m : MacroOp} (room : dispatchBlocker E s c m = .ok none) :
    admitOnce E s c m now = (s, c) ∧ (s.macro_ m.id).dispatchTick.isSome ∨
      admitOnce E s c m now = admitMacro E s c m now ∧ (s.macro_ m.id).dispatchTick = none ∧
        Admissible E s c m := by
  unfold dispatchBlocker at room
  unfold admitOnce
  cases ha : isAdmitted s m with
  | true => exact .inl ⟨rfl, ha⟩
  | false =>
    rw [ha, if_neg (by simp)] at room
    exact .inr ⟨rfl, by simpa [isAdmitted] using ha, admissionBlocker_none room⟩

theorem counters_admission (hT : WellFormed E.trace) (hi : CoreInv E now s) (hs : PipelineCounters E s)
    {c : DispatchCycle} {m : MacroOp} (head : E.trace.macros[s.nextDispatch]? = some m)
    (room : dispatchBlocker E s c m = .ok none) : PipelineCounters E (admitOnce E s c m now).1 := by
  rcases admitOnce_cases now room with ⟨he, -⟩ | ⟨he, hout, hadm⟩
  · rw [he]; exact hs
  · rw [he]
    exact (hs.enter hT hi head hout hadm.room).same
      ⟨⟨fun _ => rfl, fun _ => rfl⟩, fun _ => rfl, rfl, rfl, rfl, rfl⟩

theorem counters_step (hT : WellFormed E.trace) (hi : CoreInv E now s) (hs : PipelineCounters E s)
    (h : Step E now s s') : PipelineCounters E s' := by
  cases h with
  | complete _ _ => exact hs.same (completeEntry_same _ _)
  | take head _ room => exact (counters_admission hT hi hs head room).same (enqueue_same _ _ _ _ _)
  | budget head _ room =>
    exact (counters_admission hT hi hs head room).same
      ⟨⟨fun _ => rfl, fun _ => rfl⟩, fun _ => rfl, rfl, rfl, rfl, rfl⟩
  | advance _ _ | releaseFlow _ _ | releaseRename _ _ | stall _ _ _ | poll _ =>
    exact hs.same ⟨⟨fun _ => rfl, fun _ => rfl⟩, fun _ => rfl, rfl, rfl, rfl, rfl⟩
  | @issue x r issuable _ _ _ _ _ =>
    refine hs.issue hT hi issuable (fun m hm _ => ?_) rfl rfl rfl rfl rfl
    rw [parentUsesLegacy, hm, Option.any_some]
  | retire mem head _ => exact hs.retire hT hi mem head rfl rfl rfl rfl rfl

/-! ### Scheduler partitions -/

/-- The uop waits in a partition: it is dispatched there and has not issued. -/
def waitsIn (s : Sched) (p : String) (x : ExecutionUop) : Bool :=
  (s.placement x.id).partition = some p && (s.uop x.id).dispatchTick.isSome &&
    (s.uop x.id).issueTick.isNone

/-- The occupancy of a partition is the number of uops that wait in it. -/
structure PartitionInv (E : Config) (s : Sched) : Prop where
  counted : ∀ p, s.partitionOccupancy p = (E.trace.uops.countP (waitsIn s p) : ℕ)
  fits : ∀ p, s.partitionOccupancy p ≤ entries E p

theorem partitionInv_init : PartitionInv E (schedInit E) where
  counted p := by
    rw [List.countP_eq_zero.mpr fun x _ => by simp [waitsIn, schedInit, machineInit, Core.init]]
    rfl
  fits p := Int.natCast_nonneg _

/-- The step leaves the uops in their partitions. -/
structure SamePartitions (s s' : Sched) : Prop where
  placed : ∀ u, (s'.placement u).partition = (s.placement u).partition
  dispatch : ∀ u, (s'.uop u).dispatchTick = (s.uop u).dispatchTick
  issue : ∀ u, (s'.uop u).issueTick = (s.uop u).issueTick
  occupancy : s'.partitionOccupancy = s.partitionOccupancy

theorem PartitionInv.same (hs : PartitionInv E s) (h : SamePartitions s s') : PartitionInv E s' := by
  have : ∀ p, waitsIn s' p = waitsIn s p := by
    intro p
    funext x
    rw [waitsIn, waitsIn, h.placed, h.dispatch, h.issue]
  exact ⟨fun p => by rw [h.occupancy, this]; exact hs.counted p, h.occupancy ▸ hs.fits⟩

theorem completeEntry_partitions (e : HeapEntry) (rest : List HeapEntry) :
    SamePartitions s (completeEntry E s e rest).2 := by
  unfold completeEntry
  dsimp only
  split
  · exact ⟨fun _ => rfl, fun _ => rfl, fun _ => rfl, rfl⟩
  · refine ⟨fun _ => rfl, fun u => ?_, fun u => ?_, rfl⟩ <;>
      · rw [completeUop_uop]; split <;> rfl

theorem admitOnce_partitions (c : DispatchCycle) (m : MacroOp) (now : ℕ) :
    SamePartitions s (admitOnce E s c m now).1 := by
  unfold admitOnce
  split <;> exact ⟨fun _ => rfl, fun _ => rfl, fun _ => rfl, rfl⟩

/-- The uops that are pending are known and, where the macro-op lists each once, distinct. -/
theorem chunked (hT : WellFormed E.trace) {m : MacroOp} (hm : m ∈ E.trace.macros)
    (hn : m.uopIds.Nodup) (count : ℕ) : Chunked E ((pendingUops s m).take count) := by
  have hsub : ((pendingUops s m).take count).Sublist m.uopIds :=
    (List.take_sublist _ _).trans List.filter_sublist
  refine ⟨hn.sublist hsub, fun u hu => ?_⟩
  obtain ⟨x, hx, -⟩ := hT.owned m hm u (hsub.subset hu)
  rw [Setup.uop, hx]
  exact (E.trace.uop?_mem hx).2

/-- Uops that are counted once they are dispatched, where `b` says so, count as many more as
a chunk puts into the partition. -/
theorem countP_enqueue (hT : WellFormed E.trace) {m : MacroOp} {us : List Id} {a : List (Id × String)}
    (hus : us.Nodup) (hsub : ∀ u ∈ us, u ∈ m.uopIds) (hm : m ∈ E.trace.macros) {p : String}
    {f g : ExecutionUop → Bool} (b : Bool) (hin : ∀ x, x.id ∈ us → f x = false ∧
      g x = (b && decide (assigned a x.id = some p))) (hout : ∀ x, x.id ∉ us → g x = f x) :
    E.trace.uops.countP g = E.trace.uops.countP f + if b then enqueued us a p else 0 := by
  have hsplit : g = fun x => f x || (decide (x.id ∈ us) && (b && decide (assigned a x.id = some p))) := by
    funext x
    by_cases hx : x.id ∈ us
    · simp [hx, hin x hx]
    · simp [hx, hout x hx]
  have hor := Serial.countP_or (l := E.trace.uops) (p := f)
    (q := fun x => decide (x.id ∈ us) && (b && decide (assigned a x.id = some p))) fun x _ hx => by
      have hnot : x.id ∉ us := by
        intro hu
        rw [(hin x hu).1] at hx
        cases hx
      simp [hnot]
  have hkeys := Serial.countP_of_keys hT.uopIds hus (fun u hu => by
    obtain ⟨x, hx, -⟩ := hT.owned m hm u (hsub u hu)
    obtain ⟨hmem, rfl⟩ := E.trace.uop?_mem hx
    exact List.mem_map_of_mem hmem) fun u => b && decide (assigned a u = some p)
  rw [hsplit, hor, hkeys]
  cases b <;> simp [enqueued]

theorem partitionInv_enqueue (hT : WellFormed E.trace) (hi : CoreInv E now s) (hs : PartitionInv E s)
    {c : DispatchCycle} {m : MacroOp} {a : List (Id × String)} {enqueues : String → ℕ} {count : ℕ}
    (units : ℕ) (hn : m.uopIds.Nodup) (hm : m ∈ E.trace.macros)
    (planned : planAssignment E s true enqueues ((pendingUops s m).take count) = some a) :
    PartitionInv E (enqueue (spend (s, c) m units) ((pendingUops s m).take count) a now).1 := by
  have hch := chunked (s := s) hT hm hn count
  have hassign := assign_some planned
  have hload := enqueued_eq_load hch hassign
  have hpend : ∀ u ∈ (pendingUops s m).take count, u ∈ m.uopIds ∧ (s.uop u).dispatchTick = none := by
    intro u hu
    simpa [pendingUops] using List.mem_of_mem_take hu
  refine ⟨fun p => ?_, fun p => ?_⟩
  · have hadd := countP_enqueue hT (a := a) (p := p) hch.nodup (fun u hu => (hpend u hu).1) hm
      (f := waitsIn s p) (g := waitsIn (enqueue (spend (s, c) m units) ((pendingUops s m).take count) a now).1 p)
      true (fun x hx => ?_) fun x hx => by simp [waitsIn, enqueue, spend, dispatchAll_uop, hx]
    · rw [hadd]
      show s.partitionOccupancy p + (enqueued ((pendingUops s m).take count) a p : ℤ) = _
      rw [hs.counted p]
      push_cast
      rfl
    · have hfree : (s.uop x.id).issueTick = none := by
        by_contra hne
        obtain ⟨i, hi'⟩ := Option.ne_none_iff_exists'.mp hne
        have := hi.issued_dispatched hi'
        rw [(hpend _ hx).2] at this
        cases this
      simp [waitsIn, enqueue, spend, dispatchAll_uop, hx, (hpend _ hx).2, hfree]
  · show s.partitionOccupancy p + (enqueued ((pendingUops s m).take count) a p : ℤ) ≤ _
    rw [hload p]
    exact hassign.entries p (hs.fits p)

theorem partitionInv_issue (hT : WellFormed E.trace) (hi : CoreInv E now s) (hs : PartitionInv E s)
    {x : ExecutionUop} {r : Reserved} (issuable : Issuable E.trace E.inOrder now s.toCore x)
    (reserved : leavePartition s x = .ok r.partitionOccupancy) :
    PartitionInv E (issued E s x now r) := by
  have hother : ∀ p, ∀ y ∈ E.trace.uops, y ≠ x → waitsIn (issued E s x now r) p y = waitsIn s p y := by
    intro p y hy hyx
    have hid : y.id ≠ x.id := fun he => hyx (uop_ext hT issuable.mem hy he)
    simp [waitsIn, issued, issue_uop, hid]
  have hafter : ∀ p, waitsIn (issued E s x now r) p x = false := by
    intro p
    simp [waitsIn, issued, issue_uop]
  obtain ⟨hd, hw⟩ := (hi.uops.waiting x.id).mp issuable.waiting
  have hbefore : ∀ p, waitsIn s p x = decide ((s.placement x.id).partition = some p) := by
    intro p
    rw [waitsIn, hd, hw]
    simp
  have hcount : ∀ p, (issued E s x now r).partitionOccupancy p =
      (E.trace.uops.countP (waitsIn (issued E s x now r) p) : ℕ) := by
    intro p
    have hstep := Serial.countP_of_step (uops_nodup hT) issuable.mem (hother p)
    rw [hafter, hbefore] at hstep
    show r.partitionOccupancy p = _
    rw [leavePartition_ok reserved p, hs.counted p]
    simp only [Bool.toNat_false, Nat.add_zero] at hstep
    omega
  refine ⟨hcount, fun p => ?_⟩
  show r.partitionOccupancy p ≤ _
  rw [leavePartition_ok reserved p]
  have := hs.fits p
  omega

theorem partitionInv_step (hT : WellFormed E.trace) (hn : ∀ m ∈ E.trace.macros, m.uopIds.Nodup)
    (hi : CoreInv E now s) (hs : PartitionInv E s) (h : Step E now s s') : PartitionInv E s' := by
  cases h with
  | complete _ _ => exact hs.same (completeEntry_partitions _ _)
  | @take c m width us a units head taken room =>
    have hsame := admitOnce_partitions (E := E) (s := s) c m now
    have hadm := admitOnce_core now (c := c) head
    have hpend : pendingUops (admitOnce E s c m now).1 m = pendingUops s m := by
      rw [pendingUops, pendingUops, admitOnce_uop]
    obtain ⟨count, -, rfl⟩ := taken.listed
    -- the assignment was planned before the admission, which leaves the partitions alone
    have hplan : planAssignment E (admitOnce E s c m now).1 true c.partitionEnqueues
        ((pendingUops (admitOnce E s c m now).1 m).take count) = some a := by
      rw [hpend, planAssignment, hsame.occupancy]
      exact taken.planned
    have hm := List.mem_of_getElem? head
    have := partitionInv_enqueue (c := (admitOnce E s c m now).2) hT
      (hi.steps hT hadm.1) (hs.same hsame) units (hn m hm) hm hplan
    rwa [hpend] at this
  | budget _ _ _ =>
    exact (hs.same (admitOnce_partitions _ _ _)).same ⟨fun _ => rfl, fun _ => rfl, fun _ => rfl, rfl⟩
  | advance _ _ | releaseFlow _ _ | releaseRename _ _ | stall _ _ _ | poll _ | retire _ _ _ =>
    exact hs.same ⟨fun _ => rfl, fun _ => rfl, fun _ => rfl, rfl⟩
  | @issue x r issuable _ _ _ _ reserved =>
    exact partitionInv_issue hT hi hs issuable (reserve_ok reserved).partition

/-! ### Rename free lists -/

/-- No free list is negative. -/
def RenameInv (s : Sched) : Prop := ∀ f, 0 ≤ s.renameFree f

/-- What comes back makes no list shorter. -/
theorem returnEntries_le : ∀ (l : List (String × ℕ)) (width : ℕ) (free : String → ℤ) (f : String),
    free f ≤ (returnEntries l width free).1 f
  | [], _, _, _ => le_rfl
  | (name, count) :: l, width, free, f => by
    refine le_trans ?_ (returnEntries_le l _ _ f)
    by_cases hf : f = name
    · subst hf; simp
    · rw [Function.update_of_ne hf]

theorem renameBlocker_none {c : DispatchCycle} {m : MacroOp} (henabled : E.rename.enabled = true)
    (h : renameBlocker E s c m = .ok none) :
    ∀ e ∈ m.renameAllocations, E.rename.guardEntries ≤ s.renameFree e.1 - e.2 := by
  intro e he
  unfold renameBlocker at h
  have hne : m.renameAllocations.isEmpty = false := by
    cases hl : m.renameAllocations with
    | nil => rw [hl] at he; cases he
    | cons _ _ => rfl
  rw [if_neg (by simp [henabled, hne])] at h
  split at h
  · cases h
  · split at h
    · cases h
    · have hnone := Option.map_eq_none_iff.mp (Except.ok.inj h)
      have := List.find?_eq_none.mp hnone e he
      simpa using this

theorem renameInv_admit {c : DispatchCycle} {m : MacroOp} (hs : RenameInv s)
    (hn : (m.renameAllocations.map (·.1)).Nodup) (room : dispatchBlocker E s c m = .ok none) :
    RenameInv (admitOnce E s c m now).1 := by
  rcases admitOnce_cases now room with ⟨he, -⟩ | ⟨he, -, hadm⟩
  · rw [he]; exact hs
  · rw [he]
    unfold RenameInv admitMacro
    dsimp only
    split
    · next henabled =>
      intro f
      rw [Entries.foldl_sub]
      by_cases hmem : f ∈ m.renameAllocations.map (·.1)
      · obtain ⟨e, he, rfl⟩ := List.mem_map.mp hmem
        rw [Entries.count_of_mem hn e he]
        exact (Int.natCast_nonneg _).trans (renameBlocker_none henabled hadm.rename e he)
      · rw [Entries.count_of_notMem hmem, Nat.cast_zero, sub_zero]
        exact hs f
    · exact hs

theorem renameInv_step (hn : ∀ m ∈ E.trace.macros, (m.renameAllocations.map (·.1)).Nodup)
    (hs : RenameInv s) (h : Step E now s s') : RenameInv s' := by
  cases h with
  | @complete e rest _ _ =>
    unfold completeEntry
    dsimp only
    split <;> exact hs
  | take head _ room => exact renameInv_admit hs (hn _ (List.mem_of_getElem? head)) room
  | budget head _ room => exact renameInv_admit hs (hn _ (List.mem_of_getElem? head)) room
  | @releaseRename b rest width _ _ =>
    exact fun f => (hs f).trans (returnEntries_le b.allocations width s.renameFree f)
  | advance _ _ | releaseFlow _ _ | stall _ _ _ | poll _ | issue _ _ _ _ _ _ | retire _ _ _ => exact hs

/-! ### Runs -/

/-- What the counters of a state satisfy. -/
structure Occupied (E : Config) (s : Sched) : Prop where
  counters : PipelineCounters E s
  partitions : PartitionInv E s
  rename : RenameInv s

/-- **The occupancies of a run are what they count.** -/
theorem Reachable.occupied (hT : WellFormed E.trace) (hn : ∀ m ∈ E.trace.macros, m.uopIds.Nodup)
    (hr : ∀ m ∈ E.trace.macros, (m.renameAllocations.map (·.1)).Nodup) (h : Reachable E now s) :
    Occupied E s :=
  (h.invariant (P := fun now s => CoreInv E now s ∧ Occupied E s) hT
    ⟨inv_init, counters_init, partitionInv_init, fun _ => Int.natCast_nonneg _⟩
    (fun _ _ _ hs hstep => ⟨inv_step hT hs.1 hstep, counters_step hT hs.1 hs.2.counters hstep,
      partitionInv_step hT hn hs.1 hs.2.partitions hstep, renameInv_step hr hs.2.rename hstep⟩)
    (fun _ _ _ hs hlt => ⟨hs.1.later hlt.le, hs.2⟩)).2

end Xsai
end VectorSim
