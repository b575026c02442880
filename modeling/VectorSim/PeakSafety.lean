/-
# The peaks in the summary

The occupancies of a run go up in `_dispatch` only, so that each is greatest
right after the dispatch of some visit. `_dispatch` records the peaks of the
partitions itself, and they are the greatest occupancies. The peaks of the
reorder buffer, the queues and the vector scheduler are recorded at the ends of
the visits, after `_issue` and `_retire`: they are the greatest occupancies just
when a structure is never occupied, or nothing that is in it after the dispatch
of some visit that fills it most leaves it at the tick of the visit, by the
timestamps of the run. The summary's `peak_allocated` is what is allocated at
the end: it is the most there has been just when none of it comes back after
some visit that allocates most.
-/
import VectorSim.Backend.Departures
import VectorSim.Backend.Peaks
import VectorSim.Backend.XsaiRelease
import VectorSim.RunSafety
import VectorSim.TrackSafety

namespace VectorSim

open Checked Setup EventLoop Core

/-! ### What leaves at a tick -/

/-- A macro-op that takes some of a structure, is not retired and retires at the tick. -/
def RetiresAt (T : BoundTrace) (entries : MacroOp → ℕ) (F : Core) (now : ℕ) (c : Core) : Prop :=
  ∃ m ∈ T.macros, 0 < entries m ∧ (c.macro_ m.id).retireTick = none ∧ (F.macro_ m.id).retireTick = some now

/-- A macro-op none of whose vector-kind uops has issued, one of which issues at the tick. -/
def BeginsAt (E : Setup) (waits : MacroOp → ℕ) (F : Core) (now : ℕ) (c : Core) : Prop :=
  ∃ m ∈ E.trace.macros, 0 < waits m ∧
    (∀ u ∈ m.uopIds, (E.uop u).kind.isVectorResource = true → (c.uop u).issueTick = none) ∧
    ∃ u ∈ m.uopIds, (E.uop u).kind.isVectorResource = true ∧ (F.uop u).issueTick = some now

instance (T : BoundTrace) (entries : MacroOp → ℕ) (F : Core) (now : ℕ) (c : Core) :
    Decidable (RetiresAt T entries F now c) := by
  unfold RetiresAt; infer_instance

instance (E : Setup) (waits : MacroOp → ℕ) (F : Core) (now : ℕ) (c : Core) : Decidable (BeginsAt E waits F now c) := by
  unfold BeginsAt; infer_instance

/-- The bookkeeping after the dispatch of a visit and at its end, and in the end. -/
structure Within (T : BoundTrace) (inOrder : Bool) (now : ℕ) (d e F : Core) : Prop where
  same : ∀ u < now, SameUpTo u d e
  settled : Settled T inOrder now e F

section Within

variable {T : BoundTrace} {E : Setup} {inOrder : Bool} {now : ℕ} {d e F : Core}

/-- What gets its tick in a visit gets that of the visit. -/
theorem stamped_iff {o o' o'' : Option ℕ} (le : ∀ t ∈ o', t ≤ now)
    (before : ∀ t < now, (o' = some t ↔ o = some t)) (after : o'' = some now ↔ o' = some now) :
    o'.isSome = true ∧ o = none ↔ o = none ∧ o'' = some now := by
  constructor
  · rintro ⟨hsome, hnone⟩
    obtain ⟨t, ht⟩ := Option.isSome_iff_exists.mp hsome
    have hle := le t ht
    have hnot : ¬ t < now := by
      intro hlt
      have h := (before t hlt).mp ht
      rw [hnone] at h
      cases h
    obtain rfl : t = now := by omega
    exact ⟨hnone, after.mpr ht⟩
  · rintro ⟨hnone, hat⟩
    rw [after.mp hat]
    exact ⟨rfl, hnone⟩

theorem Within.retired (h : Within T inOrder now d e F) (m : Id) :
    (e.macro_ m).retireTick.isSome = true ∧ (d.macro_ m).retireTick = none ↔
      (d.macro_ m).retireTick = none ∧ (F.macro_ m).retireTick = some now := by
  obtain ⟨u, hu, hc⟩ := h.settled.inv
  obtain ⟨r, a, hr⟩ := hc.rob
  exact stamped_iff (fun t ht => (hr.retire_le ht).trans hu) (fun t ht => (h.same t ht).retire le_rfl)
    (h.settled.same.retire le_rfl)

theorem Within.issued (h : Within T inOrder now d e F) (v : Id) :
    (e.uop v).issueTick.isSome = true ∧ (d.uop v).issueTick = none ↔
      (d.uop v).issueTick = none ∧ (F.uop v).issueTick = some now := by
  obtain ⟨u, hu, hc⟩ := h.settled.inv
  exact stamped_iff (fun t ht => (hc.uops.issued ht).1.trans hu) (fun t ht => (h.same t ht).issue le_rfl)
    (h.settled.same.issue le_rfl)

theorem Within.retires_iff (h : Within T inOrder now d e F) (entries : MacroOp → ℕ) :
    (∃ m, 0 < entries m ∧ HasRetired T e m ∧ ¬ HasRetired T d m) ↔ RetiresAt T entries F now d := by
  constructor
  · rintro ⟨m, hpos, ⟨hm, he⟩, hd⟩
    have hnone : (d.macro_ m.id).retireTick = none := by
      simpa using fun hsome => hd ⟨hm, hsome⟩
    exact ⟨m, hm, hpos, (h.retired m.id).mp ⟨he, hnone⟩⟩
  · rintro ⟨m, hm, hpos, hat⟩
    obtain ⟨he, hnone⟩ := (h.retired m.id).mpr hat
    refine ⟨m, hpos, ⟨hm, he⟩, ?_⟩
    rintro ⟨-, hsome⟩
    rw [hnone] at hsome
    cases hsome

theorem Within.begins_iff (h : Within T inOrder now d e F) (waits : MacroOp → ℕ) :
    (∃ m, 0 < waits m ∧ HasBegun E e m ∧ ¬ HasBegun E d m) ↔ BeginsAt E waits F now d := by
  constructor
  · rintro ⟨m, hpos, ⟨hm, he⟩, hd⟩
    have hnone : ∀ u ∈ m.uopIds, (E.uop u).kind.isVectorResource = true → (d.uop u).issueTick = none := by
      intro u hu hk
      by_contra hne
      refine hd ⟨hm, List.any_eq_true.mpr ⟨u, hu, ?_⟩⟩
      rw [vectorIssued, hk, Option.isSome_iff_ne_none.mpr hne]
      rfl
    obtain ⟨u, hu, hi⟩ := List.any_eq_true.mp he
    rw [vectorIssued, Bool.and_eq_true] at hi
    exact ⟨m, hm, hpos, hnone, u, hu, hi.1, ((h.issued u).mp ⟨hi.2, hnone u hu hi.1⟩).2⟩
  · rintro ⟨m, hm, hpos, hnone, u, hu, hk, hat⟩
    have he := ((h.issued u).mpr ⟨hnone u hu hk, hat⟩).1
    refine ⟨m, hpos, ⟨hm, List.any_eq_true.mpr ⟨u, hu, ?_⟩⟩, ?_⟩
    · rw [vectorIssued, hk, he]
      rfl
    · rintro ⟨-, hany⟩
      obtain ⟨v, hv, hi⟩ := List.any_eq_true.mp hany
      rw [vectorIssued, Bool.and_eq_true] at hi
      rw [hnone v hv hi.1] at hi
      cases hi.2

end Within

namespace Zen4

variable {E : Setup} {s : Machine} {p : Peaks} {t : ℕ} {f : Machine → ℤ}

/-- The states of a run. -/
def states (E : Setup) : Set Machine := {s | ∃ now, Reachable E now s}

/-- The visits of a run, with the states after `_dispatch` and at their ends. -/
abbrev Visited (E : Setup) : ℕ → Machine → Machine → Prop :=
  Visit (loop E) (fun now => visitOf ((phases E now).take 2)) (fun now => visitOf ((phases E now).drop 2)) 0
    E.machineInit

/-- A structure is never occupied, or nothing leaves it after the dispatch of some visit at which it
is fullest. -/
def Kept (E : Setup) (f : Machine → ℤ) (leaves : ℕ → Core → Prop) : Prop :=
  (∀ now d e, Visited E now d e → f d ≤ 0) ∨ ∃ now d e, Visited E now d e ∧
    (∀ now' d' e', Visited E now' d' e' → f d' ≤ f d) ∧ ¬ leaves now d.toCore

theorem Kept.of_first {leaves : ℕ → Core → Prop} {test : Machine → Bool} {fuel : ℕ}
    (h : fullestFirst (loop E) (fun now => visitOf ((phases E now).take 2)) (fun now => visitOf ((phases E now).drop 2))
      f test fuel E.machineInit = true) (htest : ∀ d, test d = true → ¬ leaves 0 d.toCore) : Kept E f leaves := by
  obtain ⟨d, e, hv, hd, htop⟩ := fullestFirst_visit h
  exact .inr ⟨0, d, e, hv, htop, htest d hd⟩

/-- The peaks are the greatest occupancies in the states of the run. -/
structure PeaksTrue (E : Setup) (p : Peaks) : Prop where
  rob : IsGreatest ((fun s => s.robOccupancy) '' states E) p.rob
  vectorScheduler : IsGreatest ((fun s => s.vectorSchedulerOccupancy) '' states E) p.vectorScheduler
  loadQueue : IsGreatest ((fun s => s.loadQueueOccupancy) '' states E) p.loadQueue
  storeQueue : IsGreatest ((fun s => s.storeQueueOccupancy) '' states E) p.storeQueue

/-- Nothing leaves the structures after the dispatch of a visit that fills them most. A macro-op
leaves the vector scheduler when the first of its vector-kind uops issues. -/
structure PeaksKept (E : Setup) (F : Core) : Prop where
  rob : Kept E (·.robOccupancy) (RetiresAt E.trace (·.decodedMacroOps) F)
  vectorScheduler : Kept E (·.vectorSchedulerOccupancy) (BeginsAt E (fun _ => 1) F)
  loadQueue : Kept E (·.loadQueueOccupancy) (RetiresAt E.trace (·.usesLoadQueue.toNat) F)
  storeQueue : Kept E (·.storeQueueOccupancy) (RetiresAt E.trace (·.usesStoreQueue.toNat) F)

/-- There is nothing to dispatch in an empty trace. -/
theorem dispatch_nil {now : ℕ} {s' : Machine} (hE : E.trace.macros = []) (h : dispatch E now s = .ok s') : s' = s := by
  obtain ⟨width, -, h⟩ := ok_bind.mp h
  rw [hE] at h
  rw [show ([] : List MacroOp).length - s.nextDispatch = 0 from Nat.zero_sub _] at h
  cases h
  rfl

/-- An occupancy is greatest after the dispatch of a visit. -/
theorem humped (hT : WellFormed E.trace) (h : run E = .ok (s, t)) (hf : ∀ s s', Falls s s' → f s' ≤ f s)
    (hstart : f E.machineInit = 0) :
    Humped (loop E) (fun now => visitOf ((phases E now).take 2)) (fun now => visitOf ((phases E now).drop 2))
      E.machineInit (states E) f := by
  obtain ⟨n, hends⟩ := run_ends h
  refine humped_of_procedures (k := 1) (fun _ _ => rfl) (fun now j g s s' hg hj h => hf _ _ (phase_unloads hT hg hj h).falls)
    ?_ ?_ hstart hends
  · intro hu now g s s' hg h
    have hE : E.trace.macros = [] := by
      have : E.trace.macros.length = 0 := by simpa [loop, unfinished, machineInit, Core.init] using hu
      exact List.length_eq_zero_iff.mp this
    cases hg
    dsimp only at h
    split at h
    · rw [dispatch_nil hE h]
    · cases h
      exact le_rfl
  · intro now s s' t hn
    obtain ⟨memory, rfl⟩ := nextEventTick_ok hn
    exact hf _ _ ⟨le_rfl, le_rfl, le_rfl, le_rfl⟩

/-- The parts of a visit. -/
theorem visit_split (now : ℕ) (s e : Machine) (h : (loop E).visit now s = .ok e) :
    ∃ d, visitOf ((phases E now).take 2) s = .ok d ∧ visitOf ((phases E now).drop 2) d = .ok e :=
  (foldlM_append (l := (phases E now).take 2)).mp h

/-- A peak that is recorded at the ends of the visits. -/
theorem recorded (h : runPeaks E = .ok ((s, p), t)) (peak : Peaks → ℤ) (hzero : peak {} = 0)
    (hrecord : ∀ s p, peak (recordPeaks s p) = max (peak p) (f s)) :
    Recorded (loop E) (fun now => visitOf ((phases E now).take 2)) (fun now => visitOf ((phases E now).drop 2))
      (fun _ e => f e) 0 E.machineInit 0 (peak p) := by
  have hrec := (peakLoop_observes E).recorded peak (fun _ e => f e) visit_split ?_ h
  · rwa [hzero] at hrec
  · intro n t r r' d _ hv _
    obtain ⟨e, he, hv⟩ := ok_bind.mp hv
    cases hv
    exact hrecord e r.2

/-! ### The rest of a visit -/

variable {now : ℕ} {d e F : Machine}

theorem Visited.reachable (hv : Visited E now d e) : Reachable E now d := by
  obtain ⟨⟨n, s, hr, -, hd⟩, -⟩ := hv
  exact ⟨s, _, _, ⟨n, hr⟩, (List.take_append_drop 2 _).symm, hd⟩

theorem Visited.inv (hT : WellFormed E.trace) (hv : Visited E now d e) : Inv E now d :=
  hv.reachable.invariant hT inv_init (fun _ _ _ => inv_step hT) fun _ _ _ hs hlt => hs.later hlt.le

/-- After its dispatch a visit takes nothing into a structure. -/
theorem Visited.unloads (hT : WellFormed E.trace) (hv : Visited E now d e) : Unloads E now d e :=
  foldlM_ok (P := fun x => Unloads E now d x) hv.rest .refl fun g hg x x' hx hgx => by
    obtain ⟨j, hj, hget⟩ := mem_drop_index hg
    exact hx.trans (phase_unloads hT hget hj hgx)

theorem Visited.within (hT : WellFormed E.trace) (h : run E = .ok (F, t)) (hv : Visited E now d e) :
    Within E.trace E.inOrder now d.toCore e.toCore F.toCore := by
  obtain ⟨n, hends⟩ := run_ends h
  have hend : EndOfTick E now e := hv.endsTick hends fun now s d e hd he => by
    show visitOf ((phases E now).take 2 ++ (phases E now).drop 2) s = .ok e
    exact foldlM_append.mpr ⟨d, hd, he⟩
  refine ⟨fun u hu => ?_, hend.settled hT h⟩
  refine ((hv.unloads hT).steps.invariant (P := fun x => Inv E now x ∧ SameUpTo u d.toCore x.toCore)
    ⟨hv.inv hT, .refl u _⟩ fun x x' hx hstep => ?_).2
  exact ⟨inv_step hT hx.1 hstep, hx.2.trans ((step_core hx.1 hstep).sameUpTo hT hx.1.core hu)⟩

theorem kept_iff (hT : WellFormed E.trace) (h : runPeaks E = .ok ((s, p), t)) (hf : ∀ s s', Falls s s' → f s' ≤ f s)
    (hstart : f E.machineInit = 0) (peak : Peaks → ℤ) (hzero : peak {} = 0)
    (hrecord : ∀ s p, peak (recordPeaks s p) = max (peak p) (f s)) {leaves : ℕ → Core → Prop}
    (hleaves : ∀ now d e, Visited E now d e → (f e = f d ↔ ¬ leaves now d.toCore)) :
    IsGreatest (f '' states E) (peak p) ↔ Kept E f leaves := by
  have hrun := (peakLoop_observes E).run_ok {} |>.mp ⟨_, h⟩
  rw [(humped hT hrun hf hstart).isGreatest_iff (recorded h peak hzero hrecord)]
  refine or_congr Iff.rfl ⟨?_, ?_⟩
  · rintro ⟨now, d, e, hv, hsame, htop⟩
    exact ⟨now, d, e, hv, htop, (hleaves now d e hv).mp hsame⟩
  · rintro ⟨now, d, e, hv, htop, hnone⟩
    exact ⟨now, d, e, hv, (hleaves now d e hv).mpr hnone, htop⟩

/-- **The peaks are the maxima just when nothing is lost before they are recorded.** -/
theorem peaksTrue_iff (hT : WellFormed E.trace) (h : runPeaks E = .ok ((s, p), t)) :
    PeaksTrue E p ↔ PeaksKept E s.toCore := by
  have hrun := (peakLoop_observes E).run_ok {} |>.mp ⟨_, h⟩
  have hparting : ∀ {now d e}, Visited E now d e →
      Relation.ReflTransGen (Parting E (·.decodedMacroOps) fun _ => 1) d e :=
    fun hv => unloads_parting hT (hv.inv hT) (hv.unloads hT)
  have rob : IsGreatest _ _ ↔ Kept E _ (RetiresAt E.trace (·.decodedMacroOps) s.toCore) :=
    kept_iff hT h (fun _ _ hs => hs.rob) rfl Peaks.rob rfl (fun _ _ => rfl) fun now d e hv =>
      (departs_iff (fun _ _ hp => hp.rob) (hparting hv)).trans
        (not_congr ((hv.within hT hrun).retires_iff (·.decodedMacroOps)))
  have vectorScheduler : IsGreatest _ _ ↔ Kept E _ (BeginsAt E (fun _ => 1) s.toCore) :=
    kept_iff hT h (fun _ _ hs => hs.vectorScheduler) rfl Peaks.vectorScheduler rfl (fun _ _ => rfl) fun now d e hv =>
      (departs_iff (fun _ _ hp => hp.vectorScheduler) (hparting hv)).trans
        (not_congr ((hv.within hT hrun).begins_iff fun _ => 1))
  have loadQueue : IsGreatest _ _ ↔ Kept E _ (RetiresAt E.trace (·.usesLoadQueue.toNat) s.toCore) :=
    kept_iff hT h (fun _ _ hs => hs.loadQueue) rfl Peaks.loadQueue rfl (fun _ _ => rfl) fun now d e hv =>
      (departs_iff (fun _ _ hp => hp.loadQueue) (hparting hv)).trans
        (not_congr ((hv.within hT hrun).retires_iff (·.usesLoadQueue.toNat)))
  have storeQueue : IsGreatest _ _ ↔ Kept E _ (RetiresAt E.trace (·.usesStoreQueue.toNat) s.toCore) :=
    kept_iff hT h (fun _ _ hs => hs.storeQueue) rfl Peaks.storeQueue rfl (fun _ _ => rfl) fun now d e hv =>
      (departs_iff (fun _ _ hp => hp.storeQueue) (hparting hv)).trans
        (not_congr ((hv.within hT hrun).retires_iff (·.usesStoreQueue.toNat)))
  constructor
  · intro hp
    exact ⟨rob.mp hp.rob, vectorScheduler.mp hp.vectorScheduler, loadQueue.mp hp.loadQueue, storeQueue.mp hp.storeQueue⟩
  · intro hk
    exact ⟨rob.mpr hk.rob, vectorScheduler.mpr hk.vectorScheduler, loadQueue.mpr hk.loadQueue,
      storeQueue.mpr hk.storeQueue⟩

end Zen4

namespace Xsai

variable {E : Config} {s : Sched} {p : EnginePeaks} {t : ℕ} {f : Sched → ℤ}

/-- The states of a run. -/
def states (E : Config) : Set Sched := {s | ∃ now, Reachable E now s}

/-- The visits of a run, with the states after `_dispatch` and at their ends. -/
abbrev Visited (E : Config) : ℕ → Sched → Sched → Prop :=
  Visit (loop E) (fun now => visitOf ((phases E now).take 4)) (fun now => visitOf ((phases E now).drop 4)) 0
    (schedInit E)

/-- A structure is never occupied, or nothing leaves it after the dispatch of some visit at which it
is fullest. -/
def Kept (E : Config) (f : Sched → ℤ) (leaves : ℕ → Sched → Prop) : Prop :=
  (∀ now d e, Visited E now d e → f d ≤ 0) ∨ ∃ now d e, Visited E now d e ∧
    (∀ now' d' e', Visited E now' d' e' → f d' ≤ f d) ∧ ¬ leaves now d

/-- A uop in a partition of kind `vector_compute` that has not issued and issues at the tick. -/
def LeavesPartition (E : Config) (F : Core) (now : ℕ) (d : Sched) : Prop :=
  ∃ x ∈ E.trace.uops, (∃ q ∈ E.partitions, q.kind = .vectorCompute ∧ (d.placement x.id).partition = some q.id) ∧
    (d.uop x.id).issueTick = none ∧ (F.uop x.id).issueTick = some now

theorem Kept.of_first {leaves : ℕ → Sched → Prop} {test : Sched → Bool} {fuel : ℕ}
    (h : fullestFirst (loop E) (fun now => visitOf ((phases E now).take 4)) (fun now => visitOf ((phases E now).drop 4))
      f test fuel (schedInit E) = true) (htest : ∀ d, test d = true → ¬ leaves 0 d) : Kept E f leaves := by
  obtain ⟨d, e, hv, hd, htop⟩ := fullestFirst_visit h
  exact .inr ⟨0, d, e, hv, htop, htest d hd⟩

instance (E : Config) (F : Core) (now : ℕ) (d : Sched) : Decidable (LeavesPartition E F now d) := by
  unfold LeavesPartition; infer_instance

/-- The entries of a free list that are allocated: held by macro-ops that have not retired,
or on their way back. -/
def allocatedEntries (E : Config) (f : String) (s : Sched) : ℤ := heldEntries E s f + pendingEntries s f

/-- The peaks are the greatest occupancies in the states of the run, and the entries counted
at its end the most that any state has allocated. -/
structure PeaksTrue (E : Config) (p : EnginePeaks) (s : Sched) : Prop where
  rob : IsGreatest ((fun s => s.robOccupancy) '' states E) p.rob
  vectorScheduler : IsGreatest (vectorOccupancy E '' states E) p.vectorScheduler
  loadQueue : IsGreatest ((fun s => s.loadQueueOccupancy) '' states E) p.loadQueue
  storeQueue : IsGreatest ((fun s => s.storeQueueOccupancy) '' states E) p.storeQueue
  partitions : ∀ q ∈ E.partitions, IsGreatest ((·.partitionOccupancy q.id) '' states E) (p.schedulerPartition q.id)
  rename : ∀ f ∈ E.rename.freeLists.map (·.1), IsGreatest (allocatedEntries E f '' states E) (peakAllocated E s f)

/-- No entry of the free list comes back at a visit after the tick. -/
def NoneReturned (E : Config) (f : String) (now : ℕ) : Prop :=
  ∀ now' s, AtTick E now' s → E.unfinished s.toCore = true → now < now' →
    (releaseRename E now' (atRelease E (now', s))).renameFree f = (atRelease E (now', s)).renameFree f

/-- No entry of the free list is ever allocated, or none comes back after some visit whose dispatch
leaves most of them allocated. -/
def EntriesKept (E : Config) (f : String) : Prop :=
  (∀ now d e, Visited E now d e → allocatedEntries E f d ≤ 0) ∨ ∃ now d e, Visited E now d e ∧
    (∀ now' d' e', Visited E now' d' e' → allocatedEntries E f d' ≤ allocatedEntries E f d) ∧ NoneReturned E f now

/-- Nothing leaves the structures after the dispatch of a visit that fills them most, and no rename
entry comes back after one that allocates most. A macro-op leaves the unpartitioned vector scheduler
when the first of its vector-kind uops issues, a uop its partition when it issues. -/
structure PeaksKept (E : Config) (F : Core) : Prop where
  rob : Kept E (·.robOccupancy) fun now d => RetiresAt E.trace (·.robEntryCount) F now d.toCore
  vectorScheduler : Kept E (vectorOccupancy E) fun now d =>
    BeginsAt E.toSetup (legacyEntries E) F now d.toCore ∨ LeavesPartition E F now d
  loadQueue : Kept E (·.loadQueueOccupancy) fun now d => RetiresAt E.trace (·.usesLoadQueue.toNat) F now d.toCore
  storeQueue : Kept E (·.storeQueueOccupancy) fun now d => RetiresAt E.trace (·.usesStoreQueue.toNat) F now d.toCore
  rename : ∀ f ∈ E.rename.freeLists.map (·.1), EntriesKept E f

/-- There is nothing to dispatch in an empty trace. -/
theorem dispatch_nil {now : ℕ} {s' : Sched} (hE : E.trace.macros = []) (h : dispatch E now s = .ok s') : s' = s := by
  obtain ⟨width, -, h⟩ := ok_bind.mp h
  rw [hE] at h
  rw [show ([] : List MacroOp).length - s.nextDispatch = 0 from Nat.zero_sub _] at h
  cases h
  rfl

/-- An occupancy is greatest after the dispatch of a visit. -/
theorem humped (hT : WellFormed E.trace) (h : run E = .ok (s, t)) (hf : ∀ s s', Falls s s' → f s' ≤ f s)
    (hstart : f (schedInit E) = 0) :
    Humped (loop E) (fun now => visitOf ((phases E now).take 4)) (fun now => visitOf ((phases E now).drop 4))
      (schedInit E) (states E) f := by
  obtain ⟨n, hends⟩ := run_ends h
  refine humped_of_procedures (k := 3) (fun _ _ => rfl) (fun now j g s s' hg hj h => hf _ _ (phase_falls hT hg hj h))
    ?_ ?_ hstart hends
  · intro hu now g s s' hg h
    have hE : E.trace.macros = [] := by
      have : E.trace.macros.length = 0 := by simpa [loop, unfinished, schedInit, machineInit, Core.init] using hu
      exact List.length_eq_zero_iff.mp this
    cases hg
    dsimp only at h
    split at h
    · rw [dispatch_nil hE h]
    · cases h
      exact le_rfl
  · intro now s s' t hn
    obtain ⟨memory, rfl⟩ := nextEventTick_ok hn
    exact hf _ _ ⟨⟨le_rfl, le_rfl, le_rfl, le_rfl⟩, fun _ => le_rfl, fun _ => le_rfl⟩

/-- The parts of a visit. -/
theorem visit_split (now : ℕ) (s e : Sched) (h : (loop E).visit now s = .ok e) :
    ∃ d, visitOf ((phases E now).take 4) s = .ok d ∧ visitOf ((phases E now).drop 4) d = .ok e :=
  (foldlM_append (l := (phases E now).take 4)).mp h

/-- A peak that is recorded at the ends of the visits. -/
theorem recorded (h : runPeaks E = .ok ((s, p), t)) (peak : EnginePeaks → ℤ) (hzero : peak {} = 0)
    (hrecord : ∀ s p q, peak (recordPeaks E s { p with schedulerPartition := q }) = max (peak p) (f s)) :
    Recorded (loop E) (fun now => visitOf ((phases E now).take 4)) (fun now => visitOf ((phases E now).drop 4))
      (fun _ e => f e) 0 (schedInit E) 0 (peak p) := by
  have hrec := (peakLoop_observes (E := E)).recorded peak (fun _ e => f e) visit_split ?_ h
  · rwa [hzero] at hrec
  · intro n t r r' d _ hv _
    obtain ⟨s, q, -, -, -, -, hpeaks⟩ := visitPeaks_ok hv
    rw [hpeaks]
    exact hrecord r'.1 r.2 q.2

/-! ### The rest of a visit -/

variable {now : ℕ} {d e F : Sched}

theorem Visited.reachable (hv : Visited E now d e) : Reachable E now d := by
  obtain ⟨⟨n, s, hr, -, hd⟩, -⟩ := hv
  exact ⟨s, _, _, ⟨n, hr⟩, (List.take_append_drop 4 _).symm, hd⟩

theorem Visited.inv (hT : WellFormed E.trace) (hv : Visited E now d e) : CoreInv E now d :=
  hv.reachable.invariant hT inv_init (fun _ _ _ => inv_step hT) fun _ _ _ hs hlt => hs.later hlt.le

theorem rest_unloads (hT : WellFormed E.trace) (h : visitOf ((phases E now).drop 4) d = .ok e) : Unloads E now d e :=
  foldlM_ok (P := fun x => Unloads E now d x) h .refl fun g hg x x' hx hgx => by
    obtain ⟨i, hi⟩ := List.mem_iff_getElem?.mp hg
    rw [List.getElem?_drop] at hi
    exact hx.trans (phase_unloads hT hi (by omega) (by omega) hgx)

theorem visit_join (now : ℕ) (s d e : Sched) (hd : visitOf ((phases E now).take 4) s = .ok d)
    (he : visitOf ((phases E now).drop 4) d = .ok e) : (loop E).visit now s = .ok e := by
  show visitOf ((phases E now).take 4 ++ (phases E now).drop 4) s = .ok e
  exact foldlM_append.mpr ⟨d, hd, he⟩

theorem Visited.within (hT : WellFormed E.trace) (h : run E = .ok (F, t)) (hv : Visited E now d e) :
    Within E.trace E.inOrder now d.toCore e.toCore F.toCore := by
  obtain ⟨n, hends⟩ := run_ends h
  have hend : EndOfTick E now e.toMachine := ⟨e, rfl, hv.endsTick hends visit_join⟩
  refine ⟨fun u hu => ?_, hend.settled hT h⟩
  refine ((rest_unloads hT hv.rest).steps.invariant (P := fun x => CoreInv E now x ∧ SameUpTo u d.toCore x.toCore)
    ⟨hv.inv hT, .refl u _⟩ fun x x' hx hstep => ?_).2
  exact ⟨inv_step hT hx.1 hstep, hx.2.trans ((step_core hstep).sameUpTo hT hx.1 hu)⟩

theorem kept_iff (hT : WellFormed E.trace) (h : runPeaks E = .ok ((s, p), t)) (hf : ∀ s s', Falls s s' → f s' ≤ f s)
    (hstart : f (schedInit E) = 0) (peak : EnginePeaks → ℤ) (hzero : peak {} = 0)
    (hrecord : ∀ s p q, peak (recordPeaks E s { p with schedulerPartition := q }) = max (peak p) (f s))
    {leaves : ℕ → Sched → Prop} (hleaves : ∀ now d e, Visited E now d e → (f e = f d ↔ ¬ leaves now d)) :
    IsGreatest (f '' states E) (peak p) ↔ Kept E f leaves := by
  have hrun := (peakLoop_observes (E := E)).run_ok {} |>.mp ⟨_, h⟩
  rw [(humped hT hrun hf hstart).isGreatest_iff (recorded h peak hzero hrecord)]
  refine or_congr Iff.rfl ⟨?_, ?_⟩
  · rintro ⟨now, d, e, hv, hsame, htop⟩
    exact ⟨now, d, e, hv, htop, (hleaves now d e hv).mp hsame⟩
  · rintro ⟨now, d, e, hv, htop, hnone⟩
    exact ⟨now, d, e, hv, (hleaves now d e hv).mpr hnone, htop⟩

/-- What issues in the rest of a visit leaves its partition. -/
theorem leavesPartition_iff (hw : Within E.trace E.inOrder now d.toCore e.toCore F.toCore) :
    (∃ x, 0 < vectorEntries E d x ∧ HasLeft E e.toCore x ∧ ¬ HasLeft E d.toCore x) ↔
      LeavesPartition E F.toCore now d := by
  have hpos : ∀ x, 0 < vectorEntries E d x ↔
      ∃ q ∈ E.partitions, q.kind = .vectorCompute ∧ (d.placement x.id).partition = some q.id := by
    intro x
    rw [vectorEntries, List.countP_pos_iff]
    simp [and_assoc]
  constructor
  · rintro ⟨x, hx, ⟨hmem, he⟩, hd⟩
    have hnone : (d.uop x.id).issueTick = none := by
      simpa using fun hsome => hd ⟨hmem, hsome⟩
    exact ⟨x, hmem, (hpos x).mp hx, (hw.issued x.id).mp ⟨he, hnone⟩⟩
  · rintro ⟨x, hmem, hx, hat⟩
    obtain ⟨he, hnone⟩ := (hw.issued x.id).mpr hat
    refine ⟨x, (hpos x).mpr hx, ⟨hmem, he⟩, ?_⟩
    rintro ⟨-, hsome⟩
    rw [hnone] at hsome
    cases hsome

/-- The vector scheduler loses nothing just when neither of its parts does. -/
theorem vectorOccupancy_iff (hT : WellFormed E.trace) (h : run E = .ok (F, t)) (hv : Visited E now d e) :
    vectorOccupancy E e = vectorOccupancy E d ↔
      ¬ (BeginsAt E.toSetup (legacyEntries E) F.toCore now d.toCore ∨ LeavesPartition E F.toCore now d) := by
  have hrest := rest_unloads hT hv.rest
  have hw := hv.within hT h
  obtain ⟨hparting, hdeparts⟩ := unloads_parting hT (hv.inv hT) hrest
  have hlegacy : e.vectorSchedulerOccupancy = d.vectorSchedulerOccupancy ↔
      ¬ BeginsAt E.toSetup (legacyEntries E) F.toCore now d.toCore :=
    (departs_iff (fun _ _ hp => hp.vectorScheduler) hparting).trans (not_congr (hw.begins_iff (legacyEntries E)))
  have hpartitions : inPartitions E e = inPartitions E d ↔ ¬ LeavesPartition E F.toCore now d :=
    (departs_iff (fun _ _ hp => hp) hdeparts).trans (not_congr (leavesPartition_iff hw))
  rw [not_or, ← hlegacy, ← hpartitions]
  have hle : e.vectorSchedulerOccupancy ≤ d.vectorSchedulerOccupancy := hrest.falls.vectorScheduler
  have hle' : inPartitions E e ≤ inPartitions E d := List.sum_le_sum fun q _ => hrest.falls.partition q.id
  show e.vectorSchedulerOccupancy + inPartitions E e = d.vectorSchedulerOccupancy + inPartitions E d ↔ _
  omega

/-- The peaks of the partitions are the maxima, always. -/
theorem partition_isGreatest (hT : WellFormed E.trace) (h : runPeaks E = .ok ((s, p), t)) (q : String) :
    IsGreatest ((·.partitionOccupancy q) '' states E) (p.schedulerPartition q) := by
  have hrun := (peakLoop_observes (E := E)).run_ok {} |>.mp ⟨_, h⟩
  have hrec := (peakLoop_observes (E := E)).recorded (fun p => p.schedulerPartition q)
    (fun d _ => d.partitionOccupancy q) visit_split (fun n t r r' d hr hv hd => visitPeaks_partition hT hr hv hd q) h
  exact (humped hT hrun (fun _ _ hs => hs.partition q) rfl).isGreatest hrec

/-! ### Rename entries -/

/-- The policy of an engine without renaming has no free lists. -/
theorem enabled_of_freeLists {T : BoundTrace} {P : EngineProfile} {inOrder : Bool} {mode : CacheMode}
    {limit : Option Bool} {expand : Bool} (hE : init T P inOrder mode limit expand = .ok E) {f : String}
    (hf : f ∈ E.rename.freeLists.map (·.1)) : E.rename.enabled = true := by
  have hpolicy := init_rename hE
  unfold RenameBackend.policy at hpolicy
  split at hpolicy
  · obtain ⟨_, -, hpolicy⟩ := ok_bind.mp hpolicy
    obtain ⟨_, -, hpolicy⟩ := ok_bind.mp hpolicy
    obtain ⟨_, -, hpolicy⟩ := ok_bind.mp hpolicy
    obtain ⟨_, -, hpolicy⟩ := ok_bind.mp hpolicy
    obtain ⟨_, -, hpolicy⟩ := ok_bind.mp hpolicy
    split at hpolicy
    · cases hpolicy
    · rw [← Except.ok.inj hpolicy]
  · rw [← Except.ok.inj hpolicy] at hf
    cases hf

/-- At the end of a run no macro-op holds an entry. -/
theorem heldEntries_end (hT : WellFormed E.trace) (h : run E = .ok (s, t)) (f : String) : heldEntries E s f = 0 := by
  have hretired := (run_ordered hT h).2.1.macroRetire
  have hlive : E.trace.macros.filter (live s.toCore) = [] := by
    refine List.filter_eq_nil_iff.mpr fun m hm => ?_
    obtain ⟨_, r, -, hr, -⟩ := hretired m hm
    simp [live, hr]
  rw [heldEntries, occupancy, hlive]
  rfl

/-- What is allocated is not free. -/
theorem allocated_eq (hT : WellFormed E.trace) (henabled : E.rename.enabled = true) (h : s ∈ states E) (f : String) :
    allocatedEntries E f s = initialFree E f - s.renameFree f := by
  obtain ⟨now, hs⟩ := h
  have := hs.conserved hT henabled f
  rw [allocatedEntries]
  omega

/-- From its dispatch on, a visit gives no entry back. -/
theorem visit_free (hT : WellFormed E.trace) {s s' : Sched} (f : String)
    (hnone : (releaseRename E now (atRelease E (now, s))).renameFree f = (atRelease E (now, s)).renameFree f)
    (h : (loop E).visit now s = .ok s') : s'.renameFree f ≤ s.renameFree f := by
  have hv : visitOf (phases E now) s = .ok s' := h
  rw [visit_halves] at hv
  obtain ⟨x, hx, hv⟩ := ok_bind.mp hv
  obtain rfl : releaseRename E now (atRelease E (now, s)) = x := Except.ok.inj hx
  obtain ⟨y, hy, hrest⟩ := ok_bind.mp hv
  have hbefore : (atRelease E (now, s)).renameFree = s.renameFree := by
    have hcomplete : Unloads E now s (complete E now s).2 := complete_unloads s
    have hflows : Unloads E now (complete E now s).2 (atRelease E (now, s)) := releaseFlowsLoop_unloads _ _
    exact hflows.kept.1.trans hcomplete.kept.1
  calc s'.renameFree f = y.renameFree f := by rw [(rest_unloads hT hrest).kept.1]
    _ ≤ (releaseRename E now (atRelease E (now, s))).renameFree f := by
      split at hy
      · exact dispatch_free hy f
      · cases hy; exact le_rfl
    _ = s.renameFree f := by rw [hnone, hbefore]

/-- The entries counted at the end are the most that were allocated just when no entry comes back
after a visit that allocates most. -/
theorem peakAllocated_iff (hT : WellFormed E.trace) (henabled : E.rename.enabled = true)
    (h : run E = .ok (s, t)) (f : String) :
    IsGreatest (allocatedEntries E f '' states E) (peakAllocated E s f) ↔ EntriesKept E f := by
  have hhump : Humped (loop E) _ _ (schedInit E) (states E) fun s => (initialFree E f : ℤ) - s.renameFree f :=
    humped hT h (fun s s' hs => Int.sub_le_sub_left (hs.free f) _) (sub_self _)
  have hend : s ∈ states E := ⟨t, run_reachable h⟩
  have hpeak : peakAllocated E s f = allocatedEntries E f s := (allocated_eq hT henabled hend f).symm
  have hmid : ∀ {u d e}, Visited E u d e → allocatedEntries E f d = initialFree E f - d.renameFree f :=
    fun hv => allocated_eq hT henabled (hhump.top _ _ _ hv).1 f
  have hpos : ∀ s, 0 ≤ allocatedEntries E f s := fun s =>
    Int.add_nonneg (Int.natCast_nonneg _) (Int.natCast_nonneg _)
  obtain ⟨n, hends⟩ := run_ends h
  rw [hpeak]
  constructor
  · intro hmax
    have hle : ∀ u d e, Visited E u d e → allocatedEntries E f d ≤ allocatedEntries E f s := fun u d e hv =>
      hmax.2 ⟨d, (hhump.top u d e hv).1, rfl⟩
    rcases hends with ⟨-, hidle, -, -⟩ | ⟨k, s₁, hk, hr, hu, hv, hf⟩
    · -- the loop makes no visit
      refine .inl fun u d e hv => ?_
      obtain ⟨⟨m, s₁, hr, hu, -⟩, -⟩ := hv
      cases hr with
      | zero => rw [hidle] at hu; cases hu
      | succ first _ => have := first.unfinished; rw [hidle] at this; cases this
    · -- its last visit leaves most of them allocated
      obtain ⟨d, hd, he⟩ := visit_split _ _ _ hv
      have hlast : Visited E t d s := ⟨⟨k, s₁, hr, hu, hd⟩, he⟩
      have hsame : allocatedEntries E f d = allocatedEntries E f s := by
        rw [hmid hlast, allocated_eq hT henabled hend f, (rest_unloads hT he).kept.1]
      refine .inr ⟨t, d, s, hlast, fun u d' e' hv' => hsame ▸ hle u d' e' hv', ?_⟩
      rintro now' s' ⟨m, hr'⟩ hu' hlt
      have := Ends.reaches_le (.inr ⟨k, s₁, hk, hr, hu, hv, hf⟩) hr' hu'
      omega
  · have hgreatest : ∀ b, 0 ≤ b → (∀ u d e, Visited E u d e → allocatedEntries E f d ≤ b) →
        b ≤ allocatedEntries E f s → IsGreatest (allocatedEntries E f '' states E) (allocatedEntries E f s) := by
      intro b hb hle hend'
      refine ⟨⟨s, hend, rfl⟩, ?_⟩
      rintro _ ⟨s', hs', rfl⟩
      have hbound := hhump.bound b hb (fun u d e hv => hmid hv ▸ hle u d e hv) s' hs'
      rw [allocated_eq hT henabled hs']
      exact hbound.trans hend'
    rintro (hall | ⟨u, d, e, hv, htop, hnone⟩)
    · exact hgreatest 0 le_rfl hall (hpos s)
    · refine hgreatest (allocatedEntries E f d) (hpos d) htop ?_
      obtain ⟨⟨k, s₁, hr, hu, hd⟩, he⟩ := hv
      have hfree : s.renameFree f ≤ d.renameFree f := by
        refine hends.later (P := fun x => x.renameFree f ≤ d.renameFree f) hr hu (visit_join _ _ _ _ hd he) ?_ ?_ ?_
        · rw [(rest_unloads hT he).kept.1]
        · intro v j x x' hlt hr' hu' hv' hx
          exact (visit_free hT f (hnone v x ⟨j, hr'⟩ hu' hlt) hv').trans hx
        · intro v x x' t' hn hx
          obtain ⟨memory, rfl⟩ := nextEventTick_ok hn
          exact hx
      rw [hmid ⟨⟨k, s₁, hr, hu, hd⟩, he⟩, allocated_eq hT henabled hend f]
      omega

/-- **The peaks are the maxima just when nothing is lost before they are recorded.** -/
theorem peaksTrue_iff (hT : WellFormed E.trace)
    (henabled : ∀ f ∈ E.rename.freeLists.map (·.1), E.rename.enabled = true)
    (h : runPeaks E = .ok ((s, p), t)) : PeaksTrue E p s ↔ PeaksKept E s.toCore := by
  have hrun := (peakLoop_observes (E := E)).run_ok {} |>.mp ⟨_, h⟩
  have hparting : ∀ {now d e}, Visited E now d e →
      Relation.ReflTransGen (Parting E.toSetup (·.robEntryCount) (legacyEntries E)) d.toMachine e.toMachine :=
    fun hv => (unloads_parting hT (hv.inv hT) (rest_unloads hT hv.rest)).1
  have rob : IsGreatest _ _ ↔ Kept E _ fun now d => RetiresAt E.trace (·.robEntryCount) s.toCore now d.toCore :=
    kept_iff hT h (fun _ _ hs => hs.rob) rfl (fun p => p.rob) rfl (fun _ _ _ => rfl) fun now d e hv =>
      (departs_iff (fun _ _ hp => hp.rob) (hparting hv)).trans
        (not_congr ((hv.within hT hrun).retires_iff (·.robEntryCount)))
  have vectorScheduler : IsGreatest (vectorOccupancy E '' states E) p.vectorScheduler ↔ Kept E (vectorOccupancy E) fun now d =>
      BeginsAt E.toSetup (legacyEntries E) s.toCore now d.toCore ∨ LeavesPartition E s.toCore now d := by
    refine kept_iff hT h (fun s s' hs => ?_) ?_ (fun p => p.vectorScheduler) rfl (fun _ _ _ => rfl)
      fun now d e hv => vectorOccupancy_iff hT hrun hv
    · exact Int.add_le_add hs.vectorScheduler (List.sum_le_sum fun q _ => hs.partition q.id)
    · show (0 : ℤ) + ((E.partitions.filter (·.kind = .vectorCompute)).map fun _ => (0 : ℤ)).sum = 0
      simp
  have loadQueue : IsGreatest _ _ ↔ Kept E _ fun now d =>
      RetiresAt E.trace (·.usesLoadQueue.toNat) s.toCore now d.toCore :=
    kept_iff hT h (fun _ _ hs => hs.loadQueue) rfl (fun p => p.loadQueue) rfl (fun _ _ _ => rfl) fun now d e hv =>
      (departs_iff (fun _ _ hp => hp.loadQueue) (hparting hv)).trans
        (not_congr ((hv.within hT hrun).retires_iff (·.usesLoadQueue.toNat)))
  have storeQueue : IsGreatest _ _ ↔ Kept E _ fun now d =>
      RetiresAt E.trace (·.usesStoreQueue.toNat) s.toCore now d.toCore :=
    kept_iff hT h (fun _ _ hs => hs.storeQueue) rfl (fun p => p.storeQueue) rfl (fun _ _ _ => rfl) fun now d e hv =>
      (departs_iff (fun _ _ hp => hp.storeQueue) (hparting hv)).trans
        (not_congr ((hv.within hT hrun).retires_iff (·.usesStoreQueue.toNat)))
  constructor
  · intro hp
    exact ⟨rob.mp hp.rob, vectorScheduler.mp hp.vectorScheduler, loadQueue.mp hp.loadQueue,
      storeQueue.mp hp.storeQueue, fun f hf => (peakAllocated_iff hT (henabled f hf) hrun f).mp (hp.rename f hf)⟩
  · intro hk
    exact ⟨rob.mpr hk.rob, vectorScheduler.mpr hk.vectorScheduler, loadQueue.mpr hk.loadQueue,
      storeQueue.mpr hk.storeQueue, fun q _ => partition_isGreatest hT h q.id,
      fun f hf => (peakAllocated_iff hT (henabled f hf) hrun f).mpr (hk.rename f hf)⟩

end Xsai

/-- **The peaks of a run are the maxima over its states just when nothing is lost before
they are recorded.** -/
theorem peaks_true_iff (T : BoundTrace) (P : EngineProfile) (inOrder : Bool) (mode : CacheMode) (limit : Option Bool) :
    (∀ E s t, Zen4.init T P inOrder mode limit = .ok E → Zen4.run E = .ok (s, t) →
      ∃ p, Zen4.runPeaks E = .ok ((s, p), t) ∧ (Zen4.PeaksTrue E p ↔ Zen4.PeaksKept E s.toCore)) ∧
    (∀ expand E s t, Xsai.init T P inOrder mode limit expand = .ok E → Xsai.run E = .ok (s, t) →
      ∃ p, Xsai.runPeaks E = .ok ((s, p), t) ∧ (Xsai.PeaksTrue E p s ↔ Xsai.PeaksKept E s.toCore)) := by
  constructor
  · intro E s t hE h
    obtain ⟨p, hp⟩ := ((Zen4.peakLoop_observes E).run_ok {}).mpr h
    exact ⟨p, hp, Zen4.peaksTrue_iff (Zen4.init_ok hE).1 hp⟩
  · intro expand E s t hE h
    obtain ⟨p, hp⟩ := ((Xsai.peakLoop_observes (E := E)).run_ok {}).mpr h
    exact ⟨p, hp, Xsai.peaksTrue_iff (Xsai.init_ok hE).wellFormed (fun f hf => Xsai.enabled_of_freeLists hE hf) hp⟩

namespace Sample

/-- Room for all that follows, and rename entries that come back late. -/
def wideProfile : EngineProfile := { kernelProfile with
  pipeline := ⟨some 4, some 4, some 8, some 8, some 8, some 8⟩
  partitions := [⟨"vector", .vectorCompute, some 4, some 4⟩]
  rename := { enabled := true, freeLists := [("vector", some 8)], allocationWidth := some 4, releaseWidth := some 1,
              releaseDelayCycles := some 32, availabilityDelayCycles := some 0, guardEntries := some 0 } }

/-- Two sums of two parts each wait for a load, and a store for them. -/
def waitingTrace : BoundTrace := { kernelTrace with
  macros := [{ kernelOp 0 [0] false true false with renameAllocations := [("vector", 1)] },
    { kernelOp 1 [1, 2] true false false with renameAllocations := [("vector", 1)] },
    { kernelOp 2 [3, 4] true false false with renameAllocations := [("vector", 2)] }, kernelOp 3 [5] false false true]
  uops := [accessUop 0 0 .load 0 [], sumUop 1 1 [0], sumUop 2 1 [0], sumUop 3 2 [0, 1], sumUop 4 2 [0, 2],
    accessUop 5 3 .store 1 [3, 4]] }

/-- The first visit fills every structure of the Zen 4 engine most, and nothing leaves one in it. -/
def zen4First (E : Setup) (F : Core) : Bool :=
  let first := fun (f : Machine → ℤ) (test : Core → Bool) => fullestFirst (Zen4.loop E)
    (fun now => visitOf ((Zen4.phases E now).take 2)) (fun now => visitOf ((Zen4.phases E now).drop 2)) f
    (fun d => test d.toCore) 32 E.machineInit
  let stays := fun (entries : MacroOp → ℕ) (c : Core) => decide (¬ RetiresAt E.trace entries F 0 c)
  first (·.robOccupancy) (stays (·.decodedMacroOps)) &&
    first (·.vectorSchedulerOccupancy) (fun c => decide (¬ BeginsAt E (fun _ => 1) F 0 c)) &&
    first (·.loadQueueOccupancy) (stays (·.usesLoadQueue.toNat)) &&
    first (·.storeQueueOccupancy) (stays (·.usesStoreQueue.toNat))

theorem zen4First_kept {E : Setup} {F : Core} (h : zen4First E F = true) : Zen4.PeaksKept E F := by
  simp only [zen4First, Bool.and_eq_true] at h
  obtain ⟨⟨⟨hrob, hvector⟩, hload⟩, hstore⟩ := h
  exact ⟨.of_first hrob fun _ hd => of_decide_eq_true hd, .of_first hvector fun _ hd => of_decide_eq_true hd,
    .of_first hload fun _ hd => of_decide_eq_true hd, .of_first hstore fun _ hd => of_decide_eq_true hd⟩

/-- The same of the XSAI engine, where no rename entry comes back. -/
def xsaiFirst (E : Xsai.Config) (F : Core) : Bool :=
  let first := fun (f : Xsai.Sched → ℤ) (test : Xsai.Sched → Bool) => fullestFirst (Xsai.loop E)
    (fun now => visitOf ((Xsai.phases E now).take 4)) (fun now => visitOf ((Xsai.phases E now).drop 4)) f test 32
    (Xsai.schedInit E)
  let stays := fun (entries : MacroOp → ℕ) (d : Xsai.Sched) => decide (¬ RetiresAt E.trace entries F 0 d.toCore)
  first (·.robOccupancy) (stays (·.robEntryCount)) &&
    first (Xsai.vectorOccupancy E) (fun d => decide (¬ (BeginsAt E.toSetup (Xsai.legacyEntries E) F 0 d.toCore ∨
      Xsai.LeavesPartition E F 0 d))) &&
    first (·.loadQueueOccupancy) (stays (·.usesLoadQueue.toNat)) &&
    first (·.storeQueueOccupancy) (stays (·.usesStoreQueue.toNat)) &&
    E.rename.freeLists.all fun l => first (Xsai.allocatedEntries E l.1) (fun _ => true) &&
      always (Xsai.loop E) (fun now s => decide ((Xsai.releaseRename E now (Xsai.atRelease E (now, s))).renameFree l.1 =
        (Xsai.atRelease E (now, s)).renameFree l.1)) 32 0 (Xsai.schedInit E)

theorem xsaiFirst_kept {E : Xsai.Config} {F : Core} (h : xsaiFirst E F = true) : Xsai.PeaksKept E F := by
  simp only [xsaiFirst, Bool.and_eq_true] at h
  obtain ⟨⟨⟨⟨hrob, hvector⟩, hload⟩, hstore⟩, hrename⟩ := h
  refine ⟨.of_first hrob fun _ hd => of_decide_eq_true hd, .of_first hvector fun _ hd => of_decide_eq_true hd,
    .of_first hload fun _ hd => of_decide_eq_true hd, .of_first hstore fun _ hd => of_decide_eq_true hd, fun f hf => ?_⟩
  obtain ⟨l, hl, rfl⟩ := List.mem_map.mp hf
  have hlist := List.all_eq_true.mp hrename l hl
  rw [Bool.and_eq_true] at hlist
  obtain ⟨d, e, hv, -, htop⟩ := fullestFirst_visit hlist.1
  refine .inr ⟨0, d, e, hv, htop, ?_⟩
  rintro now s ⟨n, hr⟩ hu -
  exact of_decide_eq_true (always_reaches hlist.2 hr hu)

end Sample

/-- The sums wait for the load with the store while the first visit ends: two macro-ops in the vector
scheduler of the Zen 4 engine, four uops in the partition of the XSAI engine, four rename entries. -/
theorem peaks_true_iff_sample :
    (∃ E s t, Zen4.init Sample.waitingTrace Sample.wideProfile false .cold none = .ok E ∧ Zen4.run E = .ok (s, t) ∧
      ∃ p, Zen4.runPeaks E = .ok ((s, p), t) ∧ Zen4.PeaksKept E s.toCore ∧ Zen4.PeaksTrue E p ∧
        (p.rob, p.vectorScheduler, p.loadQueue, p.storeQueue) = (4, 2, 1, 1)) ∧
    (∃ E s t, Xsai.init Sample.waitingTrace Sample.wideProfile false .cold none false = .ok E ∧ Xsai.run E = .ok (s, t) ∧
      ∃ p, Xsai.runPeaks E = .ok ((s, p), t) ∧ Xsai.PeaksKept E s.toCore ∧ Xsai.PeaksTrue E p s ∧
        (p.rob, p.vectorScheduler, p.loadQueue, p.storeQueue) = (4, 4, 1, 1) ∧ Xsai.peakAllocated E s "vector" = 4) := by
  have hiff := peaks_true_iff Sample.waitingTrace Sample.wideProfile false .cold none
  constructor
  · obtain ⟨E, hE⟩ := exists_ok (x := Zen4.init Sample.waitingTrace Sample.wideProfile false .cold none) (by decide +kernel)
    have hcheck : ((Zen4.init Sample.waitingTrace Sample.wideProfile false .cold none).bind fun E =>
        (Zen4.runPeaks E).map fun r => (Sample.zen4First E r.1.1.toCore,
          (r.1.2.rob, r.1.2.vectorScheduler, r.1.2.loadQueue, r.1.2.storeQueue))).toOption =
        some (true, (4, 2, 1, 1)) := by decide +kernel
    rw [hE] at hcheck
    obtain ⟨⟨⟨s, p⟩, t⟩, hp, hr⟩ := ok_map.mp (toOption_ok.mp hcheck)
    obtain ⟨hfirst, hpeaks⟩ := Prod.mk.inj hr
    have h := ((Zen4.peakLoop_observes E).run_ok {}).mp ⟨p, hp⟩
    obtain ⟨p', hp', htrue⟩ := hiff.1 E s t hE h
    obtain rfl : p = p' := by
      have := hp.symm.trans hp'
      simpa using this
    have hkept := Sample.zen4First_kept hfirst
    exact ⟨E, s, t, hE, h, p, hp, hkept, htrue.mpr hkept, hpeaks⟩
  · obtain ⟨E, hE⟩ := exists_ok (x := Xsai.init Sample.waitingTrace Sample.wideProfile false .cold none false)
      (by decide +kernel)
    have hcheck : ((Xsai.init Sample.waitingTrace Sample.wideProfile false .cold none false).bind fun E =>
        (Xsai.runPeaks E).map fun r => (Sample.xsaiFirst E r.1.1.toCore,
          (r.1.2.rob, r.1.2.vectorScheduler, r.1.2.loadQueue, r.1.2.storeQueue), Xsai.peakAllocated E r.1.1 "vector")).toOption =
        some (true, (4, 4, 1, 1), 4) := by decide +kernel
    rw [hE] at hcheck
    obtain ⟨⟨⟨s, p⟩, t⟩, hp, hr⟩ := ok_map.mp (toOption_ok.mp hcheck)
    obtain ⟨hfirst, hrest⟩ := Prod.mk.inj hr
    obtain ⟨hpeaks, hentries⟩ := Prod.mk.inj hrest
    have h := ((Xsai.peakLoop_observes (E := E)).run_ok {}).mp ⟨p, hp⟩
    obtain ⟨p', hp', htrue⟩ := hiff.2 false E s t hE h
    obtain rfl : p = p' := by
      have := hp.symm.trans hp'
      simpa using this
    have hkept := Sample.xsaiFirst_kept hfirst
    exact ⟨E, s, t, hE, h, p, hp, hkept, htrue.mpr hkept, hpeaks, hentries⟩

namespace Sample

/-- A vector macro-op of one uop. -/
def vectorTrace : BoundTrace := { trace [0] with
  macros := [{ id := 0, sequence := 0, uopIds := [0], decodedMacroOps := 1, retireMacroOps := 1,
               usesVectorScheduler := true, usesLoadQueue := false, usesStoreQueue := false }]
  uops := [{ uop with kind := .vectorFp }] }

end Sample

/-- The uop issues in the visit that dispatches it: no end of a visit has seen it wait. -/
theorem vector_peak_missed : ∃ E s p t, Zen4.init Sample.vectorTrace Sample.profile false .cold none = .ok E ∧
    Zen4.runPeaks E = .ok ((s, p), t) ∧ p.vectorScheduler = 0 ∧
      (∃ now s', Zen4.Reachable E now s' ∧ s'.vectorSchedulerOccupancy = 1) ∧ ¬ Zen4.PeaksTrue E p := by
  obtain ⟨E, hE⟩ := exists_ok (x := Zen4.init Sample.vectorTrace Sample.profile false .cold none) (by decide +kernel)
  have hpeak : ((Zen4.init Sample.vectorTrace Sample.profile false .cold none).bind fun E =>
      (Zen4.runPeaks E).map fun r => r.1.2.vectorScheduler).toOption = some 0 := by
    decide +kernel
  have hmid : ((Zen4.init Sample.vectorTrace Sample.profile false .cold none).bind fun E =>
      (visitOf ((Zen4.phases E 0).take 2) E.machineInit).map (·.vectorSchedulerOccupancy)).toOption = some 1 := by
    decide +kernel
  rw [hE] at hpeak hmid
  obtain ⟨⟨⟨s, p⟩, t⟩, hrun, hp⟩ := ok_map.mp (toOption_ok.mp hpeak)
  obtain ⟨s', hs', hone⟩ := ok_map.mp (toOption_ok.mp hmid)
  have hreach : Zen4.Reachable E 0 s' :=
    ⟨E.machineInit, _, _, ⟨0, .zero⟩, (List.take_append_drop 2 _).symm, hs'⟩
  refine ⟨E, s, p, t, hE, hrun, hp, ⟨0, s', hreach, hone⟩, fun htrue => ?_⟩
  have hle : s'.vectorSchedulerOccupancy ≤ p.vectorScheduler := htrue.vectorScheduler.2 ⟨s', ⟨0, hreach⟩, rfl⟩
  rw [hone, hp] at hle
  omega

end VectorSim
