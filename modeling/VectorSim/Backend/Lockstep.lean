/-
# The two engines in step

Where a profile has none of the optional policies, the XSAI engine without the
uop expansion (`GenericTokenEngine`) has nothing to do but what the Zen 4
engine does. The parts of its state that the Zen 4 engine lacks stay as they
were (`Idle`), and each of its procedures does to the part they share what the
Zen 4 engine's procedure does (`Follows`), so their runs are in step
(`run_upTo`). The Zen 4 engine may refuse what the other does not ask for
(`Refused`).
-/
import VectorSim.Backend.Accepted
import VectorSim.Backend.Errors
import VectorSim.Backend.Zen4Occupancy
import VectorSim.Memory.Resident
import Mathlib.Data.String.Basic

namespace VectorSim

open Checked Setup

/-- What the Zen 4 engine raises where the other engine goes on: the scheduler's size, which it
reads at every dispatch, and the free lane of a resource that has none. -/
inductive Refused : SimError → Prop
  | scheduler : Refused (.profile (.measure "vector_scheduler_entries"))
  | emptyResource : Refused (.emptyMin "resource_free")

namespace Xsai

/-- No policy has anything to say about the trace, its macro-ops are accounted for by their
decoded macro-ops and fit a cycle, and it loads from the working set alone. -/
structure Bare (lines : List ℤ) (C : Config) : Prop where
  units : ∀ x ∈ C.trace.uops, x.executionUnitChoices = []
  partitions : ∀ x ∈ C.trace.uops, x.schedulerPartitionChoices = []
  domains : ∀ m ∈ C.trace.macros, m.dispatchDomains = []
  rename : C.rename.enabled = false
  epochs : C.epochs.enabled = false
  flowSplit : C.vectorMemory.flowSplit = none
  serviceCapacity : C.vectorMemory.serviceCapacity = []
  serviceTicks : C.vectorMemory.serviceTicks = none
  issueOrder : C.vectorMemory.issueOrder = .any
  width : ∀ m ∈ C.trace.macros, m.dispatchWidthUnits = m.decodedMacroOps
  rob : ∀ m ∈ C.trace.macros, m.robEntryCount = m.decodedMacroOps
  fits : ∀ m ∈ C.trace.macros, ∀ w ∈ C.pipeline.dispatchMacroOpsPerCycle, m.dispatchWidthUnits ≤ w
  vector : ∀ m ∈ C.trace.macros, m.usesVectorScheduler = C.trace.hasKind (·.isVectorResource) m
  stores : ∀ x ∈ C.trace.uops, x.kind ≠ .storeData
  inside : ∀ x ∈ C.trace.uops, ∀ a ∈ x.memory, MemoryConfig.Inside lines a
  latency : ∀ x ∈ C.trace.uops, x.kind = .loadData → ∀ a ∈ x.memory,
    ∀ t ∈ (C.memory.levelEntry (C.memory.servedLevel a)).latencyTicks, x.latencyTicks ≤ t

/-- The parts of the state that belong to no policy's business are untouched, and the working
set is in L1. -/
structure Idle (lines : List ℤ) (C : Config) (s : Sched) : Prop where
  service : s.serviceHeap = []
  rename : s.renamePending = []
  partition : ∀ u, (s.placement u).partition = none
  progress : ∀ k m, s.nextDispatch ≤ k → C.trace.macros[k]? = some m → s.unitProgress m.id = 0
  scheduler : ∀ n ∈ C.pipeline.vectorSchedulerEntries, s.vectorSchedulerOccupancy ≤ n
  resident : C.memory.Resident lines s.memory
  latency : ∀ u, (s.uop u).issueTick = none →
    (s.uop u).latencyTicks = ((C.trace.uop? u).map (·.latencyTicks)).getD 0

/-- The engine is where the Zen 4 engine is. -/
structure Follows (lines : List ℤ) (C : Config) (z : Machine) (s : Sched) : Prop where
  machine : s.toMachine = z
  idle : Idle lines C s

variable {lines : List ℤ} {C : Config} {now : ℕ} {s : Sched} {x : ExecutionUop} {m : MacroOp}

/-! ### Completion and release -/

theorem completeEntry_machine (s : Sched) (e : HeapEntry) (rest : List HeapEntry) :
    Zen4.completeEntry C.toSetup s.toMachine e rest =
      ((completeEntry C s e rest).1, (completeEntry C s e rest).2.toMachine) := by
  unfold Zen4.completeEntry completeEntry
  dsimp only
  split <;> rfl

theorem Idle.completeEntry (h : Idle lines C s) (e : HeapEntry) (rest : List HeapEntry) :
    Idle lines C (completeEntry C s e rest).2 := by
  unfold Xsai.completeEntry
  dsimp only
  split
  · exact ⟨h.service, h.rename, h.partition, h.progress, h.scheduler, h.resident, h.latency⟩
  · refine ⟨h.service, h.rename, h.partition, h.progress, h.scheduler, h.resident, fun u hu => ?_⟩
    have hold := h.latency u
    dsimp only at hu ⊢
    rw [Core.completeUop_uop] at hu ⊢
    split at hu
    · next he => rw [if_pos he]; exact hold hu
    · next he => rw [if_neg he]; exact hold hu

theorem completeLoop_follows : ∀ (fuel : ℕ) {s : Sched}, Idle lines C s →
    Zen4.completeLoop C.toSetup now fuel s.toMachine =
      ((completeLoop C now fuel s).1, (completeLoop C now fuel s).2.toMachine) ∧
    Idle lines C (completeLoop C now fuel s).2
  | 0, _, h => ⟨rfl, h⟩
  | fuel + 1, s, h => by
    unfold Zen4.completeLoop completeLoop
    cases hq : s.completionHeap with
    | nil => exact ⟨rfl, h⟩
    | cons e rest =>
      dsimp only
      split
      · obtain ⟨h1, h2⟩ := completeLoop_follows fuel (h.completeEntry e rest)
        rw [completeEntry_machine, h1]
        exact ⟨rfl, h2⟩
      · exact ⟨rfl, h⟩

theorem complete_follows (now : ℕ) (h : Idle lines C s) :
    Zen4.complete C.toSetup now s.toMachine = ((complete C now s).1, (complete C now s).2.toMachine) ∧
      Idle lines C (complete C now s).2 :=
  completeLoop_follows _ h

theorem releaseFlows_idle (h : Idle lines C s) : releaseFlows C now s = s := by
  unfold releaseFlows
  rw [h.service]
  rfl

theorem releaseRename_bare (hC : Bare lines C) : releaseRename C now s = s := by
  unfold releaseRename
  rw [hC.rename]
  rfl

/-! ### Dispatch -/

theorem Bare.uop_partitions (hC : Bare lines C) (u : Id) : (C.uop u).schedulerPartitionChoices = [] := by
  unfold Setup.uop
  cases hx : C.trace.uop? u with
  | none => rfl
  | some x => exact hC.partitions x (C.trace.uop?_mem hx).1

theorem Bare.planAssignment (hC : Bare lines C) (s : Sched) (enforce : Bool) (enqueues : String → ℕ)
    (us : List Id) : planAssignment C s enforce enqueues us = some [] := by
  have hnone : (us.map C.uop).filter (fun x => !x.schedulerPartitionChoices.isEmpty) = [] := by
    refine List.filter_eq_nil_iff.mpr fun x hx => ?_
    obtain ⟨u, -, rfl⟩ := List.mem_map.mp hx
    simp [hC.uop_partitions u]
  unfold Xsai.planAssignment partitioned
  rw [hnone]
  rfl

/-- A vector uop without partitions is in the unpartitioned scheduler. -/
theorem Bare.usesLegacy (hC : Bare lines C) (hT : WellFormed C.trace) (hm : m ∈ C.trace.macros) :
    usesLegacyVectorScheduler C m = m.usesVectorScheduler := by
  have hany : (m.uopIds.any fun u => (C.uop u).kind.isVectorResource && (C.uop u).schedulerPartitionChoices.isEmpty) =
      C.trace.hasKind (·.isVectorResource) m := by
    unfold BoundTrace.hasKind
    refine Bool.eq_iff_iff.mpr (List.any_eq_true.trans (Iff.trans ?_ List.any_eq_true.symm))
    refine exists_congr fun u => and_congr_right fun hu => ?_
    obtain ⟨y, hy, -⟩ := hT.owned m hm u hu
    rw [hC.uop_partitions, Setup.uop, hy]
    simp
  unfold usesLegacyVectorScheduler
  rw [hany, ← hC.vector m hm, Bool.and_self]

/-- What the checks of a dispatch find. -/
theorem admissionBlocker_upTo (hC : Bare lines C) (hT : WellFormed C.trace) (h : Idle lines C s)
    (c : DispatchCycle) (hm : m ∈ C.trace.macros) :
    UpTo Refused (fun b b' => b' = b ∧ ∀ d, b ≠ some (.dispatchDomainFull d))
      (Zen4.dispatchBlocker C.toSetup s.toMachine m) (admissionBlocker C s c m) := by
  unfold Zen4.dispatchBlocker admissionBlocker
  refine upTo_refl.bind fun entries entries' _ he => ?_
  subst he
  rw [hC.rob m hm]
  split
  · exact upTo_ok ⟨rfl, fun d hd => by cases hd⟩
  rw [hC.domains m hm]
  have hrename : renameBlocker C s c m = .ok none := by
    unfold renameBlocker
    rw [hC.rename]
    rfl
  show UpTo _ _ _ (renameBlocker C s c m >>= _)
  rw [hrename]
  show UpTo _ _ _ (queueBlocker C s m)
  unfold queueBlocker vectorFull
  rw [hC.usesLegacy hT hm]
  cases hv : C.pipeline.vectorSchedulerEntries with
  | none => exact .inl ⟨_, .scheduler, rfl⟩
  | some n =>
    have hroom := h.scheduler n hv
    have hfull : (if m.usesVectorScheduler = true then do
          let entries ← pipelineInt (some n) "vector_scheduler_entries"
          Except.ok (decide ((entries : ℤ) < s.vectorSchedulerOccupancy + m.usesVectorScheduler.toNat))
        else Except.ok false : Except SimError Bool) =
        .ok (decide ((n : ℤ) < s.vectorSchedulerOccupancy + m.usesVectorScheduler.toNat)) := by
      cases m.usesVectorScheduler with
      | true => rfl
      | false => simpa using hroom
    rw [hfull]
    by_cases hlt : (n : ℤ) < s.vectorSchedulerOccupancy + m.usesVectorScheduler.toNat
    · simp only [pipelineInt, Bind.bind, Except.bind, hlt, decide_true, if_true]
      exact upTo_ok ⟨rfl, fun d hd => by cases hd⟩
    · simp only [pipelineInt, Bind.bind, Except.bind, hlt, decide_false, if_false, Bool.false_eq_true]
      refine UpTo.bind (upTo_refl) fun b b' _ hb => ?_
      subst hb
      split
      · exact upTo_ok ⟨rfl, fun d hd => by cases hd⟩
      refine UpTo.bind (upTo_refl) fun b b' _ hb => ?_
      subst hb
      refine upTo_ok ⟨rfl, fun d hd => ?_⟩
      split at hd <;> cases hd

theorem Bare.chooseChunk (hC : Bare lines C) {c : DispatchCycle} {width : ℕ} {pending : List Id}
    (hout : isAdmitted s m = false) (hp : s.unitProgress m.id = 0) (hfit : m.dispatchWidthUnits ≤ width) :
    chooseChunk C s c m pending width = if width - c.dispatched < m.dispatchWidthUnits then none
      else some (.take pending [] m.dispatchWidthUnits) := by
  unfold Xsai.chooseChunk
  dsimp only
  rw [hout, hp, hC.planAssignment]
  by_cases hlt : width - c.dispatched < m.dispatchWidthUnits
  · rw [if_pos hlt, if_pos (by simp [hfit, hlt])]
  · rw [if_neg hlt, if_neg (by simp [hlt]), if_pos (by simpa using hlt)]

/-- The macro-op at the head of the trace, with all its uops, as the engine dispatches it. -/
def dispatchWhole (C : Config) (s : Sched) (c : DispatchCycle) (m : MacroOp) (now : ℕ) : Sched × DispatchCycle :=
  enqueue (spend (admitMacro C s c m now) m m.dispatchWidthUnits) m.uopIds [] now

theorem dispatchWhole_machine (now : ℕ) (hC : Bare lines C) (hT : WellFormed C.trace) (h : Idle lines C s)
    (hm : m ∈ C.trace.macros) (c : DispatchCycle) :
    { (dispatchWhole C s c m now).1.toMachine with
      toCore := (dispatchWhole C s c m now).1.toCore.advance } = Zen4.dispatchMacro s.toMachine m now := by
  have hplace : (fun u => if u ∈ m.uopIds then { s.placement u with partition := assigned [] u } else s.placement u) =
      s.placement := by
    funext u
    split
    · have hp := h.partition u
      generalize s.placement u = p at hp ⊢
      cases p
      simpa [assigned] using hp.symm
    · rfl
  unfold dispatchWhole enqueue spend admitMacro Zen4.dispatchMacro
  dsimp only
  rw [hplace, hC.rob m hm, hC.usesLegacy hT hm]

theorem dispatchWhole_idle (now : ℕ) (hC : Bare lines C) (hT : WellFormed C.trace) (h : Idle lines C s)
    (head : C.trace.macros[s.nextDispatch]? = some m) (room : Zen4.dispatchBlocker C.toSetup s.toMachine m = .ok none)
    (c : DispatchCycle) : Idle lines C { (dispatchWhole C s c m now).1 with
      toCore := (dispatchWhole C s c m now).1.toCore.advance } := by
  have hm := List.mem_of_getElem? head
  refine ⟨h.service, h.rename, fun u => ?_, fun k m' hk hm' => ?_, fun n hn => ?_, h.resident, fun u hu => ?_⟩
  · show (if u ∈ m.uopIds then { s.placement u with partition := assigned [] u } else s.placement u).partition = none
    split
    · rfl
    · exact h.partition u
  · have hnext : s.nextDispatch + 1 ≤ k := by
      simpa [dispatchWhole, enqueue, spend, admitMacro, Core.advance, Core.enterRob] using hk
    have hne : m'.id ≠ m.id := by
      intro he
      have := Core.index_inj hT hm' head he
      omega
    show Function.update s.unitProgress m.id (s.unitProgress m.id + m.dispatchWidthUnits) m'.id = 0
    rw [Function.update_of_ne hne]
    exact h.progress k m' (by omega) hm'
  · show s.vectorSchedulerOccupancy + (usesLegacyVectorScheduler C m).toNat ≤ n
    rw [hC.usesLegacy hT hm]
    have hold := h.scheduler n hn
    have hvector := (Zen4.dispatchBlocker_room room).vector
    cases hu : m.usesVectorScheduler with
    | true => exact hvector hu n hn
    | false => simpa using hold
  · have hold := h.latency u
    simp only [dispatchWhole, enqueue, spend, admitMacro, Core.advance, Core.dispatchAll_uop] at hu ⊢
    split at hu
    · next hin => rw [if_pos hin]; exact hold hu
    · next hin => rw [if_neg hin]; exact hold hu

theorem pendingUops_whole (hs : Zen4.Inv C.toSetup now s.toMachine) (head : C.trace.macros[s.nextDispatch]? = some m) :
    pendingUops s m = m.uopIds ∧ isAdmitted s m = false := by
  have hout : (s.macro_ m.id).dispatchTick = none := hs.whole le_rfl head
  refine ⟨List.filter_eq_self.mpr fun u hu => ?_, by simp [isAdmitted, hout]⟩
  by_contra hne
  have hsome : (s.uop u).dispatchTick.isSome := by simpa [Option.isSome_iff_ne_none] using hne
  have := hs.core.macros.owner (List.mem_of_getElem? head) u hu hsome
  rw [hout] at this
  cases this

/-- A macro-op that is dispatched is dispatched whole. -/
theorem closeTurn_whole (h : Idle lines C s) (head : C.trace.macros[s.nextDispatch]? = some m)
    (c : DispatchCycle) : closeTurn (dispatchWhole C s c m now) m =
      .ok (true, { (dispatchWhole C s c m now).1 with toCore := (dispatchWhole C s c m now).1.toCore.advance },
        (dispatchWhole C s c m now).2) := by
  have hall : ∀ u ∈ m.uopIds, ((dispatchWhole C s c m now).1.uop u).dispatchTick.isSome := by
    intro u hu
    simp [dispatchWhole, enqueue, spend, admitMacro, Core.dispatchAll_uop, hu]
  have hunits : (dispatchWhole C s c m now).1.unitProgress m.id = m.dispatchWidthUnits := by
    show Function.update s.unitProgress m.id (s.unitProgress m.id + m.dispatchWidthUnits) m.id = _
    rw [Function.update_self, h.progress _ m le_rfl head, Nat.zero_add]
  unfold closeTurn
  rw [if_pos hall, if_neg (by simpa using hunits)]

theorem stopBlocked_follows (h : Idle lines C s) (c : DispatchCycle) {reason : DispatchStall}
    (hreason : ∀ d, reason ≠ .dispatchDomainFull d) : ∃ s', stopBlocked s c m now reason = .ok (false, s', c) ∧
      Follows lines C { s.toMachine with stalls := s.stalls ++ [reason] } s' := by
  have hkept : ∀ f l, Idle lines C { s with stalls := s.stalls ++ [reason], blockerDomain := f, blocked := l } := fun _ _ =>
    ⟨h.service, h.rename, h.partition, h.progress, h.scheduler, h.resident, h.latency⟩
  cases reason with
  | dispatchDomainFull d => exact absurd rfl (hreason d)
  | _ => exact ⟨_, rfl, rfl, hkept _ _⟩

theorem dispatchTurn_eq (hC : Bare lines C) (hT : WellFormed C.trace) (hs : Zen4.Inv C.toSetup now s.toMachine)
    (h : Idle lines C s) (head : C.trace.macros[s.nextDispatch]? = some m) {c : DispatchCycle} {width : ℕ}
    (hfit : m.dispatchWidthUnits ≤ width) : dispatchTurn C width now s c m =
      if width - c.dispatched < m.dispatchWidthUnits then .ok (false, s, c)
      else admissionBlocker C s c m >>= fun b => match b with
        | some reason => stopBlocked s c m now reason
        | none => closeTurn (dispatchWhole C s c m now) m := by
  obtain ⟨hpending, hout⟩ := pendingUops_whole hs head
  have hne := hT.macroUops m (List.mem_of_getElem? head)
  unfold dispatchTurn
  dsimp only
  rw [hpending, if_neg hne, hC.chooseChunk hout (h.progress _ m le_rfl head) hfit]
  by_cases hlt : width - c.dispatched < m.dispatchWidthUnits
  · rw [if_pos hlt, if_pos hlt]
  · rw [if_neg hlt, if_neg hlt]
    have hblocker : dispatchBlocker C s c m = admissionBlocker C s c m := by
      unfold dispatchBlocker
      rw [hout]
      rfl
    have hadmit : admitOnce C s c m now = admitMacro C s c m now := by
      unfold admitOnce
      rw [hout]
      rfl
    dsimp only
    rw [hblocker, hadmit]
    refine congrArg _ (funext fun b => ?_)
    cases b <;> rfl

theorem dispatchLoop_upTo (hC : Bare lines C) (hT : WellFormed C.trace) {width : ℕ}
    (hw : C.pipeline.dispatchMacroOpsPerCycle = some width) : ∀ (fuel : ℕ) {s : Sched} (c : DispatchCycle),
    Zen4.Inv C.toSetup now s.toMachine → Idle lines C s → UpTo Refused (Follows lines C)
      (Zen4.dispatchLoop C.toSetup width now fuel c.dispatched s.toMachine) (dispatchLoop C width now fuel s c)
  | 0, s, c, _, h => upTo_ok ⟨rfl, h⟩
  | fuel + 1, s, c, hs, h => by
    unfold Zen4.dispatchLoop dispatchLoop
    cases hm : C.trace.macros[s.nextDispatch]? with
    | none => exact upTo_ok ⟨rfl, h⟩
    | some m =>
      have hmem := List.mem_of_getElem? hm
      have hfit := hC.fits m hmem width hw
      dsimp only
      by_cases hfull : width ≤ c.dispatched
      · rw [if_pos (.inl hfull), if_pos hfull]
        exact upTo_ok ⟨rfl, h⟩
      rw [if_neg hfull, dispatchTurn_eq hC hT hs h hm hfit]
      have hwidth := hC.width m hmem
      by_cases hlt : width - c.dispatched < m.dispatchWidthUnits
      · rw [if_pos hlt, if_pos (by omega)]
        exact upTo_ok ⟨rfl, h⟩
      rw [if_neg hlt, if_neg (by omega)]
      -- there is room in the cycle: the checks decide
      show UpTo Refused _ (Zen4.dispatchBlocker C.toSetup s.toMachine m >>= _) ((admissionBlocker C s c m >>= _) >>= _)
      rw [bind_assoc]
      refine (admissionBlocker_upTo hC hT h c hmem).bind fun b b' hb hsame => ?_
      obtain ⟨hbb, hdomain⟩ := hsame
      subst hbb
      cases b' with
      | some reason =>
        obtain ⟨s', hstop, hfollows⟩ := stopBlocked_follows h c fun d hd => hdomain d (congrArg some hd)
        dsimp only
        rw [hstop]
        exact upTo_ok hfollows
      | none =>
        have hmachine := dispatchWhole_machine now hC hT h hmem c
        have hidle := dispatchWhole_idle now hC hT h hm hb c
        have hspent : (dispatchWhole C s c m now).2.dispatched = c.dispatched + m.decodedMacroOps := by
          rw [← hwidth]
          rfl
        have hstep : Zen4.Inv C.toSetup now (Zen4.dispatchMacro s.toMachine m now) :=
          Zen4.inv_step hT hs (.dispatch hm hb)
        dsimp only
        rw [closeTurn_whole h hm]
        show UpTo Refused _ (Zen4.dispatchLoop C.toSetup width now fuel (c.dispatched + m.decodedMacroOps)
          (Zen4.dispatchMacro s.toMachine m now)) (dispatchLoop C width now fuel _ _)
        rw [← hmachine] at hstep ⊢
        rw [← hspent]
        exact dispatchLoop_upTo hC hT hw fuel _ hstep hidle

theorem dispatch_upTo (hC : Bare lines C) (hT : WellFormed C.trace) (hs : Zen4.Inv C.toSetup now s.toMachine)
    (h : Idle lines C s) :
    UpTo Refused (Follows lines C) (Zen4.dispatch C.toSetup now s.toMachine) (dispatch C now s) := by
  unfold Zen4.dispatch dispatch
  cases hw : C.pipeline.dispatchMacroOpsPerCycle with
  | none => exact upTo_error _
  | some width => exact dispatchLoop_upTo hC hT hw _ {} hs h

/-! ### Lanes and paths -/

/-- The order in which both engines choose: the lane that is free first, then by resource, then
by position. -/
def laneKey (free : ℕ) (resource : String) (lane : ℕ) : ℕ ×ₗ String ×ₗ ℕ := toLex (free, toLex (resource, lane))

theorem laneKey_le {t t' : ℕ} {r r' : String} {l l' : ℕ} : laneKey t r l ≤ laneKey t' r' l' ↔
    t < t' ∨ t = t' ∧ (r < r' ∨ r = r' ∧ l ≤ l') := by
  simp only [laneKey, Prod.Lex.le_iff, ofLex_toLex]

theorem choiceLe_iff {a b : ℕ × String × ℕ} :
    Zen4.choiceLe a b = true ↔ laneKey a.1 a.2.1 a.2.2 ≤ laneKey b.1 b.2.1 b.2.2 := by
  simp only [Zen4.choiceLe, laneKey_le, Bool.or_eq_true, Bool.and_eq_true, decide_eq_true_eq]

/-- A lane without a unit, as a path. -/
def lanePath (c : ℕ × String × ℕ) : Path := ⟨c.1, c.2.1, c.2.2, none, none, none⟩

theorem pathLe_iff {a b : ℕ × String × ℕ} :
    (lanePath a).le (lanePath b) = true ↔ laneKey a.1 a.2.1 a.2.2 ≤ laneKey b.1 b.2.1 b.2.2 := by
  rw [laneKey_le]
  simp only [Path.le, Bool.or_eq_true, Bool.and_eq_true, decide_eq_true_eq]
  show a.1 < b.1 ∨ a.1 = b.1 ∧ (a.2.1 < b.2.1 ∨ a.2.1 = b.2.1 ∧
    (a.2.2 < b.2.2 ∨ a.2.2 = b.2.2 ∧ ("" : String) ≤ "")) ↔ _
  simp only [le_refl, and_true, ← le_iff_lt_or_eq]

/-- The lanes of the uop's resources that are free. -/
def freeLanes (s : Sched) (x : ExecutionUop) (now : ℕ) : List (ℕ × String × ℕ) :=
  x.resourceChoices.flatMap fun r =>
    ((s.resourceFree r).zipIdx.filter fun l => l.1 ≤ now).map fun l => (l.1, r, l.2)

theorem mem_freeLanes {c : ℕ × String × ℕ} : c ∈ freeLanes s x now ↔
    c.2.1 ∈ x.resourceChoices ∧ (s.resourceFree c.2.1)[c.2.2]? = some c.1 ∧ c.1 ≤ now := by
  obtain ⟨t, r, l⟩ := c
  simp only [freeLanes, List.mem_flatMap, List.mem_map, List.mem_filter, decide_eq_true_eq, Prod.mk.injEq]
  constructor
  · rintro ⟨r', hr, ⟨t', l'⟩, ⟨hmem, hle⟩, rfl, rfl, rfl⟩
    exact ⟨hr, List.mem_zipIdx_iff_getElem?.mp hmem, hle⟩
  · rintro ⟨hr, hget, hle⟩
    exact ⟨r, hr, (t, l), ⟨List.mem_zipIdx_iff_getElem?.mpr hget, hle⟩, rfl, rfl, rfl⟩

/-- Without units and tokens every free lane is a path. -/
theorem Bare.candidates (hC : Bare lines C) (hx : x ∈ C.trace.uops) (checkCompletion checkRead : Bool) :
    executionCandidates C s x now checkCompletion checkRead = (freeLanes s x now).map lanePath := by
  have hread : readDomainFor C x none = none := by unfold readDomainFor; split <;> rfl
  have hcompletion : completionDomainFor C x none = none := by unfold completionDomainFor; split <;> rfl
  have hok : ∀ r free, pathOk C s x now checkCompletion checkRead r free none = decide (free ≤ now) := by
    intro r free
    simp [pathOk, unitFits, hread, hcompletion]
  unfold executionCandidates freeLanes unitChoices
  rw [if_pos (hC.units x hx), List.map_flatMap]
  refine List.flatMap_congr fun r _ => ?_
  rw [List.map_map]
  induction (s.resourceFree r).zipIdx with
  | nil => rfl
  | cons l ls ih =>
    rw [List.flatMap_cons, ih, List.filter_cons]
    by_cases hl : l.1 ≤ now
    · simp [hok, hl, hread, hcompletion, lanePath]
    · simp [hok, hl]

/-- Where the resource check passes, the last checks pass too. -/
theorem Bare.executionBlocker (hC : Bare lines C) (hx : x ∈ C.trace.uops)
    (h : resourceBlocker s.toMachine x now = .ok none) : executionBlocker C s x now = .ok none := by
  have hne : (freeLanes s x now).map lanePath ≠ [] := by
    obtain ⟨r, hr, t, ht, hle⟩ := resourceBlocker_none h
    unfold firstFree at ht
    split at ht
    · next hmin =>
      cases ht
      obtain ⟨l, hl, hget⟩ := List.getElem_of_mem (List.min?_mem hmin)
      have hmem : (t, r, l) ∈ freeLanes s x now :=
        mem_freeLanes.mpr ⟨hr, by rw [List.getElem?_eq_getElem hl, hget], hle⟩
      exact List.ne_nil_of_mem (List.mem_map_of_mem hmem)
    · cases ht
  unfold Xsai.executionBlocker
  simp only [hC.candidates hx]
  rw [if_neg (fun h => hne h.1), if_neg hne]

/-- **Both engines take the same lane**: the first free one of the resource that is free first. -/
theorem selectExecution_upTo (hC : Bare lines C) (hx : x ∈ C.trace.uops)
    (h : resourceBlocker s.toMachine x now = .ok none) :
    UpTo Refused (fun c p => ∃ t, p = lanePath (t, c.1, c.2)) (Zen4.selectResource s.toMachine x now)
      (selectExecution C s x now) := by
  obtain ⟨r₀, hr₀, t₀, ht₀, hle₀⟩ := resourceBlocker_none h
  unfold Zen4.selectResource
  cases hchoices : x.resourceChoices.mapM (Zen4.laneOf s.toMachine) with
  | error e =>
    -- a resource without a lane
    obtain ⟨r, -, he⟩ := mapM_error hchoices
    have hempty : e = .emptyMin "resource_free" := by
      unfold Zen4.laneOf firstFree at he
      split at he
      · cases he
      · cases he
        rfl
    exact .inl ⟨e, hempty ▸ .emptyResource, rfl⟩
  | ok choices =>
    have hall := mapM_ok.mp hchoices
    obtain ⟨c₀, hc₀, hlane₀⟩ := forall₂_left hall hr₀
    have hlane : ∀ c ∈ choices, c.2.1 ∈ x.resourceChoices ∧ (s.resourceFree c.2.1).min? = some c.1 ∧
        c.2.2 = (s.resourceFree c.2.1).idxOf c.1 := by
      intro c hc
      obtain ⟨r, hr, hl⟩ := forall₂_right hall hc
      obtain ⟨t, ht, hl⟩ := ok_bind.mp hl
      cases hl
      unfold firstFree at ht
      split at ht
      · next hmin => cases ht; exact ⟨hr, hmin, rfl⟩
      · cases ht
    simp only [Bind.bind, Except.bind]
    cases hmin : Slots.minBy? Zen4.choiceLe choices with
    | none =>
      rw [Slots.minBy?_eq_none.mp hmin] at hc₀
      cases hc₀
    | some c =>
      have hleast : ∀ b ∈ choices, laneKey c.1 c.2.1 c.2.2 ≤ laneKey b.1 b.2.1 b.2.2 :=
        @Slots.minBy?_key_le _ _ _ _ (fun c => laneKey c.1 c.2.1 c.2.2) _ _ hmin (fun _ _ => choiceLe_iff.mp) fun a b hab => by
          refine le_of_not_ge fun hle => ?_
          rw [choiceLe_iff.mpr hle] at hab
          cases hab
      obtain ⟨hr, hfirst, hindex⟩ := hlane c (Slots.minBy?_mem hmin)
      have hle : c.1 ≤ now := by
        have hc₀le := hleast c₀ hc₀
        rw [Zen4.laneOf, ht₀] at hlane₀
        cases hlane₀
        rw [laneKey_le] at hc₀le
        dsimp only at hc₀le
        omega
      have hmem : c ∈ freeLanes s x now := by
        have hlt : (s.resourceFree c.2.1).idxOf c.1 < (s.resourceFree c.2.1).length :=
          List.idxOf_lt_length_iff.mpr (List.min?_mem hfirst)
        refine mem_freeLanes.mpr ⟨hr, ?_, hle⟩
        rw [hindex, List.getElem?_eq_getElem hlt, List.getElem_idxOf]
      have hbefore : ∀ b ∈ freeLanes s x now, laneKey c.1 c.2.1 c.2.2 ≤ laneKey b.1 b.2.1 b.2.2 := by
        intro b hb
        obtain ⟨hbr, hbget, -⟩ := mem_freeLanes.mp hb
        obtain ⟨d, hd, hdl⟩ := forall₂_left hall hbr
        obtain ⟨t, ht, hdl⟩ := ok_bind.mp hdl
        cases hdl
        obtain ⟨-, hdfirst, -⟩ := hlane _ hd
        refine (hleast _ hd).trans ?_
        -- the first lane that is free at the least tick of the resource
        have hbmem := List.mem_of_getElem? hbget
        have htb : t ≤ b.1 := (List.min?_eq_some_iff.mp hdfirst).2 _ hbmem
        rw [laneKey_le]
        rcases Nat.lt_or_eq_of_le htb with hlt | rfl
        · exact .inl hlt
        · refine .inr ⟨rfl, .inr ⟨rfl, ?_⟩⟩
          by_contra hlt
          have hnot := List.not_of_lt_findIdx (Nat.not_le.mp hlt)
          obtain ⟨hlen, hget⟩ := List.getElem?_eq_some_iff.mp hbget
          rw [hget] at hnot
          simp at hnot
      dsimp only
      rw [if_neg (Nat.not_lt.mpr hle)]
      have hpath : Slots.minBy? Path.le (executionCandidates C s x now true true) = some (lanePath c) := by
        rw [hC.candidates hx]
        refine Slots.minBy?_eq (List.mem_map_of_mem hmem) (fun b hb => ?_) fun b hb hba => ?_
        · obtain ⟨d, hd, rfl⟩ := List.mem_map.mp hb
          exact pathLe_iff.mpr (hbefore d hd)
        · obtain ⟨d, hd, rfl⟩ := List.mem_map.mp hb
          have heq := le_antisymm (pathLe_iff.mp hba) (hbefore d hd)
          have : d = c := by
            simp only [laneKey, toLex_inj, Prod.mk.injEq] at heq
            exact Prod.ext heq.1 (Prod.ext heq.2.1 heq.2.2)
          rw [this]
      unfold selectExecution
      rw [hpath]
      exact upTo_ok ⟨c.1, rfl⟩

/-! ### Issue -/

theorem dependencyBlocker_tick (reason reason' : List Id → Stall) (c : Core) (x : ExecutionUop) (now : ℕ) :
    (dependencyBlocker reason c x now).map (·.2) = (dependencyBlocker reason' c x now).map (·.2) := by
  unfold dependencyBlocker
  dsimp only
  split
  · rfl
  · split <;> rfl

/-- The first checks give the same tick; only the label of a dependency differs. -/
theorem Bare.earlyBlocker_tick (hC : Bare lines C) (s : Sched) (x : ExecutionUop) (now : ℕ) :
    (earlyBlocker C s x now).map (·.2) = (Zen4.earlyBlocker C.toSetup s.toMachine x now).map (·.2) := by
  have hepoch : epochBlocker C s x now = none := by
    unfold epochBlocker
    rw [hC.epochs]
    rfl
  unfold earlyBlocker Zen4.earlyBlocker
  rw [hepoch, Option.none_or]
  simp only [Option.map_or]
  rw [dependencyBlocker_tick (dependencyReason x) fun _ => .dependency]

theorem Bare.resourceChecks (hC : Bare lines C) (hx : x ∈ C.trace.uops) :
    resourceChecks C s x now = resourceBlocker s.toMachine x now := by
  have hunit : unitBlocker C s x now = .ok none := by
    unfold unitBlocker
    rw [if_pos (hC.units x hx)]
  unfold Xsai.resourceChecks
  cases resourceBlocker s.toMachine x now with
  | error e => rfl
  | ok b =>
    cases b with
    | none => exact hunit
    | some b => rfl

theorem Bare.memoryBlocker (hC : Bare lines C) :
    memoryBlocker C s x now = Zen4.memoryBlocker C.toSetup s.toMachine x now := by
  have hvector : vectorMemoryBlocker C s x now = .ok none := by
    unfold vectorMemoryBlocker splitBlocker serviceBlocker olderWaits
    rw [hC.flowSplit, hC.serviceCapacity, hC.issueOrder]
    split <;> rfl
  unfold Xsai.memoryBlocker Zen4.memoryBlocker
  split
  · rw [hvector]
    rfl
  · rfl

theorem Bare.tokenChecks (hC : Bare lines C) (hx : x ∈ C.trace.uops)
    (h : resourceBlocker s.toMachine x now = .ok none) :
    tokenChecks C s x now = domainBlocker s.toMachine x now := by
  unfold Xsai.tokenChecks
  cases domainBlocker s.toMachine x now with
  | error e => rfl
  | ok b =>
    cases b with
    | none => exact hC.executionBlocker hx h
    | some b => rfl

/-- The memory check leaves the working set in L1. -/
theorem memoryBlocker_resident {E : Setup} {z : Machine} {r : MemoryState × Option Blocked}
    (hz : E.memory.Resident lines z.memory) (h : Zen4.memoryBlocker E z x now = .ok r) :
    E.memory.Resident lines r.1 := by
  unfold Zen4.memoryBlocker hierarchyBlocker at h
  split at h
  · obtain ⟨b, hb, h⟩ := ok_bind.mp h
    cases h
    unfold liftMemory at hb
    split at hb
    · next hb' => cases hb; exact hz.blocker hb'
    · cases hb
  · cases h
    exact hz

/-- **The checks of an issue agree** on whether the uop may issue and on the tick to look again. -/
theorem issueBlocker_upTo (hC : Bare lines C) (h : Idle lines C s) (hx : x ∈ C.trace.uops) :
    UpTo Refused (fun b b' => b'.1 = b.1 ∧ b'.2.map (·.2) = b.2.map (·.2) ∧ C.memory.Resident lines b.1)
      (Zen4.issueBlocker C.toSetup s.toMachine x now) (issueBlocker C s x now) := by
  have hearly := hC.earlyBlocker_tick s x now
  unfold Zen4.issueBlocker issueBlocker
  cases hz : Zen4.earlyBlocker C.toSetup s.toMachine x now with
  | some b =>
    rw [hz] at hearly
    obtain ⟨b', hb', -⟩ := Option.map_eq_some_iff.mp hearly
    rw [hb'] at hearly ⊢
    exact upTo_ok ⟨rfl, hearly, h.resident⟩
  | none =>
    rw [hz, Option.map_none, Option.map_eq_none_iff] at hearly
    rw [hearly, hC.resourceChecks hx]
    dsimp only
    refine upTo_refl.bind fun b b' hb hbb => ?_
    subst hbb
    cases b' with
    | some b => exact upTo_ok ⟨rfl, rfl, h.resident⟩
    | none =>
      rw [hC.memoryBlocker]
      refine upTo_refl.bind fun r r' hr hrr => ?_
      subst hrr
      have hresident := memoryBlocker_resident h.resident hr
      obtain ⟨memory, b⟩ := r'
      cases b with
      | some b => exact upTo_ok ⟨rfl, rfl, hresident⟩
      | none =>
        rw [hC.tokenChecks hx hb]
        dsimp only
        refine upTo_refl.bind fun b b' _ hbb => ?_
        subst hbb
        exact upTo_ok ⟨rfl, rfl, hresident⟩

/-- An access takes as long in one engine as in the other: no load of the trace is slower by its
recipe than by the level that serves it. -/
theorem accessMemory_upTo (hC : Bare lines C) (hT : WellFormed C.trace) (h : Idle lines C s)
    (hx : x ∈ C.trace.uops) (hwaiting : (s.uop x.id).issueTick = none) :
    UpTo Refused (fun a a' => a' = a ∧ C.memory.Resident lines a.1)
      (Zen4.accessMemory C.toSetup s.toMachine x now) (accessMemory C s x now) := by
  unfold Zen4.accessMemory accessMemory
  split
  · next hk =>
    have hload : x.kind = .loadData := by
      have hstore := hC.stores x hx
      revert hk hstore
      cases x.kind <;> simp [Kind.isMemory]
    have hticks : (s.uop x.id).latencyTicks = x.latencyTicks := by
      rw [h.latency x.id hwaiting, hT.uop?_eq hx]
      rfl
    cases haccess : C.memory.access s.memory x.memory now with
    | error e => exact upTo_error _
    | ok r =>
      cases hmemory : x.memory with
      | none =>
        rw [hmemory] at haccess
        obtain ⟨_, _, he, -⟩ := MemoryConfig.access_ok haccess
        cases he
      | some a =>
        rw [hmemory] at haccess
        obtain ⟨hresident, hlatency⟩ := h.resident.access (hC.inside x hx a hmemory) haccess
        have hle : x.latencyTicks ≤ r.2.latencyTicks := hC.latency x hx hload a hmemory _ hlatency
        have hmax : accessLatency C s x r.2.latencyTicks = r.2.latencyTicks := by
          unfold accessLatency
          rw [hticks, max_eq_right hle, hload]
          simp
        refine upTo_ok ⟨?_, hresident⟩
        rw [hmax, if_pos hload]
  · exact upTo_ok ⟨rfl, h.resident⟩

/-- A vector uop without partitions is counted in the scheduler of both engines. -/
theorem Bare.vectorIssue (hC : Bare lines C) (hT : WellFormed C.trace) (hx : x ∈ C.trace.uops) (other : Bool) :
    (x.kind.isVectorResource && parentUsesLegacy C x && other) = (x.kind.isVectorResource && other) := by
  cases hv : x.kind.isVectorResource with
  | false => rfl
  | true =>
    obtain ⟨m, hm, hparent, -, hu⟩ := hT.mem_parent hx
    have huses : m.usesVectorScheduler = true := by
      rw [hC.vector m hm, BoundTrace.hasKind, List.any_eq_true]
      exact ⟨x.id, hu, by simp [hT.uop?_eq hx, hv]⟩
    have hlegacy : parentUsesLegacy C x = true := by
      unfold parentUsesLegacy
      rw [hparent]
      exact (hC.usesLegacy hT hm).trans huses
    rw [hlegacy]
    rfl

/-- What a uop reserves where no policy has a say. -/
def bareReserved (s : Sched) (t : ℕ) (c : String × ℕ) (a : MemoryState × Option ℕ × ℕ) (free : String → List ℕ) :
    Reserved :=
  ⟨lanePath (t, c.1, c.2), a.1, a.2.1, a.2.2, s.partitionOccupancy, free, s.readReservations⟩

theorem issued_machine (hC : Bare lines C) (hT : WellFormed C.trace) (h : Idle lines C s) (hx : x ∈ C.trace.uops)
    (t : ℕ) (c : String × ℕ) (a : MemoryState × Option ℕ × ℕ) (free : String → List ℕ) :
    (issued C s x now (bareReserved s t c a free)).toMachine = Zen4.issued C.toSetup s.toMachine x now c a free := by
  have hplace : ({ s.placement x.id with
      resource := some c.1, lane := c.2, unit := none, readDomain := none, completionDomain := none,
      memoryLevel := a.2.1 } : Placement) = { resource := some c.1, lane := c.2, memoryLevel := a.2.1 } := by
    dsimp only
    rw [h.partition x.id]
  unfold issued Zen4.issued bareReserved reserveCompletion lanePath
  dsimp only
  rw [Nat.add_sub_cancel_left, hC.vectorIssue hT hx, hplace]

theorem issued_idle (hC : Bare lines C) (h : Idle lines C s) (t : ℕ) (c : String × ℕ)
    {a : MemoryState × Option ℕ × ℕ} (ha : C.memory.Resident lines a.1) (free : String → List ℕ) :
    Idle lines C (issued C s x now (bareReserved s t c a free)) := by
  refine ⟨?_, h.rename, fun u => ?_, h.progress, fun n hn => ?_, ha, fun u hu => ?_⟩
  · show pushService C s x now = []
    unfold pushService serviceTicks
    rw [hC.serviceTicks]
    exact h.service
  · show (Function.update s.placement x.id _ u).partition = none
    by_cases hu : u = x.id
    · subst hu
      rw [Function.update_self]
      exact h.partition x.id
    · rw [Function.update_of_ne hu]
      exact h.partition u
  · have hold := h.scheduler n hn
    show s.vectorSchedulerOccupancy - _ ≤ (n : ℤ)
    omega
  · have hold := h.latency u
    simp only [issued, Core.issue_uop] at hu ⊢
    split at hu
    · cases hu
    · next hne => rw [if_neg hne]; exact hold hu

theorem issueUop_upTo (hC : Bare lines C) (hT : WellFormed C.trace) (h : Idle lines C s)
    (hx : x ∈ C.trace.uops) (hwaiting : (s.uop x.id).issueTick = none)
    (hfree : resourceBlocker s.toMachine x now = .ok none) :
    UpTo Refused (Follows lines C) (Zen4.issueUop C.toSetup s.toMachine x now) (issueUop C s x now) := by
  unfold Zen4.issueUop issueUop reserve
  show UpTo Refused _ (Zen4.selectResource s.toMachine x now >>= _) ((selectExecution C s x now >>= _) >>= _)
  rw [bind_assoc]
  refine (selectExecution_upTo hC hx hfree).bind fun c p _ hp => ?_
  obtain ⟨t, rfl⟩ := hp
  rw [bind_assoc]
  refine (accessMemory_upTo hC hT h hx hwaiting).bind fun a a' _ ha => ?_
  obtain ⟨haa, hresident⟩ := ha
  subst haa
  have hleave : leavePartition s x = .ok s.partitionOccupancy := by
    unfold leavePartition
    rw [h.partition x.id]
  rw [hleave]
  show UpTo Refused _ (reserveIssueDomains x now x.issueDomains s.issueDomainFree >>= _)
    ((reserveIssueDomains x now x.issueDomains s.issueDomainFree >>= _) >>= _)
  rw [bind_assoc]
  refine upTo_refl.bind fun free free' _ hff => ?_
  subst hff
  exact upTo_ok ⟨issued_machine hC hT h hx t c a' free', issued_idle hC h t c hresident free'⟩

theorem Idle.poll (h : Idle lines C s) {memory : MemoryState} (hm : C.memory.Resident lines memory) :
    Idle lines C { s with memory := memory } :=
  ⟨h.service, h.rename, h.partition, h.progress, h.scheduler, hm, h.latency⟩

/-- The engines are in step, and the bookkeeping is in order. -/
structure InStep (lines : List ℤ) (C : Config) (now : ℕ) (z : Machine) (s : Sched) : Prop extends
    Follows lines C z s where
  inv : Zen4.Inv C.toSetup now z

theorem Follows.inStep {z z' : Machine} {s s' : Sched} (hT : WellFormed C.trace) (h : InStep lines C now z s)
    (hsteps : Zen4.Steps C.toSetup now z z') (hf : Follows lines C z' s') : InStep lines C now z' s' :=
  ⟨hf, hsteps.invariant h.inv fun _ _ => Zen4.inv_step hT⟩

theorem issueList_upTo (hC : Bare lines C) (hT : WellFormed C.trace) : ∀ (xs : List ExecutionUop) {s : Sched},
    Candidates C.toSetup s.toCore xs → Zen4.Inv C.toSetup now s.toMachine → Idle lines C s →
    UpTo Refused (fun r r' => r'.1 = r.1 ∧ Follows lines C r.2 r'.2)
      (Zen4.issueList C.toSetup now xs s.toMachine) (issueList C now xs s)
  | [], _, _, _, h => upTo_ok ⟨rfl, rfl, h⟩
  | x :: xs, s, hc, hs, h => by
    have hx := hc.head.1
    have hwaiting := ((hs.core.uops.waiting x.id).mp hc.head.2.1).2
    unfold Zen4.issueList issueList
    refine (issueBlocker_upTo hC h hx).bind fun b b' hb hsame => ?_
    obtain ⟨memory, b⟩ := b
    obtain ⟨memory', b'⟩ := b'
    obtain ⟨hmem, htick, hresident⟩ := hsame
    dsimp only at hmem htick hresident
    subst hmem
    have hpoll : Zen4.Step C.toSetup now s.toMachine { s.toMachine with memory := memory' } := .poll memory'
    cases b with
    | some b =>
      rw [Option.map_some] at htick
      obtain ⟨b', rfl, -⟩ := Option.map_eq_some_iff.mp htick
      dsimp only
      split
      · exact upTo_ok ⟨rfl, rfl, h.poll hresident⟩
      · exact issueList_upTo hC hT xs (s := { s with memory := memory' }) hc.tail (Zen4.inv_step hT hs hpoll)
          (h.poll hresident)
    | none =>
      rw [Option.map_none, Option.map_eq_none_iff] at htick
      subst htick
      obtain ⟨hearly, hfree, -, hdomains⟩ := Zen4.issueBlocker_none hb
      have hchecks := Zen4.earlyBlocker_none hearly
      dsimp only
      refine (issueUop_upTo hC hT (h.poll hresident) hx hwaiting
        ((resourceBlocker_memory s.toMachine memory' x).trans hfree)).bind fun z₁ s₁ hz₁ hf => ?_
      obtain ⟨rfl, hidle⟩ := hf
      obtain ⟨p, a, free, hp, ha, hfree', he⟩ := Zen4.issueUop_ok hz₁
      have hissue : Zen4.Step C.toSetup now { s.toMachine with memory := memory' } s₁.toMachine :=
        he ▸ .issue (hc.issuable hchecks.1 hchecks.2.1) hearly hp ha (domainBlocker_demand hdomains) hfree'
      have hrest : Candidates C.toSetup s₁.toCore xs := by
        have hcore : s₁.toCore = s.toCore.issue x now a.2.2 C.inOrder := congrArg Machine.toCore he
        rw [hcore]
        exact hc.issue a.2.2
      refine (issueList_upTo hC hT xs hrest (Zen4.inv_step hT (Zen4.inv_step hT hs hpoll) hissue) hidle).bind
        fun r r' _ hr => ?_
      exact upTo_ok ⟨rfl, hr.2⟩

theorem issueFixedPoint_upTo (hC : Bare lines C) (hT : WellFormed C.trace) {z : Machine}
    (h : InStep lines C now z s) :
    UpTo Refused (InStep lines C now) (Zen4.issueFixedPoint C.toSetup now z) (issueFixedPoint C now s) := by
  have hmachine := h.machine
  subst hmachine
  unfold Zen4.issueFixedPoint issueFixedPoint
  refine FixedPoint.run_upTo (fun z s hzs => ?_) (fun z s hzs => ?_) _ h
  · have hmachine := hzs.machine
    subst hmachine
    obtain ⟨heq, hidle⟩ := complete_follows now hzs.idle
    have hsteps : Zen4.Steps C.toSetup now s.toMachine _ := Zen4.complete_steps s.toMachine
    rw [heq] at hsteps ⊢
    exact ⟨rfl, Follows.inStep hT hzs hsteps ⟨rfl, hidle⟩⟩
  · have hmachine := hzs.machine
    subst hmachine
    refine (issueList_upTo hC hT _ (candidates_issueCandidates hT _) hzs.inv hzs.idle).imp fun r r' hr hf => ?_
    exact ⟨hf.1, Follows.inStep hT hzs (Zen4.issueOnce_steps hT hr) hf.2⟩

/-! ### Retirement and the event loop -/

theorem retireLoop_follows (hC : Bare lines C) {width : ℕ} : ∀ (fuel retired : ℕ) {s : Sched}, Idle lines C s →
    Follows lines C (Zen4.retireLoop C.toSetup width now fuel retired s.toMachine)
      (retireLoop C width now fuel retired s)
  | 0, _, _, h => ⟨rfl, h⟩
  | fuel + 1, retired, s, h => by
    unfold Zen4.retireLoop retireLoop
    cases hm : s.rob.head?.bind C.trace.macro? with
    | none => exact ⟨rfl, h⟩
    | some m =>
      dsimp only
      split
      · obtain ⟨id, -, hid⟩ := Option.bind_eq_some_iff.mp hm
        have hmem := (C.trace.macro?_mem hid).1
        have hmachine : (retireMacro C s m now).toMachine = Zen4.retireMacro s.toMachine m now := by
          unfold retireMacro Zen4.retireMacro
          rw [hC.rob m hmem]
        have hidle : Idle lines C (retireMacro C s m now) := by
          refine ⟨h.service, ?_, h.partition, h.progress, h.scheduler, h.resident, h.latency⟩
          show pushRelease C s m now = []
          unfold pushRelease
          rw [hC.rename]
          exact h.rename
        rw [← hmachine]
        exact retireLoop_follows hC fuel _ hidle
      · exact ⟨rfl, h⟩

theorem retire_upTo (now : ℕ) (hC : Bare lines C) (h : Idle lines C s) :
    UpTo Refused (Follows lines C) (Zen4.retire C.toSetup now s.toMachine) (retire C now s) := by
  unfold Zen4.retire retire
  refine upTo_refl.bind fun width width' _ hw => ?_
  subst hw
  exact upTo_ok (retireLoop_follows hC _ 0 h)

/-- A visit of one event loop does what a visit of the other does. -/
theorem visit_upTo (hC : Bare lines C) (hT : WellFormed C.trace) {z : Machine} (h : InStep lines C now z s) :
    UpTo Refused (InStep lines C now) (visitOf (Zen4.phases C.toSetup now) z) (visitOf (phases C now) s) := by
  have hcomplete : ∀ {z : Machine} {s : Sched}, InStep lines C now z s →
      InStep lines C now (Zen4.complete C.toSetup now z).2 (complete C now s).2 := by
    intro z s h
    have hmachine := h.machine
    subst hmachine
    obtain ⟨heq, hidle⟩ := complete_follows now h.idle
    refine Follows.inStep hT h (Zen4.complete_steps s.toMachine) ⟨?_, hidle⟩
    rw [heq]
  have hfirst := hcomplete h
  have hrelease : releaseRename C now (releaseFlows C now (complete C now s).2) = (complete C now s).2 := by
    rw [releaseFlows_idle hfirst.idle, releaseRename_bare hC]
  have hboundary : ∀ {z : Machine} {s : Sched} {f : Machine → Except SimError Machine}
      {g : Sched → Except SimError Sched}, InStep lines C now z s →
      (∀ z', f z = .ok z' → Zen4.Steps C.toSetup now z z') → UpTo Refused (Follows lines C) (f z) (g s) →
      UpTo Refused (InStep lines C now) (if C.boundary now then f z else .ok z)
        (if C.boundary now then g s else .ok s) := by
    intro z s f g h hsteps hf
    split
    · exact hf.imp fun z' s' hz' hs' => Follows.inStep hT h (hsteps z' hz') hs'
    · exact upTo_ok h
  show UpTo Refused _
    ((if C.boundary now then Zen4.dispatch C.toSetup now (Zen4.complete C.toSetup now z).2 else _) >>= _)
    ((if C.boundary now then dispatch C now (releaseRename C now (releaseFlows C now (complete C now s).2)) else _) >>= _)
  rw [hrelease]
  have hdispatch := hfirst.machine ▸ dispatch_upTo hC hT (hfirst.machine ▸ hfirst.inv) hfirst.idle
  refine (hboundary hfirst (fun _ => Zen4.dispatch_steps) hdispatch).bind fun z₁ s₁ _ h₁ => ?_
  refine (issueFixedPoint_upTo hC hT h₁).bind fun z₂ s₂ _ h₂ => ?_
  have hlast := hcomplete h₂
  have hretire := hlast.machine ▸ retire_upTo now hC hlast.idle
  show UpTo Refused _ ((if C.boundary now then Zen4.retire C.toSetup now (Zen4.complete C.toSetup now z₂).2 else _) >>= _)
    ((if C.boundary now then retire C now (complete C now s₂).2 else _) >>= _)
  exact (hboundary hlast (fun _ => Zen4.retire_steps) hretire).bind fun z₃ s₃ _ h₃ => upTo_ok h₃

/-- Both loops go on to the same tick. -/
theorem nextEventTick_upTo (hC : Bare lines C) (hT : WellFormed C.trace) (h : Idle lines C s) :
    UpTo Refused (fun r r' => r'.2 = r.2 ∧ Follows lines C r.1 r'.1)
      (Zen4.nextEventTick C.toSetup now s.toMachine) (nextEventTick C now s) := by
  have hmem : ∀ x ∈ C.issueCandidates s.toCore, x ∈ C.trace.uops := fun x hx =>
    ((candidates_issueCandidates hT s.toCore).mem x hx).1
  have hpoll : UpTo Refused (fun r r' => r' = r ∧ C.memory.Resident lines r.1)
      ((C.issueCandidates s.toCore).foldlM (Zen4.pollWaiting C.toSetup now s.toMachine) (s.memory, []))
      ((C.issueCandidates s.toCore).foldlM (pollWaiting C now s) (s.memory, [])) := by
    refine upTo_foldlM ⟨rfl, h.resident⟩ fun x hx r r' hr => ?_
    obtain ⟨hrr, hresident⟩ := hr
    subst hrr
    unfold Zen4.pollWaiting pollWaiting
    refine (issueBlocker_upTo hC (h.poll hresident) (hmem x hx)).bind fun b b' _ hb => ?_
    obtain ⟨hmemory, htick, hb⟩ := hb
    have hearliest : b'.2.bind (·.2) = b.2.bind (·.2) := by
      have := congrArg (fun o : Option (Option ℕ) => o.bind id) htick
      simpa [Option.bind_map] using this
    rw [hearliest]
    refine upTo_refl.bind fun ticks ticks' _ ht => ?_
    subst ht
    exact upTo_ok ⟨Prod.ext hmemory rfl, hb⟩
  have hscheduled : scheduledTicks C now s = Zen4.scheduledTicks C.toSetup now s.toMachine := by
    unfold scheduledTicks Zen4.scheduledTicks releaseEvent
    rw [h.service, h.rename]
    simp
  unfold Zen4.nextEventTick nextEventTick
  refine hpoll.bind fun r r' _ hr => ?_
  obtain ⟨hrr, hresident⟩ := hr
  subst hrr
  rw [hscheduled]
  cases (Zen4.scheduledTicks C.toSetup now s.toMachine ++ r'.2).min? with
  | none => exact upTo_error _
  | some t => exact upTo_ok ⟨rfl, rfl, h.poll hresident⟩

/-- **The two engines run in step.** -/
theorem run_upTo (hC : Bare lines C) (hT : WellFormed C.trace) (h : Idle lines C (schedInit C)) :
    UpTo Refused (fun r r' => r'.2 = r.2 ∧ InStep lines C r.2 r.1 r'.1) (Zen4.run C.toSetup) (run C) := by
  have hinit : InStep lines C 0 C.machineInit (schedInit C) := ⟨⟨rfl, h⟩, Zen4.inv_init⟩
  unfold Zen4.run run
  refine EventLoop.run_upTo hinit (fun t z s h => ?_) (fun _ t z s _ _ _ h => visit_upTo hC hT h)
    (fun _ t z₀ z s _ _ _ h => ?_) rfl rfl
  · have hmachine := h.machine
    subst hmachine
    rfl
  · have hmachine := h.machine
    subst hmachine
    refine (nextEventTick_upTo hC hT h.idle).imp fun r r' hr hf => ⟨hf.1, fun hlt => ?_⟩
    obtain ⟨memory, hmemory⟩ := Zen4.nextEventTick_ok hr
    refine ⟨hf.2, ?_⟩
    rw [hmemory]
    exact (Zen4.inv_step hT h.inv (.poll memory)).later hlt.le

end Xsai
end VectorSim
