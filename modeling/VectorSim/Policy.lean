/-
# What an engine reads of a profile

The parts of `src/simulator/profile.py` that the engines use: the pipeline,
the issue domains, the memory hierarchy and the `backend` section, with the
properties (`rename_policy`, `vector_memory_policy`,
`xsai_vector_epoch_policy`) that turn its values into integers and ticks. A
value that is still `"measure"` is `none`. `positive_integer` of the schema is
`ℕ+`, so that a capacity of zero cannot be written down.
-/
import VectorSim.Memory
import Mathlib.Data.PNat.Basic

namespace VectorSim

open Checked

/-- `ProfileError`, with the path of the parameter or the object it is about. -/
inductive ProfileError
  /-- "profile parameter remains 'measure' for this trace" -/
  | measure (path : String)
  /-- "cycles cannot be represented in integer ticks" -/
  | ticks (cycles : ℚ)
  /-- every other refusal, by what it says -/
  | invalid (message : String)
  deriving DecidableEq, Repr

/-- A literal from 1 on is positive. -/
instance positiveLiteral (n : ℕ) : OfNat ℕ+ (n + 1) := ⟨n.succPNat⟩

/-- `positive_integer_or_measure`. -/
abbrev PositiveParam := Option ℕ+

/-- `number_or_measure`. -/
abbrev CycleParam := Option ℚ

/-- `_parameter_int`. -/
def parameterInt (value : PositiveParam) (path : String) : Except ProfileError ℕ+ :=
  match value with
  | some n => .ok n
  | none => .error (.measure path)

/-- `Profile.ticks`. -/
def ticks (ticksPerCycle : ℕ) (cycles : ℚ) : Except ProfileError ℕ :=
  if (cycles * ticksPerCycle).den = 1 then .ok (cycles * ticksPerCycle).num.toNat
  else .error (.ticks cycles)

/-- `_parameter_ticks`. -/
def parameterTicks (ticksPerCycle : ℕ) (value : CycleParam) (path : String) :
    Except ProfileError ℕ :=
  match value with
  | some c => ticks ticksPerCycle c
  | none => .error (.measure path)

/-! ### Pipeline and topology -/

/-- `profile.pipeline`, after `int`. -/
structure Pipeline where
  dispatchMacroOpsPerCycle : Option ℕ
  retireMacroOpsPerCycle : Option ℕ
  robEntries : Option ℕ
  vectorSchedulerEntries : Option ℕ
  loadQueueEntries : Option ℕ
  storeQueueEntries : Option ℕ
  deriving DecidableEq, Repr

/-- `memory_compute_overlap_limit`. -/
structure OverlapLimit where
  enabled : Bool := false
  maxPendingGroups : ℕ := 1
  computeKinds : List SemanticKind := []
  deriving DecidableEq, Repr

inductive PartitionKind
  | scalar | vectorCompute | vectorMemory | matrix
  deriving DecidableEq, Repr

/-- An entry of `scheduler_partitions`. -/
structure Partition where
  id : String
  kind : PartitionKind
  entries : PositiveParam
  enqueueWidth : PositiveParam
  deriving DecidableEq, Repr

/-- An entry of `execution_units`. -/
structure ExecutionUnit where
  schedulerPartition : String
  functionalUnits : List String
  vectorReadDomain : Option String := none
  vectorWritebackDomain : Option String := none
  deriving DecidableEq, Repr

/-- `read_domains` and `writeback_domains` of a register file, with the
arbitration capacity of each. -/
structure RegisterFile where
  readDomains : List (String × PositiveParam) := []
  writebackDomains : List (String × PositiveParam) := []
  deriving DecidableEq, Repr

/-! ### Rename -/

/-- `backend.rename`. -/
structure RenameBackend where
  enabled : Bool := false
  freeLists : List (String × PositiveParam) := []
  allocationWidth : PositiveParam := none
  releaseWidth : PositiveParam := none
  releaseDelayCycles : CycleParam := none
  availabilityDelayCycles : CycleParam := none
  guardEntries : Option ℕ := none
  deriving DecidableEq, Repr

/-- `rename_policy`. The two values of `policy` are treated alike by the engine. -/
structure RenamePolicy where
  enabled : Bool := false
  freeLists : List (String × ℕ) := []
  allocationWidth : ℕ := 0
  releaseWidth : ℕ := 0
  releaseDelayTicks : ℕ := 0
  availabilityDelayTicks : ℕ := 0
  guardEntries : ℕ := 0
  deriving DecidableEq, Repr

/-- `Profile.rename_policy`. -/
def RenameBackend.policy (r : RenameBackend) (tpc : ℕ) : Except ProfileError RenamePolicy :=
  if r.enabled then do
    let freeLists ← r.freeLists.mapM fun e => do
      let n ← parameterInt e.2 s!"backend.rename.free_lists.{e.1}.free_entries"
      return (e.1, (n : ℕ))
    let allocationWidth ← parameterInt r.allocationWidth "backend.rename.allocation_width"
    let releaseWidth ← parameterInt r.releaseWidth "backend.rename.release_width"
    let releaseDelayTicks ← parameterTicks tpc r.releaseDelayCycles "backend.rename.release_delay_cycles"
    let availabilityDelayTicks ←
      parameterTicks tpc r.availabilityDelayCycles "backend.rename.availability_delay_cycles"
    match r.guardEntries with
    | none => .error (.measure "backend.rename.guard_entries")
    | some guardEntries =>
      return { enabled := true, freeLists := freeLists, allocationWidth := allocationWidth,
               releaseWidth := releaseWidth, releaseDelayTicks := releaseDelayTicks,
               availabilityDelayTicks := availabilityDelayTicks, guardEntries := guardEntries }
  else .ok {}

/-! ### Vector memory -/

inductive IssueOrder
  | any | oldest | oldestSameKind
  deriving DecidableEq, Repr

/-- `backend.vector_memory`: the fields the policy reads. -/
structure VectorMemoryBackend where
  issueOrder : IssueOrder := .any
  loadPipelines : PositiveParam := some 1
  storePipelines : PositiveParam := some 1
  maxUnitStrideFlows : PositiveParam := some 1
  /-- `service_capacity`, where configured. -/
  serviceCapacity : List (AccessKind × PositiveParam) := []
  storeCompletionCycles : CycleParam := some 0
  /-- `service_cycles`, where configured. -/
  serviceCycles : Option (List (AccessKind × CycleParam)) := none
  /-- `boundary_bytes` and `issue_cycles_per_flow`, which come together. -/
  flowSplit : Option (PositiveParam × CycleParam) := none
  deriving DecidableEq, Repr

structure FlowSplit where
  boundaryBytes : ℕ+
  maxFlowsPerAccess : ℕ+
  issueTicksPerFlow : ℕ
  deriving DecidableEq, Repr

/-- `vector_memory_policy`. -/
structure VectorMemoryPolicy where
  issueOrder : IssueOrder := .any
  storeCompletionTicks : ℕ := 0
  splitLanes : AccessKind → ℕ+ := fun _ => 1
  serviceCapacity : List (AccessKind × ℕ+) := []
  serviceTicks : Option (List (AccessKind × ℕ)) := none
  flowSplit : Option FlowSplit := none

/-- `Profile.vector_memory_policy`. -/
def VectorMemoryBackend.policy (v : VectorMemoryBackend) (tpc : ℕ) :
    Except ProfileError VectorMemoryPolicy := do
  let completion ←
    parameterTicks tpc v.storeCompletionCycles "backend.vector_memory.store_completion_cycles"
  let loads ← parameterInt v.loadPipelines "backend.vector_memory.load_pipelines"
  let stores ← parameterInt v.storePipelines "backend.vector_memory.store_pipelines"
  let capacity ← v.serviceCapacity.mapM fun e => do
    let n ← parameterInt e.2 "backend.vector_memory.service_capacity"
    return (e.1, n)
  let service ← match v.serviceCycles with
    | none => pure none
    | some entries => do
      let entries ← entries.mapM fun e => do
        let n ← parameterTicks tpc e.2 "backend.vector_memory.service_cycles"
        return (e.1, n)
      pure (some entries)
  let split ← match v.flowSplit with
    | none => pure none
    | some (boundary, cycles) => do
      let boundary ← parameterInt boundary "backend.vector_memory.boundary_bytes"
      let flows ← parameterInt v.maxUnitStrideFlows "backend.vector_memory.max_unit_stride_flows"
      let perFlow ← parameterTicks tpc cycles "backend.vector_memory.issue_cycles_per_flow"
      pure (some ⟨boundary, flows, perFlow⟩)
  return { issueOrder := v.issueOrder, storeCompletionTicks := completion,
           splitLanes := fun | .load => loads | .store => stores,
           serviceCapacity := capacity, serviceTicks := service, flowSplit := split }

/-! ### Vector epochs -/

/-- `backend.xsai_rvv.vector_epochs`. -/
structure EpochBackend where
  enabled : Bool
  loadOnlyVisibilityCycles : CycleParam
  multiLoadDrainCycles : CycleParam
  chainedComputeDrainCycles : CycleParam
  parallelReductionOverlapCycles : CycleParam
  mixedStoreReductionCapacity : PositiveParam
  deriving DecidableEq, Repr

/-- `xsai_vector_epoch_policy`. -/
structure EpochPolicy where
  enabled : Bool := false
  loadOnlyVisibilityTicks : ℕ := 0
  multiLoadDrainTicks : ℕ := 0
  chainedComputeDrainTicks : ℕ := 0
  parallelReductionOverlapTicks : ℕ := 0
  mixedStoreReductionCapacity : ℕ+ := 1
  deriving DecidableEq, Repr

/-- `Profile.xsai_vector_epoch_policy`. -/
def epochPolicy (e : Option EpochBackend) (tpc : ℕ) : Except ProfileError EpochPolicy :=
  match e with
  | none => .ok {}
  | some e => do
    let path := "backend.xsai_rvv.vector_epochs."
    let visibility ← parameterTicks tpc e.loadOnlyVisibilityCycles (path ++ "load_only_visibility_cycles")
    let multi ← parameterTicks tpc e.multiLoadDrainCycles (path ++ "multi_load_drain_cycles")
    let chained ← parameterTicks tpc e.chainedComputeDrainCycles (path ++ "chained_compute_drain_cycles")
    let overlap ←
      parameterTicks tpc e.parallelReductionOverlapCycles (path ++ "parallel_reduction_overlap_cycles")
    let capacity ← parameterInt e.mixedStoreReductionCapacity (path ++ "mixed_store_reduction_capacity")
    return { enabled := e.enabled, loadOnlyVisibilityTicks := visibility, multiLoadDrainTicks := multi,
             chainedComputeDrainTicks := chained, parallelReductionOverlapTicks := overlap,
             mixedStoreReductionCapacity := capacity }

/-- What the engines read of a profile. -/
structure EngineProfile where
  id : String
  ticksPerCycle : ℕ
  ticksPerCycle_pos : 0 < ticksPerCycle := by first | exact Nat.one_pos | decide
  pipeline : Pipeline
  issueDomains : List (String × PositiveParam) := []
  overlap : OverlapLimit := {}
  memory : MemoryConfig
  partitions : List Partition := []
  units : List (String × ExecutionUnit) := []
  registerFiles : List RegisterFile := []
  dispatchDomains : List (String × PositiveParam) := []
  rename : RenameBackend := {}
  vectorMemory : VectorMemoryBackend := {}
  epochs : Option EpochBackend := none
  /-- `backend.vector_decomposition.register_width_bits`. -/
  registerWidthBits : PositiveParam := none

end VectorSim
