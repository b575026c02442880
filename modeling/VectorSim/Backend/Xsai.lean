/-
# The XSAI engine: its state and its checks

`src/backend/xsai.py`, `XsaiRvvEngine`. On top of what the engines share it
has scheduler partitions, exclusive execution units, read and completion
tokens for each architectural cycle, rename free lists, vector memory service
flows and vector epochs. `GenericTokenEngine` is the same engine without the
uop expansion.
-/
import VectorSim.Backend.Machine
import VectorSim.Backend.Expander

namespace VectorSim
namespace Xsai

open Checked Setup

/-- What the constructor fixes for a run. -/
structure Config extends Setup where
  partitions : List Partition
  units : List (String × ExecutionUnit)
  readCapacity : List (String × ℕ+)
  completionCapacity : List (String × ℕ+)
  dispatchDomainCapacity : List (String × ℕ+)
  rename : RenamePolicy
  vectorMemory : VectorMemoryPolicy
  epochs : EpochPolicy

/-- An entry of `rename_pending_releases`. -/
structure Release where
  tick : ℕ
  sequence : ℕ
  allocations : List (String × ℕ)
  deriving DecidableEq, Repr

/-- The order of the pending releases. The sequence numbers of macro-ops are distinct. -/
def Release.key (r : Release) : ℕ × ℕ × ℕ := (r.tick, r.sequence, 0)

/-- The mutable state of the engine. -/
structure Sched extends Machine where
  partitionOccupancy : String → ℤ
  executionUnitFree : String → ℕ
  /-- The cycles of the read tokens given out, with multiplicity. -/
  readReservations : String → List ℕ
  completionReservations : String → List ℕ
  renameFree : String → ℤ
  renamePending : List Release
  inflight : AccessKind → List Id
  serviceHeap : List HeapEntry
  splitIssueFree : AccessKind → List ℕ
  mixedActive : List Id
  unitProgress : Id → ℕ
  /-- `macro.dispatch_blocker_domain` -/
  blockerDomain : Id → Option String
  /-- The events of `events` that are of the type `dispatch_blocked`, in their order. -/
  blocked : List BlockedEvent

/-! ### The constructor -/

/-- A domain with its capacity, or the error of a domain listed twice. -/
def domainCapacities (kind : String) (entries : List (String × PositiveParam)) :
    Except SimError (List (String × ℕ+)) := do
  check (entries.map (·.1)).Nodup (.setup s!"duplicate {kind} domain in backend")
  liftProfile (entries.mapM fun e => do
    let n ← parameterInt e.2 "arbitration_capacity"
    return (e.1, n))

/-- `_validate_topology_choices`, for one uop. -/
def validateTopology (C : Config) (x : ExecutionUop) : Except SimError Unit := do
  check (x.schedulerPartitionChoices ⊆ C.partitions.map (·.id))
    (.setup "uop references unknown scheduler partitions")
  check (x.executionUnitChoices ⊆ C.units.map (·.1)) (.setup "uop references unknown execution units")
  let derived := x.executionUnitChoices.filterMap fun u => (C.units.lookup u).map (·.schedulerPartition)
  check (x.schedulerPartitionChoices ⊆ derived ∧ derived ⊆ x.schedulerPartitionChoices)
    (.setup "uop scheduler choices do not match its execution units")
  x.executionUnitChoices.forM fun u =>
    match C.units.lookup u with
    | none => .ok ()
    | some unit => do
      check (∃ r ∈ x.resourceChoices, r ∈ unit.functionalUnits)
        (.setup "uop has no functional resource on unit")
      check (x.requiresCompletionToken = true →
          ∃ d ∈ unit.vectorWritebackDomain, d ∈ C.completionCapacity.map (·.1))
        (.setup "uop requires missing completion domain")
      check (x.requiresVectorReadToken = true →
          ∃ d ∈ unit.vectorReadDomain, d ∈ C.readCapacity.map (·.1))
        (.setup "uop requires missing vector read domain")

/-- The trace the engine schedules: expanded, where asked for and dynamic. -/
def schedulerTrace (T : BoundTrace) (P : EngineProfile) (expandUops : Bool) :
    Except SimError BoundTrace :=
  match validateBoundTrace T with
  | .error e => .error (.validation e)
  | .ok _ =>
    if expandUops && T.isDynamic then
      match Expander.expand T P with
      | .error _ => .error (.setup "XsaiBackendError")
      | .ok slots =>
        let T' := Expander.materialize T slots
        match validateBoundTrace T' with
        | .error e => .error (.validation e)
        | .ok _ => .ok T'
    else .ok T

/-- `XsaiRvvEngine.__init__`; `GenericTokenEngine` passes `expandUops := false`. -/
def init (T : BoundTrace) (P : EngineProfile) (inOrder : Bool) (mode : CacheMode)
    (overlapLimit : Option Bool) (expandUops : Bool) : Except SimError Config := do
  let T ← schedulerTrace T P expandUops
  let read ← domainCapacities "vector read" (P.registerFiles.flatMap (·.readDomains))
  let completion ← domainCapacities "completion" (P.registerFiles.flatMap (·.writebackDomains))
  let dispatchDomains ← liftProfile (P.dispatchDomains.mapM fun e => do
    let n ← parameterInt e.2 s!"backend.dispatch_domains.{e.1}.capacity"
    return (e.1, n))
  let rename ← liftProfile (P.rename.policy P.ticksPerCycle)
  let E ← Setup.init T P inOrder mode overlapLimit
  let vectorMemory ← liftProfile (P.vectorMemory.policy P.ticksPerCycle)
  let epochs ← liftProfile (epochPolicy P.epochs P.ticksPerCycle)
  let C : Config := { E with
    partitions := P.partitions, units := P.units, readCapacity := read,
    completionCapacity := completion, dispatchDomainCapacity := dispatchDomains,
    rename := rename, vectorMemory := vectorMemory, epochs := epochs }
  T.uops.forM (validateTopology C)
  -- `int` of the entries and widths, which the dispatch of a uop reads for each of its choices
  check (∀ x ∈ T.uops, ∀ p ∈ P.partitions, p.id ∈ x.schedulerPartitionChoices →
    p.entries.isSome ∧ p.enqueueWidth.isSome) (.profile (.measure "backend.scheduler_partitions"))
  return C

variable (E : Config)

def partition? (p : String) : Option Partition := E.partitions.find? (·.id = p)

/-- `int(self.scheduler_partitions[p]["entries"])`. -/
def entries (p : String) : ℕ := (((partition? E p).bind (·.entries)).map (fun n : ℕ+ => (n : ℕ))).getD 0

/-- `int(self.scheduler_partitions[p]["enqueue_width"])`. -/
def enqueueWidth (p : String) : ℕ :=
  (((partition? E p).bind (·.enqueueWidth)).map (fun n : ℕ+ => (n : ℕ))).getD 0

def capacityOf (capacities : List (String × ℕ+)) (d : String) : ℕ :=
  ((capacities.lookup d).map (fun n : ℕ+ => (n : ℕ))).getD 0

def schedInit : Sched where
  toMachine := E.machineInit
  partitionOccupancy := fun _ => 0
  executionUnitFree := fun _ => 0
  readReservations := fun _ => []
  completionReservations := fun _ => []
  renameFree := fun name => ((lookupD E.rename.freeLists name 0 : ℕ) : ℤ)
  renamePending := []
  inflight := fun _ => []
  serviceHeap := []
  splitIssueFree := fun k => List.replicate (E.vectorMemory.splitLanes k) 0
  mixedActive := []
  unitProgress := fun _ => 0
  blockerDomain := fun _ => none
  blocked := []

/-! ### Kinds of uops -/

/-- `_XSAI_VECTOR_COMPUTE_KINDS`. -/
def isComputeKind : Kind → Bool
  | .vectorFp | .vectorInteger | .conversion | .shuffle | .vectorDivide => true
  | _ => false

/-- A uop of one of the semantic kinds, by its semantic ids or by the kinds it lists. -/
def hasSemantic (p : SemanticKind → Bool) (x : ExecutionUop) : Bool :=
  x.semanticIds.any (fun i => (E.semanticKind? i).any p) || x.semanticKinds.any p

/-- `_is_vector_config_uop`. -/
def isVectorConfig (x : ExecutionUop) : Bool := hasSemantic E (· = .vectorConfig) x

/-- `_is_reduction_uop`. -/
def isReduction (x : ExecutionUop) : Bool := hasSemantic E (·.isReduction) x

/-- `_is_vector_memory_uop`. -/
def isVectorMemory (x : ExecutionUop) : Bool :=
  x.kind.isMemory && hasSemantic E (fun k => k = .vectorLoad || k = .vectorStore) x

/-- `_vector_memory_access_kind`. -/
def accessKind (x : ExecutionUop) : AccessKind := if x.kind = .loadData then .load else .store

/-- `_vector_memory_service_ticks`. -/
def serviceTicks (x : ExecutionUop) : Option ℕ :=
  E.vectorMemory.serviceTicks.bind fun l => l.lookup (accessKind x)

/-- `_vector_memory_flow_count`. -/
def flowCount (split : FlowSplit) (x : ExecutionUop) : ℕ :=
  match x.memory with
  | none => 1
  | some a =>
    if a.bytes = 0 then 1
    else
      let covered := (a.address % split.boundaryBytes).toNat + a.bytes
      min ((covered + split.boundaryBytes - 1) / split.boundaryBytes) split.maxFlowsPerAccess

/-! ### Vector epochs -/

/-- The uops in the order of their sequence numbers. -/
def ordered : List ExecutionUop :=
  E.trace.uops.insertionSort fun a b => a.sequence ≤ b.sequence

/-- A config uop that opens an epoch: its instruction did not open the last one. -/
def opensEpoch (last : Option Id) (x : ExecutionUop) : Bool :=
  isVectorConfig E x && last ≠ some x.parentId

/-- The epochs, each with its config uop and its body. -/
def epochsFrom : Option Id → List ExecutionUop → List (ExecutionUop × List ExecutionUop)
  | _, [] => []
  | last, x :: xs =>
    if opensEpoch E last x then
      (x, xs.takeWhile fun y => !opensEpoch E (some x.parentId) y) :: epochsFrom (some x.parentId) xs
    else epochsFrom last xs

/-- The epochs of `_build_vector_epoch_constraints`, none where the policy is off. -/
def epochList : List (ExecutionUop × List ExecutionUop) :=
  if E.epochs.enabled then epochsFrom E none (ordered E) else []

/-- `_is_computed_vector_store`. -/
def isComputedStore (x : ExecutionUop) : Bool :=
  isVectorMemory E x && x.kind = .storeData &&
    x.dependencies.any fun d => (E.uop d).parentId ≠ x.parentId && isComputeKind (E.uop d).kind

/-- The depth-first search of `_computed_store_ancestor_parents`: the uops it visits. -/
def ancestors (body : List Id) : ℕ → List Id → List Id → List Id
  | 0, _, visited => visited
  | _ + 1, [], visited => visited
  | fuel + 1, d :: pending, visited =>
    if d ∈ visited ∨ d ∉ body then ancestors body fuel pending visited
    else ancestors body fuel ((E.uop d).dependencies.reverse ++ pending) (d :: visited)

/-- `_computed_store_ancestor_parents`: the compute parents and the load parents. -/
def ancestorParents (store : ExecutionUop) (body : List Id) (memoryParents loadParents : List Id) :
    List Id × List Id :=
  let visited := ancestors E body E.searchFuel store.dependencies.reverse []
  ((visited.filter fun u => (E.uop u).parentId ∉ loadParents ∧ (E.uop u).parentId ∉ memoryParents ∧
      isComputeKind (E.uop u).kind).map (fun u => (E.uop u).parentId) |>.dedup,
   (visited.filter fun u => (E.uop u).parentId ∈ loadParents).map (fun u => (E.uop u).parentId) |>.dedup)

/-- `_reduction_terminal`. -/
def reductionTerminal (body reductions : List ExecutionUop) : Option ExecutionUop :=
  (Slots.minBy? (fun a b : ExecutionUop => b.sequence ≤ a.sequence) reductions).map fun last =>
    ((body.filter fun x => last.sequence ≤ x.sequence && isComputeKind x.kind).getLast?).getD last

/-- What an epoch imposes: the uop that closes it with an offset, the loads whose visibility
it delays, and the terminal of a mixed epoch. -/
structure Epoch where
  close : Option (Id × ℤ) := none
  visibility : List Id := []
  terminal : Option Id := none

/-- The classification of one epoch. -/
def classify (body : List ExecutionUop) : Epoch :=
  let loads := body.filter fun x => isVectorMemory E x && x.kind = .loadData
  let stores := body.filter (isComputedStore E)
  let reductions := body.filter (isReduction E)
  match stores.getLast?, reductionTerminal body reductions with
  | some _, some terminal => { terminal := some terminal.id }
  | some store, none =>
    let memoryParents := ((ordered E).filter (isVectorMemory E)).map (·.parentId)
    let parents := ancestorParents E store (body.map (·.id)) memoryParents (loads.map (·.parentId))
    let offset : ℕ := if 2 ≤ parents.2.length then E.epochs.multiLoadDrainTicks
      else if 2 ≤ parents.1.length then E.epochs.chainedComputeDrainTicks else 0
    { close := some (store.id, offset) }
  | none, some terminal =>
    let offset : ℤ := if 2 ≤ (reductions.map (·.parentId)).dedup.length then
      -E.epochs.parallelReductionOverlapTicks else 0
    { close := some (terminal.id, offset) }
  | none, none =>
    match loads.getLast? with
    | some load => { close := some (load.id, 0), visibility := loads.map (·.id) }
    | none => {}

/-- `vector_epoch_close`: the epoch before the one a config uop opens. -/
def epochClose (u : Id) : Option (Id × ℤ) :=
  ((epochList E).zip (epochList E).tail).findSome? fun e =>
    if e.2.1.id = u then (classify E e.1.2).close else none

/-- `vector_epoch_load_visibility`. -/
def delaysVisibility (u : Id) : Bool :=
  (epochList E).any fun e => u ∈ (classify E e.2).visibility

/-- `mixed_epoch_terminal_by_config`. -/
def mixedTerminal (u : Id) : Option Id :=
  (epochList E).findSome? fun e => if e.1.id = u then (classify E e.2).terminal else none

/-! ### Issue checks -/

/-- A check on the completion of the vector state. -/
def visibilityBlocker (s : Sched) (x : ExecutionUop) (now : ℕ) : Option Blocked :=
  if delaysVisibility E x.id then
    let completed := x.vectorStateDependencies.map fun d => (s.uop d).completeTick
    if completed ≠ [] ∧ completed.all (·.isSome) then
      let ready := (completed.map (·.getD 0)).foldl max 0 + E.epochs.loadOnlyVisibilityTicks
      if now < ready then some (.loadVisibility, some ready) else none
    else none
  else none

/-- A check on the uop that closes the epoch before. -/
def closeBlocker (s : Sched) (x : ExecutionUop) (now : ℕ) : Option Blocked :=
  match epochClose E x.id with
  | none => none
  | some (terminal, offset) =>
    let done := (s.uop terminal).completeTick.or
      ((s.uop terminal).issueTick.map (· + (s.uop terminal).latencyTicks))
    match done with
    | none => some (.epochCompletion, none)
    | some t => if (now : ℤ) < t + offset then some (.epochCompletion, some (t + offset).toNat) else none

/-- A check on the number of mixed epochs. -/
def capacityBlocker (s : Sched) (x : ExecutionUop) : Option Blocked :=
  if (mixedTerminal E x.id).isSome ∧
      (E.epochs.mixedStoreReductionCapacity : ℕ) ≤ s.mixedActive.length then
    let known := s.mixedActive.filterMap fun t =>
      (s.uop t).issueTick.map (· + (s.uop t).latencyTicks)
    some (.mixedEpochCapacity, known.min?)
  else none

/-- `_vector_epoch_blocker`. -/
def epochBlocker (s : Sched) (x : ExecutionUop) (now : ℕ) : Option Blocked :=
  if E.epochs.enabled then
    (visibilityBlocker E s x now).or <| (closeBlocker E s x now).or <| capacityBlocker E s x
  else none

/-- Which dependency a uop is said to wait for. -/
def dependencyReason (x : ExecutionUop) (incomplete : List Id) : Stall :=
  if incomplete.any (· ∈ x.vectorStateDependencies) then .vectorStateDependency
  else if incomplete.any (· ∈ x.oldDestinationDependencies) then .oldDestinationDependency
  else .dependency

/-- The checks before the resources. -/
def earlyBlocker (s : Sched) (x : ExecutionUop) (now : ℕ) : Option Blocked :=
  (dependencyBlocker (dependencyReason x) s.toCore x now).or <|
    (epochBlocker E s x now).or <| (partBlocker s.toCore x now).or <|
    (E.overlapBlocker s.toMachine x).or <| intervalBlocker s.toMachine x now

def unit? (u : String) : Option ExecutionUnit := E.units.lookup u

/-- `_eligible_execution_units`. -/
def eligibleUnits (s : Sched) (x : ExecutionUop) : List String :=
  match (s.placement x.id).partition with
  | none => x.executionUnitChoices
  | some p => x.executionUnitChoices.filter fun u => (unit? E u).any (·.schedulerPartition = p)

/-- The execution-unit check. -/
def unitBlocker (s : Sched) (x : ExecutionUop) (now : ℕ) : Except SimError (Option Blocked) :=
  if x.executionUnitChoices = [] then .ok none
  else
    match ((eligibleUnits E s x).map s.executionUnitFree).min? with
    | none => .error (.noExecutionUnit x.id)
    | some t => .ok (if now < t then some (.executionUnitBusy, some t) else none)

/-- The first check of `_vector_memory_blocker`: a split-issue lane. -/
def splitBlocker (s : Sched) (x : ExecutionUop) (now : ℕ) : Except SimError (Option Blocked) :=
  match E.vectorMemory.flowSplit with
  | none => .ok none
  | some _ =>
    match (s.splitIssueFree (accessKind x)).min? with
    | none => .error (.emptyMin "split_issue_free")
    | some t => .ok (if now < t then some (.splitIssueBusy, some t) else none)

/-- The ticks at which the flows in service are released. -/
def releaseTicks (s : Sched) (k : AccessKind) (now : ℕ) : List ℕ :=
  (s.serviceHeap.filter fun e => e.id ∈ s.inflight k).map (·.tick) ++
    ((s.inflight k).filter fun u => (serviceTicks E (E.uop u)).isNone).map fun u =>
      ((s.uop u).completeTick).getD (((s.uop u).issueTick.getD now) + (s.uop u).latencyTicks)

/-- The second check: the service capacity. -/
def serviceBlocker (s : Sched) (x : ExecutionUop) (now : ℕ) : Except SimError (Option Blocked) :=
  match E.vectorMemory.serviceCapacity.lookup (accessKind x) with
  | none => .ok none
  | some capacity =>
    if (capacity : ℕ) ≤ (s.inflight (accessKind x)).length then
      match (releaseTicks E s (accessKind x) now).min? with
      | none => .error (.emptyMin "release_ticks")
      | some t => .ok (some (.serviceBusy, some (if t ≤ now then E.nextCycle now else t)))
    else .ok none

/-- An older vector memory uop waits that must go first. -/
def olderWaits (s : Sched) (x : ExecutionUop) : Bool :=
  E.vectorMemory.issueOrder ≠ .any && E.trace.uops.any fun y =>
    y.sequence < x.sequence && y.id ∈ s.unissued && isVectorMemory E y &&
      (E.vectorMemory.issueOrder = .oldest || y.kind = x.kind) &&
      y.dependencies.all fun d => (s.uop d).completeTick.isSome

/-- `_vector_memory_blocker`. -/
def vectorMemoryBlocker (s : Sched) (x : ExecutionUop) (now : ℕ) : Except SimError (Option Blocked) :=
  if isVectorMemory E x then do
    match ← splitBlocker E s x now with
    | some b => .ok (some b)
    | none =>
      match ← serviceBlocker E s x now with
      | some b => .ok (some b)
      | none => .ok (if olderWaits E s x then some (.oldest, none) else none)
  else .ok none

/-- The memory checks of a load or store. -/
def memoryBlocker (s : Sched) (x : ExecutionUop) (now : ℕ) :
    Except SimError (MemoryState × Option Blocked) :=
  if x.kind.isMemory then do
    match ← vectorMemoryBlocker E s x now with
    | some b => .ok (s.memory, some b)
    | none => E.hierarchyBlocker s.memory x now
  else .ok (s.memory, none)

/-! ### Execution paths -/

/-- `_vector_read_domain_for`. -/
def readDomainFor (x : ExecutionUop) (u : Option String) : Option String :=
  if x.requiresVectorReadToken then (u.bind (unit? E)).bind (·.vectorReadDomain) else none

/-- `_completion_domain_for`. -/
def completionDomainFor (x : ExecutionUop) (u : Option String) : Option String :=
  if x.requiresCompletionToken then (u.bind (unit? E)).bind (·.vectorWritebackDomain) else none

/-- `_vector_read_token_available`. -/
def readAvailable (s : Sched) (d : String) (tick : ℕ) : Bool :=
  (s.readReservations d).count (tick / E.ticksPerCycle) < capacityOf E.readCapacity d

/-- `_completion_token_available`. -/
def completionAvailable (s : Sched) (d : String) (tick : ℕ) : Bool :=
  (s.completionReservations d).count (tick / E.ticksPerCycle) < capacityOf E.completionCapacity d

/-- An execution path: `(free_tick, resource, lane, unit, read domain, completion domain)`. -/
structure Path where
  freeTick : ℕ
  resource : String
  lane : ℕ
  unit : Option String
  readDomain : Option String
  completionDomain : Option String
  deriving DecidableEq, Repr

/-- The order of the tuples; of paths on one lane the units differ. -/
def Path.le (a b : Path) : Bool :=
  a.freeTick < b.freeTick || (a.freeTick = b.freeTick &&
    (a.resource < b.resource || (a.resource = b.resource &&
      (a.lane < b.lane || (a.lane = b.lane && a.unit.getD "" ≤ b.unit.getD "")))))

/-- The units a uop may take, or no unit. -/
def unitChoices (s : Sched) (x : ExecutionUop) : List (Option String) :=
  if x.executionUnitChoices = [] then [none] else (eligibleUnits E s x).map some

/-- The unit has the resource and is free. -/
def unitFits (s : Sched) (now : ℕ) (r : String) : Option String → Bool
  | none => true
  | some u => (unit? E u).any (r ∈ ·.functionalUnits) && s.executionUnitFree u ≤ now

/-- The tests of `_execution_candidates` on one lane and one unit. -/
def pathOk (s : Sched) (x : ExecutionUop) (now : ℕ) (checkCompletion checkRead : Bool) (r : String)
    (free : ℕ) (u : Option String) : Bool :=
  free ≤ now && unitFits E s now r u &&
    (!checkRead || (readDomainFor E x u).all fun d => readAvailable E s d now) &&
    (!checkCompletion || (completionDomainFor E x u).all fun d =>
      completionAvailable E s d (now + (s.uop x.id).latencyTicks))

/-- `_execution_candidates`. -/
def executionCandidates (s : Sched) (x : ExecutionUop) (now : ℕ) (checkCompletion checkRead : Bool) :
    List Path :=
  x.resourceChoices.flatMap fun r => (s.resourceFree r).zipIdx.flatMap fun l =>
    ((unitChoices E s x).filter (pathOk E s x now checkCompletion checkRead r l.1)).map fun u =>
      ⟨l.1, r, l.2, u, readDomainFor E x u, completionDomainFor E x u⟩

/-- `_next_execution_ready_tick`. -/
def nextExecutionReadyTick (s : Sched) (x : ExecutionUop) (now : ℕ) : Except SimError ℕ := do
  let ticks ← x.resourceChoices.mapM fun r => do
    let t ← firstFree s.toMachine r
    pure ((unitChoices E s x).filterMap fun
      | none => some t
      | some u => if (unit? E u).any (r ∈ ·.functionalUnits) then some (max t (s.executionUnitFree u)) else none)
  .ok (((ticks.flatten.filter (now < ·)).min?).getD (now + 1))

/-- The last checks: an execution path with its tokens. -/
def executionBlocker (s : Sched) (x : ExecutionUop) (now : ℕ) : Except SimError (Option Blocked) :=
  if executionCandidates E s x now false true = [] ∧ executionCandidates E s x now false false ≠ [] then
    .ok (some (.vectorReadDomainBusy, some (E.nextCycle now)))
  else if executionCandidates E s x now true true = [] then
    if executionCandidates E s x now false true ≠ [] then
      .ok (some (.completionDomainBusy, some (E.nextCycle now)))
    else do
      let t ← nextExecutionReadyTick E s x now
      .ok (some (.executionUnitBusy, some t))
  else .ok none

/-- The checks before the memory hierarchy is asked. -/
def resourceChecks (s : Sched) (x : ExecutionUop) (now : ℕ) : Except SimError (Option Blocked) := do
  match ← resourceBlocker s.toMachine x now with
  | some b => .ok (some b)
  | none => unitBlocker E s x now

/-- The checks after the memory hierarchy was asked. -/
def tokenChecks (s : Sched) (x : ExecutionUop) (now : ℕ) : Except SimError (Option Blocked) := do
  match ← domainBlocker s.toMachine x now with
  | some b => .ok (some b)
  | none => executionBlocker E s x now

/-- `_issue_blocker`, with the memory hierarchy it leaves behind. -/
def issueBlocker (s : Sched) (x : ExecutionUop) (now : ℕ) :
    Except SimError (MemoryState × Option Blocked) :=
  match earlyBlocker E s x now with
  | some b => .ok (s.memory, some b)
  | none => do
    match ← resourceChecks E s x now with
    | some b => .ok (s.memory, some b)
    | none => do
      let r ← memoryBlocker E s x now
      match r.2 with
      | some b => .ok (r.1, some b)
      | none => do
        let b ← tokenChecks E s x now
        .ok (r.1, b)

end Xsai
end VectorSim
