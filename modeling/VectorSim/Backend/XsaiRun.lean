/-
# The XSAI engine: its procedures and its event loop

`_complete`, `_release_vector_memory_flows`, `_release_rename`, `_dispatch`,
`_issue_fixed_point`, `_retire`, `_next_event_tick` and `run` of
`src/backend/xsai.py`. A macro-op is admitted to the reorder buffer whole; its
uops enter their scheduler partitions in chunks, over as many cycles as the
partitions need.
-/
import VectorSim.Backend.Xsai

namespace VectorSim
namespace Xsai

open Checked Setup

variable (E : Config)

/-! ### Completion and release -/

/-- The head of the heap leaves it: whether its uop completes, and the state after. -/
def completeEntry (s : Sched) (e : HeapEntry) (rest : List HeapEntry) : Bool × Sched :=
  let c := { s.toCore with completionHeap := rest }
  let x := E.uop e.id
  if (c.uop e.id).completeTick.isSome then (false, { s with toCore := c })
  else (true, { s with
    toCore := c.completeUop E.trace e.tick e.id
    mixedActive := s.mixedActive.erase e.id
    -- without service ticks a flow is in service until its uop completes
    inflight := if (serviceTicks E x).isNone then
        Function.update s.inflight (accessKind x) ((s.inflight (accessKind x)).erase e.id)
      else s.inflight })

/-- The loop of `_complete`; no entry is added to the heap meanwhile. -/
def completeLoop (now : ℕ) : ℕ → Sched → Bool × Sched
  | 0, s => (false, s)
  | fuel + 1, s =>
    match s.completionHeap with
    | [] => (false, s)
    | e :: rest =>
      if e.tick ≤ now then
        let r := completeEntry E s e rest
        let r' := completeLoop now fuel r.2
        (r.1 || r'.1, r'.2)
      else (false, s)

/-- `_complete`. -/
def complete (now : ℕ) (s : Sched) : Bool × Sched :=
  completeLoop E now s.completionHeap.length s

/-- A flow leaves service. -/
def releaseFlow (s : Sched) (e : HeapEntry) (rest : List HeapEntry) : Sched :=
  let k := accessKind (E.uop e.id)
  { s with serviceHeap := rest, inflight := Function.update s.inflight k ((s.inflight k).erase e.id) }

/-- The loop of `_release_vector_memory_flows`. -/
def releaseFlowsLoop (now : ℕ) : ℕ → Sched → Sched
  | 0, s => s
  | fuel + 1, s =>
    match s.serviceHeap with
    | [] => s
    | e :: rest => if e.tick ≤ now then releaseFlowsLoop now fuel (releaseFlow E s e rest) else s

/-- `_release_vector_memory_flows`. -/
def releaseFlows (now : ℕ) (s : Sched) : Sched :=
  releaseFlowsLoop E now s.serviceHeap.length s

/-- The allocations of one batch go back, as far as the width goes: the free lists, the
width left, and the allocations left over. -/
def returnEntries : List (String × ℕ) → ℕ → (String → ℤ) → (String → ℤ) × ℕ × List (String × ℕ)
  | [], width, free => (free, width, [])
  | (name, count) :: rest, width, free =>
    let returned := min count width
    let r := returnEntries rest (width - returned) (Function.update free name (free name + returned))
    (r.1, r.2.1, if returned < count then (name, count - returned) :: r.2.2 else r.2.2)

/-- A batch at the head of the pending releases goes back: whether all of it did, the width
left, and the state. -/
def returnBatch (s : Sched) (b : Release) (rest : List Release) (width : ℕ) : Bool × ℕ × Sched :=
  let r := returnEntries b.allocations width s.renameFree
  let leftover := r.2.2
  (leftover.isEmpty, r.2.1, { s with
    renameFree := r.1
    renamePending :=
      if leftover = [] then rest else Queue.push Release.key { b with allocations := leftover } rest })

/-- The loop of `_release_rename`. -/
def releaseRenameLoop (now : ℕ) : ℕ → ℕ → Sched → Sched
  | 0, _, s => s
  | fuel + 1, width, s =>
    match s.renamePending with
    | [] => s
    | b :: rest =>
      if now < b.tick ∨ width = 0 then s
      else
        let r := returnBatch s b rest width
        if r.1 then releaseRenameLoop now fuel r.2.1 r.2.2 else r.2.2

/-- `_release_rename`. -/
def releaseRename (now : ℕ) (s : Sched) : Sched :=
  if E.rename.enabled then
    releaseRenameLoop now s.renamePending.length E.rename.releaseWidth s
  else s

/-! ### Dispatch checks -/

/-- The counters of one call of `_dispatch`. -/
structure DispatchCycle where
  dispatched : ℕ := 0
  partitionEnqueues : String → ℕ := fun _ => 0
  domainUsage : String → ℕ := fun _ => 0
  /-- `sum(rename_usage.values())` -/
  renameUsage : ℕ := 0

/-- `_uses_legacy_vector_scheduler`. -/
def usesLegacyVectorScheduler (m : MacroOp) : Bool :=
  m.usesVectorScheduler && m.uopIds.any fun u =>
    (E.uop u).kind.isVectorResource && (E.uop u).schedulerPartitionChoices.isEmpty

def domainDemand (m : MacroOp) (d : String) : ℕ := lookupD m.dispatchDomainDemands d 1

/-- The loop over the dispatch domains of `_dispatch_blocker`. -/
def domainFull (c : DispatchCycle) (m : MacroOp) : List String → Except SimError (Option DispatchStall)
  | [] => .ok none
  | d :: ds =>
    match E.dispatchDomainCapacity.lookup d with
    | none => .error (.unknownDispatchDomain m.id d)
    | some capacity =>
      if (capacity : ℕ) < c.domainUsage d + domainDemand m d then .ok (some (.dispatchDomainFull d))
      else domainFull c m ds

/-- `sum(allocations.values())`. -/
def allocationTotal (m : MacroOp) : ℕ := (m.renameAllocations.map (·.2)).sum

/-- `_rename_blocker`. -/
def renameBlocker (s : Sched) (c : DispatchCycle) (m : MacroOp) :
    Except SimError (Option DispatchStall) :=
  if !E.rename.enabled || m.renameAllocations.isEmpty then .ok none
  else if m.renameAllocations.any fun e => e.1 ∉ E.rename.freeLists.map (·.1) then
    .error (.unknownFreeList m.id)
  else if E.rename.allocationWidth < c.renameUsage + allocationTotal m then
    .ok (some .renameAllocationWidth)
  else
    .ok ((m.renameAllocations.find? fun e =>
      s.renameFree e.1 - e.2 < E.rename.guardEntries).map fun e => .renameFreeList e.1)

/-- The check of the unpartitioned vector scheduler. -/
def vectorFull (s : Sched) (m : MacroOp) : Except SimError Bool :=
  if usesLegacyVectorScheduler E m then do
    let entries ← pipelineInt E.pipeline.vectorSchedulerEntries "vector_scheduler_entries"
    .ok (decide ((entries : ℤ) < s.vectorSchedulerOccupancy + m.usesVectorScheduler.toNat))
  else .ok false

/-- The queue checks of `_dispatch_blocker`. -/
def queueBlocker (s : Sched) (m : MacroOp) : Except SimError (Option DispatchStall) := do
  let vectorFull ← vectorFull E s m
  if vectorFull then .ok (some .vectorSchedulerFull)
  else do
  let loadFull ← queueFull m.usesLoadQueue E.pipeline.loadQueueEntries "load_queue_entries"
    s.loadQueueOccupancy
  if loadFull then .ok (some .loadQueueFull)
  else do
  let storeFull ← queueFull m.usesStoreQueue E.pipeline.storeQueueEntries "store_queue_entries"
    s.storeQueueOccupancy
  .ok (if storeFull then some .storeQueueFull else none)

/-- The checks of `_dispatch_blocker` for a macro-op that is not admitted. -/
def admissionBlocker (s : Sched) (c : DispatchCycle) (m : MacroOp) :
    Except SimError (Option DispatchStall) := do
  let robEntries ← pipelineInt E.pipeline.robEntries "rob_entries"
  if robEntries < s.robOccupancy + m.robEntryCount then .ok (some .robFull)
  else do
  match ← domainFull E c m m.dispatchDomains with
  | some reason => .ok (some reason)
  | none => do
    match ← renameBlocker E s c m with
    | some reason => .ok (some reason)
    | none => queueBlocker E s m

/-- `macro.dispatch_tick is not None`. -/
def isAdmitted (s : Sched) (m : MacroOp) : Bool := (s.macro_ m.id).dispatchTick.isSome

/-- `_dispatch_blocker` with an assignment, or without the partition check. -/
def dispatchBlocker (s : Sched) (c : DispatchCycle) (m : MacroOp) :
    Except SimError (Option DispatchStall) :=
  if isAdmitted s m then .ok none else admissionBlocker E s c m

/-- `_dispatch_blocker` notes the domain it found full. -/
def noteDomain (s : Sched) (m : MacroOp) : DispatchStall → Sched
  | .dispatchDomainFull d => { s with blockerDomain := Function.update s.blockerDomain m.id (some d) }
  | _ => s

/-- `self.events.append` of a `dispatch_blocked` event. -/
def logBlocked (s : Sched) (m : MacroOp) (now : ℕ) (reason : DispatchStall) (domain : Option String) : Sched :=
  { s with blocked := s.blocked ++ [⟨now, m.id, m.sequence, reason, domain⟩] }

/-- `_record_dispatch_blocker`. -/
def recordDispatchBlocker (s : Sched) (m : MacroOp) (now : ℕ) (reason : DispatchStall) : Except SimError Sched :=
  let s := { s with stalls := s.stalls ++ [reason] }
  match reason with
  | .dispatchDomainFull _ =>
    if (s.blockerDomain m.id).isNone then .error .missingDispatchDomain
    else .ok (logBlocked s m now reason (s.blockerDomain m.id))
  | _ => .ok (logBlocked { s with blockerDomain := Function.update s.blockerDomain m.id none } m now reason none)

/-! ### Scheduler partitions -/

/-- A partition with room, and with room in this cycle's enqueues where they count. -/
def hasRoom (enforce : Bool) (occupancy : String → ℤ) (enqueues : String → ℕ) (p : String) : Bool :=
  occupancy p < entries E p && (!enforce || enqueues p < enqueueWidth E p)

/-- The order of the choices: by `occupancy / entries`, then occupancy, then name. -/
def partitionLe (occupancy : String → ℤ) (a b : String) : Prop :=
  occupancy a * entries E b < occupancy b * entries E a ∨
    occupancy a * entries E b = occupancy b * entries E a ∧
      (occupancy a < occupancy b ∨ occupancy a = occupancy b ∧ a ≤ b)

instance (occupancy : String → ℤ) : DecidableRel (partitionLe E occupancy) := fun a b => by
  unfold partitionLe; infer_instance

/-- The choices of `assign` for one uop, in the order they are tried. -/
def choicesOf (enforce : Bool) (occupancy : String → ℤ) (enqueues : String → ℕ) (x : ExecutionUop) :
    List String :=
  (x.schedulerPartitionChoices.filter (hasRoom E enforce occupancy enqueues)).insertionSort
    (partitionLe E occupancy)

/-- `counter[key] += 1`. -/
def increment {α : Type} [Add α] [One α] (counter : String → α) (key : String) : String → α :=
  Function.update counter key (counter key + 1)

/-- The backtracking search `assign`, and the assignment it finds. -/
def assign (enforce : Bool) : List ExecutionUop → (String → ℤ) → (String → ℕ) →
    Option (List (Id × String))
  | [], _, _ => some []
  | x :: xs, occupancy, enqueues => (choicesOf E enforce occupancy enqueues x).findSome? fun p =>
      (assign enforce xs (increment occupancy p) (increment enqueues p)).map ((x.id, p) :: ·)

/-- The uops that need a partition, those with the fewest choices first. -/
def partitioned (us : List Id) : List ExecutionUop :=
  ((us.map E.uop).filter fun x => !x.schedulerPartitionChoices.isEmpty).insertionSort fun a b =>
    a.schedulerPartitionChoices.length < b.schedulerPartitionChoices.length ∨
      a.schedulerPartitionChoices.length = b.schedulerPartitionChoices.length ∧ a.sequence ≤ b.sequence

/-- `_plan_partition_assignment`. -/
def planAssignment (s : Sched) (enforce : Bool) (enqueues : String → ℕ) (us : List Id) :
    Option (List (Id × String)) :=
  assign E enforce (partitioned E us) s.partitionOccupancy enqueues

/-- `partition_assignment.get(uop_id)`. -/
def assigned (assignment : List (Id × String)) (u : Id) : Option String := assignment.reverse.lookup u

/-! ### Dispatch -/

/-- `_dispatch_unit_costs`. -/
def dispatchUnitCosts (m : MacroOp) : List ℕ :=
  (List.range m.uopIds.length).map fun index =>
    (index + 1) * m.dispatchWidthUnits / m.uopIds.length - index * m.dispatchWidthUnits / m.uopIds.length

/-- What `_dispatch` does with a macro-op in a turn. -/
inductive Chunk
  /-- Uops enter their partitions, for a number of dispatch units. -/
  | take (us : List Id) (assignment : List (Id × String)) (units : ℕ)
  /-- The units that are left go to a uop that needs more of them. -/
  | budget (units : ℕ)
  | blocked

/-- `_select_dispatch_chunk`. -/
def selectChunk (s : Sched) (m : MacroOp) (pending : List Id) (enqueues : String → ℕ)
    (dispatchBudget progress : ℕ) : Chunk :=
  let first := m.uopIds.idxOf (pending.headD 0)
  let costs := (dispatchUnitCosts m).drop first
  let partialCost : ℤ := progress - ((dispatchUnitCosts m).take first).sum
  let delta := fun count : ℕ => ((costs.take count).sum : ℤ) - partialCost
  let counts := (List.range pending.length).reverse.map (· + 1)
  let found := counts.findSome? fun count =>
    if delta count < 0 ∨ (dispatchBudget : ℤ) < delta count then none
    else (planAssignment E s true enqueues (pending.take count)).map fun a =>
      Chunk.take (pending.take count) a (delta count).toNat
  match found with
  | some chunk => chunk
  | none =>
    if (dispatchBudget : ℤ) < costs.headD 0 - partialCost ∧ 0 < dispatchBudget then .budget dispatchBudget
    else .blocked

/-- The choice of `_dispatch`: nothing where a macro-op that fits a cycle waits for the
next one, all pending uops where they fit, else a chunk. -/
def chooseChunk (s : Sched) (c : DispatchCycle) (m : MacroOp) (pending : List Id) (width : ℕ) :
    Option Chunk :=
  let progress := s.unitProgress m.id
  let remaining := width - c.dispatched
  let fresh := !isAdmitted s m && progress = 0
  let chunk := selectChunk E s m pending c.partitionEnqueues remaining progress
  if fresh ∧ m.dispatchWidthUnits ≤ width ∧ remaining < m.dispatchWidthUnits then none
  else if fresh ∧ m.dispatchWidthUnits ≤ remaining then
    match planAssignment E s true c.partitionEnqueues pending with
    | some a => some (.take pending a m.dispatchWidthUnits)
    | none => some chunk
  else some chunk

/-- `_admit_macro`. -/
def admitMacro (s : Sched) (c : DispatchCycle) (m : MacroOp) (now : ℕ) : Sched × DispatchCycle :=
  ({ s with
     toCore := s.toCore.enterRob m.id now
     robOccupancy := s.robOccupancy + m.robEntryCount
     vectorSchedulerOccupancy := s.vectorSchedulerOccupancy + (usesLegacyVectorScheduler E m).toNat
     loadQueueOccupancy := s.loadQueueOccupancy + m.usesLoadQueue.toNat
     storeQueueOccupancy := s.storeQueueOccupancy + m.usesStoreQueue.toNat
     renameFree := if E.rename.enabled then
         m.renameAllocations.foldl (fun free e => Function.update free e.1 (free e.1 - e.2)) s.renameFree
       else s.renameFree },
   { c with
     domainUsage := m.dispatchDomains.foldl
       (fun usage d => Function.update usage d (usage d + domainDemand m d)) c.domainUsage
     renameUsage := if E.rename.enabled then c.renameUsage + allocationTotal m else c.renameUsage })

/-- `if not admitted: self._admit_macro(...)`. -/
def admitOnce (s : Sched) (c : DispatchCycle) (m : MacroOp) (now : ℕ) : Sched × DispatchCycle :=
  if isAdmitted s m then (s, c) else admitMacro E s c m now

/-- Dispatch units are spent on a macro-op. -/
def spend (r : Sched × DispatchCycle) (m : MacroOp) (units : ℕ) : Sched × DispatchCycle :=
  ({ r.1 with
     unitProgress := Function.update r.1.unitProgress m.id (r.1.unitProgress m.id + units) },
   { r.2 with dispatched := r.2.dispatched + units })

/-- The uops of a chunk that are assigned to a partition. -/
def enqueued (us : List Id) (assignment : List (Id × String)) (p : String) : ℕ :=
  us.countP fun u => assigned assignment u = some p

/-- The loop over the uops of a chunk, each of which enters its partition. -/
def enqueue (r : Sched × DispatchCycle) (us : List Id) (assignment : List (Id × String)) (now : ℕ) :
    Sched × DispatchCycle :=
  ({ r.1 with
     toCore := r.1.toCore.dispatchAll now us
     placement := fun u =>
       if u ∈ us then { r.1.placement u with partition := assigned assignment u } else r.1.placement u
     partitionOccupancy := fun p => r.1.partitionOccupancy p + enqueued us assignment p },
   { r.2 with partitionEnqueues := fun p => r.2.partitionEnqueues p + enqueued us assignment p })

/-- The end of a turn: the macro-op is done with, or the cycle is. -/
def closeTurn (r : Sched × DispatchCycle) (m : MacroOp) :
    Except SimError (Bool × Sched × DispatchCycle) :=
  if ∀ u ∈ m.uopIds, (r.1.uop u).dispatchTick.isSome then
    if r.1.unitProgress m.id ≠ m.dispatchWidthUnits then .error (.dispatchAccounting m.id)
    else .ok (true, { r.1 with toCore := r.1.toCore.advance }, r.2)
  else .ok (false, r)

/-- The uops of a macro-op that are not dispatched. -/
def pendingUops (s : Sched) (m : MacroOp) : List Id :=
  m.uopIds.filter fun u => (s.uop u).dispatchTick.isNone

/-- A blocked macro-op ends the cycle. -/
def stopBlocked (s : Sched) (c : DispatchCycle) (m : MacroOp) (now : ℕ) (reason : DispatchStall) :
    Except SimError (Bool × Sched × DispatchCycle) := do
  let s ← recordDispatchBlocker (noteDomain s m reason) m now reason
  .ok (false, s, c)

/-- One turn of the loop of `_dispatch`: whether another one follows, and the state. -/
def dispatchTurn (width now : ℕ) (s : Sched) (c : DispatchCycle) (m : MacroOp) :
    Except SimError (Bool × Sched × DispatchCycle) :=
  let pending := pendingUops s m
  if pending = [] then .ok (true, { s with toCore := s.toCore.advance }, c)
  else
    match chooseChunk E s c m pending width with
    | none => .ok (false, s, c)
    | some chunk => do
      match ← dispatchBlocker E s c m, chunk with
      | some reason, _ => stopBlocked s c m now reason
      | none, .take us assignment units =>
        closeTurn (enqueue (spend (admitOnce E s c m now) m units) us assignment now) m
      | none, .budget units => .ok (false, spend (admitOnce E s c m now) m units)
      | none, .blocked =>
        match planAssignment E s false (fun _ => 0) pending with
        | none => stopBlocked s c m now .schedulerPartitionFull
        | some _ => stopBlocked s c m now .schedulerPartitionEnqueueWidth

/-- The loop of `_dispatch`, which goes on to the next macro-op at every turn. -/
def dispatchLoop (width now : ℕ) : ℕ → Sched → DispatchCycle → Except SimError Sched
  | 0, s, _ => .ok s
  | fuel + 1, s, c =>
    match E.trace.macros[s.nextDispatch]? with
    | none => .ok s
    | some m =>
      if width ≤ c.dispatched then .ok s
      else do
        let r ← dispatchTurn E width now s c m
        if r.1 then dispatchLoop width now fuel r.2.1 r.2.2 else .ok r.2.1

/-- `_dispatch`. -/
def dispatch (now : ℕ) (s : Sched) : Except SimError Sched := do
  let width ← pipelineInt E.pipeline.dispatchMacroOpsPerCycle "dispatch_macro_ops_per_cycle"
  dispatchLoop E width now (E.trace.macros.length - s.nextDispatch) s {}

/-! ### Issue -/

/-- `_select_execution`. -/
def selectExecution (s : Sched) (x : ExecutionUop) (now : ℕ) : Except SimError Path :=
  match Slots.minBy? Path.le (executionCandidates E s x now true true) with
  | none => .error (.selectedUnavailablePath x.id)
  | some p => .ok p

/-- The latency of a load or store, given that of its access. -/
def accessLatency (s : Sched) (x : ExecutionUop) (access : ℕ) : ℕ :=
  let latency := max (s.uop x.id).latencyTicks access
  if isVectorMemory E x && x.kind = .storeData then max latency E.vectorMemory.storeCompletionTicks
  else latency

/-- The memory access of a load or store: the hierarchy after it, the level, the latency. -/
def accessMemory (s : Sched) (x : ExecutionUop) (now : ℕ) :
    Except SimError (MemoryState × Option ℕ × ℕ) :=
  if x.kind.isMemory then do
    let r ← liftMemory (E.memory.access s.memory x.memory now)
    .ok (r.1, some r.2.level, accessLatency E s x r.2.latencyTicks)
  else .ok (s.memory, none, (s.uop x.id).latencyTicks)

/-- A partition loses the uop that issues. -/
def leavePartition (s : Sched) (x : ExecutionUop) : Except SimError (String → ℤ) :=
  match (s.placement x.id).partition with
  | none => .ok s.partitionOccupancy
  | some p =>
    if s.partitionOccupancy p - 1 < 0 then .error (.negativeSchedulerOccupancy p)
    else .ok (Function.update s.partitionOccupancy p (s.partitionOccupancy p - 1))

/-- `_reserve_vector_read_domain`, where the uop has one. -/
def reserveRead (s : Sched) (d : Option String) (now : ℕ) : Except SimError (String → List ℕ) :=
  match d with
  | none => .ok s.readReservations
  | some d =>
    if !readAvailable E s d now then .error (.reservedUnavailableRead d)
    else .ok (Function.update s.readReservations d ((now / E.ticksPerCycle) :: s.readReservations d))

/-- The loop of `_reserve_completion_domain`: the first tick from `tick` on, later ones at
cycle boundaries, whose cycle has a token. -/
def completionTickFrom (s : Sched) (d : String) : ℕ → ℕ → ℕ
  | 0, tick => tick
  | fuel + 1, tick =>
    if completionAvailable E s d tick then tick else completionTickFrom s d fuel (E.nextCycle tick)

/-- `_reserve_completion_domain`, where the uop has one: the reservations and the tick. -/
def reserveCompletion (s : Sched) (d : Option String) (tick : ℕ) : (String → List ℕ) × ℕ :=
  match d with
  | none => (s.completionReservations, tick)
  | some d =>
    -- every cycle that is full has a reservation
    let t := completionTickFrom E s d (s.completionReservations d).length tick
    (Function.update s.completionReservations d ((t / E.ticksPerCycle) :: s.completionReservations d), t)

/-- The flows in service once a vector memory uop has issued. -/
def enterService (s : Sched) (x : ExecutionUop) : AccessKind → List Id :=
  if isVectorMemory E x && serviceTicks E x ≠ some 0 then
    Function.update s.inflight (accessKind x) ((s.inflight (accessKind x)).insert x.id)
  else if isVectorMemory E x then
    Function.update s.inflight (accessKind x) ((s.inflight (accessKind x)).erase x.id)
  else s.inflight

/-- The heap of the flows in service. -/
def pushService (s : Sched) (x : ExecutionUop) (now : ℕ) : List HeapEntry :=
  match serviceTicks E x with
  | none => s.serviceHeap
  | some n =>
    if isVectorMemory E x && n ≠ 0 then
      Queue.push HeapEntry.key ⟨now + n, x.sequence, x.id⟩ s.serviceHeap
    else s.serviceHeap

/-- `_reserve_vector_memory_split_issue`. -/
def reserveSplit (s : Sched) (x : ExecutionUop) (now : ℕ) : AccessKind → List ℕ :=
  match E.vectorMemory.flowSplit with
  | none => s.splitIssueFree
  | some split =>
    if isVectorMemory E x then
      Function.update s.splitIssueFree (accessKind x)
        (Slots.occupy (s.splitIssueFree (accessKind x)) (Slots.pick (s.splitIssueFree (accessKind x)) 1)
          (now + flowCount split x * split.issueTicksPerFlow))
    else s.splitIssueFree

/-- `_open_vector_epoch`. -/
def openEpoch (s : Sched) (x : ExecutionUop) : List Id :=
  match mixedTerminal E x.id with
  | none => s.mixedActive
  | some t => s.mixedActive.insert t

/-- `self.macros[uop.parent_id]` uses the unpartitioned vector scheduler. -/
def parentUsesLegacy (x : ExecutionUop) : Bool :=
  (E.trace.macro? x.parentId).any (usesLegacyVectorScheduler E)

/-- What an issue has found out and reserved before the state changes. -/
structure Reserved where
  path : Path
  memory : MemoryState
  level : Option ℕ
  latency : ℕ
  partitionOccupancy : String → ℤ
  issueDomainFree : String → List ℕ
  readReservations : String → List ℕ

/-- The choices and reservations of an issue. -/
def reserve (s : Sched) (x : ExecutionUop) (now : ℕ) : Except SimError Reserved := do
  let path ← selectExecution E s x now
  let access ← accessMemory E s x now
  let occupancy ← leavePartition s x
  let domains ← reserveIssueDomains x now x.issueDomains s.issueDomainFree
  let reads ← reserveRead E s path.readDomain now
  .ok ⟨path, access.1, access.2.1, access.2.2, occupancy, domains, reads⟩

/-- The state after an issue. -/
def issued (s : Sched) (x : ExecutionUop) (now : ℕ) (r : Reserved) : Sched :=
  let completion := reserveCompletion E s r.path.completionDomain (now + r.latency)
  let core := s.toCore.issue x now (completion.2 - now) E.inOrder
  { s with
    toCore := core
    resourceFree := Function.update s.resourceFree r.path.resource
      ((s.resourceFree r.path.resource).set r.path.lane (now + x.occupancyTicks))
    lastClassIssue := Function.update s.lastClassIssue x.schedulingClass (some now)
    issueDomainFree := r.issueDomainFree
    pendingGroups := E.updateGroups core x s.pendingGroups
    memory := r.memory
    placement := Function.update s.placement x.id { s.placement x.id with
      resource := some r.path.resource, lane := r.path.lane, unit := r.path.unit,
      readDomain := r.path.readDomain, completionDomain := r.path.completionDomain,
      memoryLevel := r.level }
    vectorSchedulerOccupancy := s.vectorSchedulerOccupancy -
      (x.kind.isVectorResource && parentUsesLegacy E x && !E.otherVectorIssued s.toCore x).toNat
    partitionOccupancy := r.partitionOccupancy
    executionUnitFree := match r.path.unit with
      | none => s.executionUnitFree
      | some u => Function.update s.executionUnitFree u (now + x.occupancyTicks)
    readReservations := r.readReservations
    completionReservations := completion.1
    inflight := enterService E s x
    serviceHeap := pushService E s x now
    splitIssueFree := reserveSplit E s x now
    mixedActive := openEpoch E s x }

/-- The body of the loop of `_issue_once` for a uop that is not blocked. -/
def issueUop (s : Sched) (x : ExecutionUop) (now : ℕ) : Except SimError Sched := do
  let r ← reserve E s x now
  .ok (issued E s x now r)

/-- The loop of `_issue_once`: whether a uop issued, and the state after. -/
def issueList (now : ℕ) : List ExecutionUop → Sched → Except SimError (Bool × Sched)
  | [], s => .ok (false, s)
  | x :: xs, s => do
    let b ← issueBlocker E s x now
    match b.2 with
    | some _ =>
      if E.inOrder then .ok (false, { s with memory := b.1 })
      else issueList now xs { s with memory := b.1 }
    | none => do
      let s ← issueUop E { s with memory := b.1 } x now
      let r ← issueList now xs s
      .ok (true, r.2)

/-- `_issue_once`. -/
def issueOnce (now : ℕ) (s : Sched) : Except SimError (Bool × Sched) :=
  issueList E now (E.issueCandidates s.toCore) s

/-- `_issue_fixed_point`: every turn but the last issues or completes a uop. -/
def issueFixedPoint (now : ℕ) (s : Sched) : Except SimError Sched :=
  FixedPoint.run (complete E now) (issueOnce E now) .outOfSteps
    (2 * s.unissued.length + s.completionHeap.length + 1) s

/-! ### Retirement -/

/-- The rename entries of a macro-op are to be released. -/
def pushRelease (s : Sched) (m : MacroOp) (now : ℕ) : List Release :=
  if E.rename.enabled && !m.renameAllocations.isEmpty then
    Queue.push Release.key
      ⟨now + E.rename.releaseDelayTicks + E.rename.availabilityDelayTicks, m.sequence, m.renameAllocations⟩
      s.renamePending
  else s.renamePending

/-- A macro-op retires. -/
def retireMacro (s : Sched) (m : MacroOp) (now : ℕ) : Sched :=
  { s with
    toCore := s.toCore.retire m.id now
    robOccupancy := s.robOccupancy - m.robEntryCount
    loadQueueOccupancy := s.loadQueueOccupancy - m.usesLoadQueue.toNat
    storeQueueOccupancy := s.storeQueueOccupancy - m.usesStoreQueue.toNat
    renamePending := pushRelease E s m now }

/-- The loop of `_retire`. -/
def retireLoop (width now : ℕ) : ℕ → ℕ → Sched → Sched
  | 0, _, s => s
  | fuel + 1, retired, s =>
    match s.rob.head?.bind E.trace.macro? with
    | none => s
    | some m =>
      if retired < width ∧ (s.macro_ m.id).completeTick.any (· ≤ now) ∧
          retired + m.retireMacroOps ≤ width then
        retireLoop width now fuel (retired + m.retireMacroOps) (retireMacro E s m now)
      else s

/-- `_retire`. -/
def retire (now : ℕ) (s : Sched) : Except SimError Sched := do
  let width ← pipelineInt E.pipeline.retireMacroOpsPerCycle "retire_macro_ops_per_cycle"
  .ok (retireLoop E width now s.rob.length 0 s)

/-! ### The event loop -/

/-- One turn of the loop of `_next_event_tick` over the waiting uops. -/
def pollWaiting (now : ℕ) (s : Sched) (r : MemoryState × List ℕ) (x : ExecutionUop) :
    Except SimError (MemoryState × List ℕ) := do
  let b ← issueBlocker E { s with memory := r.1 } x now
  let ticks ← waitingTicks s.toMachine x now (b.2.bind (·.2))
  .ok (b.1, r.2 ++ ticks)

/-- The tick of the pending releases. -/
def releaseEvent (now : ℕ) (s : Sched) : List ℕ :=
  match s.renamePending with
  | [] => []
  | b :: _ => [if now < b.tick then b.tick else E.nextCycle now]

/-- The events of `_next_event_tick` that no waiting uop is asked about. -/
def scheduledTicks (now : ℕ) (s : Sched) : List ℕ :=
  (s.completionHeap.head?.map (·.tick)).toList ++ (s.serviceHeap.head?.map (·.tick)).toList ++
    releaseEvent E now s ++ if E.unfinished s.toCore then [E.nextCycle now] else []

/-- `_next_event_tick`. -/
def nextEventTick (now : ℕ) (s : Sched) : Except SimError (Sched × ℕ) := do
  let r ← (E.issueCandidates s.toCore).foldlM (pollWaiting E now s) (s.memory, [])
  match (scheduledTicks E now s ++ r.2).min? with
  | none => .error .deadlock
  | some t => .ok ({ s with memory := r.1 }, t)

/-- The body of the loop of `run`, up to the choice of the next tick. -/
def phases (now : ℕ) : List (Sched → Except SimError Sched) :=
  [fun s => .ok (complete E now s).2,
   fun s => .ok (releaseFlows E now s),
   fun s => .ok (releaseRename E now s),
   fun s => if E.boundary now then dispatch E now s else .ok s,
   issueFixedPoint E now,
   fun s => .ok (complete E now s).2,
   fun s => if E.boundary now then retire E now s else .ok s]

/-- The event loop of `run`. -/
def loop : EventLoop.Loop Sched SimError where
  unfinished := fun s => E.unfinished s.toCore
  visit := fun now => visitOf (phases E now)
  next := nextEventTick E
  stuck := .noForwardProgress
  diverged := .didNotConverge

/-- `run`: the state at the end and the last tick. -/
def run : Except SimError (Sched × ℕ) :=
  EventLoop.run (loop E) E.iterationBound 0 (schedInit E)

end Xsai
end VectorSim
