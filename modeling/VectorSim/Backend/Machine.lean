/-
# What the engines share

The resources both engines have, on top of the bookkeeping of `Core`: the
lanes of the execution resources, the issue-domain tokens, the scheduling
classes, the memory hierarchy and the occupancy counters. The methods that
`zen4.py` and `xsai.py` share word for word are defined here once.
-/
import VectorSim.Backend.Core
import VectorSim.Lib.Slots
import VectorSim.Lib.EventLoop
import VectorSim.Lib.FixedPoint

namespace VectorSim

open Checked

/-- The reasons an issue is blocked for. -/
inductive Stall
  | dependency | vectorStateDependency | oldDestinationDependency
  | loadVisibility | epochCompletion | mixedEpochCapacity
  | partOrder | partGap | overlapLimit | issueInterval | resourceBusy | executionUnitBusy
  | splitIssueBusy | serviceBusy | oldest | memoryBandwidth | memoryOutstanding
  | issueDomainBusy | vectorReadDomainBusy | completionDomainBusy
  deriving DecidableEq, Repr

/-- A blocked issue: why, and the first tick to look again (`none` is `math.inf`). -/
abbrev Blocked := Stall × Option ℕ

/-- The reasons a dispatch is blocked for. -/
inductive DispatchStall
  | robFull
  | dispatchDomainFull (domain : String)
  | renameAllocationWidth
  | renameFreeList (name : String)
  | vectorSchedulerFull | loadQueueFull | storeQueueFull
  | schedulerPartitionFull | schedulerPartitionEnqueueWidth
  deriving DecidableEq, Repr

/-- A `dispatch_blocked` event of the XSAI engine. -/
structure BlockedEvent where
  tick : ℕ
  instructionId : Id
  sequence : ℕ
  reason : DispatchStall
  domain : Option String
  deriving DecidableEq, Repr

/-- Where a uop executes. -/
structure Placement where
  resource : Option String := none
  lane : ℕ := 0
  partition : Option String := none
  unit : Option String := none
  readDomain : Option String := none
  completionDomain : Option String := none
  memoryLevel : Option ℕ := none
  deriving DecidableEq, Repr

/-- What an engine's constructor fixes for a run. -/
structure Setup where
  trace : BoundTrace
  inOrder : Bool
  pipeline : Pipeline
  issueDomains : List (String × ℕ+)
  overlap : OverlapLimit
  memory : MemoryConfig
  memoryInit : MemoryState

/-- The state both engines have. -/
structure Machine extends Core where
  resourceFree : String → List ℕ
  lastClassIssue : SchedulingClass → Option ℕ
  issueDomainFree : String → List ℕ
  pendingGroups : List Id
  memory : MemoryState
  placement : Id → Placement
  robOccupancy : ℤ
  vectorSchedulerOccupancy : ℤ
  loadQueueOccupancy : ℤ
  storeQueueOccupancy : ℤ
  /-- `self.stalls`, in the order in which they are counted. -/
  stalls : List DispatchStall

namespace Setup

variable (E : Setup)

/-- The part of the constructors that the engines share. -/
def init (T : BoundTrace) (P : EngineProfile) (inOrder : Bool) (mode : CacheMode)
    (overlapLimit : Option Bool) : Except SimError Setup := do
  let memoryInit ← liftMemory (P.memory.initialState mode T.sourceLines)
  let issueDomains ← liftProfile (P.issueDomains.mapM fun e => do
    let n ← parameterInt e.2 s!"issue_domains.{e.1}.capacity"
    return (e.1, n))
  check (∀ x ∈ T.uops, ∀ d ∈ x.issueDomains, d ∈ issueDomains.map (·.1))
    (.setup "bound trace references unknown issue domains")
  -- `now % self.tpc` of the first tick
  check (0 < T.ticksPerCycle) (.setup "integer modulo by zero")
  return { trace := T, inOrder := inOrder, pipeline := P.pipeline, issueDomains := issueDomains,
           overlap := { P.overlap with enabled := overlapLimit.getD P.overlap.enabled },
           memory := P.memory, memoryInit := memoryInit }

/-- `self.uops[u]`. -/
def uop (u : Id) : ExecutionUop := (E.trace.uop? u).getD
  { id := u, sequence := 0, parentId := 0, kind := .ret, schedulingClass := .internal "",
    latencyTicks := 0, issueIntervalTicks := 0, occupancyTicks := 0, resourceChoices := [] }

theorem uop_eq {E : Setup} (hT : WellFormed E.trace) {x : ExecutionUop} (hx : x ∈ E.trace.uops) : E.uop x.id = x := by
  rw [Setup.uop, hT.uop?_eq hx]; rfl

def ticksPerCycle : ℕ := E.trace.ticksPerCycle

/-- `[0] * capacity` for each entry. -/
def freeSlots (capacities : List (String × ℕ)) (name : String) : List ℕ :=
  List.replicate (lookupD capacities name 0) 0

def machineInit : Machine where
  toCore := Core.init E.trace
  resourceFree := freeSlots E.trace.resources
  lastClassIssue := fun _ => none
  issueDomainFree := freeSlots (E.issueDomains.map fun e => (e.1, (e.2 : ℕ)))
  pendingGroups := []
  memory := E.memoryInit
  placement := fun _ => {}
  robOccupancy := 0
  vectorSchedulerOccupancy := 0
  loadQueueOccupancy := 0
  storeQueueOccupancy := 0
  stalls := []

/-- `_issue_candidates`. -/
def issueCandidates (c : Core) : List ExecutionUop :=
  if E.inOrder then
    match E.trace.uops[c.inOrderIssueIndex]? with
    | some x => if x.id ∈ c.unissued then [x] else []
    | none => []
  else (E.trace.uops.filter fun x => x.id ∈ c.unissued).insertionSort fun a b => a.sequence ≤ b.sequence

/-! ### Issue checks -/

/-- The dependencies that have not completed. -/
def incomplete (c : Core) (x : ExecutionUop) : List Id :=
  x.dependencies.filter fun d => (c.uop d).completeTick.isNone

/-- The first check of `_issue_blocker`: the uop's dependencies. -/
def dependencyBlocker (reason : List Id → Stall) (c : Core) (x : ExecutionUop) (now : ℕ) :
    Option Blocked :=
  if incomplete c x ≠ [] then
    let known := (incomplete c x).filterMap fun d =>
      (c.uop d).issueTick.map (· + (c.uop d).latencyTicks)
    some (reason (incomplete c x), known.min?)
  else if now < c.dependencyReadyTick x then some (.dependency, some (c.dependencyReadyTick x))
  else none

/-- The part-order check. -/
def partBlocker (c : Core) (x : ExecutionUop) (now : ℕ) : Option Blocked :=
  match x.issueAfterUop with
  | none => none
  | some p =>
    match (c.uop p).issueTick with
    | none => some (.partOrder, none)
    | some t => if now < t + x.issueGapTicks then some (.partGap, some (t + x.issueGapTicks)) else none

/-- `_depends_transitively_on_any`: a depth-first search inside the macro-op. -/
def dependsTransitively (targets : List Id) (macroUops : List Id) : ℕ → List Id → List Id → Bool
  | 0, _, _ => false
  | _ + 1, [], _ => false
  | fuel + 1, d :: pending, visited =>
    if d ∈ targets then true
    else if d ∈ visited ∨ d ∉ macroUops then dependsTransitively targets macroUops fuel pending visited
    else dependsTransitively targets macroUops fuel ((E.uop d).dependencies.reverse ++ pending) (d :: visited)

/-- Enough steps for a search that visits every uop once. -/
def searchFuel : ℕ := (E.trace.uops.map fun x => x.dependencies.length + 1).sum * 2 + 1

def semanticKind? (i : SemanticId) : Option SemanticKind := E.trace.semanticKinds.lookup i

/-- The load uops of a macro-op. -/
def loadIds (m : MacroOp) : List Id := m.uopIds.filter fun u => (E.uop u).kind = .loadData

/-- `_discover_memory_compute_groups`: a macro-op's compute uops that depend on its loads. -/
def computeIds (m : MacroOp) : List Id :=
  m.uopIds.filter fun u =>
    (E.uop u).semanticIds.any (fun i => (E.semanticKind? i).any (· ∈ E.overlap.computeKinds)) &&
      E.dependsTransitively (E.loadIds m) m.uopIds E.searchFuel (E.uop u).dependencies.reverse []

/-- `self.memory_compute_groups.get(macro_id)`. -/
def group? (m : Id) : Option (List Id) :=
  (E.trace.macro? m).bind fun m =>
    if E.loadIds m = [] ∨ E.computeIds m = [] then none else some (E.computeIds m)

/-- `_memory_compute_overlap_blocked`. -/
def overlapBlocked (s : Machine) (x : ExecutionUop) : Bool :=
  E.overlap.enabled && x.kind = .loadData && (E.group? x.parentId).isSome &&
    !(x.parentId ∈ s.pendingGroups) && E.overlap.maxPendingGroups ≤ s.pendingGroups.length

def overlapBlocker (s : Machine) (x : ExecutionUop) : Option Blocked :=
  if E.overlapBlocked s x then some (.overlapLimit, none) else none

/-- The issue interval of the uop's scheduling class. -/
def intervalBlocker (s : Machine) (x : ExecutionUop) (now : ℕ) : Option Blocked :=
  match s.lastClassIssue x.schedulingClass with
  | none => none
  | some t =>
    if now < t + x.issueIntervalTicks then some (.issueInterval, some (t + x.issueIntervalTicks)) else none

/-- `min(self.resource_free[resource])`. -/
def firstFree (s : Machine) (r : String) : Except SimError ℕ :=
  match (s.resourceFree r).min? with
  | some t => .ok t
  | none => .error (.emptyMin "resource_free")

/-- `any(min(self.resource_free[value]) <= now for value in ...)`. -/
def anyFree (s : Machine) (now : ℕ) : List String → Except SimError Bool
  | [] => .ok false
  | r :: rs => do
    let t ← firstFree s r
    if t ≤ now then .ok true else anyFree s now rs

/-- The resource check. -/
def resourceBlocker (s : Machine) (x : ExecutionUop) (now : ℕ) :
    Except SimError (Option Blocked) := do
  let free ← anyFree s now x.resourceChoices
  if free then .ok none
  else do
    let ticks ← x.resourceChoices.mapM (firstFree s)
    match ticks.min? with
    | some t => .ok (some (.resourceBusy, some t))
    | none => .error (.emptyMin "resource_choices")

/-- `self.memory.blocker`. -/
def hierarchyBlocker (memory : MemoryState) (x : ExecutionUop) (now : ℕ) :
    Except SimError (MemoryState × Option Blocked) := do
  let r ← liftMemory (E.memory.blocker memory x.memory now)
  .ok (r.1, r.2.map fun
    | (.bandwidth, t) => (.memoryBandwidth, some t)
    | (.outstanding, t) => (.memoryOutstanding, some t))

def issueDomainDemand (x : ExecutionUop) (d : String) : ℕ := lookupD x.issueDomainDemands d 1

/-- `_issue_domain_ready_tick`. -/
def issueDomainReadyTick (s : Machine) (x : ExecutionUop) (d : String) : Except SimError ℕ :=
  if (s.issueDomainFree d).length < issueDomainDemand x d then .error (.demandExceedsCapacity x.id d)
  else .ok (Slots.readyTick (s.issueDomainFree d) (issueDomainDemand x d))

/-- The issue-domain check. -/
def domainBlocker (s : Machine) (x : ExecutionUop) (now : ℕ) : Except SimError (Option Blocked) := do
  let ticks ← x.issueDomains.mapM (issueDomainReadyTick s x)
  .ok (if ticks.any (now < ·) then some (.issueDomainBusy, some (ticks.foldl max 0)) else none)

/-! ### Dispatch checks -/

/-- The check of a queue, for a macro-op that uses it. -/
def queueFull (uses : Bool) (capacity : Option ℕ) (name : String) (occupancy : ℤ) :
    Except SimError Bool :=
  if uses then do
    let entries ← pipelineInt capacity name
    .ok (decide ((entries : ℤ) ≤ occupancy))
  else .ok false

/-! ### Effects of an issue -/

/-- `_reserve_issue_domains`, one domain after the other. -/
def reserveIssueDomains (x : ExecutionUop) (now : ℕ) :
    List String → (String → List ℕ) → Except SimError (String → List ℕ)
  | [], free => .ok free
  | d :: ds, free =>
    let lanes := Slots.pick (free d) (issueDomainDemand x d)
    if lanes.any (fun l => now < (free d).getD l 0) then .error (.reservedUnavailableDomain x.id)
    else reserveIssueDomains x now ds
      (Function.update free d (Slots.occupy (free d) lanes (now + x.occupancyTicks)))

/-- `_update_memory_compute_groups_after_issue`, with the issue ticks of `c`. -/
def updateGroups (c : Core) (x : ExecutionUop) (pending : List Id) : List Id :=
  if !E.overlap.enabled then pending
  else match E.group? x.parentId with
    | none => pending
    | some compute =>
      let pending := if x.kind = .loadData then pending.insert x.parentId else pending
      if x.id ∈ compute ∧ ∀ u ∈ compute, (c.uop u).issueTick.isSome then
        pending.filter (· ≠ x.parentId)
      else pending

/-- The uops of the macro-op of `x`. -/
def siblings (x : ExecutionUop) : List Id := ((E.trace.macro? x.parentId).map (·.uopIds)).getD []

/-- Another vector uop of the macro-op has issued. -/
def otherVectorIssued (c : Core) (x : ExecutionUop) : Bool :=
  (E.siblings x).any fun v =>
    v ≠ x.id && (E.uop v).kind.isVectorResource && (c.uop v).issueTick.isSome

/-- The part of `_next_event_tick` for one waiting uop, given its blocker's tick. -/
def waitingTicks (s : Machine) (x : ExecutionUop) (now : ℕ) (earliest : Option ℕ) :
    Except SimError (List ℕ) := do
  let resources ← x.resourceChoices.mapM (firstFree s)
  let interval := (s.lastClassIssue x.schedulingClass).map (· + x.issueIntervalTicks)
  let domains ← x.issueDomains.mapM (issueDomainReadyTick s x)
  .ok ((earliest.toList ++ resources ++ interval.toList ++ domains).filter (now < ·))

/-- `now % self.tpc == 0`. -/
def boundary (now : ℕ) : Bool := now % E.ticksPerCycle = 0

/-- `(now // tpc + 1) * tpc`. -/
def nextCycle (now : ℕ) : ℕ := (now / E.ticksPerCycle + 1) * E.ticksPerCycle

/-- The bound on the iterations of the event loop. -/
def iterationBound : ℕ := max 10000 (E.trace.uops.length * 100)

/-- The loop condition of `run`. -/
def unfinished (c : Core) : Bool := c.nextDispatch < E.trace.macros.length || !c.rob.isEmpty

/-- One visit of the event loop: its procedures, in order. -/
def visitOf {σ : Type} (phases : List (σ → Except SimError σ)) (s : σ) : Except SimError σ :=
  phases.foldlM (fun s f => f s) s

end Setup

end VectorSim
