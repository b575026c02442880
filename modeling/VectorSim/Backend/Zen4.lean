/-
# The Zen 4 engine

`src/backend/zen4.py`. Every macro-op is dispatched whole, at an architectural
cycle boundary, and enters one scheduler; a uop issues on a lane of one of its
resources when its dependencies, its resources, the memory hierarchy and its
issue domains allow it.
-/
import VectorSim.Backend.Machine

namespace VectorSim
namespace Zen4

open Checked Setup

/-- `Engine.__init__`. -/
def init (T : BoundTrace) (P : EngineProfile) (inOrder : Bool) (mode : CacheMode)
    (overlapLimit : Option Bool) : Except SimError Setup := do
  match validateBoundTrace T with
  | .error e => .error (.validation e)
  | .ok _ => Setup.init T P inOrder mode overlapLimit

variable (E : Setup)

/-! ### Completion -/

/-- The head of the heap leaves it: whether its uop completes, and the state after. -/
def completeEntry (s : Machine) (e : HeapEntry) (rest : List HeapEntry) : Bool × Machine :=
  let c := { s.toCore with completionHeap := rest }
  if (c.uop e.id).completeTick.isSome then (false, { s with toCore := c })
  else (true, { s with toCore := c.completeUop E.trace e.tick e.id })

/-- The loop of `_complete`; no entry is added to the heap meanwhile. -/
def completeLoop (now : ℕ) : ℕ → Machine → Bool × Machine
  | 0, s => (false, s)
  | fuel + 1, s =>
    match s.completionHeap with
    | [] => (false, s)
    | e :: rest =>
      if e.tick ≤ now then
        let r := completeEntry E s e rest
        let r' := completeLoop now fuel r.2
        (r.1 || r'.1, r'.2)
      else (false, s)

/-- `_complete`. -/
def complete (now : ℕ) (s : Machine) : Bool × Machine :=
  completeLoop E now s.completionHeap.length s

/-! ### Dispatch -/

/-- `_dispatch_blocker`. -/
def dispatchBlocker (s : Machine) (m : MacroOp) : Except SimError (Option DispatchStall) := do
  let robEntries ← pipelineInt E.pipeline.robEntries "rob_entries"
  if robEntries < s.robOccupancy + m.decodedMacroOps then .ok (some .robFull)
  else do
  let vectorEntries ← pipelineInt E.pipeline.vectorSchedulerEntries "vector_scheduler_entries"
  if vectorEntries < s.vectorSchedulerOccupancy + m.usesVectorScheduler.toNat then
    .ok (some .vectorSchedulerFull)
  else do
  let loadFull ← queueFull m.usesLoadQueue E.pipeline.loadQueueEntries "load_queue_entries"
    s.loadQueueOccupancy
  if loadFull then .ok (some .loadQueueFull)
  else do
  let storeFull ← queueFull m.usesStoreQueue E.pipeline.storeQueueEntries "store_queue_entries"
    s.storeQueueOccupancy
  .ok (if storeFull then some .storeQueueFull else none)

/-- The macro-op is dispatched, with all its uops. -/
def dispatchMacro (s : Machine) (m : MacroOp) (now : ℕ) : Machine :=
  { s with
    toCore := ((s.toCore.enterRob m.id now).dispatchAll now m.uopIds).advance
    robOccupancy := s.robOccupancy + m.decodedMacroOps
    vectorSchedulerOccupancy := s.vectorSchedulerOccupancy + m.usesVectorScheduler.toNat
    loadQueueOccupancy := s.loadQueueOccupancy + m.usesLoadQueue.toNat
    storeQueueOccupancy := s.storeQueueOccupancy + m.usesStoreQueue.toNat }

/-- The loop of `_dispatch`, which goes on to the next macro-op at every turn. -/
def dispatchLoop (width now : ℕ) : ℕ → ℕ → Machine → Except SimError Machine
  | 0, _, s => .ok s
  | fuel + 1, dispatched, s =>
    match E.trace.macros[s.nextDispatch]? with
    | none => .ok s
    | some m =>
      if width ≤ dispatched ∨ width < dispatched + m.decodedMacroOps then .ok s
      else do
        match ← dispatchBlocker E s m with
        | some reason => .ok { s with stalls := s.stalls ++ [reason] }
        | none => dispatchLoop width now fuel (dispatched + m.decodedMacroOps) (dispatchMacro s m now)

/-- `_dispatch`. -/
def dispatch (now : ℕ) (s : Machine) : Except SimError Machine := do
  let width ← pipelineInt E.pipeline.dispatchMacroOpsPerCycle "dispatch_macro_ops_per_cycle"
  dispatchLoop E width now (E.trace.macros.length - s.nextDispatch) 0 s

/-! ### Issue -/

/-- The checks before the resources. -/
def earlyBlocker (s : Machine) (x : ExecutionUop) (now : ℕ) : Option Blocked :=
  (dependencyBlocker (fun _ => .dependency) s.toCore x now).or <|
    (partBlocker s.toCore x now).or <| (E.overlapBlocker s x).or <| intervalBlocker s x now

/-- The memory check of a load or store. -/
def memoryBlocker (s : Machine) (x : ExecutionUop) (now : ℕ) :
    Except SimError (MemoryState × Option Blocked) :=
  if x.kind.isMemory then E.hierarchyBlocker s.memory x now else .ok (s.memory, none)

/-- `_issue_blocker`, with the memory hierarchy it leaves behind. -/
def issueBlocker (s : Machine) (x : ExecutionUop) (now : ℕ) :
    Except SimError (MemoryState × Option Blocked) :=
  match earlyBlocker E s x now with
  | some b => .ok (s.memory, some b)
  | none => do
    match ← resourceBlocker s x now with
    | some b => .ok (s.memory, some b)
    | none => do
      let r ← memoryBlocker E s x now
      match r.2 with
      | some b => .ok (r.1, some b)
      | none => do
        let b ← domainBlocker s x now
        .ok (r.1, b)

/-- A resource of `_select_resource` with its first free lane: `(free tick, resource, lane)`. -/
def laneOf (s : Machine) (r : String) : Except SimError (ℕ × String × ℕ) := do
  let t ← firstFree s r
  .ok (t, r, (s.resourceFree r).idxOf t)

def choiceLe (a b : ℕ × String × ℕ) : Bool :=
  a.1 < b.1 || (a.1 = b.1 && (a.2.1 < b.2.1 || (a.2.1 = b.2.1 && a.2.2 ≤ b.2.2)))

/-- `_select_resource`. -/
def selectResource (s : Machine) (x : ExecutionUop) (now : ℕ) : Except SimError (String × ℕ) := do
  let choices ← x.resourceChoices.mapM (laneOf s)
  match Slots.minBy? choiceLe choices with
  | none => .error (.emptyMin "choices")
  | some c => if now < c.1 then .error .selectedUnavailableResource else .ok c.2

/-- The memory access of a load or store: the hierarchy after it, the level, and the
latency, which for a load is that of the access. -/
def accessMemory (s : Machine) (x : ExecutionUop) (now : ℕ) :
    Except SimError (MemoryState × Option ℕ × ℕ) :=
  if x.kind.isMemory then do
    let r ← liftMemory (E.memory.access s.memory x.memory now)
    .ok (r.1, some r.2.level,
      if x.kind = .loadData then r.2.latencyTicks else (s.uop x.id).latencyTicks)
  else .ok (s.memory, none, (s.uop x.id).latencyTicks)

/-- The state after an issue. -/
def issued (s : Machine) (x : ExecutionUop) (now : ℕ) (r : String × ℕ)
    (a : MemoryState × Option ℕ × ℕ) (free : String → List ℕ) : Machine :=
  let core := s.toCore.issue x now a.2.2 E.inOrder
  { s with
    toCore := core
    resourceFree := Function.update s.resourceFree r.1 ((s.resourceFree r.1).set r.2 (now + x.occupancyTicks))
    lastClassIssue := Function.update s.lastClassIssue x.schedulingClass (some now)
    issueDomainFree := free
    pendingGroups := E.updateGroups core x s.pendingGroups
    memory := a.1
    placement := Function.update s.placement x.id
      { resource := some r.1, lane := r.2, memoryLevel := a.2.1 }
    vectorSchedulerOccupancy := s.vectorSchedulerOccupancy -
      (x.kind.isVectorResource && !E.otherVectorIssued s.toCore x).toNat }

/-- The body of the loop of `_issue_once` for a uop that is not blocked. -/
def issueUop (s : Machine) (x : ExecutionUop) (now : ℕ) : Except SimError Machine := do
  let r ← selectResource s x now
  let a ← accessMemory E s x now
  let free ← reserveIssueDomains x now x.issueDomains s.issueDomainFree
  .ok (issued E s x now r a free)

/-- The loop of `_issue_once`: whether a uop issued, and the state after. -/
def issueList (now : ℕ) : List ExecutionUop → Machine → Except SimError (Bool × Machine)
  | [], s => .ok (false, s)
  | x :: xs, s => do
    let b ← issueBlocker E s x now
    match b.2 with
    | some _ =>
      if E.inOrder then .ok (false, { s with memory := b.1 })
      else issueList now xs { s with memory := b.1 }
    | none => do
      let s ← issueUop E { s with memory := b.1 } x now
      let r ← issueList now xs s
      .ok (true, r.2)

/-- `_issue_once`. -/
def issueOnce (now : ℕ) (s : Machine) : Except SimError (Bool × Machine) :=
  issueList E now (E.issueCandidates s.toCore) s

/-- `_issue_fixed_point`: every turn but the last issues or completes a uop. -/
def issueFixedPoint (now : ℕ) (s : Machine) : Except SimError Machine :=
  FixedPoint.run (complete E now) (issueOnce E now) .outOfSteps
    (2 * s.unissued.length + s.completionHeap.length + 1) s

/-! ### Retirement -/

/-- A macro-op retires. -/
def retireMacro (s : Machine) (m : MacroOp) (now : ℕ) : Machine :=
  { s with
    toCore := s.toCore.retire m.id now
    robOccupancy := s.robOccupancy - m.decodedMacroOps
    loadQueueOccupancy := s.loadQueueOccupancy - m.usesLoadQueue.toNat
    storeQueueOccupancy := s.storeQueueOccupancy - m.usesStoreQueue.toNat }

/-- The loop of `_retire`. -/
def retireLoop (width now : ℕ) : ℕ → ℕ → Machine → Machine
  | 0, _, s => s
  | fuel + 1, retired, s =>
    match s.rob.head?.bind E.trace.macro? with
    | none => s
    | some m =>
      if retired < width ∧ (s.macro_ m.id).completeTick.any (· ≤ now) ∧
          retired + m.retireMacroOps ≤ width then
        retireLoop width now fuel (retired + m.retireMacroOps) (retireMacro s m now)
      else s

/-- `_retire`. -/
def retire (now : ℕ) (s : Machine) : Except SimError Machine := do
  let width ← pipelineInt E.pipeline.retireMacroOpsPerCycle "retire_macro_ops_per_cycle"
  .ok (retireLoop E width now s.rob.length 0 s)

/-! ### The event loop -/

/-- One turn of the loop of `_next_event_tick` over the waiting uops. -/
def pollWaiting (now : ℕ) (s : Machine) (r : MemoryState × List ℕ) (x : ExecutionUop) :
    Except SimError (MemoryState × List ℕ) := do
  let b ← issueBlocker E { s with memory := r.1 } x now
  let ticks ← waitingTicks s x now (b.2.bind (·.2))
  .ok (b.1, r.2 ++ ticks)

/-- The events of `_next_event_tick` that no waiting uop is asked about. -/
def scheduledTicks (now : ℕ) (s : Machine) : List ℕ :=
  (s.completionHeap.head?.map (·.tick)).toList ++
    if E.unfinished s.toCore then [E.nextCycle now] else []

/-- `_next_event_tick`. -/
def nextEventTick (now : ℕ) (s : Machine) : Except SimError (Machine × ℕ) := do
  let r ← (E.issueCandidates s.toCore).foldlM (pollWaiting E now s) (s.memory, [])
  match (scheduledTicks E now s ++ r.2).min? with
  | none => .error .deadlock
  | some t => .ok ({ s with memory := r.1 }, t)

/-- The body of the loop of `run`, up to the choice of the next tick. -/
def phases (now : ℕ) : List (Machine → Except SimError Machine) :=
  [fun s => .ok (complete E now s).2,
   fun s => if E.boundary now then dispatch E now s else .ok s,
   issueFixedPoint E now,
   fun s => .ok (complete E now s).2,
   fun s => if E.boundary now then retire E now s else .ok s]

/-- The event loop of `run`. -/
def loop : EventLoop.Loop Machine SimError where
  unfinished := fun s => E.unfinished s.toCore
  visit := fun now => visitOf (phases E now)
  next := nextEventTick E
  stuck := .noForwardProgress
  diverged := .didNotConverge

/-- `Engine.run`: the state at the end and the last tick. -/
def run : Except SimError (Machine × ℕ) :=
  EventLoop.run (loop E) E.iterationBound 0 E.machineInit

end Zen4
end VectorSim
