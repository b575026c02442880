/-
# The bookkeeping of a run

The Zen 4 engine (`src/backend/zen4.py`) and the XSAI engine
(`src/backend/xsai.py`) are two event loops over the same bookkeeping: the
timing fields of the uops and macro-ops, the reorder buffer, the set of
dispatched uops that have not issued, the heap of completions and the event
log. `Core` is that bookkeeping, with the few ways in which an engine changes
it.
-/
import VectorSim.Trace
import VectorSim.Policy
import VectorSim.Lib.Queue

namespace VectorSim

open Checked

/-- The errors an engine raises. -/
inductive SimError
  | validation (e : TraceError)
  | memory (e : MemoryError)
  | profile (e : ProfileError)
  /-- "unknown execution model", "bound trace references unknown issue domains", ... -/
  | setup (message : String)
  | didNotConverge
  | noForwardProgress (now : ℕ)
  | deadlock
  | selectedUnavailableResource
  | selectedUnavailablePath (u : Id)
  | reservedUnavailableDomain (u : Id)
  | reservedUnavailableRead (domain : String)
  | negativeSchedulerOccupancy (partition : String)
  | dispatchAccounting (m : Id)
  | missingDispatchDomain
  | unknownDispatchDomain (m : Id) (domain : String)
  | unknownFreeList (m : Id)
  | demandExceedsCapacity (u : Id) (domain : String)
  | noExecutionUnit (u : Id)
  /-- `min` of an empty sequence, with the place where it is taken -/
  | emptyMin (site : String)
  /-- the issue fixed point of the model ran out of steps -/
  | outOfSteps
  deriving DecidableEq, Repr

/-- Raises a memory error as the engine's. -/
def liftMemory {α : Type} : Except MemoryError α → Except SimError α
  | .ok a => .ok a
  | .error e => .error (.memory e)

/-- Raises a profile error as the engine's. -/
def liftProfile {α : Type} : Except ProfileError α → Except SimError α
  | .ok a => .ok a
  | .error e => .error (.profile e)

/-- `int(self.profile.pipeline[name])`. -/
def pipelineInt (value : Option ℕ) (name : String) : Except SimError ℕ :=
  match value with
  | some n => .ok n
  | none => .error (.profile (.measure name))

/-- The timing fields of an execution uop. -/
structure UopState where
  dispatchTick : Option ℕ := none
  readyTick : Option ℕ := none
  issueTick : Option ℕ := none
  completeTick : Option ℕ := none
  latencyTicks : ℕ := 0
  deriving DecidableEq, Repr

/-- The timing fields of a macro-op. -/
structure MacroState where
  dispatchTick : Option ℕ := none
  completeTick : Option ℕ := none
  retireTick : Option ℕ := none
  deriving DecidableEq, Repr

inductive EventKind
  | dispatch | ready | issue | complete | retire
  deriving DecidableEq, Repr

/-- An entry of the event log: of a uop, or for `retire` of a macro-op. -/
structure Event where
  kind : EventKind
  tick : ℕ
  id : Id
  deriving DecidableEq, Repr

/-- An entry `(tick, sequence, uop_id)` of a heap. -/
structure HeapEntry where
  tick : ℕ
  sequence : ℕ
  id : Id
  deriving DecidableEq, Repr

def HeapEntry.key (e : HeapEntry) : ℕ × ℕ × ℕ := (e.tick, e.sequence, e.id)

structure Core where
  uop : Id → UopState
  macro_ : Id → MacroState
  rob : List Id
  unissued : List Id
  completionHeap : List HeapEntry
  nextDispatch : ℕ
  inOrderIssueIndex : ℕ
  events : List Event

namespace Core

/-- Before the first tick. -/
def init (T : BoundTrace) : Core where
  uop := fun u => { latencyTicks := ((T.uop? u).map (·.latencyTicks)).getD 0 }
  macro_ := fun _ => {}
  rob := []
  unissued := []
  completionHeap := []
  nextDispatch := 0
  inOrderIssueIndex := 0
  events := []

/-- `_dependency_ready_tick`. -/
def dependencyReadyTick (c : Core) (x : ExecutionUop) : ℕ :=
  (x.dependencies.map fun d => (c.uop d).completeTick.getD 0).foldl max
    ((c.uop x.id).dispatchTick.getD 0)

/-- A macro-op enters the reorder buffer. -/
def enterRob (c : Core) (m : Id) (now : ℕ) : Core :=
  { c with
    macro_ := Function.update c.macro_ m { c.macro_ m with dispatchTick := some now }
    rob := c.rob ++ [m] }

/-- A uop enters its scheduler. -/
def dispatchUop (c : Core) (now : ℕ) (u : Id) : Core :=
  { c with
    uop := Function.update c.uop u { c.uop u with dispatchTick := some now }
    unissued := c.unissued.insert u
    events := c.events ++ [⟨.dispatch, now, u⟩] }

/-- Several uops enter their schedulers, in order. -/
def dispatchAll (c : Core) (now : ℕ) (us : List Id) : Core :=
  us.foldl (fun c u => c.dispatchUop now u) c

/-- The macro-op at the head of the trace is done with. -/
def advance (c : Core) : Core := { c with nextDispatch := c.nextDispatch + 1 }

/-- A uop issues; its completion is due `latency` ticks from now. -/
def issue (c : Core) (x : ExecutionUop) (now latency : ℕ) (inOrder : Bool) : Core :=
  let u := { c.uop x.id with
    readyTick := some (c.dependencyReadyTick x), issueTick := some now, latencyTicks := latency }
  { c with
    uop := Function.update c.uop x.id u
    unissued := c.unissued.erase x.id
    completionHeap := Queue.push HeapEntry.key ⟨now + latency, x.sequence, x.id⟩ c.completionHeap
    events := c.events ++ [⟨.ready, c.dependencyReadyTick x, x.id⟩, ⟨.issue, now, x.id⟩]
    inOrderIssueIndex := if inOrder then c.inOrderIssueIndex + 1 else c.inOrderIssueIndex }

/-- `self.macros[uop.parent_id]`. -/
def parentMacro? (T : BoundTrace) (u : Id) : Option MacroOp :=
  (T.uop? u).bind fun x => T.macro? x.parentId

/-- `max(self.uops[value].complete_tick or 0 for value in macro.uop_ids)`. -/
def lastCompletion (uop : Id → UopState) (m : MacroOp) : ℕ :=
  (m.uopIds.map fun v => (uop v).completeTick.getD 0).foldl max 0

/-- The macro-ops once a uop has completed: its parent completes with its last uop. -/
def completedMacros (T : BoundTrace) (uop : Id → UopState) (macro_ : Id → MacroState) (u : Id) :
    Id → MacroState :=
  match parentMacro? T u with
  | some m =>
    if ∀ v ∈ m.uopIds, (uop v).completeTick.isSome then
      Function.update macro_ m.id { macro_ m.id with completeTick := some (lastCompletion uop m) }
    else macro_
  | none => macro_

/-- A uop completes. -/
def completeUop (c : Core) (T : BoundTrace) (tick : ℕ) (u : Id) : Core :=
  let uop := Function.update c.uop u { c.uop u with completeTick := some tick }
  { c with
    uop := uop
    macro_ := completedMacros T uop c.macro_ u
    events := c.events ++ [⟨.complete, tick, u⟩] }

/-- A macro-op leaves the reorder buffer. -/
def retire (c : Core) (m : Id) (now : ℕ) : Core :=
  { c with
    rob := c.rob.tail
    macro_ := Function.update c.macro_ m { c.macro_ m with retireTick := some now }
    events := c.events ++ [⟨.retire, now, m⟩] }

end Core

end VectorSim
