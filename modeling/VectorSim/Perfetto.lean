/-
# The exported trace

`write_perfetto` of `src/simulator/export.py`: the slices of the instructions in a
window of the program, those of their uops on the tracks of the resources, the arrows
from a producer to its consumers, and the counters. The list of events is modelled
with the numbers of its tracks and arrows; what only labels a slice is left out. A
number that a track was not given is a `KeyError`.
-/
import VectorSim.Backend.Machine
import VectorSim.Export
import VectorSim.Lib.Numbering

namespace VectorSim
namespace Export

open Numbering

/-- `instruction_start` and `instruction_limit`. -/
structure Window where
  start : ℤ := 0
  limit : ℤ := 200
  deriving DecidableEq, Repr

/-- `instruction_start <= macro.sequence < end`. -/
def Window.selects (W : Window) (m : MacroOp) : Bool := W.start ≤ m.sequence ∧ m.sequence < W.start + W.limit

/-- A lane of a resource. -/
abbrev LaneKey := String × ℕ

inductive SliceName
  | waiting | executing | retireWait
  deriving DecidableEq, Repr

inductive ThreadName
  | instruction (m : Id)
  | lane (key : LaneKey)
  | counter (track : Track)
  deriving DecidableEq, Repr

/-- An entry of `traceEvents`. -/
inductive TraceEvent
  | processName (pid : ℕ) (name : String)
  | threadName (pid tid : ℕ) (name : ThreadName)
  /-- A phase of an instruction. -/
  | slice (pid tid : ℕ) (name : SliceName) (ts dur : ℕ) (m : Id)
  /-- A uop on its lane. -/
  | uop (pid tid : ℕ) (ts dur : ℕ) (u : Id)
  /-- An arrow leaves its producer. -/
  | flowStart (pid tid ts id : ℕ)
  /-- An arrow reaches its consumer. -/
  | flowFinish (pid tid ts id : ℕ)
  | counter (pid tid ts : ℕ) (name : Track) (entries : ℤ)
  deriving DecidableEq, Repr

inductive ExportError
  | keyError
  deriving DecidableEq, Repr

def pidInstructions : ℕ := 1
def pidResources : ℕ := 2
def pidCounters : ℕ := 3

variable (T : BoundTrace) (W : Window) (s : Machine)

/-- `macros`. -/
def selectedMacros : List MacroOp := T.macros.filter W.selects

/-- `uops`. -/
def selectedUops : List ExecutionUop := T.uops.filter fun x => x.parentId ∈ (selectedMacros T W).map (·.id)

/-! ### Instructions -/

/-- `_slice`. -/
def slice (pid tid : ℕ) (name : SliceName) (start stop : ℕ) (m : Id) : List TraceEvent :=
  if stop ≤ start then [] else [.slice pid tid name start (stop - start) m]

/-- `issue_ticks`. -/
def issueTicksOf (m : MacroOp) : List ℕ :=
  (selectedUops T W).filterMap fun x => if x.parentId = m.id then (s.uop x.id).issueTick else none

/-- The loop over `macros`. -/
def instructionEvents (m : MacroOp) : List TraceEvent :=
  let tid := m.sequence + 1
  let dispatch := (s.macro_ m.id).dispatchTick.getD 0
  let complete := (s.macro_ m.id).completeTick.getD dispatch
  let retire := (s.macro_ m.id).retireTick.getD complete
  let firstIssue := (issueTicksOf T W s m).min?.getD dispatch
  [.threadName pidInstructions tid (.instruction m.id)] ++
    slice pidInstructions tid .waiting dispatch firstIssue m.id ++
    slice pidInstructions tid .executing firstIssue complete m.id ++
    slice pidInstructions tid .retireWait complete retire m.id

/-! ### Resources -/

/-- `(uop.resource, uop.resource_lane or 0)`. -/
def laneOf (u : Id) : Option LaneKey := (s.placement u).resource.map fun r => (r, (s.placement u).lane)

/-- One turn of the loop over `uops`: `resource_tids` and the events. -/
def recordUop (r : List LaneKey × List TraceEvent) (x : ExecutionUop) : List LaneKey × List TraceEvent :=
  match (s.uop x.id).issueTick, (s.uop x.id).completeTick, laneOf s x.id with
  | some issue, some _, some key =>
    let tids := enter r.1 key
    let named := if key ∈ r.1 then [] else [.threadName pidResources (number tids key) (.lane key)]
    (tids, r.2 ++ named ++ [.uop pidResources (number tids key) issue (max x.occupancyTicks 1) x.id])
  | _, _, _ => r

/-- The loop over `uops`. -/
def resourceEvents : List LaneKey × List TraceEvent := (selectedUops T W).foldl (recordUop s) ([], [])

/-! ### Arrows -/

/-- `resource_tids[key]`. -/
def trackOf (tids : List LaneKey) (u : Id) : Except ExportError ℕ :=
  match laneOf s u with
  | some key => if key ∈ tids then .ok (number tids key) else .error .keyError
  | none => .error .keyError

/-- One turn of the inner loop: the next `edge_id` and the events. -/
def recordArrow (tids : List LaneKey) (consumer : ExecutionUop) (issue : ℕ) (r : ℕ × List TraceEvent) (producer : Id) :
    Except ExportError (ℕ × List TraceEvent) :=
  match (selectedUops T W).find? (·.id = producer) with
  | none => .ok r
  | some x =>
    match (s.uop x.id).completeTick, (s.placement x.id).resource with
    | some complete, some _ => do
      let producerTid ← trackOf s tids x.id
      let consumerTid ← trackOf s tids consumer.id
      .ok (r.1 + 1, r.2 ++ [.flowStart pidResources producerTid complete r.1,
        .flowFinish pidResources consumerTid issue r.1])
    | _, _ => .ok r

/-- One turn of the outer loop. `before` is the order of the ids as texts, which `sorted` goes by. -/
def recordArrows (before : Id → Id → Bool) (tids : List LaneKey) (r : ℕ × List TraceEvent) (consumer : ExecutionUop) :
    Except ExportError (ℕ × List TraceEvent) :=
  match (s.uop consumer.id).issueTick with
  | none => .ok r
  | some issue => (consumer.dependencies.mergeSort before).foldlM (recordArrow T W s tids consumer issue) r

/-- The loop over the consumers. -/
def arrowEvents (before : Id → Id → Bool) (tids : List LaneKey) : Except ExportError (ℕ × List TraceEvent) :=
  (selectedUops T W).foldlM (recordArrows T W s before tids) (1, [])

/-! ### The document -/

/-- The names of the processes. -/
def processNames : List TraceEvent :=
  [.processName pidInstructions "instructions", .processName pidResources "execution resources",
    .processName pidCounters "queue occupancy"]

/-- The events of a counter; the tracks are numbered from one. -/
def counterEvents (n : ℕ) (k : Track) : List TraceEvent :=
  .threadName pidCounters (n + 1) (.counter k) ::
    (counterTrack T s.toCore k).map fun e => .counter pidCounters (n + 1) e.1 k e.2

/-- The loop over `counter_names`. -/
def allCounterEvents : List TraceEvent :=
  counterEvents T s 0 .rob ++ counterEvents T s 1 .vectorScheduler ++
    counterEvents T s 2 .loadQueue ++ counterEvents T s 3 .storeQueue

/-- `write_perfetto`: the events. -/
def writePerfetto (before : Id → Id → Bool) : Except ExportError (List TraceEvent) := do
  let resources := resourceEvents T W s
  let arrows ← arrowEvents T W s before resources.1
  .ok (processNames ++ (selectedMacros T W).flatMap (instructionEvents T W s) ++ resources.2 ++ arrows.2 ++
    allCounterEvents T s)

end Export
end VectorSim
