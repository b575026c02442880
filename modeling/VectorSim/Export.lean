/-
# The exported counters

`_occupancy_samples` of `src/simulator/export.py`, and the counter tracks that
`write_perfetto` writes of it: the occupancy of the reorder buffer, the two
queues and the vector scheduler, put together again from the timestamps of a
run that has ended. The export has a list of the vector kinds of its own. Last
come the lines of the event file.
-/
import VectorSim.Backend.Machine
import VectorSim.Lib.StableSort
import VectorSim.Lib.Timeline
import Mathlib.Data.Prod.Lex
import Mathlib.Data.String.Basic

namespace VectorSim
namespace Export

variable (T : BoundTrace) (c : Core)

/-- `counter_names`. -/
inductive Track
  | rob | vectorScheduler | loadQueue | storeQueue
  deriving DecidableEq, Repr

/-- `deltas[tick][name] += amount`. -/
def change (tick : ℕ) (k : Track) (amount : ℤ) : ℕ × (Track → ℤ) := (tick, Pi.single k amount)

/-- The first loop: a macro-op in the reorder buffer and the queues. -/
def queueChanges (m : MacroOp) : List (ℕ × (Track → ℤ)) :=
  match (c.macro_ m.id).dispatchTick, (c.macro_ m.id).retireTick with
  | some dispatch, some retire =>
    [change dispatch .rob m.robEntryCount, change retire .rob (-m.robEntryCount)] ++
      (if m.usesLoadQueue then [change dispatch .loadQueue 1, change retire .loadQueue (-1)] else []) ++
      if m.usesStoreQueue then [change dispatch .storeQueue 1, change retire .storeQueue (-1)] else []
  | _, _ => []

/-- The vector kinds of the export. -/
def exportedKinds : List Kind := [.vectorFp, .vectorInteger, .conversion, .shuffle]

/-- A uop of one of these kinds. -/
def isExported (u : Id) : Bool := (T.uop? u).any fun x => x.kind ∈ exportedKinds

/-- `vector_issue_ticks`. -/
def vectorIssueTicks (m : MacroOp) : List ℕ :=
  m.uopIds.filterMap fun u => if isExported T u then (c.uop u).issueTick else none

/-- The second loop: a macro-op in the vector scheduler. -/
def schedulerChanges (m : MacroOp) : List (ℕ × (Track → ℤ)) :=
  match m.usesVectorScheduler, (c.macro_ m.id).dispatchTick with
  | true, some dispatch =>
    change dispatch .vectorScheduler 1 ::
      match (vectorIssueTicks T c m).min? with
      | some issue => [change issue .vectorScheduler (-1)]
      | none => []
  | _, _ => []

/-- `deltas`, in the order in which they are added. -/
def deltas : List (ℕ × (Track → ℤ)) :=
  T.macros.flatMap (queueChanges c) ++ T.macros.flatMap (schedulerChanges T c)

/-- `_occupancy_samples`. -/
def occupancySamples : List (ℕ × (Track → ℤ)) := Timeline.samples (deltas T c)

/-- The counter events of a track. -/
def counterTrack (k : Track) : List (ℕ × ℤ) := (occupancySamples T c).map fun s => (s.1, s.2 k)

/-- What a track shows at a tick: a counter keeps its value up to its next event. -/
def shown (k : Track) (u : ℕ) : ℤ := Timeline.shown (counterTrack T c k) u

/-! ### The event file -/

/-- An entry of `result.events`: the event of a uop or a macro-op, or that of a blocked dispatch. -/
inductive Line
  | event (e : Event)
  | blocked (b : BlockedEvent)
  deriving DecidableEq, Repr

/-- `event["type"]` of a uop or a macro-op. -/
def typeName : EventKind → String
  | .dispatch => "dispatch"
  | .ready => "ready"
  | .issue => "issue"
  | .complete => "complete"
  | .retire => "retire"

def Line.tick : Line → ℕ
  | .event e => e.tick
  | .blocked b => b.tick

/-- `value["type"]`. -/
def Line.type : Line → String
  | .event e => typeName e.kind
  | .blocked _ => "dispatch_blocked"

/-- `(value["tick"], value["type"])`. -/
def lineKey (l : Line) : ℕ ×ₗ String := toLex (l.tick, l.type)

/-- The lines of `write_events_jsonl` after the metadata. The engine keeps its `dispatch_blocked` events
in a list of their own: they share no key with the other events, so that the stable sort puts the same
lines in the same order. -/
def eventLines (blocked : List BlockedEvent) : List Line :=
  StableSort.sortBy lineKey (c.events.map .event ++ blocked.map .blocked)

end Export
end VectorSim
