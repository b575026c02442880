/-
# The semantic view of a run

`build_semantic_view_model` of `src/simulator/semantic_view.py`: the instructions in
a window of the program, their semantic uops, the execution uops that implement
these, and the dependencies on both levels. A dictionary of edges under their own
values is the list of them, each once. What only labels a node (its text, the shapes
of its operands) is left out, and so are the metadata. Each semantic uop depends on
the one before it, as both frontends write `depends_on_local`.
-/
import VectorSim.Backend.Machine
import VectorSim.Lib.StableSort
import Mathlib.Data.List.ProdSigma
import Mathlib.Data.String.Basic

namespace VectorSim

/-- `SEMANTIC_RESOURCES`. -/
def SemanticKind.abstractResource : SemanticKind → String
  | .scalarAlu | .scalarMove => "scalar integer ALU"
  | .scalarLoad | .vectorLoad => "load data path"
  | .scalarStore | .vectorStore => "store data path"
  | .scalarFpAdd => "scalar FP add/sub"
  | .scalarFpDiv => "scalar FP divide"
  | .branch | .ret => "branch unit"
  | .vectorConfig => "vector control"
  | .addressGeneration => "address generation unit"
  | .vectorBroadcast => "vector move/broadcast"
  | .vectorMove => "vector move"
  | .vectorFpAdd | .vectorFpSub => "vector FP add/sub"
  | .vectorFpMul => "vector FP multiply"
  | .vectorFpFma => "vector FP FMA"
  | .vectorFpMax => "vector FP compare/max"
  | .vectorReduceAdd | .vectorReduceMax => "vector FP reduction"
  | .vectorConvert => "vector conversion"
  | .vectorInteger => "vector integer ALU"
  | .vectorShift => "vector integer shift"
  | .vectorShuffle => "vector shuffle"

/-- The semantic uops of an instruction, with their ids. -/
def Instruction.semanticDefinitions (i : Instruction) : List (SemanticId × SemanticKind) :=
  i.semanticKinds.zipIdx.map fun k => ((i.id, k.2), k.1)

namespace SemanticView

/-- `SemanticViewError`, and a `KeyError`. -/
inductive ViewError
  /-- "source trace is missing dynamic instructions" -/
  | missingInstructions (ids : List Id)
  /-- "expected at least one semantic parent" -/
  | noSemanticParent (u : Id)
  /-- "semantic uop has no execution implementation" -/
  | noImplementation (semantic : SemanticId)
  | keyError
  deriving DecidableEq, Repr

/-- `instruction_start` and `instruction_limit`. -/
structure Window where
  start : ℤ := 0
  limit : Option ℤ := none
  deriving DecidableEq, Repr

/-- The orders of ids and of edges as texts, which `sorted` goes by. -/
structure TextOrder where
  uop : Id → Id → Bool
  semantic : SemanticId → SemanticId → Bool

/-! ### Nodes and edges -/

structure Timing where
  dispatchTick : Option ℕ
  issueTick : Option ℕ
  completeTick : Option ℕ
  retireTick : Option ℕ
  deriving DecidableEq, Repr

/-- `_effects`. -/
structure Effects where
  readsMemory : Bool
  writesMemory : Bool
  readsFlags : Bool
  writesFlags : Bool
  changesControlFlow : Bool
  deriving DecidableEq, Repr

def effectsOf (k : SemanticKind) : Effects where
  readsMemory := k = .vectorLoad || k = .scalarLoad
  writesMemory := k = .vectorStore || k = .scalarStore
  readsFlags := k = .branch || k = .ret
  writesFlags := k = .scalarAlu
  changesControlFlow := k = .branch || k = .ret

structure InstructionNode where
  op : MacroOp
  semanticIds : List SemanticId
  executionUopCount : ℕ
  timing : Timing
  deriving DecidableEq, Repr

structure SemanticNode where
  id : SemanticId
  parentId : Id
  sequence : ℕ
  kind : SemanticKind
  abstractResource : String
  executionUopIds : List Id
  effects : Effects
  timing : Timing
  dependencyIds : List SemanticId
  deriving DecidableEq, Repr

structure ExecutionNode where
  uop : ExecutionUop
  /-- `uop.semantic_ids[0]` -/
  parentId : Option SemanticId
  resource : Option String
  lane : ℕ
  memoryLevel : Option ℕ
  latencyTicks : ℕ
  dependencyIds : List Id
  timing : Timing
  readyTick : Option ℕ
  deriving DecidableEq, Repr

inductive DependencyKind
  | internal | memory | flags | register | partOrder
  deriving DecidableEq, Repr

/-- The kind as a text, by which edges of one source and target are sorted. -/
def DependencyKind.name : DependencyKind → String
  | .internal => "internal"
  | .memory => "memory"
  | .flags => "flags"
  | .register => "register"
  | .partOrder => "part_order"

structure Edge (α : Type) where
  source : α
  target : α
  kind : DependencyKind
  deriving DecidableEq, Repr

structure View where
  instructions : List InstructionNode
  semanticUops : List SemanticNode
  executionUops : List ExecutionNode
  semanticEdges : List (Edge SemanticId)
  executionEdges : List (Edge Id)
  deriving DecidableEq, Repr

variable (T : BoundTrace) (W : Window) (s : Machine) (O : TextOrder)

/-! ### The window -/

/-- `end`. -/
def Window.stop : ℤ :=
  match W.limit with
  | some n => W.start + n
  | none => T.macros.length

/-- `macros`. -/
def macros : List MacroOp := T.macros.filter fun m => W.start ≤ m.sequence ∧ m.sequence < W.stop T

/-- `source_instructions.get(macro_id)`. -/
def sourceOf (m : Id) : Option Instruction := T.source.reverse.find? (·.id = m)

/-- `execution_uops`. -/
def executionUops : List ExecutionUop := T.uops.filter fun x => x.parentId ∈ (macros T W).map (·.id)

/-- `execution_by_semantic[semantic]`. -/
def executionOf (semantic : SemanticId) : List ExecutionUop :=
  (executionUops T W).flatMap fun x => (x.semanticIds.filter (· = semantic)).map fun _ => x

/-! ### Nodes -/

/-- `_minimum_tick`. -/
def minimumTick (ticks : List (Option ℕ)) : Option ℕ := ticks.reduceOption.min?

/-- `_maximum_tick`. -/
def maximumTick (ticks : List (Option ℕ)) : Option ℕ := ticks.reduceOption.max?

/-- A dictionary's value, or a `KeyError`. -/
def valueOf {α : Type} : Option α → Except ViewError α
  | some a => .ok a
  | none => .error .keyError

/-- An entry of `instruction_nodes`. -/
def instructionNode (m : MacroOp) (i : Instruction) (uops : List ExecutionUop) : InstructionNode where
  op := m
  semanticIds := i.semanticDefinitions.map (·.1)
  executionUopCount := uops.length
  timing := {
    dispatchTick := (s.macro_ m.id).dispatchTick
    issueTick := minimumTick (uops.map fun x => (s.uop x.id).issueTick)
    completeTick := (s.macro_ m.id).completeTick
    retireTick := (s.macro_ m.id).retireTick }

/-- An entry of `semantic_nodes`; its number and its dependencies are put in at the end. -/
def semanticNode (m : MacroOp) (d : SemanticId × SemanticKind) : Except ViewError SemanticNode :=
  match StableSort.sortBy (·.sequence) (executionOf T W d.1) with
  | [] => .error (.noImplementation d.1)
  | children => .ok {
      id := d.1
      parentId := m.id
      sequence := 0
      kind := d.2
      abstractResource := d.2.abstractResource
      executionUopIds := children.map (·.id)
      effects := effectsOf d.2
      timing := {
        dispatchTick := (s.macro_ m.id).dispatchTick
        issueTick := minimumTick (children.map fun x => (s.uop x.id).issueTick)
        completeTick := maximumTick (children.map fun x => (s.uop x.id).completeTick)
        retireTick := (s.macro_ m.id).retireTick }
      dependencyIds := [] }

/-- One turn of the loop over `macros`. -/
def macroNodes (m : MacroOp) : Except ViewError (InstructionNode × List SemanticNode) := do
  let i ← valueOf (sourceOf T m.id)
  let uops ← m.uopIds.mapM fun u => valueOf (T.uop? u)
  let nodes ← i.semanticDefinitions.mapM (semanticNode T W s m)
  .ok (instructionNode s m i uops, nodes)

/-- `_execution_node`, with the retirement of its macro-op. -/
def executionNode (x : ExecutionUop) : ExecutionNode where
  uop := x
  parentId := x.semanticIds.head?
  resource := (s.placement x.id).resource
  lane := (s.placement x.id).lane
  memoryLevel := (s.placement x.id).memoryLevel
  latencyTicks := (s.uop x.id).latencyTicks
  dependencyIds := x.dependencies.mergeSort O.uop
  timing := {
    dispatchTick := (s.uop x.id).dispatchTick
    issueTick := (s.uop x.id).issueTick
    completeTick := (s.uop x.id).completeTick
    retireTick := (s.macro_ x.parentId).retireTick }
  readyTick := (s.uop x.id).readyTick

/-! ### Edges -/

/-- `_dependency_kind`. -/
def dependencyKind (producer consumer : Id) (i : Instruction) : DependencyKind :=
  if producer = consumer then .internal
  else if producer ∈ i.memoryDependencies then .memory
  else if i.flagsDependency = some producer then .flags
  else .register

/-- The execution uops of the window that an execution uop waits for, with the kinds of the edges. -/
def producersOf (x : ExecutionUop) : Except ViewError (List (ExecutionUop × DependencyKind)) := do
  let i ← valueOf (sourceOf T x.parentId)
  let producers := (x.dependencies.mergeSort O.uop).filterMap fun d => (executionUops T W).find? (·.id = d)
  .ok (producers.map fun p => (p, dependencyKind p.parentId x.parentId i))

/-- The edge from the part before. -/
def partEdge (x : ExecutionUop) : List (Edge Id) :=
  match x.issueAfterUop with
  | some u => if u ∈ (executionUops T W).map (·.id) then [⟨u, x.id, .partOrder⟩] else []
  | none => []

/-- The edges into an execution uop. -/
def executionEdgesInto (w : ExecutionUop × List (ExecutionUop × DependencyKind)) : List (Edge Id) :=
  w.2.map (fun p => ⟨p.1.id, w.1.id, p.2⟩) ++ partEdge T W w.1

/-- The edges between what they implement. -/
def semanticEdgesInto (w : ExecutionUop × List (ExecutionUop × DependencyKind)) : List (Edge SemanticId) :=
  w.2.flatMap fun p => (p.1.semanticIds ×ˢ w.1.semanticIds).filterMap fun e =>
    if e.1 = e.2 then none else some ⟨e.1, e.2, p.2⟩

/-- `depends_on_local`. -/
def dependsOnLocal (index : ℕ) : List ℕ := if index = 0 then [] else [index - 1]

/-- The edges inside the instructions. -/
def internalEdges (nodes : List SemanticNode) : List (Edge SemanticId) :=
  nodes.flatMap fun n => (dependsOnLocal n.id.2).filterMap fun k =>
    if (n.id.1, k) = n.id then none else some ⟨(n.id.1, k), n.id, .internal⟩

/-! ### The view -/

/-- The order of the edges as texts: by target, source and kind. -/
def edgeOrder {α : Type} [DecidableEq α] (before : α → α → Bool) (a b : Edge α) : Bool :=
  if a.target ≠ b.target then before a.target b.target
  else if a.source ≠ b.source then before a.source b.source
  else a.kind.name ≤ b.kind.name

/-- A semantic node with its place among the others and what it depends on. -/
def numberedNode (edges : List (Edge SemanticId)) (n : SemanticNode × ℕ) : SemanticNode :=
  { n.1 with
    sequence := n.2
    dependencyIds := (((edges.filter (·.target = n.1.id)).map (·.source)).dedup).mergeSort O.semantic }

/-- The view that is returned, of the nodes and of what the execution uops wait for. -/
def viewOf (nodes : List (InstructionNode × List SemanticNode))
    (waits : List (ExecutionUop × List (ExecutionUop × DependencyKind))) : View :=
  let semantic := nodes.flatMap (·.2)
  let executionEdges := orderedUnique (waits.flatMap (executionEdgesInto T W))
  let semanticEdges := orderedUnique (waits.flatMap semanticEdgesInto ++ internalEdges semantic)
  { instructions := nodes.map (·.1)
    semanticUops := semantic.zipIdx.map (numberedNode O semanticEdges)
    executionUops := (executionUops T W).map (executionNode s O)
    semanticEdges := semanticEdges.mergeSort (edgeOrder O.semantic)
    executionEdges := executionEdges.mergeSort (edgeOrder O.uop) }

/-- `build_semantic_view_model`. -/
def buildSemanticViewModel : Except ViewError View := do
  let missing := (macros T W).filter fun m => (sourceOf T m.id).isNone
  Checked.check (missing = []) (.missingInstructions (missing.map (·.id)))
  (executionUops T W).forM fun x => Checked.check (x.semanticIds ≠ []) (.noSemanticParent x.id)
  let nodes ← (macros T W).mapM (macroNodes T W s)
  let waits ← (executionUops T W).mapM fun x => (producersOf T W O x).map fun ps => (x, ps)
  .ok (viewOf T W s O nodes waits)

end SemanticView
end VectorSim
