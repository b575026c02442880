/-
# The data the simulator works on

`src/simulator/model.py`: execution uops, macro-ops, resources and bound
traces; and the dynamic trace of `src/frontends`, which the binder turns into
a bound trace. An object's timing fields, which a run fills in, are kept apart
from the fields the binder sets: `ExecutionUop` and `MacroOp` hold the latter,
`UopState` and `MacroState` the former.

Instruction ids are the numbers `n` of `"i{n}"`, and a macro-op has the id of
its instruction. A uop's id is a number too: `execId` and `slotId` are the
binder's `"{instruction}.e{n}"` and the expander's `"{macro}.xb{n}"`. Names a
profile chooses (resources, partitions, units, domains, free lists) stay
strings. Ticks and cycle counts are naturals, as the profile schema has them.
-/
import Mathlib.Data.Nat.Pairing
import Mathlib.Data.List.Sort
import Mathlib.Data.List.Dedup
import Mathlib.Data.Rat.Floor
import Mathlib.Tactic

namespace VectorSim

abbrev Id := ℕ

/-- `f"{instruction['id']}.e{index}"`. -/
def execId (instruction index : ℕ) : Id := Nat.pair instruction (2 * index)

/-- `f"{macro.id}.xb{index}"`. -/
def slotId (macroId index : ℕ) : Id := Nat.pair macroId (2 * index + 1)

/-! ### Kinds -/

/-- The semantic uop kinds (`uops/uop_kinds.yaml`). -/
inductive SemanticKind
  | scalarAlu | scalarLoad | scalarStore | scalarFpAdd | scalarFpDiv | scalarMove
  | branch | ret | vectorConfig | addressGeneration | vectorLoad | vectorStore
  | vectorBroadcast | vectorMove | vectorFpAdd | vectorFpSub | vectorFpMul | vectorFpFma
  | vectorFpMax | vectorReduceAdd | vectorReduceMax | vectorConvert | vectorInteger
  | vectorShift | vectorShuffle
  deriving DecidableEq, Repr

/-- The execution kinds: the schema's `resource_kind`, and the semantic kinds
that `scalar_control_fit` turns into a uop of the same name. -/
inductive Kind
  | vectorFp | vectorInteger | conversion | shuffle | vectorControl | vectorDivide
  | addressGeneration | loadData | storeData
  | scalarAlu | scalarFpAdd | scalarFpDiv | scalarMove | branch | ret
  deriving DecidableEq, Repr

/-- `VECTOR_RESOURCE_KINDS`. -/
def Kind.isVectorResource : Kind → Bool
  | .vectorFp | .vectorInteger | .conversion | .shuffle | .vectorControl | .vectorDivide => true
  | _ => false

/-- `uop.kind in {"load_data", "store_data"}`. -/
def Kind.isMemory : Kind → Bool
  | .loadData | .storeData => true
  | _ => false

/-- `kind.startswith("vector_reduce_")`. -/
def SemanticKind.isReduction : SemanticKind → Bool
  | .vectorReduceAdd | .vectorReduceMax => true
  | _ => false

/-- `kind.startswith("vector_")`. -/
def SemanticKind.isVector : SemanticKind → Bool
  | .vectorConfig | .vectorLoad | .vectorStore | .vectorBroadcast | .vectorMove | .vectorFpAdd
  | .vectorFpSub | .vectorFpMul | .vectorFpFma | .vectorFpMax | .vectorReduceAdd
  | .vectorReduceMax | .vectorConvert | .vectorInteger | .vectorShift | .vectorShuffle => true
  | _ => false

/-! ### Memory accesses -/

inductive AccessKind
  | load | store
  deriving DecidableEq, Repr

/-- The `memory` descriptor of an instruction or of one part of it. -/
structure MemoryAccess where
  address : ℤ
  bytes : ℕ
  cacheLines : List ℤ
  access : AccessKind
  addressRegisters : List String := []
  deriving DecidableEq, Repr

/-- `list(range(a, b))`. -/
def intRange (a b : ℤ) : List ℤ := (List.range (b - a).toNat).map fun k : ℕ => a + (k : ℤ)

theorem mem_intRange {a b x : ℤ} : x ∈ intRange a b ↔ a ≤ x ∧ x < b := by
  simp only [intRange, List.mem_map, List.mem_range]
  constructor
  · rintro ⟨k, hk, rfl⟩; omega
  · rintro ⟨h1, h2⟩; exact ⟨(x - a).toNat, by omega, by omega⟩

/-- The lines of `lineBytes` bytes that `[address, address + bytes)` touches, as the
frontends and the binder compute them. -/
def cacheLinesOf (address : ℤ) (bytes lineBytes : ℕ) : List ℤ :=
  intRange (address / lineBytes) ((address + bytes - 1) / lineBytes + 1)

/-! ### Instructions of a dynamic trace -/

/-- The `lmul` of a vector state. -/
inductive Lmul
  | mf8 | mf4 | mf2 | m1 | m2 | m4 | m8
  deriving DecidableEq, Repr

/-- `lmul_value`. -/
def Lmul.value : Lmul → ℚ
  | .mf8 => 1 / 8 | .mf4 => 1 / 4 | .mf2 => 1 / 2
  | .m1 => 1 | .m2 => 2 | .m4 => 4 | .m8 => 8

/-- `_lmul_parts`, of a token; no token counts as `m1`. -/
def lmulParts : Option Lmul → ℕ
  | some .m2 => 2 | some .m4 => 4 | some .m8 => 8
  | _ => 1

structure VectorState where
  vlenBits : ℕ
  sewBits : Option ℕ := none
  lmul : Option Lmul := none
  vl : Option ℕ := none
  deriving DecidableEq, Repr

/-- A semantic uop; its `local_id` is its position in the instruction. -/
structure SemanticUop where
  kind : SemanticKind
  readsOldDestination : Bool := false
  oldDestinationRegisters : List String := []
  deriving DecidableEq, Repr

/-- An instruction of a dynamic trace. The keys that neither frontend writes are left out. -/
structure Instruction where
  id : Id
  sequence : ℕ
  mnemonic : String
  form : String := "any"
  operands : List String := []
  registerReads : List String := []
  registerWrites : List String := []
  registerDependencies : List (String × Id) := []
  flagsDependency : Option Id := none
  memoryDependencies : List Id := []
  memory : Option MemoryAccess := none
  semanticUops : List SemanticUop := []
  vectorState : Option VectorState := none
  activeVectorBits : Option ℕ := none
  oldDestinationRegisters : List String := []
  oldDestinationDependencies : Option (List (String × Id)) := none
  vectorDestinationRegisters : List String := []
  vectorDestinationDependencies : Option (List (String × Id)) := none
  deriving DecidableEq, Repr

/-- The kinds of the instruction's semantic uops. -/
def Instruction.semanticKinds (i : Instruction) : List SemanticKind := i.semanticUops.map (·.kind)

/-! ### Uops, macro-ops, traces -/

/-- `f"{key}:{entry id}"` with the part, or the `"xsai-internal:{role}"` of a
structural scheduler slot. -/
inductive SchedulingClass
  | recipe (key : String) (entry : String) (part : Option ℕ)
  | internal (role : String)
  deriving DecidableEq, Repr

/-- `semantic_id(instruction, local_id)`. -/
abbrev SemanticId := ℕ × ℕ

structure ExecutionUop where
  id : Id
  sequence : ℕ
  parentId : Id
  semanticKinds : List SemanticKind := []
  semanticIds : List SemanticId := []
  kind : Kind
  schedulingClass : SchedulingClass
  partIndex : Option ℕ := none
  partCount : Option ℕ := none
  latencyTicks : ℕ
  issueIntervalTicks : ℕ
  occupancyTicks : ℕ
  resourceChoices : List String
  issueDomains : List String := []
  issueDomainDemands : List (String × ℕ) := []
  renameAllocations : List (String × ℕ) := []
  schedulerPartitionChoices : List String := []
  executionUnitChoices : List String := []
  requiresCompletionToken : Bool := false
  requiresVectorReadToken : Bool := false
  dependencies : List Id := []
  vectorStateDependencies : List Id := []
  oldDestinationDependencies : List Id := []
  /-- `issue_after_uop` -/
  issueAfterUop : Option Id := none
  issueGapTicks : ℕ := 0
  memory : Option MemoryAccess := none
  deriving DecidableEq, Repr

structure MacroOp where
  id : Id
  sequence : ℕ
  uopIds : List Id
  decodedMacroOps : ℕ
  retireMacroOps : ℕ
  usesVectorScheduler : Bool
  usesLoadQueue : Bool
  usesStoreQueue : Bool
  dispatchDomains : List String := []
  dispatchDomainDemands : List (String × ℕ) := []
  renameAllocations : List (String × ℕ) := []
  dispatchUnits : Option ℕ := none
  robEntries : Option ℕ := none
  deriving DecidableEq, Repr

/-- `MacroOp.dispatch_width_units`. -/
def MacroOp.dispatchWidthUnits (m : MacroOp) : ℕ := m.dispatchUnits.getD m.decodedMacroOps

/-- `MacroOp.rob_entry_count`. -/
def MacroOp.robEntryCount (m : MacroOp) : ℕ := m.robEntries.getD m.decodedMacroOps

/-- `tuple(dict.fromkeys(values))`: each value once, where it first stands. -/
def orderedUnique {α : Type*} [DecidableEq α] (values : List α) : List α :=
  values.reverse.dedup.reverse

@[simp] theorem mem_orderedUnique {α : Type*} [DecidableEq α] {values : List α} {a : α} :
    a ∈ orderedUnique values ↔ a ∈ values := by
  simp [orderedUnique]

theorem nodup_orderedUnique {α : Type*} [DecidableEq α] (values : List α) : (orderedUnique values).Nodup :=
  List.nodup_reverse.mpr (List.nodup_dedup _)

/-- `mapping.get(key, default)` of a dictionary kept as a list of its items. -/
def lookupD {β : Type*} (items : List (String × β)) (key : String) (default : β) : β :=
  (items.lookup key).getD default

structure BoundTrace where
  /-- Whether `source_trace["trace_version"]` is 2. -/
  isDynamic : Bool := true
  profileId : String := ""
  ticksPerCycle : ℕ
  macros : List MacroOp
  uops : List ExecutionUop
  /-- The resources' capacities. -/
  resources : List (String × ℕ)
  /-- `source_trace["instructions"]`. -/
  source : List Instruction := []
  deriving DecidableEq, Repr

namespace BoundTrace

variable (T : BoundTrace)

/-- `self.uops.get(uop_id)`. -/
def uop? (u : Id) : Option ExecutionUop := T.uops.find? (·.id = u)

/-- `self.macros.get(macro_id)`. -/
def macro? (m : Id) : Option MacroOp := T.macros.find? (·.id = m)

/-- `semantic_kind_by_id`. -/
def semanticKinds : List (SemanticId × SemanticKind) :=
  T.source.flatMap fun i => i.semanticKinds.zipIdx.map fun k => ((i.id, k.2), k.1)

/-- The lines of every instruction that has a memory operand. -/
def sourceLines : List ℤ := T.source.flatMap fun i => (i.memory.map (·.cacheLines)).getD []

theorem uop?_mem {u : Id} {x : ExecutionUop} (h : T.uop? u = some x) : x ∈ T.uops ∧ x.id = u := by
  refine ⟨List.mem_of_find?_eq_some h, ?_⟩
  simpa using List.find?_some h

theorem macro?_mem {m : Id} {x : MacroOp} (h : T.macro? m = some x) : x ∈ T.macros ∧ x.id = m := by
  refine ⟨List.mem_of_find?_eq_some h, ?_⟩
  simpa using List.find?_some h

end BoundTrace

end VectorSim
