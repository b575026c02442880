/-
# Binding a dynamic trace to a profile

`Profile.bind` of `src/simulator/profile.py`, with `src/simulator/semantic.py`:
every instruction gets a recipe, the recipe's uops are laid out (as they stand,
or once for each part of a vector operation, after a uop that prepares its
scalar source), and each execution uop is linked to the uops it waits for: those
of its own instruction, and the terminal uops of the instructions that produce
its operands. Producers and consumers are paired part by part where their part
indices agree (`selected`).
-/
import VectorSim.Profile
import VectorSim.Lib.Checked

namespace VectorSim

open Checked

/-! ### Semantic bindings -/

/-- `SEMANTIC_EXECUTION_KINDS`. -/
def SemanticKind.executionKinds : SemanticKind → List Kind
  | .scalarAlu => [.scalarAlu]
  | .scalarLoad => [.loadData]
  | .scalarStore => [.storeData]
  | .scalarFpAdd => [.scalarFpAdd]
  | .scalarFpDiv => [.scalarFpDiv]
  | .scalarMove => [.scalarMove, .scalarAlu]
  | .branch => [.branch]
  | .ret => [.ret, .branch]
  | .vectorConfig => [.vectorControl, .vectorInteger]
  | .addressGeneration => [.addressGeneration]
  | .vectorLoad => [.loadData]
  | .vectorStore => [.storeData]
  | .vectorBroadcast | .vectorMove => [.vectorFp, .vectorInteger]
  | .vectorFpAdd | .vectorFpSub | .vectorFpMul | .vectorFpFma | .vectorFpMax => [.vectorFp]
  | .vectorReduceAdd | .vectorReduceMax => [.vectorFp]
  | .vectorConvert => [.conversion]
  | .vectorInteger | .vectorShift => [.vectorInteger]
  | .vectorShuffle => [.shuffle]

/-- The semantic uops an execution uop of the kind can implement. -/
def compatible (kinds : List SemanticKind) (k : Kind) : List ℕ :=
  (kinds.zipIdx.filter fun s => k ∈ s.1.executionKinds).map (·.2)

/-- The semantic uop of a recipe uop. -/
def semanticOf (kinds : List SemanticKind) (u : RecipeUop) : Except ProfileError ℕ :=
  match compatible kinds u.kind with
  | [s] => .ok s
  | [] => .error (.invalid s!"no compatible semantic mapping for execution uop {u.id}")
  | _ => .error (.invalid s!"ambiguous semantic mapping for execution uop {u.id}")

/-- `bind_execution_semantics`: the semantic uop of each recipe uop; every one has some. -/
def bindExecutionSemantics (kinds : List SemanticKind) (uops : List RecipeUop) :
    Except ProfileError (List ℕ) := do
  check (kinds ≠ []) (.invalid "instruction has no semantic uops")
  let bound ← uops.mapM (semanticOf kinds)
  check (∀ s < kinds.length, s ∈ bound) (.invalid "semantic uops have no execution implementation")
  .ok bound

/-! ### Recipes -/

/-- The kind of the uop that `scalar_control_fit` makes of a semantic uop: it has its name. -/
def SemanticKind.fitKind : SemanticKind → Option Kind
  | .scalarAlu => some .scalarAlu
  | .scalarFpAdd => some .scalarFpAdd
  | .scalarFpDiv => some .scalarFpDiv
  | .scalarMove => some .scalarMove
  | .branch => some .branch
  | .ret => some .ret
  | _ => none

/-- The recipe of an instruction, under the key it was found by, with the paths of its
parameters. -/
structure ChosenRecipe where
  key : String
  recipe : Recipe
  path : String
  uopPath : ℕ → String

/-- `_fallback_recipe`. -/
def fallbackRecipe (P : Profile) (kinds : List SemanticKind) (key : String) : Except ProfileError ChosenRecipe :=
  match P.fit, kinds with
  | some fit, [semantic] =>
    if fit.enabled then
      match semantic.fitKind.bind fun k => (fit.uops.lookup k).map fun t => (k, t) with
      | some (kind, timing) => .ok {
          key := key
          path := "scalar_control_fit"
          uopPath := fun _ => "scalar_control_fit.uops"
          recipe := {
            decodedMacroOps := some 1
            retireMacroOps := some 1
            uops := [{
              id := "fit"
              kind := kind
              latencyCycles := timing.latencyCycles
              issueIntervalCycles := timing.issueIntervalCycles
              resourceOccupancyCycles := timing.resourceOccupancyCycles
              resourceChoices := timing.resourceChoices }] } }
      | none => .error (.invalid s!"missing instruction recipe and fallback: {key}")
    else .error (.invalid s!"missing instruction recipe: {key}")
  | _, _ => .error (.invalid s!"missing instruction recipe: {key}")

/-- The first key that has a recipe, else the fallback. -/
def chooseRecipe (P : Profile) (i : Instruction) : Except ProfileError ChosenRecipe :=
  match (recipeKeys i).findSome? fun key => (P.recipes.lookup key).map fun r => (key, r) with
  | some (key, recipe) => .ok {
      key := key
      recipe := recipe
      path := s!"recipes.{key}"
      uopPath := fun n => s!"recipes.{key}.uops.{n}" }
  | none => fallbackRecipe P i.semanticKinds ((recipeKeys i).headD "")

/-! ### Decomposition -/

/-- A uop laid out for an instruction: the recipe uop it comes from, its part, and whether the
backend made it to prepare a scalar source. -/
structure Entry where
  localIndex : ℕ
  uop : RecipeUop
  partIndex : Option ℕ
  partCount : Option ℕ
  prep : Bool := false
  path : String
  /-- `_external_dependency_registers` -/
  sources : Option (List String) := none

/-- What `_backend_vector_decomposition` returns. -/
structure Decomposition where
  parts : ℕ
  widthBits : ℕ
  prep : Option Entry

/-- `_vector_decomposition_class`. -/
def decompositionClass (i : Instruction) : Option DecompositionClass :=
  if i.memory.isSome ∧ i.semanticKinds.any (fun k => k = .addressGeneration || k = .vectorLoad || k = .vectorStore) then
    some .vectorMemory
  else if .vectorConfig ∈ i.semanticKinds then some .vectorConfig
  else if i.semanticKinds.any (·.isReduction) then some .vectorReduction
  else if ¬ i.semanticKinds.any (·.isVector) then none
  else if i.operands.tail.any fun o => operandClass o ∈ [.fpRegister, .register, .immediate] then some .vectorScalar
  else some .vectorVector

/-- `_vector_part_count`. -/
def vectorPartCount (rule : PartsRule) (i : Instruction) (state : VectorState) (width : ℕ) (path : String) :
    Except ProfileError ℕ :=
  match rule with
  | .fixed n => .ok n
  | .lmul => .ok (lmulParts state.lmul)
  | .lmulPlusOne => .error (.invalid "vector decomposition rule lmul-plus-one cannot clone the compute uop")
  | .dynamic =>
    let bits := match i.memory with
      | some m => m.bytes * 8
      | none => i.activeVectorBits.getD width
    .ok (max 1 ((bits + width - 1) / width))
  | .measure => .error (.measure path)

/-- The operands that a prep uop can prepare, with their classes. -/
def sourceCandidates (i : Instruction) : List (OperandClass × String) :=
  i.operands.tail.filterMap fun o =>
    if operandClass o ∈ [.fpRegister, .register, .immediate] then some (operandClass o, o) else none

/-- `_select_vector_prep_uop`. -/
def selectPrepUop (i : Instruction) (variants : List (Option OperandClass × RecipeUop)) (path : String) :
    Except ProfileError Entry :=
  let entry (u : RecipeUop) (variant : String) (sources : List String) : Entry :=
    { localIndex := 0, uop := u, partIndex := none, partCount := none, prep := true,
      path := s!"{path}.{variant}", sources := some sources }
  match (sourceCandidates i).findSome? fun c => (variants.lookup (some c.1)).map fun u => (c, u) with
  | some (c, u) => .ok (entry u c.1.name (if c.1 = .immediate then [] else [c.2]))
  | none =>
    match variants.lookup none with
    | some u => .ok (entry u "default" [])
    | none => .error (.invalid "vector-scalar decomposition has no prep uop for source class")

/-- The prep uop of a rule, where the rule has any. -/
def prepOf (i : Instruction) (rule : DecompositionRule) (path : String) : Except ProfileError (Option Entry) :=
  match rule.prepUops with
  | none => .ok none
  | some variants => (selectPrepUop i variants (path ++ ".prep_uops")).map some

/-- The rule for an instruction, with its vector state. -/
def ruleFor (P : Profile) (i : Instruction) : Option (DecompositionRule × VectorState) := do
  let rules ← P.decompositionRules
  let state ← i.vectorState
  let category ← decompositionClass i
  let rule ← rules.lookup category
  return (rule, state)

/-- `_backend_vector_decomposition`. -/
def backendDecomposition (P : Profile) (i : Instruction) : Except ProfileError (Option Decomposition) :=
  match ruleFor P i with
  | none => .ok none
  | some (rule, state) => do
    let width ← parameterInt P.registerWidthBits "backend.vector_decomposition.register_width_bits"
    let prep ← prepOf i rule "backend.vector_decomposition.rules"
    let parts ← vectorPartCount rule.parts i state width "backend.vector_decomposition.rules"
    .ok (some ⟨max 1 parts, width, prep⟩)

/-- The decomposition of an instruction: a recipe that has parts of its own keeps them. -/
def decompositionFor (P : Profile) (i : Instruction) (c : ChosenRecipe) :
    Except ProfileError (Option Decomposition) :=
  if c.recipe.decomposition.isSome then .ok none else backendDecomposition P i

/-- The `part_count` of a recipe uop that is not decomposed. -/
def staticPartCount (c : ChosenRecipe) (u : RecipeUop) : Except ProfileError (Option ℕ) :=
  match c.recipe.decomposition, u.partIndex with
  | some d, some _ => (parameterInt d.parts (c.path ++ ".vector_decomposition.parts")).map fun n => some n
  | _, _ => .ok none

/-- The recipe's uops as they stand. -/
def staticEntries (c : ChosenRecipe) : Except ProfileError (List Entry) :=
  c.recipe.uops.zipIdx.mapM fun u => do
    let count ← staticPartCount c u.1
    .ok { localIndex := u.2, uop := u.1, partIndex := u.1.partIndex, partCount := count, path := c.uopPath u.2 }

/-- The recipe's uops for one part; they wait for the prep uop. -/
def partEntries (c : ChosenRecipe) (d : Decomposition) (part : ℕ) : List Entry :=
  c.recipe.uops.zipIdx.map fun u =>
    { localIndex := u.2, partIndex := some part, partCount := some d.parts, path := c.uopPath u.2,
      uop := match d.prep with
        | none => u.1
        | some prep => { u.1 with dependsOn := u.1.dependsOn ++ [prep.uop.id] } }

/-- The recipe's uops once for each part, after the prep uop. -/
def dynamicEntries (c : ChosenRecipe) (d : Decomposition) : List Entry :=
  d.prep.toList ++ (List.range d.parts).flatMap (partEntries c d)

/-- `expanded`. -/
def entriesFor (c : ChosenRecipe) : Option Decomposition → Except ProfileError (List Entry)
  | none => staticEntries c
  | some d => .ok (dynamicEntries c d)

/-- `depended_locals`. -/
def dependedLocals (entries : List Entry) : List String := entries.flatMap (·.uop.dependsOn)

/-! ### Execution uops -/

/-- `_memory_part`. -/
def memoryPart (lineBytes : ℕ+) (m : MemoryAccess) (part widthBits : ℕ) : Except ProfileError MemoryAccess :=
  if widthBits / 8 < 1 then .error (.invalid "vector decomposition width must be at least one byte")
  else if m.bytes ≤ part * (widthBits / 8) then .error (.invalid "vector memory decomposition creates empty part")
  else
    let start := part * (widthBits / 8)
    let size := min (widthBits / 8) (m.bytes - start)
    .ok { m with address := m.address + start, bytes := size,
                 cacheLines := cacheLinesOf (m.address + start) size lineBytes }

/-- The `memory` of an execution uop. -/
def entryMemory (P : Profile) (i : Instruction) (d : Option Decomposition) (e : Entry) :
    Except ProfileError (Option MemoryAccess) :=
  if e.uop.kind.isMemory ∨ e.uop.kind = .addressGeneration then
    match i.memory, d with
    | none, _ => .ok none
    | some m, none => .ok (some m)
    | some m, some d => (memoryPart P.cacheLineBytes m (e.partIndex.getD 0) d.widthBits).map some
  else .ok none

/-- A `bytes_per_cycle` that was measured. -/
def measured (value : CycleParam) (path : String) : Except ProfileError Unit :=
  match value with
  | some _ => .ok ()
  | none => .error (.measure path)

/-- `_require_l1_access_parameters`, of the kinds that need them. -/
def requireL1 (P : Profile) (k : Kind) : Except ProfileError Unit :=
  match k with
  | .loadData => do
    let _ ← parameterTicks P.ticksPerCycle P.l1d.latencyCycles "memory.levels.l1d.latency_cycles"
    measured P.l1d.readBytesPerCycle "memory.levels.l1d.read_bytes_per_cycle"
  | .storeData => do
    let _ ← parameterTicks P.ticksPerCycle P.l1d.latencyCycles "memory.levels.l1d.latency_cycles"
    measured P.l1d.writeBytesPerCycle "memory.levels.l1d.write_bytes_per_cycle"
  | _ => .ok ()

/-- `_execution_unit_choices`. -/
def executionUnitChoices (P : Profile) (resources : List String) : List (String × ExecutionUnit) :=
  P.units.filter fun u => u.2.functionalUnits.any (· ∈ resources)

/-- The factor of the issue interval: the parts of the recipe, for a uop that is one. -/
def intervalFactor (c : ChosenRecipe) (u : RecipeUop) : Except ProfileError ℕ :=
  match c.recipe.decomposition, u.partIndex with
  | some d, some _ =>
    if d.scaleIssueIntervalByParts then
      (parameterInt d.parts (c.path ++ ".vector_decomposition.parts")).map fun n => (n : ℕ)
    else .ok 1
  | _, _ => .ok 1

/-- `_writes_vector_result`. -/
def writesVectorResult (i : Instruction) : Bool :=
  i.registerWrites.any fun r => operandClass r ∈ [.vector, .xmm, .ymm, .zmm]

/-- The semantic uop that an entry implements. -/
def entrySemantic (semantics : List ℕ) (e : Entry) : Option ℕ := semantics[e.localIndex]?

/-- `_requires_vector_read_token`. -/
def requiresVectorReadToken (i : Instruction) (semantics : List ℕ) (e : Entry) : Bool :=
  !e.prep && (e.uop.kind.isVectorResource || e.uop.kind = .storeData) &&
    ((entrySemantic semantics e).bind (i.semanticKinds[·]?)).any
      (fun k => k.isVector && k ≠ .vectorConfig && k ≠ .vectorLoad) &&
    i.registerReads.any isVectorRegister

/-- An execution uop before it is linked to those it waits for. -/
def executionUop (P : Profile) (i : Instruction) (c : ChosenRecipe) (semantics : List ℕ)
    (d : Option Decomposition) (depended : List String) (first : ℕ) (e : Entry × ℕ) :
    Except ProfileError ExecutionUop := do
  let memory ← entryMemory P i d e.1
  let occupancy ← parameterTicks P.ticksPerCycle e.1.uop.resourceOccupancyCycles
    (e.1.path ++ ".resource_occupancy_cycles")
  let latency ← parameterTicks P.ticksPerCycle e.1.uop.latencyCycles (e.1.path ++ ".latency_cycles")
  requireL1 P e.1.uop.kind
  let interval ← parameterTicks P.ticksPerCycle e.1.uop.issueIntervalCycles (e.1.path ++ ".issue_interval_cycles")
  let factor ← intervalFactor c e.1.uop
  .ok {
    id := execId i.id e.2
    sequence := first + e.2
    parentId := i.id
    semanticKinds := i.semanticKinds
    semanticIds := (entrySemantic semantics e.1).toList.map fun s => (i.id, s)
    kind := e.1.uop.kind
    schedulingClass := .recipe c.key e.1.uop.id e.1.partIndex
    partIndex := e.1.partIndex
    partCount := e.1.partCount
    latencyTicks := latency
    issueIntervalTicks := interval * factor
    occupancyTicks := occupancy
    resourceChoices := e.1.uop.resourceChoices
    issueDomains := e.1.uop.issueDomains
    issueDomainDemands := e.1.uop.issueDomains.map fun d => (d, lookupD e.1.uop.issueDomainDemands d 1)
    renameAllocations := e.1.uop.renameAllocations
    schedulerPartitionChoices :=
      orderedUnique ((executionUnitChoices P e.1.uop.resourceChoices).map (·.2.schedulerPartition))
    executionUnitChoices := (executionUnitChoices P e.1.uop.resourceChoices).map (·.1)
    requiresCompletionToken := e.1.prep || (e.1.uop.id ∉ depended && writesVectorResult i)
    requiresVectorReadToken := requiresVectorReadToken i semantics e.1
    memory := memory }

/-! ### Dependencies -/

/-- The candidates of the part, or all of them where none is of the part. -/
def selected (part : Option ℕ) (candidates : List ExecutionUop) : List ExecutionUop :=
  let matching := candidates.filter fun c => part.isSome && c.partIndex = part
  if matching = [] then candidates else matching

/-- The uops of the instruction that an entry waits for by one of its `depends_on`. -/
def localDependency (pairs : List (Entry × ExecutionUop)) (part : Option ℕ) (name : String) :
    Except ProfileError (List Id) :=
  match (pairs.filter fun p => p.1.uop.id = name).map (·.2) with
  | [] => .error (.invalid s!"unknown dependency {name}")
  | candidates => .ok ((selected part candidates).map (·.id))

/-- `_add_producer_dependencies`. -/
def producerDependencies (terminals : Id → Option (List ExecutionUop)) (part : Option ℕ) (producers : List Id) :
    Except ProfileError (List Id) := do
  let groups ← producers.mapM fun producer =>
    match terminals producer with
    | none => Except.error (.invalid "unknown producer instruction")
    | some candidates => .ok ((selected part candidates).map (·.id))
  .ok groups.flatten

/-- The producers of `_add_external_dependencies`. -/
def externalProducers (i : Instruction) (k : Kind) (firstLocal : Bool) (sources : Option (List String)) : List Id :=
  let registers := i.registerDependencies.map (·.2)
  match sources, k with
  | some names, _ => names.filterMap fun r => i.registerDependencies.lookup r
  | none, .addressGeneration =>
    (i.registerDependencies.filter fun d => d.1 ∈ (i.memory.map (·.addressRegisters)).getD []).map (·.2)
  | none, .loadData => i.memoryDependencies ++ if firstLocal then registers else []
  | none, .storeData => registers ++ i.memoryDependencies
  | none, _ => registers ++ i.memoryDependencies ++ i.flagsDependency.toList

/-- `waits_for_vector_state`. -/
def waitsForVectorState (P : Profile) (i : Instruction) (e : Entry) : Bool :=
  !e.prep && e.uop.kind ∈ P.dependencyPolicy.stateKinds &&
    P.dependencyPolicy.stateRegisters.any fun r =>
      r ∈ i.registerReads || (i.registerDependencies.lookup r).isSome

/-- The producers of the vector state, for an entry that waits for it. -/
def stateProducers (P : Profile) (i : Instruction) (e : Entry) : List Id :=
  if waitsForVectorState P i e then P.dependencyPolicy.stateRegisters.filterMap fun r => i.registerDependencies.lookup r
  else []

/-- `reads_old_destination`. -/
def readsOldDestination (P : Profile) (i : Instruction) (semantics : List ℕ) (e : Entry) : Bool :=
  P.dependencyPolicy.oldDestination && !e.prep && e.uop.kind ∈ P.dependencyPolicy.oldDestinationKinds &&
    (((entrySemantic semantics e).bind (i.semanticUops[·]?)).any (·.readsOldDestination) ||
      e.uop.kind ∈ P.dependencyPolicy.implicitKinds)

/-- `_semantic_old_destination_registers`. -/
def oldDestinationRegisters (i : Instruction) (semantics : List ℕ) (e : Entry) (implicit : Bool) : List String :=
  let registers := i.oldDestinationRegisters ++
    (((entrySemantic semantics e).bind (i.semanticUops[·]?)).map (·.oldDestinationRegisters)).getD [] ++
    if implicit then i.vectorDestinationRegisters else []
  if registers = [] then
    ((i.registerReads.filter fun r => isVectorRegister r && r ∈ i.registerWrites).dedup).insertionSort (· ≤ ·)
  else orderedUnique registers

/-- The producers of `_add_old_destination_dependencies`, for an entry that reads the old
destination. -/
def oldDestinationProducers (P : Profile) (i : Instruction) (semantics : List ℕ) (e : Entry) : List Id :=
  if readsOldDestination P i semantics e then
    let implicit := decide (e.uop.kind ∈ P.dependencyPolicy.implicitKinds)
    let mapping := match implicit, i.vectorDestinationDependencies, i.oldDestinationDependencies with
      | true, some m, _ => m
      | _, _, some m => m
      | _, _, none => i.registerDependencies
    (oldDestinationRegisters i semantics e implicit).filterMap fun r => mapping.lookup r
  else []

/-- The uop of the part before, which a part of a recipe is issued after. -/
def issueAfter (P : Profile) (c : ChosenRecipe) (uops : List ExecutionUop) (part : Option ℕ) :
    Except ProfileError (Option Id × ℕ) :=
  match c.recipe.decomposition, part.getD 0 with
  | some d, k + 1 =>
    match uops.find? (·.partIndex = some k) with
    | some x => (parameterTicks P.ticksPerCycle d.partIssueGapCycles
        (c.path ++ ".vector_decomposition.part_issue_gap_cycles")).map fun gap => (some x.id, gap)
    | none => .ok (none, 0)
  | _, _ => .ok (none, 0)

/-- An execution uop with what it waits for. -/
def linkUop (P : Profile) (terminals : Id → Option (List ExecutionUop)) (i : Instruction) (c : ChosenRecipe)
    (semantics : List ℕ) (pairs : List (Entry × ExecutionUop)) (p : Entry × ExecutionUop) :
    Except ProfileError (Entry × ExecutionUop) := do
  let internal ← p.1.uop.dependsOn.mapM (localDependency pairs p.1.partIndex)
  let after ← issueAfter P c (pairs.map (·.2)) p.1.partIndex
  let external ← producerDependencies terminals p.2.partIndex
    (externalProducers i p.2.kind (p.1.localIndex = 0) p.1.sources)
  let state ← producerDependencies terminals p.2.partIndex (stateProducers P i p.1)
  let old ← producerDependencies terminals p.2.partIndex (oldDestinationProducers P i semantics p.1)
  .ok (p.1, { p.2 with
    dependencies := (internal.flatten ++ external ++ state ++ old).dedup
    vectorStateDependencies := state.dedup
    oldDestinationDependencies := old.dedup
    issueAfterUop := after.1
    issueGapTicks := after.2 })

/-! ### Macro-ops -/

/-- `_macro_op_accounting_count`. -/
def accountingCount (basis : AccountingBasis) (decoded execution : ℕ) : ℕ :=
  match basis with
  | .decodedMacroOps => decoded
  | .executionUops => execution
  | .maxDecodedOrExecutionUops => max decoded execution
  | .architecturalInstructions => 1

/-- The rename allocations of the recipe, or the sum of its uops'. -/
def macroRenameAllocations (r : Recipe) (uops : List ExecutionUop) : List (String × ℕ) :=
  if r.renameAllocations ≠ [] then r.renameAllocations
  else (uops.flatMap fun x => x.renameAllocations.map (·.1)).dedup.map fun name =>
    (name, (uops.map fun x => lookupD x.renameAllocations name 0).sum)

/-- The macro-op of an instruction. -/
def macroOpOf (P : Profile) (i : Instruction) (c : ChosenRecipe) (uops : List ExecutionUop) :
    Except ProfileError MacroOp := do
  let decoded ← parameterInt c.recipe.decodedMacroOps (c.path ++ ".decoded_macro_ops")
  let retire ← parameterInt c.recipe.retireMacroOps (c.path ++ ".retire_macro_ops")
  .ok {
    id := i.id
    sequence := i.sequence
    uopIds := uops.map (·.id)
    decodedMacroOps := decoded
    retireMacroOps := retire
    usesVectorScheduler := uops.any (·.kind.isVectorResource)
    usesLoadQueue := uops.any (·.kind = .loadData)
    usesStoreQueue := uops.any (·.kind = .storeData)
    dispatchDomains := c.recipe.dispatchDomains
    dispatchDomainDemands := c.recipe.dispatchDomains.map fun d => (d, lookupD c.recipe.dispatchDomainDemands d 1)
    renameAllocations := macroRenameAllocations c.recipe uops
    dispatchUnits := some (accountingCount P.dispatchUnitsBasis decoded uops.length)
    robEntries := some (accountingCount P.robEntriesBasis decoded uops.length) }

/-! ### The trace -/

/-- An instruction that is bound. -/
structure Binding where
  instruction : Instruction
  decomposition : Option Decomposition
  pairs : List (Entry × ExecutionUop)
  op : MacroOp

namespace Binding

variable (b : Binding)

/-- The execution uops of the instruction. -/
def uops : List ExecutionUop := b.pairs.map (·.2)

/-- `result_uops`: the uops no other uop of the instruction waits for. -/
def terminals : List ExecutionUop :=
  (b.pairs.filter fun p => p.1.uop.id ∉ dependedLocals (b.pairs.map (·.1))).map (·.2)

end Binding

/-- The terminal uops of an instruction bound before. -/
def terminalsOf (bound : List Binding) (producer : Id) : Option (List ExecutionUop) :=
  (bound.reverse.find? (·.instruction.id = producer)).map (·.terminals)

/-- One turn of the loop of `bind`. -/
def bindInstruction (P : Profile) (bound : List Binding) (i : Instruction) : Except ProfileError Binding := do
  let c ← chooseRecipe P i
  let semantics ← bindExecutionSemantics i.semanticKinds c.recipe.uops
  let d ← decompositionFor P i c
  let entries ← entriesFor c d
  let first := (bound.flatMap (·.uops)).length
  let uops ← entries.zipIdx.mapM (executionUop P i c semantics d (dependedLocals entries) first)
  let pairs ← (entries.zip uops).mapM (linkUop P (terminalsOf bound) i c semantics (entries.zip uops))
  let op ← macroOpOf P i c uops
  .ok ⟨i, d, pairs, op⟩

/-- The instructions that are bound, one after the other. -/
def bindAll (P : Profile) (trace : List Instruction) : Except ProfileError (List Binding) :=
  trace.foldlM (fun bound i => do
    let b ← bindInstruction P bound i
    .ok (bound ++ [b])) []

/-- A resource: the recipes' first, then the fallback's. -/
def resourceOf (P : Profile) (name : String) : Except ProfileError (String × ℕ) :=
  match (P.resources.lookup name).or ((P.fit.map (·.resources)).bind (·.lookup name)) with
  | none => .error (.invalid s!"trace references missing resource: {name}")
  | some r => do
    let capacity ← parameterInt r.capacity s!"resources.{name}.capacity"
    match r.bytesPerCycle with
    | none => .ok (name, (capacity : ℕ))
    | some bytes => (measured bytes s!"resources.{name}.bytes_per_cycle").map fun _ => (name, (capacity : ℕ))

/-- `Profile.bind`. -/
def bind (P : Profile) (trace : List Instruction) : Except ProfileError BoundTrace := do
  let bound ← bindAll P trace
  let uops := bound.flatMap (·.uops)
  let resources ← ((uops.flatMap (·.resourceChoices)).dedup.insertionSort (· ≤ ·)).mapM (resourceOf P)
  .ok {
    profileId := P.id
    ticksPerCycle := P.ticksPerCycle
    macros := bound.map (·.op)
    uops := uops
    resources := resources
    source := trace }

end VectorSim
