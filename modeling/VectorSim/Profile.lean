/-
# What the binder reads of a profile

The parts of `src/simulator/profile.py` that `Profile.bind` uses besides those
of the engines: the recipes with their execution uops, the backend's vector
decomposition, the fallback timing of scalar uops, the resources and the
dependency policy.
-/
import VectorSim.Operands
import VectorSim.Policy

namespace VectorSim

/-! ### Recipes -/

/-- A uop of a recipe, of a prep variant or of the scalar fallback. -/
structure RecipeUop where
  id : String
  kind : Kind
  latencyCycles : CycleParam
  issueIntervalCycles : CycleParam
  resourceOccupancyCycles : CycleParam
  resourceChoices : List String
  issueDomains : List String := []
  issueDomainDemands : List (String × ℕ) := []
  renameAllocations : List (String × ℕ) := []
  dependsOn : List String := []
  partIndex : Option ℕ := none
  deriving DecidableEq, Repr

/-- The `vector_decomposition` of a recipe. -/
structure RecipeDecomposition where
  parts : PositiveParam
  partIssueGapCycles : CycleParam
  scaleIssueIntervalByParts : Bool := true
  deriving DecidableEq, Repr

structure Recipe where
  decodedMacroOps : PositiveParam
  retireMacroOps : PositiveParam
  dispatchDomains : List String := []
  dispatchDomainDemands : List (String × ℕ) := []
  decomposition : Option RecipeDecomposition := none
  renameAllocations : List (String × ℕ) := []
  uops : List RecipeUop
  deriving DecidableEq, Repr

/-! ### The backend's decomposition -/

/-- The categories of `_vector_decomposition_class`. -/
inductive DecompositionClass
  | vectorMemory | vectorConfig | vectorReduction | vectorScalar | vectorVector
  deriving DecidableEq, Repr

/-- The `parts` of a decomposition rule. -/
inductive PartsRule
  | fixed (parts : ℕ+)
  | lmul | lmulPlusOne | dynamic | measure
  deriving DecidableEq, Repr

/-- A rule: its parts, and the uops that prepare a source by the class of its operand where the
rule is structured. `none` among them is the key `default`. -/
structure DecompositionRule where
  parts : PartsRule
  prepUops : Option (List (Option OperandClass × RecipeUop)) := none
  deriving DecidableEq, Repr

/-! ### Policies -/

/-- `macro_op_accounting_basis`. -/
inductive AccountingBasis
  | decodedMacroOps | executionUops | maxDecodedOrExecutionUops | architecturalInstructions
  deriving DecidableEq, Repr

/-- `vector_dependency_policy`. -/
structure DependencyPolicy where
  stateRegisters : List String := []
  stateKinds : List Kind := []
  /-- Whether the mode of `old_destination` is `semantic`. -/
  oldDestination : Bool := false
  oldDestinationKinds : List Kind := []
  implicitKinds : List Kind := []
  deriving DecidableEq, Repr

/-- The timing of a scalar uop in `scalar_control_fit`. -/
structure FitUop where
  latencyCycles : CycleParam
  issueIntervalCycles : CycleParam
  resourceOccupancyCycles : CycleParam
  resourceChoices : List String
  deriving DecidableEq, Repr

/-- An execution resource. -/
structure ResourceEntry where
  capacity : PositiveParam
  /-- `bytes_per_cycle`, where it is given. -/
  bytesPerCycle : Option CycleParam := none
  deriving DecidableEq, Repr

/-- `scalar_control_fit`. -/
structure ScalarControlFit where
  enabled : Bool
  resources : List (String × ResourceEntry)
  uops : List (Kind × FitUop)
  deriving DecidableEq, Repr

/-- The level `l1d` of the memory section. -/
structure L1Parameters where
  latencyCycles : CycleParam
  readBytesPerCycle : CycleParam
  writeBytesPerCycle : CycleParam
  deriving DecidableEq, Repr

/-- A profile: what the engines read of it, and what the binder reads. -/
structure Profile extends EngineProfile where
  recipes : List (String × Recipe)
  resources : List (String × ResourceEntry)
  fit : Option ScalarControlFit := none
  cacheLineBytes : ℕ+ := 64
  l1d : L1Parameters
  /-- The bases of `dispatch_units` and `rob_entries`. -/
  dispatchUnitsBasis : AccountingBasis := .decodedMacroOps
  robEntriesBasis : AccountingBasis := .decodedMacroOps
  /-- The rules of `backend.vector_decomposition`. -/
  decompositionRules : Option (List (DecompositionClass × DecompositionRule)) := none
  dependencyPolicy : DependencyPolicy := {}

end VectorSim
