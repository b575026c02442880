/-
# Validation of a bound trace

`src/simulator/trace.py`: what every engine checks of the trace it is given.
The ids are unique, every macro-op names uops of its own, every uop belongs to
a macro-op, the per-field counts and choices are well formed, and the
dependency graph has no cycle (Kahn's algorithm).
-/
import VectorSim.Model
import VectorSim.Lib.Checked

namespace VectorSim

open Checked

/-- The errors of `validate_bound_trace`, with the object each names. -/
inductive TraceError
  | duplicateMacroId
  | duplicateUopId
  | invalidCount (macroId : Id) (name : String)
  | duplicateDispatchDomains (macroId : Id)
  | unlistedDispatchDemands (macroId : Id)
  | invalidDispatchDemand (macroId : Id) (domain : String)
  | invalidMacroRename (macroId : Id) (name : String)
  | noUops (macroId : Id)
  | unknownUop (macroId uopId : Id)
  | parentMismatch (uopId : Id)
  | orphanUop
  | unknownParent (macroId : Id)
  | vectorStateOutside (uopId : Id)
  | oldDestinationOutside (uopId : Id)
  | unlistedIssueDemands (uopId : Id)
  | duplicatePartitionChoices (uopId : Id)
  | duplicateUnitChoices (uopId : Id)
  | partCountWithoutIndex (uopId : Id)
  | invalidPart (uopId : Id)
  | invalidIssueDemand (uopId : Id) (domain : String)
  | invalidUopRename (uopId : Id) (name : String)
  | unknownResource (uopId : Id) (resource : String)
  | unknownDependency (uopId dependency : Id)
  | unknownIssuePredecessor (uopId : Id)
  | cycle
  deriving DecidableEq, Repr

variable (T : BoundTrace)

/-- The checks of one macro-op. -/
def validateMacro (m : MacroOp) : Except TraceError Unit := do
  check (1 ≤ m.decodedMacroOps) (.invalidCount m.id "decoded_macro_ops")
  check (1 ≤ m.dispatchWidthUnits) (.invalidCount m.id "dispatch_units")
  check (1 ≤ m.robEntryCount) (.invalidCount m.id "rob_entries")
  check (1 ≤ m.retireMacroOps) (.invalidCount m.id "retire_macro_ops")
  check m.dispatchDomains.Nodup (.duplicateDispatchDomains m.id)
  check (∀ d ∈ m.dispatchDomainDemands, d.1 ∈ m.dispatchDomains) (.unlistedDispatchDemands m.id)
  m.dispatchDomainDemands.forM fun d => check (1 ≤ d.2) (.invalidDispatchDemand m.id d.1)
  m.renameAllocations.forM fun d => check (1 ≤ d.2) (.invalidMacroRename m.id d.1)
  check (m.uopIds ≠ []) (.noUops m.id)
  m.uopIds.forM fun u => match T.uop? u with
    | none => .error (.unknownUop m.id u)
    | some x => check (x.parentId = m.id) (.parentMismatch u)

/-- `0 <= part_index < part_count`, where both are set. -/
def partInRange (x : ExecutionUop) : Prop :=
  ∀ i ∈ x.partIndex, ∀ n ∈ x.partCount, i < n

instance (x : ExecutionUop) : Decidable (partInRange x) := by
  unfold partInRange; infer_instance

/-- The checks of one execution uop. -/
def validateUop (x : ExecutionUop) : Except TraceError Unit := do
  check ((T.macro? x.parentId).isSome) (.unknownParent x.parentId)
  check (x.vectorStateDependencies ⊆ x.dependencies) (.vectorStateOutside x.id)
  check (x.oldDestinationDependencies ⊆ x.dependencies) (.oldDestinationOutside x.id)
  check (∀ d ∈ x.issueDomainDemands, d.1 ∈ x.issueDomains) (.unlistedIssueDemands x.id)
  check x.schedulerPartitionChoices.Nodup (.duplicatePartitionChoices x.id)
  check x.executionUnitChoices.Nodup (.duplicateUnitChoices x.id)
  check (x.partCount.isSome → x.partIndex.isSome) (.partCountWithoutIndex x.id)
  check (partInRange x) (.invalidPart x.id)
  x.issueDomainDemands.forM fun d => check (1 ≤ d.2) (.invalidIssueDemand x.id d.1)
  x.renameAllocations.forM fun d => check (1 ≤ d.2) (.invalidUopRename x.id d.1)
  x.resourceChoices.forM fun r =>
    check (r ∈ T.resources.map (·.1)) (.unknownResource x.id r)
  x.dependencies.forM fun d => check ((T.uop? d).isSome) (.unknownDependency x.id d)
  check (∀ u ∈ x.issueAfterUop, (T.uop? u).isSome) (.unknownIssuePredecessor x.id)

/-- `consumers[producer]`: one entry for each dependency edge. -/
def consumersOf (producer : Id) : List Id :=
  T.uops.flatMap fun x => (x.dependencies.filter (· = producer)).map fun _ => x.id

/-- One `for consumer in consumers[producer]` of the topological sort: the
in-degrees, and the consumers that became ready. -/
def relax : List Id → (Id → ℕ) → List Id → (Id → ℕ) × List Id
  | [], indegree, ready => (indegree, ready)
  | c :: cs, indegree, ready =>
    let indegree' := Function.update indegree c (indegree c - 1)
    relax cs indegree' (if indegree' c = 0 then ready ++ [c] else ready)

/-- The worklist loop: how many uops it visits. Every uop enters the list at
most once, so the number of uops is enough fuel. -/
def visitReady : ℕ → List Id → (Id → ℕ) → ℕ → ℕ
  | 0, _, _, visited => visited
  | _ + 1, [], _, visited => visited
  | fuel + 1, p :: ready, indegree, visited =>
    let r := relax (consumersOf T p) indegree ready
    visitReady fuel r.2 r.1 (visited + 1)

def indegreeOf (u : Id) : ℕ := ((T.uop? u).map (·.dependencies.length)).getD 0

/-- The uops the topological sort visits. -/
def topologicalVisits : ℕ :=
  visitReady T T.uops.length
    (((T.uops.map (·.id)).filter fun u => indegreeOf T u = 0).insertionSort (· ≤ ·)) (indegreeOf T) 0

/-- `validate_bound_trace`. -/
def validateBoundTrace : Except TraceError Unit := do
  check (T.macros.map (·.id)).Nodup .duplicateMacroId
  check (T.uops.map (·.id)).Nodup .duplicateUopId
  T.macros.forM (validateMacro T)
  check (∀ x ∈ T.uops, ∃ m ∈ T.macros, x.id ∈ m.uopIds) .orphanUop
  T.uops.forM (validateUop T)
  check (topologicalVisits T = T.uops.length) .cycle

/-! ### What a validated trace promises -/

/-- The facts about ids and parents that the engines rely on. -/
structure WellFormed : Prop where
  macroIds : (T.macros.map (·.id)).Nodup
  uopIds : (T.uops.map (·.id)).Nodup
  macroUops : ∀ m ∈ T.macros, m.uopIds ≠ []
  owned : ∀ m ∈ T.macros, ∀ u ∈ m.uopIds, ∃ x, T.uop? u = some x ∧ x.parentId = m.id
  listed : ∀ x ∈ T.uops, ∃ m ∈ T.macros, x.id ∈ m.uopIds
  dependencies : ∀ x ∈ T.uops, ∀ d ∈ x.dependencies, (T.uop? d).isSome
  dispatchWidth : ∀ m ∈ T.macros, 1 ≤ m.dispatchWidthUnits
  domains : ∀ m ∈ T.macros, m.dispatchDomains.Nodup
  units : ∀ x ∈ T.uops, x.executionUnitChoices.Nodup
  predecessor : ∀ x ∈ T.uops, ∀ u ∈ x.issueAfterUop, (T.uop? u).isSome
  demands : ∀ x ∈ T.uops, ∀ d ∈ x.issueDomainDemands, 1 ≤ d.2

theorem wellFormed_of_valid {T : BoundTrace} (h : validateBoundTrace T = .ok ()) : WellFormed T := by
  simp only [validateBoundTrace, ok_bind, check_ok, forM_ok, exists_const] at h
  obtain ⟨h1, h2, h3, h4, h5, -⟩ := h
  have hm : ∀ m ∈ T.macros, 1 ≤ m.dispatchWidthUnits ∧ m.dispatchDomains.Nodup ∧ m.uopIds ≠ [] ∧
      ∀ u ∈ m.uopIds, ∃ x, T.uop? u = some x ∧ x.parentId = m.id := by
    intro m hm
    have := h3 m hm
    simp only [validateMacro, ok_bind, check_ok, forM_ok, exists_const] at this
    obtain ⟨-, a, -, -, b, -, -, -, c, d⟩ := this
    refine ⟨a, b, c, fun u hu => ?_⟩
    have := d u hu
    cases hx : T.uop? u with
    | none => simp [hx] at this
    | some x => exact ⟨x, rfl, by simpa [hx] using this⟩
  have hu : ∀ x ∈ T.uops, x.executionUnitChoices.Nodup ∧
      (∀ d ∈ x.dependencies, (T.uop? d).isSome) ∧ (∀ u ∈ x.issueAfterUop, (T.uop? u).isSome) ∧
      ∀ d ∈ x.issueDomainDemands, 1 ≤ d.2 := by
    intro x hx
    have := h5 x hx
    simp only [validateUop, ok_bind, check_ok, forM_ok, exists_const] at this
    obtain ⟨-, -, -, -, -, a, -, -, d, -, -, b, c⟩ := this
    exact ⟨a, b, c, d⟩
  exact {
    macroIds := h1
    uopIds := h2
    macroUops := fun m h => (hm m h).2.2.1
    owned := fun m h => (hm m h).2.2.2
    listed := h4
    dependencies := fun x h => (hu x h).2.1
    dispatchWidth := fun m h => (hm m h).1
    domains := fun m h => (hm m h).2.1
    units := fun x h => (hu x h).1
    predecessor := fun x h => (hu x h).2.2.1
    demands := fun x h => (hu x h).2.2.2 }

namespace WellFormed

variable {T : BoundTrace} (hT : WellFormed T)

include hT

/-- A uop of the trace is the one its id names. -/
theorem uop?_eq {x : ExecutionUop} (hx : x ∈ T.uops) : T.uop? x.id = some x := by
  unfold BoundTrace.uop?
  have h := hT.uopIds
  generalize T.uops = l at hx h
  induction l with
  | nil => cases hx
  | cons y l ih =>
    simp only [List.map_cons, List.nodup_cons] at h
    rcases List.mem_cons.mp hx with rfl | hx
    · simp
    · have hne : y.id ≠ x.id := fun he => h.1 (he ▸ List.mem_map_of_mem hx)
      simp [hne, ih hx h.2]

theorem macro?_eq {m : MacroOp} (hm : m ∈ T.macros) : T.macro? m.id = some m := by
  unfold BoundTrace.macro?
  have h := hT.macroIds
  generalize T.macros = l at hm h
  induction l with
  | nil => cases hm
  | cons y l ih =>
    simp only [List.map_cons, List.nodup_cons] at h
    rcases List.mem_cons.mp hm with rfl | hm
    · simp
    · have hne : y.id ≠ m.id := fun he => h.1 (he ▸ List.mem_map_of_mem hm)
      simp [hne, ih hm h.2]

/-- A uop belongs to one macro-op only. -/
theorem owner_unique {m m' : MacroOp} (hm : m ∈ T.macros) (hm' : m' ∈ T.macros) {u : Id}
    (h : u ∈ m.uopIds) (h' : u ∈ m'.uopIds) : m = m' := by
  obtain ⟨x, hx, hp⟩ := hT.owned m hm u h
  obtain ⟨x', hx', hp'⟩ := hT.owned m' hm' u h'
  have hxx : x = x' := Option.some.inj (hx.symm.trans hx')
  have := hT.macro?_eq hm
  rw [show m.id = m'.id by rw [← hp, ← hp', hxx], hT.macro?_eq hm'] at this
  exact (Option.some.inj this).symm

/-- A uop's parent is the macro-op that lists it. -/
theorem mem_parent {x : ExecutionUop} (hx : x ∈ T.uops) :
    ∃ m ∈ T.macros, T.macro? x.parentId = some m ∧ m.id = x.parentId ∧ x.id ∈ m.uopIds := by
  obtain ⟨m, hm, hu⟩ := hT.listed x hx
  obtain ⟨y, hy, hp⟩ := hT.owned m hm _ hu
  rw [hT.uop?_eq hx, Option.some.injEq] at hy
  subst hy
  exact ⟨m, hm, hp ▸ hT.macro?_eq hm, hp.symm, hu⟩

end WellFormed

/-! ### What the binder promises besides -/

/-- The uops of a macro-op that are of some kinds. -/
def BoundTrace.hasKind (p : Kind → Bool) (m : MacroOp) : Bool :=
  m.uopIds.any fun u => (T.uop? u).any fun x => p x.kind

/-- A macro-op lists its uops once, and its flags say what they are. -/
structure Bound : Prop where
  distinct : ∀ m ∈ T.macros, m.uopIds.Nodup
  vector : ∀ m ∈ T.macros, m.usesVectorScheduler = T.hasKind (·.isVectorResource) m
  load : ∀ m ∈ T.macros, m.usesLoadQueue = T.hasKind (· = .loadData) m
  store : ∀ m ∈ T.macros, m.usesStoreQueue = T.hasKind (· = .storeData) m
  /-- The rename allocations are a dictionary. -/
  renames : ∀ m ∈ T.macros, (m.renameAllocations.map (·.1)).Nodup

end VectorSim
