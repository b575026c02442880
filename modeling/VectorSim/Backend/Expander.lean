/-
# The XSAI uop expander

`_XsaiUopExpander` and `_materialize_xsai_trace` of `src/backend/xsai.py`: the
execution uops of each macro-op are grouped into scheduler entries, and a new
bound trace has one uop for each entry. An entry without execution uops is an
internal decode slot; it keeps no timing of its own.
-/
import VectorSim.Trace
import VectorSim.Policy

namespace VectorSim
namespace Expander

open Checked

/-- `XsaiBackendError`. -/
inductive ExpandError
  /-- "bound trace/profile mismatch" -/
  | profileMismatch
  /-- "bound macro has no source instruction" -/
  | noSourceInstruction (macroId : Id)
  | noExecutionUop (macroId : Id) (role : String)
  /-- "expected LMUL scheduler uops" -/
  | lmulParts (macroId : Id) (expected found : ℕ)
  /-- "expected EMUL/memory flows" -/
  | memoryFlows (macroId : Id) (expected found : ℕ)
  | multipleOwners (uopId : Id)
  /-- "grouped execution uops disagree" -/
  | disagree (macroId : Id) (field : String)
  | unknownDependency (slot dependency : Id)
  /-- `int("measure")` -/
  | unmeasuredWidth
  deriving DecidableEq, Repr

/-- A scheduler entry before it is linked to the others: its role, its execution uops, and
whether it is part of a synthetic chain. -/
structure Group where
  role : String
  uops : List ExecutionUop
  chain : Bool := false

/-- `XsaiBackendUop` (and `_PendingUop`), with the execution uops of its macro-op. -/
structure Slot where
  id : Id
  parentId : Id
  role : String
  uops : List ExecutionUop
  macroUops : List ExecutionUop
  localDependencies : List Id
  partIndex : Option ℕ
  partCount : Option ℕ

/-! ### Groups -/

/-- `_groups_by_part`, in the order of the part indices. -/
def groupsByPart (uops : List ExecutionUop) : List (ℕ × List ExecutionUop) :=
  ((uops.filterMap (·.partIndex)).dedup.insertionSort (· ≤ ·)).map fun i =>
    (i, uops.filter fun x => x.partIndex = some i)

/-- `_synthetic_sequence`: the last entry owns the execution uops. -/
def syntheticSequence (role : String) (m : MacroOp) (execution : List ExecutionUop) :
    Except ExpandError (List Group) :=
  if execution = [] then .error (.noExecutionUop m.id role)
  else .ok ((List.range m.decodedMacroOps).map fun index =>
    { role := s!"{role}-{index}", chain := true,
      uops := if index = m.decodedMacroOps - 1 then execution else [] })

/-- The entries of the uops that belong to no part. -/
def prepGroups (role : String) (execution : List ExecutionUop) : List Group :=
  (execution.filter fun x => x.partIndex = none).map fun x => { role := role, uops := [x] }

/-- The entries of the parts. -/
def partGroups (role : String) (execution : List ExecutionUop) : List Group :=
  (groupsByPart execution).map fun g => { role := role, uops := g.2 }

/-- `_vector_compute_groups`. -/
def vectorComputeGroups (m : MacroOp) (state : VectorState) (execution : List ExecutionUop) :
    Except ExpandError (List Group) :=
  if (groupsByPart execution).length ≠ lmulParts state.lmul then
    .error (.lmulParts m.id (lmulParts state.lmul) (groupsByPart execution).length)
  else .ok (prepGroups "vector-scalar-prep" execution ++ partGroups "vector-lmul-part" execution)

/-- `expected_flows`. -/
def expectedFlows (i : Instruction) (bytes width : ℕ) : ℕ :=
  max 1 ((i.activeVectorBits.getD (bytes * 8) + width - 1) / width)

/-- `_vector_memory_groups`. -/
def vectorMemoryGroups (width : PositiveParam) (m : MacroOp) (i : Instruction) (a : MemoryAccess)
    (execution : List ExecutionUop) : Except ExpandError (List Group) :=
  match width with
  | none => .error .unmeasuredWidth
  | some width =>
    if (groupsByPart execution).length ≠ expectedFlows i a.bytes width then
      .error (.memoryFlows m.id (expectedFlows i a.bytes width) (groupsByPart execution).length)
    else .ok (prepGroups "vector-memory-prep" execution ++ partGroups "vector-memory-flow" execution)

/-- The kinds that make an instruction with a memory operand a vector memory access. -/
def isMemoryKind (k : SemanticKind) : Bool :=
  k = .addressGeneration || k = .vectorLoad || k = .vectorStore

/-- `_groups_for_macro`. -/
def groupsForMacro (width : PositiveParam) (m : MacroOp) (i : Instruction)
    (execution : List ExecutionUop) : Except ExpandError (List Group) :=
  if .vectorConfig ∈ i.semanticKinds then syntheticSequence "vector-config" m execution
  else if i.semanticKinds.any (·.isReduction) then syntheticSequence "vector-reduction" m execution
  else match i.memory, i.semanticKinds.any isMemoryKind with
    | some a, true => vectorMemoryGroups width m i a execution
    | _, _ =>
      match i.vectorState, i.semanticKinds.any (·.isVector) with
      | some state, true => vectorComputeGroups m state execution
      | _, _ => .ok (execution.map fun x => { role := "scalar", uops := [x] })

/-! ### Entries -/

/-- `_single_value`. -/
def singleValue (values : List (Option ℕ)) (m : Id) (field : String) :
    Except ExpandError (Option ℕ) :=
  match values.dedup with
  | [] => .ok none
  | [v] => .ok v
  | _ => .error (.disagree m field)

/-- The id of an entry: that of its last execution uop, or a new one. -/
def slotIdOf (m : MacroOp) (g : Group × ℕ) : Id :=
  match g.1.uops.getLast? with
  | some x => x.id
  | none => slotId m.id g.2

/-- The entry of a group; `previous` is the last entry of a synthetic chain. -/
def slotOf (m : MacroOp) (execution : List ExecutionUop) (previous : Option Id) (g : Group × ℕ) :
    Except ExpandError Slot := do
  let partIndex ← singleValue (g.1.uops.map (·.partIndex)) m.id "part_index"
  let partCount ← singleValue (g.1.uops.map (·.partCount)) m.id "part_count"
  .ok { id := slotIdOf m g, parentId := m.id, role := g.1.role, uops := g.1.uops,
        macroUops := execution, localDependencies := if g.1.chain then previous.toList else [],
        partIndex := partIndex, partCount := partCount }

/-- The entries of a macro-op, in order. -/
def slotsOf (m : MacroOp) (execution : List ExecutionUop) :
    Option Id → List (Group × ℕ) → Except ExpandError (List Slot)
  | _, [] => .ok []
  | previous, g :: gs => do
    let slot ← slotOf m execution previous g
    let rest ← slotsOf m execution (if g.1.chain then some slot.id else previous) gs
    .ok (slot :: rest)

/-- The execution uops of a macro-op. -/
def executionOf (T : BoundTrace) (m : MacroOp) : List ExecutionUop := m.uopIds.filterMap T.uop?

/-- The entries of one macro-op of the trace. -/
def slotsForMacro (T : BoundTrace) (width : PositiveParam) (m : MacroOp) :
    Except ExpandError (List Slot) :=
  match T.source.find? (·.id = m.id) with
  | none => .error (.noSourceInstruction m.id)
  | some i => do
    let groups ← groupsForMacro width m i (executionOf T m)
    slotsOf m (executionOf T m) none groups.zipIdx

/-- `execution_owner`: the entries that own each execution uop. -/
def ownerOf (slots : List Slot) (u : Id) : Option Id :=
  (slots.find? fun s => u ∈ s.uops.map (·.id)).map (·.id)

/-- The dependencies of an entry on other entries. -/
def translated (slots : List Slot) (s : Slot) : Except ExpandError (List Id) := do
  let outside := (s.uops.flatMap (·.dependencies)).dedup.filter fun d => d ∉ s.uops.map (·.id)
  let owners ← outside.mapM fun d =>
    match ownerOf slots d with
    | some o => .ok o
    | none => .error (.unknownDependency s.id d)
  .ok ((s.localDependencies ++ owners).dedup.filter (· ≠ s.id))

/-- `_expand_backend_uops`: the entries with their dependencies, by macro-op. -/
def expand (T : BoundTrace) (P : EngineProfile) : Except ExpandError (List (Slot × List Id)) := do
  check (T.profileId = P.id) .profileMismatch
  let slots := (← T.macros.mapM (slotsForMacro T P.registerWidthBits)).flatten
  match (slots.flatMap (·.uops)).find? fun x =>
      1 < (slots.flatMap (·.uops)).countP fun y => y.id = x.id with
  | some x => .error (.multipleOwners x.id)
  | none => slots.mapM fun s => do
    let d ← translated slots s
    .ok (s, d)

/-! ### The scheduler-visible trace -/

/-- The execution uop an entry takes its timing from: its last load or store, else its last. -/
def ownerUop (candidates : List ExecutionUop) : Option ExecutionUop :=
  (candidates.reverse.find? (·.kind.isMemory)).or candidates.getLast?

/-- Dependencies of one category, as entries. -/
def translateAll (slots : List Slot) (self : Id) (ds : List Id) : List Id :=
  (ds.filterMap (ownerOf slots)).dedup.filter (· ≠ self)

/-- The uop of an entry. -/
def materializeUop (slots : List Slot) (tpc : ℕ) (e : (Slot × List Id) × ℕ) : Option ExecutionUop :=
  let s := e.1.1
  let candidates := if s.uops = [] then s.macroUops else s.uops
  (ownerUop candidates).map fun owner =>
    let x := { owner with
      id := s.id
      sequence := e.2
      semanticIds := orderedUnique (candidates.flatMap (·.semanticIds))
      semanticKinds := orderedUnique (candidates.flatMap (·.semanticKinds))
      dependencies := e.1.2
      vectorStateDependencies := translateAll slots s.id (s.uops.flatMap (·.vectorStateDependencies))
      oldDestinationDependencies :=
        translateAll slots s.id (s.uops.flatMap (·.oldDestinationDependencies))
      schedulerPartitionChoices := orderedUnique (candidates.flatMap (·.schedulerPartitionChoices))
      executionUnitChoices := orderedUnique (candidates.flatMap (·.executionUnitChoices))
      partIndex := s.partIndex
      partCount := s.partCount
      issueAfterUop := (owner.issueAfterUop.bind (ownerOf slots)).filter (· ≠ s.id) }
    if s.uops = [] then
      { x with
        schedulingClass := .internal s.role
        latencyTicks := 0
        issueIntervalTicks := 0
        occupancyTicks := tpc
        renameAllocations := []
        memory := none }
    else x

/-- `_materialize_xsai_trace`. -/
def materialize (T : BoundTrace) (slots : List (Slot × List Id)) : BoundTrace :=
  { T with
    uops := slots.zipIdx.filterMap (materializeUop (slots.map (·.1)) T.ticksPerCycle)
    macros := T.macros.map fun m =>
      let ids := (slots.filter fun s => s.1.parentId = m.id).map (·.1.id)
      { m with uopIds := ids, dispatchUnits := some ids.length } }

/-! ### The uops of the entries -/

variable {T : BoundTrace} {P : EngineProfile}

theorem mem_executionOf (hT : WellFormed T) {m : MacroOp} (hm : m ∈ T.macros) {x : ExecutionUop}
    (hx : x ∈ executionOf T m) : x ∈ T.uops ∧ x.parentId = m.id := by
  obtain ⟨u, hu, hux⟩ := List.mem_filterMap.mp hx
  obtain ⟨y, hy, hp⟩ := hT.owned m hm u hu
  obtain rfl : y = x := Option.some.inj (hy.symm.trans hux)
  exact ⟨(T.uop?_mem hux).1, hp⟩

/-- Every execution uop of a macro-op of a validated trace is found. -/
theorem executionOf_ne_nil (hT : WellFormed T) {m : MacroOp} (hm : m ∈ T.macros) : executionOf T m ≠ [] := by
  obtain ⟨u, hu⟩ := List.exists_mem_of_ne_nil _ (hT.macroUops m hm)
  obtain ⟨x, hx, -⟩ := hT.owned m hm u hu
  exact List.ne_nil_of_mem (List.mem_filterMap.mpr ⟨u, hu, hx⟩)

/-- The fields of the entry of a group. -/
structure Made (m : MacroOp) (execution : List ExecutionUop) (g : Group × ℕ) (s : Slot) : Prop where
  id : s.id = slotIdOf m g
  parent : s.parentId = m.id
  role : s.role = g.1.role
  uops : s.uops = g.1.uops
  macroUops : s.macroUops = execution
  partIndex : ∀ x ∈ s.uops, x.partIndex = s.partIndex
  partCount : ∀ x ∈ s.uops, x.partCount = s.partCount
  internal : s.uops = [] → s.partIndex = none ∧ s.partCount = none

theorem singleValue_ok {values : List (Option ℕ)} {m : Id} {field : String} {v : Option ℕ}
    (h : singleValue values m field = .ok v) : (∀ a ∈ values, a = v) ∧ (values = [] → v = none) := by
  unfold singleValue at h
  split at h
  · next hnil =>
    cases h
    have : values = [] := (List.dedup_eq_nil values).mp hnil
    subst this
    simp
  · next a hone =>
    cases h
    have hmem : ∀ a, a ∈ values ↔ a = v := fun a => by rw [← List.mem_dedup, hone, List.mem_singleton]
    refine ⟨fun a ha => (hmem a).mp ha, fun hnil => ?_⟩
    have := (hmem v).mpr rfl
    rw [hnil] at this
    cases this
  · cases h

theorem slotOf_made {m : MacroOp} {execution : List ExecutionUop} {previous : Option Id} {g : Group × ℕ} {s : Slot}
    (h : slotOf m execution previous g = .ok s) :
    Made m execution g s ∧ s.localDependencies = if g.1.chain then previous.toList else [] := by
  obtain ⟨index, hindex, h⟩ := ok_bind.mp h
  obtain ⟨count, hcount, h⟩ := ok_bind.mp h
  cases h
  obtain ⟨hindices, hnoindex⟩ := singleValue_ok hindex
  obtain ⟨hcounts, hnocount⟩ := singleValue_ok hcount
  refine ⟨⟨rfl, rfl, rfl, rfl, rfl, fun x hx => hindices _ (List.mem_map_of_mem hx), fun x hx => hcounts _ (List.mem_map_of_mem hx),
    fun hnil => ?_⟩, rfl⟩
  have hnil : g.1.uops = [] := hnil
  exact ⟨hnoindex (by rw [hnil]; rfl), hnocount (by rw [hnil]; rfl)⟩

theorem slotsOf_made {m : MacroOp} {execution : List ExecutionUop} : ∀ {gs : List (Group × ℕ)}
    {previous : Option Id} {slots : List Slot}, slotsOf m execution previous gs = .ok slots →
      List.Forall₂ (Made m execution) gs slots
  | [], _, _, h => by
    cases h
    exact .nil
  | _ :: _, _, _, h => by
    obtain ⟨slot, hslot, h⟩ := ok_bind.mp h
    obtain ⟨rest, hrest, h⟩ := ok_bind.mp h
    cases h
    exact .cons (slotOf_made hslot).1 (slotsOf_made hrest)

/-- The parts are made of the uops they are the parts of. -/
theorem partGroups_uops {role : String} {execution : List ExecutionUop} :
    ∀ g ∈ partGroups role execution, ∀ x ∈ g.uops, x ∈ execution := by
  intro g hg x hx
  obtain ⟨p, hp, rfl⟩ := List.mem_map.mp hg
  obtain ⟨i, -, rfl⟩ := List.mem_map.mp hp
  exact List.mem_of_mem_filter hx

theorem prepGroups_uops {role : String} {execution : List ExecutionUop} :
    ∀ g ∈ prepGroups role execution, ∀ x ∈ g.uops, x ∈ execution := by
  intro g hg x hx
  obtain ⟨y, hy, rfl⟩ := List.mem_map.mp hg
  obtain rfl := List.mem_singleton.mp hx
  exact List.mem_of_mem_filter hy

theorem syntheticSequence_uops {role : String} {m : MacroOp} {execution : List ExecutionUop}
    {groups : List Group} (h : syntheticSequence role m execution = .ok groups) :
    ∀ g ∈ groups, ∀ x ∈ g.uops, x ∈ execution := by
  unfold syntheticSequence at h
  split at h
  · cases h
  · cases h
    intro g hg x hx
    obtain ⟨i, -, rfl⟩ := List.mem_map.mp hg
    dsimp only at hx
    split at hx
    · exact hx
    · cases hx

/-- The groups of a macro-op are made of its execution uops. -/
theorem groupsForMacro_uops {width : PositiveParam} {m : MacroOp} {i : Instruction}
    {execution : List ExecutionUop} {groups : List Group}
    (h : groupsForMacro width m i execution = .ok groups) : ∀ g ∈ groups, ∀ x ∈ g.uops, x ∈ execution := by
  have happend : ∀ {a b : String}, ∀ g ∈ prepGroups a execution ++ partGroups b execution,
      ∀ x ∈ g.uops, x ∈ execution := fun g hg =>
    (List.mem_append.mp hg).elim (prepGroups_uops g) (partGroups_uops g)
  unfold groupsForMacro at h
  split at h
  · exact syntheticSequence_uops h
  · split at h
    · exact syntheticSequence_uops h
    · split at h
      · unfold vectorMemoryGroups at h
        split at h
        · cases h
        · split at h
          · cases h
          · cases h; exact happend
      · split at h
        · unfold vectorComputeGroups at h
          split at h
          · cases h
          · cases h; exact happend
        · cases h
          intro g hg x hx
          obtain ⟨y, hy, rfl⟩ := List.mem_map.mp hg
          obtain rfl := List.mem_singleton.mp hx
          exact hy

/-- The entries of a macro-op are made of groups of its execution uops. -/
theorem slotsForMacro_made {width : PositiveParam} {m : MacroOp} {l : List Slot} (h : slotsForMacro T width m = .ok l) :
    ∃ groups : List Group, List.Forall₂ (Made m (executionOf T m)) groups.zipIdx l ∧
      ∀ g ∈ groups, ∀ x ∈ g.uops, x ∈ executionOf T m := by
  unfold slotsForMacro at h
  split at h
  · cases h
  · obtain ⟨groups, hgroups, h⟩ := ok_bind.mp h
    exact ⟨groups, slotsOf_made h, groupsForMacro_uops hgroups⟩

/-- The entries come macro-op by macro-op, and no uop is in two. -/
theorem expand_byMacro {slots : List (Slot × List Id)} (h : expand T P = .ok slots) :
    ∃ byMacro : List (List Slot), slots.map (·.1) = byMacro.flatten ∧
      List.Forall₂ (fun m l => slotsForMacro T P.registerWidthBits m = .ok l) T.macros byMacro ∧
      (∀ e ∈ slots, translated (slots.map (·.1)) e.1 = .ok e.2) ∧
      ((byMacro.flatten.flatMap (·.uops)).map (·.id)).Nodup := by
  obtain ⟨_, -, h⟩ := ok_bind.mp h
  obtain ⟨byMacro, hby, h⟩ := ok_bind.mp h
  dsimp only at h
  split at h
  · cases h
  · next hfind =>
    have hmade := mapM_ok.mp h
    have hfirst : slots.map (·.1) = byMacro.flatten := by
      have hsame : List.Forall₂ (· = ·) byMacro.flatten (slots.map (·.1)) := by
        rw [List.forall₂_map_right_iff]
        refine hmade.imp fun s e he => ?_
        obtain ⟨d, -, he⟩ := ok_bind.mp he
        cases he
        rfl
      rw [List.forall₂_eq_eq_eq] at hsame
      exact hsame.symm
    refine ⟨byMacro, hfirst, mapM_ok.mp hby, fun e he => ?_, ?_⟩
    · obtain ⟨s, -, hok⟩ := forall₂_right hmade he
      obtain ⟨d, hd, hok⟩ := ok_bind.mp hok
      cases hok
      rw [hfirst]
      exact hd
    · refine List.nodup_iff_count_le_one.mpr fun u => ?_
      by_contra hmany
      obtain ⟨x, hx, rfl⟩ := List.mem_map.mp (List.count_pos_iff.mp (Nat.zero_lt_one.trans (not_le.mp hmany)))
      refine List.find?_eq_none.mp hfind x hx (decide_eq_true ?_)
      rw [List.count, List.countP_map] at hmany
      exact not_le.mp hmany

/-- The uops of an entry are of one macro-op. -/
theorem expand_parent {slots : List (Slot × List Id)} (h : expand T P = .ok slots) : ∀ e ∈ slots, ∃ m ∈ T.macros,
    e.1.parentId = m.id ∧ e.1.macroUops = executionOf T m ∧ ∀ x ∈ e.1.uops, x ∈ executionOf T m := by
  obtain ⟨byMacro, hfirst, hslots, -⟩ := expand_byMacro h
  intro e he
  obtain ⟨l, hl, hin⟩ := List.mem_flatten.mp (hfirst ▸ List.mem_map_of_mem he)
  obtain ⟨m, hm, hml⟩ := forall₂_right hslots hl
  obtain ⟨groups, hmade, hall⟩ := slotsForMacro_made hml
  obtain ⟨g, hg, hge⟩ := forall₂_right hmade hin
  refine ⟨m, hm, hge.parent, hge.macroUops, fun x hx => ?_⟩
  exact hall _ (List.fst_mem_of_mem_zipIdx hg) x (hge.uops ▸ hx)

theorem expand_macroUops (hT : WellFormed T) {slots : List (Slot × List Id)} (h : expand T P = .ok slots) :
    ∀ s ∈ slots, s.1.macroUops ≠ [] := by
  intro e he
  obtain ⟨m, hm, -, hmac, -⟩ := expand_parent h e he
  rw [hmac]
  exact executionOf_ne_nil hT hm

/-- The uops of the entries are uops of the trace. -/
theorem expand_uops {slots : List (Slot × List Id)} (h : expand T P = .ok slots) :
    ∀ s ∈ slots, (∀ x ∈ s.1.uops, x ∈ T.uops) ∧ ∀ x ∈ s.1.macroUops, x ∈ T.uops := by
  intro e he
  obtain ⟨m, -, -, hmac, huops⟩ := expand_parent h e he
  have hexec : ∀ x ∈ executionOf T m, x ∈ T.uops := by
    intro x hx
    obtain ⟨u, -, hu⟩ := List.mem_filterMap.mp hx
    exact (T.uop?_mem hu).1
  exact ⟨fun x hx => hexec x (huops x hx), fun x hx => hexec x (hmac ▸ hx)⟩

theorem ownerUop_mem {candidates : List ExecutionUop} {x : ExecutionUop} (h : ownerUop candidates = some x) :
    x ∈ candidates := by
  unfold ownerUop at h
  rcases Option.or_eq_some_iff.mp h with h | ⟨-, h⟩
  · exact List.mem_reverse.mp (List.mem_of_find?_eq_some h)
  · exact List.mem_of_getLast? h

/-- The uop of an entry reserves the domains of one of the entry's uops. -/
theorem materialize_issueDomains {slots : List (Slot × List Id)} (h : expand T P = .ok slots) :
    ∀ x ∈ (materialize T slots).uops, ∃ y ∈ T.uops, x.issueDomains = y.issueDomains := by
  intro x hx
  obtain ⟨e, he, hx⟩ := List.mem_filterMap.mp hx
  have hmem := expand_uops h e.1 (List.fst_mem_of_mem_zipIdx he)
  unfold materializeUop at hx
  dsimp only at hx
  obtain ⟨owner, howner, rfl⟩ := Option.map_eq_some_iff.mp hx
  have hin := ownerUop_mem howner
  refine ⟨owner, ?_, ?_⟩
  · split at hin
    · exact hmem.2 owner hin
    · exact hmem.1 owner hin
  · split <;> rfl

theorem ownerUop_isSome {candidates : List ExecutionUop} (h : candidates ≠ []) :
    (ownerUop candidates).isSome := by
  unfold ownerUop
  rw [Option.isSome_or, List.getLast?_isSome.mpr h, Bool.or_true]

/-- Every entry has a uop, under its own id. -/
theorem materializeUop_id {slots : List Slot} {tpc : ℕ} {e : (Slot × List Id) × ℕ}
    (h : e.1.1.macroUops ≠ []) : ∃ x, materializeUop slots tpc e = some x ∧ x.id = e.1.1.id := by
  have hne : (if e.1.1.uops = [] then e.1.1.macroUops else e.1.1.uops) ≠ [] := by
    split
    · exact h
    · next hu => exact hu
  obtain ⟨owner, howner⟩ := Option.isSome_iff_exists.mp (ownerUop_isSome hne)
  unfold materializeUop
  dsimp only
  rw [howner]
  refine ⟨_, rfl, ?_⟩
  split <;> rfl

/-- The uops of the scheduler-visible trace have the ids of the entries. -/
theorem materialize_ids {slots : List (Slot × List Id)} (hs : ∀ s ∈ slots, s.1.macroUops ≠ []) :
    (materialize T slots).uops.map (·.id) = slots.map (·.1.id) := by
  have key : ∀ l : List ((Slot × List Id) × ℕ), (∀ e ∈ l, e.1.1.macroUops ≠ []) →
      (l.filterMap (materializeUop (slots.map (·.1)) T.ticksPerCycle)).map (·.id) =
        l.map fun e => e.1.1.id := by
    intro l
    induction l with
    | nil => exact fun _ => rfl
    | cons e l ih =>
      intro hl
      obtain ⟨x, hx, hid⟩ := materializeUop_id
        (hl e List.mem_cons_self)
      rw [List.filterMap_cons_some hx, List.map_cons, List.map_cons, hid,
        ih fun e he => hl e (List.mem_cons_of_mem _ he)]
  have hmem : ∀ e ∈ slots.zipIdx, e.1.1.macroUops ≠ [] := fun e he => hs _ (List.fst_mem_of_mem_zipIdx he)
  rw [materialize]
  dsimp only
  rw [key _ hmem]
  conv_rhs => rw [← List.zipIdx_map_fst 0 slots, List.map_map]
  rfl

/-- No macro-op of it lists a uop twice. -/
theorem materialize_distinct {slots : List (Slot × List Id)} (hs : ∀ s ∈ slots, s.1.macroUops ≠ [])
    (hn : ((materialize T slots).uops.map (·.id)).Nodup) :
    ∀ m ∈ (materialize T slots).macros, m.uopIds.Nodup := by
  rw [materialize_ids hs] at hn
  intro m hm
  obtain ⟨m', -, rfl⟩ := List.mem_map.mp hm
  exact hn.sublist (List.filter_sublist.map _)

/-! ### The order of the entries -/

theorem slotsForMacro_parent {width : PositiveParam} {m : MacroOp} {l : List Slot}
    (h : slotsForMacro T width m = .ok l) : ∀ s ∈ l, s.parentId = m.id := by
  obtain ⟨groups, hmade, -⟩ := slotsForMacro_made h
  intro s hs
  obtain ⟨g, -, hg⟩ := forall₂_right hmade hs
  exact hg.parent

/-- Lists by macro-op are found again by the parents of their entries. -/
theorem byMacro_eq : ∀ {macros : List MacroOp} {byMacro : List (List Slot)},
    List.Forall₂ (fun m l => ∀ s ∈ l, s.parentId = m.id) macros byMacro → (macros.map (·.id)).Nodup →
      byMacro = macros.map fun m => byMacro.flatten.filter (·.parentId = m.id)
  | [], [], _, _ => rfl
  | m :: ms, l :: ls, .cons hl hrest, hn => by
    obtain ⟨hfresh, hn⟩ := List.nodup_cons.mp hn
    have hparents : ∀ s ∈ ls.flatten, ∃ m' ∈ ms, s.parentId = m'.id := by
      intro s hs
      obtain ⟨l', hl', hs⟩ := List.mem_flatten.mp hs
      obtain ⟨m', hm', hall⟩ := forall₂_right hrest hl'
      exact ⟨m', hm', hall s hs⟩
    have hown : l.filter (·.parentId = m.id) = l := by
      rw [List.filter_eq_self]
      intro s hs
      simp [hl s hs]
    have hothers : ls.flatten.filter (·.parentId = m.id) = [] := by
      rw [List.filter_eq_nil_iff]
      intro s hs heq
      obtain ⟨m', hm', hp⟩ := hparents s hs
      have heq : s.parentId = m.id := by simpa using heq
      exact hfresh (List.mem_map.mpr ⟨m', hm', hp.symm.trans heq⟩)
    have hnone : ∀ m' ∈ ms, l.filter (·.parentId = m'.id) = [] := by
      intro m' hm'
      rw [List.filter_eq_nil_iff]
      intro s hs heq
      have heq : s.parentId = m'.id := by simpa using heq
      exact hfresh (List.mem_map.mpr ⟨m', hm', heq.symm.trans (hl s hs)⟩)
    have hrests : ms.map (fun m' => l.filter (·.parentId = m'.id) ++ ls.flatten.filter (·.parentId = m'.id)) =
        ms.map fun m' => ls.flatten.filter (·.parentId = m'.id) :=
      List.map_congr_left fun m' hm' => by rw [hnone m' hm', List.nil_append]
    simp only [List.map_cons, List.flatten_cons, List.filter_append, hown, hothers, List.append_nil, hrests,
      ← byMacro_eq hrest hn]

/-- The macro-ops of the scheduler-visible trace list its uops in their order. -/
theorem materialize_listed (hT : WellFormed T) {slots : List (Slot × List Id)} (h : expand T P = .ok slots) :
    (materialize T slots).uops.map (·.id) = (materialize T slots).macros.flatMap (·.uopIds) := by
  obtain ⟨byMacro, hflat, hslots, -, -⟩ := expand_byMacro h
  have hall := hslots.imp fun m l hl => slotsForMacro_parent hl
  have hfilter : ∀ m : MacroOp, (slots.filter fun s => s.1.parentId = m.id).map (·.1.id) =
      (byMacro.flatten.filter (·.parentId = m.id)).map (·.id) := by
    intro m
    rw [← hflat, List.filter_map, List.map_map]
    rfl
  calc (materialize T slots).uops.map (·.id) = byMacro.flatten.map (·.id) := by
        rw [materialize_ids (expand_macroUops hT h), ← hflat, List.map_map]
        rfl
    _ = (T.macros.flatMap fun m => byMacro.flatten.filter (·.parentId = m.id)).map (·.id) := by
        rw [List.flatMap_def, ← byMacro_eq hall hT.macroIds]
    _ = (materialize T slots).macros.flatMap (·.uopIds) := by
        simp only [materialize, List.flatMap_map, List.map_flatMap, hfilter]

theorem materializeUop_sequence {slots : List Slot} {tpc : ℕ} {e : (Slot × List Id) × ℕ} {x : ExecutionUop}
    (h : materializeUop slots tpc e = some x) : x.sequence = e.2 := by
  unfold materializeUop at h
  dsimp only at h
  obtain ⟨owner, -, rfl⟩ := Option.map_eq_some_iff.mp h
  split <;> rfl

/-- Its uops are numbered in their order. -/
theorem materialize_rising (slots : List (Slot × List Id)) :
    (materialize T slots).uops.Pairwise fun x y => x.sequence < y.sequence := by
  have hrise : slots.zipIdx.Pairwise fun e e' => e.2 < e'.2 := by
    have := List.pairwise_lt_range' (s := 0) (n := slots.length)
    rwa [← List.zipIdx_map_snd, List.pairwise_map] at this
  refine hrise.filterMap _ fun e e' hlt x hx y hy => ?_
  rwa [materializeUop_sequence hx, materializeUop_sequence hy]

end Expander
end VectorSim
