/-
# What the validation of a bound trace decides

`validate_bound_trace` accepts a trace just when its fields are well formed, its
macro-ops own its uops and its dependencies have a topological order
(`validate_iff`). So the dependencies of a trace it accepts are acyclic, and a
trace whose macro-ops partition its uops is accepted. It keeps the uops it has
seen as a set: it is exact but for traces in which a macro-op lists a uop twice
(`exact_iff`).
-/
import VectorSim.RunSafety
import VectorSim.Lib.Kahn

namespace VectorSim

open Checked

variable {T : BoundTrace}

/-- The checks of the fields of a macro-op. -/
structure MacroChecks (m : MacroOp) : Prop where
  decoded : 1 ≤ m.decodedMacroOps
  width : 1 ≤ m.dispatchWidthUnits
  rob : 1 ≤ m.robEntryCount
  retire : 1 ≤ m.retireMacroOps
  domains : m.dispatchDomains.Nodup
  listed : ∀ d ∈ m.dispatchDomainDemands, d.1 ∈ m.dispatchDomains
  demands : ∀ d ∈ m.dispatchDomainDemands, 1 ≤ d.2
  renames : ∀ d ∈ m.renameAllocations, 1 ≤ d.2
  uops : m.uopIds ≠ []

/-- The checks of the fields of a uop. -/
structure UopChecks (T : BoundTrace) (x : ExecutionUop) : Prop where
  parent : (T.macro? x.parentId).isSome
  vectorState : x.vectorStateDependencies ⊆ x.dependencies
  oldDestination : x.oldDestinationDependencies ⊆ x.dependencies
  listed : ∀ d ∈ x.issueDomainDemands, d.1 ∈ x.issueDomains
  partitions : x.schedulerPartitionChoices.Nodup
  units : x.executionUnitChoices.Nodup
  partCount : x.partCount.isSome → x.partIndex.isSome
  part : partInRange x
  demands : ∀ d ∈ x.issueDomainDemands, 1 ≤ d.2
  renames : ∀ d ∈ x.renameAllocations, 1 ≤ d.2
  resources : ∀ r ∈ x.resourceChoices, r ∈ T.resources.map (·.1)
  dependencies : ∀ d ∈ x.dependencies, (T.uop? d).isSome
  predecessor : ∀ u ∈ x.issueAfterUop, (T.uop? u).isSome

/-- The checks of the fields of a trace: distinct ids, and those of its macro-ops and uops. -/
structure FieldChecks (T : BoundTrace) : Prop where
  macroIds : (T.macros.map (·.id)).Nodup
  uopIds : (T.uops.map (·.id)).Nodup
  macros : ∀ m ∈ T.macros, MacroChecks m
  uops : ∀ x ∈ T.uops, UopChecks T x

/-- The macro-ops list uops of their own, and every uop is listed. -/
structure Owned (T : BoundTrace) : Prop where
  owned : ∀ m ∈ T.macros, ∀ u ∈ m.uopIds, ∃ x, T.uop? u = some x ∧ x.parentId = m.id
  listed : ∀ x ∈ T.uops, ∃ m ∈ T.macros, x.id ∈ m.uopIds

/-- The macro-ops list the uops by their parent, each once. -/
def PartitionsUops (T : BoundTrace) : Prop :=
  ∀ m ∈ T.macros, m.uopIds.Perm ((T.uops.filter (·.parentId = m.id)).map (·.id))

/-- Every uop is at one position of one macro-op. -/
def OnceEach (T : BoundTrace) : Prop := ∀ x ∈ T.uops, (T.macros.flatMap (·.uopIds)).count x.id = 1

/-- The uops have an order in which each comes after its dependencies. -/
def HasOrder (T : BoundTrace) : Prop :=
  ∃ order : List Id, order.Perm (T.uops.map (·.id)) ∧
    ∀ x ∈ T.uops, ∀ d ∈ x.dependencies, order.idxOf d < order.idxOf x.id

/-- A uop depends on another. -/
def Depends (T : BoundTrace) (u d : Id) : Prop := ∃ x ∈ T.uops, x.id = u ∧ d ∈ x.dependencies

/-- No uop depends on itself, along any path. -/
def Acyclic (T : BoundTrace) : Prop := ∀ u, ¬ Relation.TransGen (Depends T) u u

/-- What the validation should decide. -/
structure Exact (T : BoundTrace) : Prop where
  sound : validateBoundTrace T = .ok () → Acyclic T ∧ OnceEach T
  complete : FieldChecks T → PartitionsUops T → HasOrder T → validateBoundTrace T = .ok ()

/-! ### The fields -/

theorem validateMacro_iff {m : MacroOp} : validateMacro T m = .ok () ↔
    MacroChecks m ∧ ∀ u ∈ m.uopIds, ∃ x, T.uop? u = some x ∧ x.parentId = m.id := by
  unfold validateMacro
  simp only [ok_bind, check_ok, forM_ok, exists_const]
  constructor
  · rintro ⟨h1, h2, h3, h4, h5, h6, h7, h8, h9, hown⟩
    refine ⟨⟨h1, h2, h3, h4, h5, h6, h7, h8, h9⟩, fun u hu => ?_⟩
    have h := hown u hu
    cases hx : T.uop? u with
    | none => simp [hx] at h
    | some x => exact ⟨x, rfl, by simpa [hx] using h⟩
  · rintro ⟨⟨h1, h2, h3, h4, h5, h6, h7, h8, h9⟩, hown⟩
    refine ⟨h1, h2, h3, h4, h5, h6, h7, h8, h9, fun u hu => ?_⟩
    obtain ⟨x, hx, hp⟩ := hown u hu
    simp [hx, hp]

theorem validateUop_iff {x : ExecutionUop} : validateUop T x = .ok () ↔ UopChecks T x := by
  unfold validateUop
  simp only [ok_bind, check_ok, forM_ok, exists_const]
  constructor
  · rintro ⟨h1, h2, h3, h4, h5, h6, h7, h8, h9, h10, h11, h12, h13⟩
    exact ⟨h1, h2, h3, h4, h5, h6, h7, h8, h9, h10, h11, h12, h13⟩
  · rintro ⟨h1, h2, h3, h4, h5, h6, h7, h8, h9, h10, h11, h12, h13⟩
    exact ⟨h1, h2, h3, h4, h5, h6, h7, h8, h9, h10, h11, h12, h13⟩

/-! ### The topological sort -/

/-- The dependency graph of a trace whose uops have distinct ids and known dependencies. -/
def graphOf (T : BoundTrace) (hn : (T.uops.map (·.id)).Nodup)
    (hd : ∀ x ∈ T.uops, ∀ d ∈ x.dependencies, (T.uop? d).isSome) : Kahn.Graph Id where
  nodes := T.uops.map (·.id)
  deps u := ((T.uop? u).map (·.dependencies)).getD []
  nodup := hn
  closed u _ d hdep := by
    cases hx : T.uop? u with
    | none =>
      rw [hx] at hdep
      exact (List.not_mem_nil hdep).elim
    | some x =>
      rw [hx] at hdep
      obtain ⟨y, hy⟩ := Option.isSome_iff_exists.mp (hd x (T.uop?_mem hx).1 d hdep)
      obtain ⟨hin, rfl⟩ := T.uop?_mem hy
      exact List.mem_map_of_mem hin

/-- `ready` as a deque: `append` and `popleft`. -/
def deque : Kahn.Policy Id where
  push c ready := ready ++ [c]
  pop := Kahn.first
  push_perm c ready := List.perm_append_singleton c ready
  pop_none := Kahn.first_none
  pop_some := Kahn.first_some

theorem relax_eq : ∀ (cs : List Id) (indegree : Id → ℕ) (ready : List Id),
    relax cs indegree ready = Kahn.relax deque cs indegree ready
  | [], _, _ => rfl
  | c :: cs, indegree, ready => by
    unfold relax Kahn.relax
    exact relax_eq cs _ _

theorem uop?_of_mem (hn : (T.uops.map (·.id)).Nodup) {x : ExecutionUop} (hx : x ∈ T.uops) : T.uop? x.id = some x := by
  cases h : T.uop? x.id with
  | none => exact absurd (List.find?_eq_none.mp h x hx) (by simp)
  | some y =>
    obtain ⟨hy, he⟩ := T.uop?_mem h
    rw [List.inj_on_of_nodup_map hn hy hx he]

section Graph

variable (hn : (T.uops.map (·.id)).Nodup) (hd : ∀ x ∈ T.uops, ∀ d ∈ x.dependencies, (T.uop? d).isSome)

theorem graphOf_deps {x : ExecutionUop} (hx : x ∈ T.uops) : (graphOf T hn hd).deps x.id = x.dependencies := by
  show ((T.uop? x.id).map (·.dependencies)).getD [] = _
  rw [uop?_of_mem hn hx]
  rfl

theorem consumersOf_eq (p : Id) : consumersOf T p = (graphOf T hn hd).consumers p := by
  unfold consumersOf Kahn.Graph.consumers
  show _ = (T.uops.map (·.id)).flatMap _
  rw [List.flatMap_map]
  refine List.flatMap_congr fun x hx => ?_
  rw [graphOf_deps hn hd hx]

theorem visitReady_eq : ∀ (fuel : ℕ) (ready : List Id) (indegree : Id → ℕ) (visited : ℕ),
    visitReady T fuel ready indegree visited =
      visited + (Kahn.order (graphOf T hn hd) deque fuel ready indegree).length
  | 0, _, _, _ => rfl
  | _ + 1, [], _, _ => rfl
  | fuel + 1, p :: ready, indegree, visited => by
    show visitReady T fuel (relax (consumersOf T p) indegree ready).2 (relax (consumersOf T p) indegree ready).1
      (visited + 1) = visited + ((Kahn.order (graphOf T hn hd) deque fuel
        (Kahn.relax deque ((graphOf T hn hd).consumers p) indegree ready).2
        (Kahn.relax deque ((graphOf T hn hd).consumers p) indegree ready).1).length + 1)
    rw [relax_eq, consumersOf_eq hn hd, visitReady_eq fuel]
    omega

theorem indegreeOf_eq : indegreeOf T = fun u => ((graphOf T hn hd).deps u).length := by
  funext u
  show ((T.uop? u).map (·.dependencies.length)).getD 0 = (((T.uop? u).map (·.dependencies)).getD []).length
  cases T.uop? u <;> rfl

/-- The orders of the uops are the topological orders of the graph. -/
theorem hasOrder_iff : HasOrder T ↔ ∃ l : List Id, l.Perm (graphOf T hn hd).nodes ∧ (graphOf T hn hd).Topological l := by
  refine exists_congr fun order => and_congr_right fun hperm => ?_
  constructor
  · intro h u hu d hdep
    obtain ⟨x, hx, rfl⟩ := List.mem_map.mp (hperm.mem_iff.mp hu)
    rw [graphOf_deps hn hd hx] at hdep
    exact h x hx d hdep
  · intro h x hx d hdep
    refine h x.id (hperm.mem_iff.mpr (List.mem_map_of_mem hx)) d ?_
    rw [graphOf_deps hn hd hx]
    exact hdep

include hn hd in
/-- The sort visits every uop just when there is an order to visit them in. -/
theorem topologicalVisits_iff : topologicalVisits T = T.uops.length ↔ HasOrder T := by
  have hdegree := indegreeOf_eq hn hd
  have hstart : (((T.uops.map (·.id)).filter fun u => indegreeOf T u = 0).insertionSort (· ≤ ·)).Perm
      ((graphOf T hn hd).nodes.filter fun u => ((graphOf T hn hd).deps u).length = 0) := by
    rw [hdegree]
    exact List.perm_insertionSort _ _
  have hlength : (graphOf T hn hd).nodes.length = T.uops.length := List.length_map _
  have hvisits : topologicalVisits T = (Kahn.sorted (graphOf T hn hd) deque
      (((T.uops.map (·.id)).filter fun u => indegreeOf T u = 0).insertionSort (· ≤ ·))).length := by
    unfold topologicalVisits Kahn.sorted
    rw [visitReady_eq hn hd, hlength, Nat.zero_add, hdegree]
  rw [hvisits, ← hlength, Kahn.sorted_complete_iff hstart, hasOrder_iff hn hd]

theorem HasOrder.acyclic (h : HasOrder T) : Acyclic T := by
  obtain ⟨order, -, horder⟩ := h
  have hlt : ∀ {u d}, Relation.TransGen (Depends T) u d → order.idxOf d < order.idxOf u := by
    intro u d hd
    induction hd with
    | single hd =>
      obtain ⟨x, hx, rfl, hdep⟩ := hd
      exact horder x hx _ hdep
    | tail _ hd ih =>
      obtain ⟨x, hx, rfl, hdep⟩ := hd
      exact (horder x hx _ hdep).trans ih
  exact fun u hu => lt_irrefl _ (hlt hu)

theorem depends_iff {u d : Id} : Depends T u d ↔ d ∈ (graphOf T hn hd).deps u := by
  constructor
  · rintro ⟨x, hx, rfl, hdep⟩
    rw [graphOf_deps hn hd hx]
    exact hdep
  · intro hdep
    cases hu : T.uop? u with
    | none =>
      have hdep : d ∈ ((T.uop? u).map (·.dependencies)).getD [] := hdep
      rw [hu] at hdep
      exact (List.not_mem_nil hdep).elim
    | some x =>
      obtain ⟨hx, rfl⟩ := T.uop?_mem hu
      exact ⟨x, hx, rfl, graphOf_deps hn hd hx ▸ hdep⟩

include hn hd in
/-- The uops have an order just when none depends on itself. -/
theorem hasOrder_iff_acyclic : HasOrder T ↔ Acyclic T := by
  refine ⟨HasOrder.acyclic, fun h => (hasOrder_iff hn hd).mpr ?_⟩
  refine ⟨_, Kahn.sorted_complete (P := deque) (List.Perm.refl _) (Kahn.sorted_complete_of_acyclic (List.Perm.refl _) ?_)⟩
  intro u hu
  exact h u (Relation.TransGen.mono (fun a d hdep => (depends_iff hn hd).mpr hdep) _ _ hu)

end Graph

/-- **What the validation decides.** -/
theorem validate_iff : validateBoundTrace T = .ok () ↔ FieldChecks T ∧ Owned T ∧ HasOrder T := by
  unfold validateBoundTrace
  simp only [ok_bind, check_ok, forM_ok, exists_const, validateMacro_iff, validateUop_iff]
  constructor
  · rintro ⟨hmacroIds, hn, hmacros, hlisted, huops, hvisits⟩
    have hfields : FieldChecks T := ⟨hmacroIds, hn, fun m hm => (hmacros m hm).1, huops⟩
    exact ⟨hfields, ⟨fun m hm => (hmacros m hm).2, hlisted⟩,
      (topologicalVisits_iff hn fun x hx => (huops x hx).dependencies).mp hvisits⟩
  · rintro ⟨hfields, hown, horder⟩
    exact ⟨hfields.macroIds, hfields.uopIds, fun m hm => ⟨hfields.macros m hm, hown.owned m hm⟩, hown.listed,
      hfields.uops, (topologicalVisits_iff hfields.uopIds fun x hx => (hfields.uops x hx).dependencies).mpr horder⟩

/-- A trace whose fields and ownership are right is accepted, or rejected for a cycle. -/
theorem validate_acyclic (hfields : FieldChecks T) (hown : Owned T) :
    (Acyclic T → validateBoundTrace T = .ok ()) ∧ (¬ Acyclic T → validateBoundTrace T = .error .cycle) := by
  have horder := hasOrder_iff_acyclic hfields.uopIds fun x hx => (hfields.uops x hx).dependencies
  refine ⟨fun h => validate_iff.mpr ⟨hfields, hown, horder.mpr h⟩, fun h => ?_⟩
  have hvisits : ¬ topologicalVisits T = T.uops.length := fun he => h (horder.mp
    ((topologicalVisits_iff hfields.uopIds fun x hx => (hfields.uops x hx).dependencies).mp he))
  have hmacros : T.macros.forM (validateMacro T) = .ok () :=
    forM_ok.mpr fun m hm => validateMacro_iff.mpr ⟨hfields.macros m hm, hown.owned m hm⟩
  have huops : T.uops.forM (validateUop T) = .ok () := forM_ok.mpr fun x hx => validateUop_iff.mpr (hfields.uops x hx)
  unfold validateBoundTrace
  rw [check_ok (u := ()).mpr hfields.macroIds, check_ok (u := ()).mpr hfields.uopIds, hmacros,
    check_ok (u := ()).mpr hown.listed, huops]
  exact if_neg hvisits

/-! ### Ownership -/

/-- Macro-ops that partition the uops by parent own them. -/
theorem PartitionsUops.owned (hT : FieldChecks T) (h : PartitionsUops T) : Owned T := by
  have hmem : ∀ m ∈ T.macros, ∀ u, u ∈ m.uopIds ↔ ∃ x ∈ T.uops, x.parentId = m.id ∧ x.id = u := by
    intro m hm u
    rw [(h m hm).mem_iff]
    simp only [List.mem_map, List.mem_filter, decide_eq_true_eq, and_assoc]
  constructor
  · intro m hm u hu
    obtain ⟨x, hx, hp, rfl⟩ := (hmem m hm u).mp hu
    exact ⟨x, uop?_of_mem hT.uopIds hx, hp⟩
  · intro x hx
    obtain ⟨m, hm⟩ := Option.isSome_iff_exists.mp (hT.uops x hx).parent
    obtain ⟨hm, hid⟩ := T.macro?_mem hm
    exact ⟨m, hm, (hmem m hm x.id).mpr ⟨x, hx, hid.symm, rfl⟩⟩

/-- A uop is listed by its parent alone. -/
theorem Owned.count_eq (hT : FieldChecks T) (h : Owned T) {x : ExecutionUop} (hx : x ∈ T.uops) :
    ∃ m ∈ T.macros, x.id ∈ m.uopIds ∧ (T.macros.flatMap (·.uopIds)).count x.id = m.uopIds.count x.id := by
  obtain ⟨m, hm, hu⟩ := h.listed x hx
  refine ⟨m, hm, hu, ?_⟩
  have howner : ∀ m' ∈ T.macros, x.id ∈ m'.uopIds → m'.id = m.id := by
    intro m' hm' hu'
    obtain ⟨y, hy, hp⟩ := h.owned m hm x.id hu
    obtain ⟨y', hy', hp'⟩ := h.owned m' hm' x.id hu'
    rw [← hp, ← hp', Option.some.inj (hy'.symm.trans hy)]
  have key : ∀ ms : List MacroOp, (ms.map (·.id)).Nodup → (∀ m' ∈ ms, x.id ∈ m'.uopIds → m'.id = m.id) → m ∈ ms →
      (ms.flatMap (·.uopIds)).count x.id = m.uopIds.count x.id := by
    intro ms
    induction ms with
    | nil => exact fun _ _ hm => (List.not_mem_nil hm).elim
    | cons m₁ ms ih =>
      intro hn howner hm
      rw [List.map_cons, List.nodup_cons] at hn
      rw [List.flatMap_cons, List.count_append]
      rcases List.mem_cons.mp hm with rfl | hm
      · have hrest : (ms.flatMap (·.uopIds)).count x.id = 0 := by
          refine List.count_eq_zero.mpr fun hin => ?_
          obtain ⟨m', hm', hu'⟩ := List.mem_flatMap.mp hin
          have he := howner m' (List.mem_cons_of_mem _ hm') hu'
          exact hn.1 (he ▸ List.mem_map_of_mem hm')
        rw [hrest, Nat.add_zero]
      · have hfirst : m₁.uopIds.count x.id = 0 := by
          refine List.count_eq_zero.mpr fun hin => ?_
          have he := howner m₁ List.mem_cons_self hin
          exact hn.1 (he ▸ List.mem_map_of_mem hm)
        rw [hfirst, Nat.zero_add]
        exact ih hn.2 (fun m' hm' => howner m' (List.mem_cons_of_mem _ hm')) hm
  exact key T.macros hT.macroIds howner hm

/-- Every uop is listed once just when no macro-op lists one twice. -/
theorem Owned.onceEach_iff (hT : FieldChecks T) (h : Owned T) : OnceEach T ↔ ∀ m ∈ T.macros, m.uopIds.Nodup := by
  constructor
  · intro honce m hm
    refine List.nodup_iff_count_le_one.mpr fun u => ?_
    by_contra hlt
    obtain ⟨x, hfound, -⟩ := h.owned m hm u (List.count_pos_iff.mp (by omega))
    obtain ⟨hx, rfl⟩ := T.uop?_mem hfound
    have hle : m.uopIds.count x.id ≤ (T.macros.flatMap (·.uopIds)).count x.id :=
      (List.sublist_flatten_of_mem (List.mem_map_of_mem hm)).count_le x.id
    have := honce x hx
    omega
  · intro hn x hx
    obtain ⟨m, hm, hu, hcount⟩ := h.count_eq hT hx
    rw [hcount]
    exact List.count_eq_one_of_mem (hn m hm) hu

/-- **The validation is exact just when no macro-op of an otherwise valid trace lists a uop
twice.** -/
theorem exact_iff (T : BoundTrace) :
    Exact T ↔ (FieldChecks T → Owned T → HasOrder T → ∀ m ∈ T.macros, m.uopIds.Nodup) := by
  constructor
  · intro h hfields hown horder
    exact (hown.onceEach_iff hfields).mp (h.sound (validate_iff.mpr ⟨hfields, hown, horder⟩)).2
  · intro h
    constructor
    · intro hvalid
      obtain ⟨hfields, hown, horder⟩ := validate_iff.mp hvalid
      exact ⟨horder.acyclic, (hown.onceEach_iff hfields).mpr (h hfields hown horder)⟩
    · exact fun hfields hpartition horder => validate_iff.mpr ⟨hfields, hpartition.owned hfields, horder⟩

/-- A macro-op that lists its uop twice is accepted. -/
theorem repeated_uop_accepted : validateBoundTrace (Sample.trace [0, 0]) = .ok () ∧
    ((Sample.trace [0, 0]).macros.flatMap (·.uopIds)).count 0 = 2 ∧ ¬ Exact (Sample.trace [0, 0]) := by
  have hvalid : validateBoundTrace (Sample.trace [0, 0]) = .ok () := by decide +kernel
  have htwice : ((Sample.trace [0, 0]).macros.flatMap (·.uopIds)).count 0 = 2 := by decide
  refine ⟨hvalid, htwice, fun h => ?_⟩
  have honce := (h.sound hvalid).2 Sample.uop (by decide)
  rw [show Sample.uop.id = 0 from rfl, htwice] at honce
  exact absurd honce (by decide)

end VectorSim
