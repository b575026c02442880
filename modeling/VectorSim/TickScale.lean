/-
# The tick scale

`_ticks_per_cycle` of `src/simulator/profile.py` walks over the data of a profile
and takes the least common multiple of the denominators of its numbers, so that
`ticks` turns each of them into a whole number of ticks. Binding a trace and
building an engine convert only numbers of the data, after a check that they were
measured. An access does not check: it hands `ticks` the latency of the level that
serves it even where that is still `"measure"` (`ticks_exact`).
-/
import VectorSim.Lib.Document
import VectorSim.Memory.Floor
import VectorSim.Bind
import VectorSim.Backend.Zen4
import VectorSim.Backend.Xsai
import VectorSim.RunSafety

namespace VectorSim

open Checked Document MemoryConfig

/-! ### The scale -/

def bandwidthKeys : List String := ["bytes_per_cycle", "read_bytes_per_cycle", "write_bytes_per_cycle"]

/-- The cycles that accesses of 4, 16, 32 and 64 bytes take at a bandwidth. It raises for zero
and for a truth value. -/
def bandwidthCycles : Option Document → Option (List ℚ)
  | some (.num q) => if q = 0 then none else some ([4, 16, 32, 64].map (· / q))
  | some (.bool _) => none
  | _ => some []

/-- The cycles of all the bandwidths of a resource, a level or DRAM. -/
def resourceCycles : Document → Option (List ℚ)
  | .mapping es => (bandwidthKeys.mapM fun key => bandwidthCycles (es.lookup key)).map List.flatten
  | _ => none

def entriesOf : Document → Option (List Document)
  | .mapping es => some (es.map (·.2))
  | _ => none

/-- `_ticks_per_cycle` of the data. -/
def ticksPerCycleOf (D : Document) : Option ℕ := do
  let resources ← (D.at? [.key "resources"]).bind entriesOf
  let levels ← (D.at? [.key "memory", .key "levels"]).bind entriesOf
  let dram ← D.at? [.key "memory", .key "dram"]
  let cycles ← (resources ++ levels ++ [dram]).mapM resourceCycles
  return ((D.numbers ++ cycles.flatten).map (·.den)).foldl Nat.lcm 1

theorem ticksPerCycleOf_dvd {D : Document} {tpc : ℕ} (h : ticksPerCycleOf D = some tpc) :
    0 < tpc ∧ ∀ q ∈ D.numbers, q.den ∣ tpc := by
  unfold ticksPerCycleOf at h
  simp only [Option.bind_eq_bind, Option.bind_eq_some_iff] at h
  obtain ⟨_, -, _, -, _, -, cycles, -, h⟩ := h
  obtain rfl := Option.some.inj h
  constructor
  · refine foldl_lcm_pos _ Nat.one_pos fun d hd => ?_
    obtain ⟨q, -, rfl⟩ := List.mem_map.mp hd
    exact q.den_pos
  · exact fun q hq => (dvd_foldl_lcm _ 1).2 _ (List.mem_map_of_mem (List.mem_append_left _ hq))

/-- The cycles are a whole number of ticks, and that many. -/
def Converts (tpc : ℕ) (c : CycleParam) : Prop :=
  ∀ q, c = some q → ∃ n : ℕ, ticks tpc q = .ok n ∧ (n : ℚ) / tpc = q

theorem converts_none {tpc : ℕ} : Converts tpc none := by
  intro q h
  cases h

theorem num_div_eq {tpc : ℕ} {q : ℚ} (htpc : 0 < tpc) (h : (q * tpc).den = 1) :
    ((q * tpc).num : ℚ) / tpc = q := by
  have hne : (tpc : ℚ) ≠ 0 := by exact_mod_cast htpc.ne'
  have hnum : ((q * tpc).num : ℚ) = q * tpc := by
    conv_rhs => rw [← Rat.num_div_den (q * tpc), h]
    simp
  rw [hnum, mul_div_cancel_right₀ _ hne]

theorem converts_of_dvd {tpc : ℕ} {q : ℚ} (htpc : 0 < tpc) (hq : 0 ≤ q) (h : q.den ∣ tpc) : Converts tpc (some q) := by
  intro q' he
  obtain rfl := Option.some.inj he
  have hden := whole_of_dvd h
  refine ⟨(q * tpc).num.toNat, if_pos hden, ?_⟩
  have hnum : ((q * tpc).num.toNat : ℤ) = (q * tpc).num :=
    Int.toNat_of_nonneg (Rat.num_nonneg.mpr (mul_nonneg hq (Nat.cast_nonneg _)))
  rw [← Int.cast_natCast, hnum]
  exact num_div_eq htpc hden

/-! ### What is read of the data -/

/-- A parameter of the schema's `number_or_measure`. -/
def cycleParam : Document → Option CycleParam
  | .num q => if 0 ≤ q then some (some q) else none
  | .text s => if s = "measure" then some none else none
  | _ => none

/-- The parameter under a path. -/
def ReadAt (D : Document) (path : List Step) (c : CycleParam) : Prop := (D.at? path).bind cycleParam = some c

/-- The latency, issue interval and occupancy of a uop under a path. -/
structure TimingAt (D : Document) (path : List Step) (latency interval occupancy : CycleParam) : Prop where
  latency : ReadAt D (path ++ [.key "latency_cycles"]) latency
  interval : ReadAt D (path ++ [.key "issue_interval_cycles"]) interval
  occupancy : ReadAt D (path ++ [.key "resource_occupancy_cycles"]) occupancy

/-- `level_order`. -/
def levelOrder (D : Document) : List String :=
  match D.at? [.key "memory", .key "levels"] with
  | some (.mapping es) => es.map (·.1)
  | _ => []

/-- Where `_level_entry(level)["latency_cycles"]` is. -/
def latencyPath (D : Document) (level : ℕ) : List Step :=
  match (levelOrder D)[level]? with
  | some name => [.key "memory", .key "levels", .key name, .key "latency_cycles"]
  | none => [.key "memory", .key "dram", .key "latency_cycles"]

/-- Where the policy of the vector epochs reads a field. -/
def epochPath (field : String) : List Step := [.key "backend", .key "xsai_rvv", .key "vector_epochs", .key field]

/-- The profile is read from the data: each parameter that is given to `ticks`, where the code
reads it. A level keeps what `ticks` returns for its latency, if anything. -/
structure ReadsFrom (D : Document) (P : Profile) : Prop where
  scale : ticksPerCycleOf D = some P.ticksPerCycle
  recipes : ∀ key r, (key, r) ∈ P.recipes → ∀ n u, r.uops[n]? = some u →
    TimingAt D [.key "recipes", .key key, .key "uops", .index n] u.latencyCycles u.issueIntervalCycles
      u.resourceOccupancyCycles
  gaps : ∀ key r d, (key, r) ∈ P.recipes → r.decomposition = some d →
    ReadAt D [.key "recipes", .key key, .key "vector_decomposition", .key "part_issue_gap_cycles"] d.partIssueGapCycles
  fit : ∀ f, P.fit = some f → ∀ k t, (k, t) ∈ f.uops → ∃ name,
    TimingAt D [.key "scalar_control_fit", .key "uops", .key name] t.latencyCycles t.issueIntervalCycles
      t.resourceOccupancyCycles
  prep : ∀ rules, P.decompositionRules = some rules → ∀ category rule, (category, rule) ∈ rules →
    ∀ variants, rule.prepUops = some variants → ∀ variant u, (variant, u) ∈ variants → ∃ name source,
      TimingAt D [.key "backend", .key "vector_decomposition", .key "rules", .key name, .key "prep_uops", .key source]
        u.latencyCycles u.issueIntervalCycles u.resourceOccupancyCycles
  l1d : ReadAt D [.key "memory", .key "levels", .key "l1d", .key "latency_cycles"] P.l1d.latencyCycles
  rename : P.rename.enabled = true →
    ReadAt D [.key "backend", .key "rename", .key "release_delay_cycles"] P.rename.releaseDelayCycles ∧
    ReadAt D [.key "backend", .key "rename", .key "availability_delay_cycles"] P.rename.availabilityDelayCycles
  /-- `get("store_completion_cycles", 0)` -/
  storeCompletion : P.vectorMemory.storeCompletionCycles = some 0 ∨
    ReadAt D [.key "backend", .key "vector_memory", .key "store_completion_cycles"] P.vectorMemory.storeCompletionCycles
  service : ∀ es, P.vectorMemory.serviceCycles = some es → ∀ k c, (k, c) ∈ es → ∃ name,
    ReadAt D [.key "backend", .key "vector_memory", .key "service_cycles", .key name] c
  split : ∀ boundary c, P.vectorMemory.flowSplit = some (boundary, c) →
    ReadAt D [.key "backend", .key "vector_memory", .key "issue_cycles_per_flow"] c
  epochs : ∀ e, P.epochs = some e → ReadAt D (epochPath "load_only_visibility_cycles") e.loadOnlyVisibilityCycles ∧
    ReadAt D (epochPath "multi_load_drain_cycles") e.multiLoadDrainCycles ∧
    ReadAt D (epochPath "chained_compute_drain_cycles") e.chainedComputeDrainCycles ∧
    ReadAt D (epochPath "parallel_reduction_overlap_cycles") e.parallelReductionOverlapCycles
  levels : P.memory.levels.length = (levelOrder D).length
  latency : ∀ level ≤ P.memory.dramLevel, ∃ c, ReadAt D (latencyPath D level) c ∧
    (P.memory.levelEntry level).latencyTicks = c.bind fun q => (ticks P.ticksPerCycle q).toOption

variable {D : Document} {P : Profile}

theorem ReadAt.converts {path : List Step} {c : CycleParam} {tpc : ℕ} (hscale : ticksPerCycleOf D = some tpc)
    (h : ReadAt D path c) : Converts tpc c := by
  obtain ⟨v, hv, hc⟩ := Option.bind_eq_some_iff.mp h
  obtain ⟨htpc, hdvd⟩ := ticksPerCycleOf_dvd hscale
  unfold cycleParam at hc
  split at hc
  · split at hc
    · next hq =>
      obtain rfl := Option.some.inj hc
      exact converts_of_dvd htpc hq (hdvd _ (mem_numbers_of_at hv))
    · cases hc
  · split at hc
    · obtain rfl := Option.some.inj hc
      exact converts_none
    · cases hc
  · cases hc

/-- The timing of a uop converts. -/
structure Timed (tpc : ℕ) (latency interval occupancy : CycleParam) : Prop where
  latency : Converts tpc latency
  interval : Converts tpc interval
  occupancy : Converts tpc occupancy

theorem TimingAt.timed {path : List Step} {latency interval occupancy : CycleParam} {tpc : ℕ}
    (hscale : ticksPerCycleOf D = some tpc) (h : TimingAt D path latency interval occupancy) :
    Timed tpc latency interval occupancy :=
  ⟨h.latency.converts hscale, h.interval.converts hscale, h.occupancy.converts hscale⟩

/-! ### Binding -/

/-- The computation does not raise in `ticks`. -/
abbrev Scaled {α : Type} (x : Except ProfileError α) : Prop := Raises (fun e => ∀ q, e ≠ .ticks q) x

theorem scaled_invalid {α : Type} (message : String) : Scaled (.error (.invalid message) : Except ProfileError α) :=
  raises_error fun _ h => by cases h

theorem scaled_measure {α : Type} (path : String) : Scaled (.error (.measure path) : Except ProfileError α) :=
  raises_error fun _ h => by cases h

theorem scaled_check (c : Prop) [Decidable c] (message : String) : Scaled (check c (.invalid message)) := by
  unfold check
  split
  · exact raises_ok
  · exact scaled_invalid _

theorem scaled_map {α β : Type} {x : Except ProfileError α} {f : α → β} (h : Scaled x) : Scaled (x.map f) := by
  cases x with
  | ok a => exact raises_ok
  | error e => exact raises_error (h e rfl)

theorem parameterInt_scaled (value : PositiveParam) (path : String) : Scaled (parameterInt value path) := by
  cases value with
  | none => exact scaled_measure _
  | some n => exact raises_ok

theorem parameterTicks_scaled {tpc : ℕ} {c : CycleParam} (h : Converts tpc c) (path : String) :
    Scaled (parameterTicks tpc c path) := by
  cases c with
  | none => exact scaled_measure _
  | some q =>
    obtain ⟨n, hn, -⟩ := h q rfl
    show Scaled (ticks tpc q)
    rw [hn]
    exact raises_ok

/-- Every timing parameter the binder converts does. -/
structure Timings (P : Profile) : Prop where
  recipes : ∀ key r, (key, r) ∈ P.recipes → ∀ u ∈ r.uops,
    Timed P.ticksPerCycle u.latencyCycles u.issueIntervalCycles u.resourceOccupancyCycles
  gaps : ∀ key r d, (key, r) ∈ P.recipes → r.decomposition = some d → Converts P.ticksPerCycle d.partIssueGapCycles
  fit : ∀ f, P.fit = some f → ∀ k t, (k, t) ∈ f.uops →
    Timed P.ticksPerCycle t.latencyCycles t.issueIntervalCycles t.resourceOccupancyCycles
  prep : ∀ rules, P.decompositionRules = some rules → ∀ category rule, (category, rule) ∈ rules →
    ∀ variants, rule.prepUops = some variants → ∀ variant u, (variant, u) ∈ variants →
      Timed P.ticksPerCycle u.latencyCycles u.issueIntervalCycles u.resourceOccupancyCycles
  l1d : Converts P.ticksPerCycle P.l1d.latencyCycles

theorem ReadsFrom.timings (h : ReadsFrom D P) : Timings P where
  recipes key r hr u hu := by
    obtain ⟨n, hn⟩ := List.mem_iff_getElem?.mp hu
    exact (h.recipes key r hr n u hn).timed h.scale
  gaps key r d hr hd := (h.gaps key r d hr hd).converts h.scale
  fit f hf k t ht := by
    obtain ⟨name, hname⟩ := h.fit f hf k t ht
    exact hname.timed h.scale
  prep rules hrules category rule hrule variants hv variant u hu := by
    obtain ⟨name, source, hname⟩ := h.prep rules hrules category rule hrule variants hv variant u hu
    exact hname.timed h.scale
  l1d := h.l1d.converts h.scale

/-- The timing of the uops of a chosen recipe converts. -/
structure ChosenRecipe.Timed (P : Profile) (c : ChosenRecipe) : Prop where
  uops : ∀ u ∈ c.recipe.uops,
    VectorSim.Timed P.ticksPerCycle u.latencyCycles u.issueIntervalCycles u.resourceOccupancyCycles
  gap : ∀ d, c.recipe.decomposition = some d → Converts P.ticksPerCycle d.partIssueGapCycles

theorem chooseRecipe_scaled (i : Instruction) : Scaled (chooseRecipe P i) := by
  unfold chooseRecipe
  split
  · exact raises_ok
  · unfold fallbackRecipe
    split
    · split
      · split
        · exact raises_ok
        · exact scaled_invalid _
      · exact scaled_invalid _
    · exact scaled_invalid _

theorem mem_of_lookup {α β : Type} [BEq α] [LawfulBEq α] {l : List (α × β)} {k : α} {v : β}
    (h : l.lookup k = some v) : (k, v) ∈ l := by
  obtain ⟨l₁, l₂, rfl, -⟩ := List.lookup_eq_some_iff.mp h
  simp

theorem chooseRecipe_timed (hP : Timings P) {i : Instruction} {c : ChosenRecipe} (h : chooseRecipe P i = .ok c) :
    c.Timed P := by
  unfold chooseRecipe at h
  split at h
  · next key recipe hfind =>
    cases h
    obtain ⟨k, -, hk⟩ := List.exists_of_findSome?_eq_some hfind
    obtain ⟨r, hr, he⟩ := Option.map_eq_some_iff.mp hk
    cases he
    exact ⟨hP.recipes _ _ (mem_of_lookup hr), fun d hd => hP.gaps _ _ d (mem_of_lookup hr) hd⟩
  · unfold fallbackRecipe at h
    split at h
    · next fit semantic hfit _ =>
      split at h
      · split at h
        · next kind timing hkind =>
          cases h
          obtain ⟨k, -, hk⟩ := Option.bind_eq_some_iff.mp hkind
          obtain ⟨t, ht, he⟩ := Option.map_eq_some_iff.mp hk
          cases he
          refine ⟨fun u hu => ?_, fun d hd => by cases hd⟩
          obtain rfl := List.mem_singleton.mp hu
          exact hP.fit _ hfit _ _ (mem_of_lookup ht)
        · cases h
      · cases h
    · cases h

/-- The timing of an entry converts. -/
def Entry.Timed (P : Profile) (e : Entry) : Prop :=
  VectorSim.Timed P.ticksPerCycle e.uop.latencyCycles e.uop.issueIntervalCycles e.uop.resourceOccupancyCycles

theorem selectPrepUop_scaled (i : Instruction) (variants : List (Option OperandClass × RecipeUop)) (path : String) :
    Scaled (selectPrepUop i variants path) := by
  unfold selectPrepUop
  dsimp only
  split
  · exact raises_ok
  · split
    · exact raises_ok
    · exact scaled_invalid _

theorem selectPrepUop_uop {i : Instruction} {variants : List (Option OperandClass × RecipeUop)} {path : String}
    {e : Entry} (h : selectPrepUop i variants path = .ok e) : ∃ variant, (variant, e.uop) ∈ variants := by
  unfold selectPrepUop at h
  dsimp only at h
  split at h
  · next c u hfind =>
    cases h
    obtain ⟨k, -, hk⟩ := List.exists_of_findSome?_eq_some hfind
    obtain ⟨u', hu, he⟩ := Option.map_eq_some_iff.mp hk
    cases he
    exact ⟨_, mem_of_lookup hu⟩
  · split at h
    · next u hu =>
      cases h
      exact ⟨_, mem_of_lookup hu⟩
    · cases h

theorem vectorPartCount_scaled (rule : PartsRule) (i : Instruction) (state : VectorState) (width : ℕ) (path : String) :
    Scaled (vectorPartCount rule i state width path) := by
  cases rule with
  | fixed n => exact raises_ok
  | lmul => exact raises_ok
  | lmulPlusOne => exact scaled_invalid _
  | dynamic => exact raises_ok
  | measure => exact scaled_measure _

theorem prepOf_scaled (i : Instruction) (rule : DecompositionRule) (path : String) : Scaled (prepOf i rule path) := by
  unfold prepOf
  split
  · exact raises_ok
  · exact scaled_map (selectPrepUop_scaled _ _ _)

theorem decompositionFor_scaled (i : Instruction) (c : ChosenRecipe) : Scaled (decompositionFor P i c) := by
  unfold decompositionFor
  split
  · exact raises_ok
  · unfold backendDecomposition
    split
    · exact raises_ok
    · exact (parameterInt_scaled _ _).bind fun width _ => (prepOf_scaled _ _ _).bind fun prep _ =>
        (vectorPartCount_scaled _ _ _ _ _).bind fun parts _ => raises_ok

theorem ruleFor_mem {i : Instruction} {rule : DecompositionRule} {state : VectorState}
    (h : ruleFor P i = some (rule, state)) : ∃ rules category, P.decompositionRules = some rules ∧ (category, rule) ∈ rules := by
  unfold ruleFor at h
  simp only [Option.bind_eq_bind, Option.bind_eq_some_iff] at h
  obtain ⟨rules, hrules, _, -, category, -, r, hr, h⟩ := h
  cases h
  exact ⟨rules, category, hrules, mem_of_lookup hr⟩

theorem decompositionFor_prep (hP : Timings P) {i : Instruction} {c : ChosenRecipe} {d : Decomposition}
    (h : decompositionFor P i c = .ok (some d)) : ∀ e, d.prep = some e → e.Timed P := by
  unfold decompositionFor at h
  split at h
  · cases h
  · unfold backendDecomposition at h
    split at h
    · cases h
    · next rule state hrule =>
      obtain ⟨width, -, h⟩ := ok_bind.mp h
      obtain ⟨prep, hprep, h⟩ := ok_bind.mp h
      obtain ⟨parts, -, h⟩ := ok_bind.mp h
      cases h
      rintro e rfl
      unfold prepOf at hprep
      split at hprep
      · cases hprep
      · next variants hvariants =>
        obtain ⟨e', he', heq⟩ := ok_map.mp hprep
        cases heq
        obtain ⟨rules, category, hrules, hmem⟩ := ruleFor_mem hrule
        obtain ⟨variant, hvariant⟩ := selectPrepUop_uop he'
        exact hP.prep rules hrules category rule hmem variants hvariants variant _ hvariant

theorem entriesFor_scaled (c : ChosenRecipe) (d : Option Decomposition) : Scaled (entriesFor c d) := by
  cases d with
  | some d => exact raises_ok
  | none =>
    refine raises_mapM fun u _ => Raises.bind ?_ fun _ _ => raises_ok
    unfold staticPartCount
    split
    · exact scaled_map ((parameterInt_scaled _ _).bind fun _ _ => raises_ok)
    · exact raises_ok

theorem entriesFor_timed {c : ChosenRecipe} {d : Option Decomposition} {entries : List Entry} (hc : c.Timed P)
    (hd : ∀ d', d = some d' → ∀ e, d'.prep = some e → e.Timed P) (h : entriesFor c d = .ok entries) :
    ∀ e ∈ entries, e.Timed P := by
  intro e he
  cases d with
  | none =>
    obtain ⟨u, hu, hr⟩ := forall₂_right (mapM_ok.mp h) he
    obtain ⟨count, -, hr⟩ := ok_bind.mp hr
    cases hr
    exact hc.uops _ (List.fst_mem_of_mem_zipIdx hu)
  | some d =>
    cases h
    rcases List.mem_append.mp he with he | he
    · exact hd d rfl e (Option.mem_toList.mp he)
    · obtain ⟨part, -, he⟩ := List.mem_flatMap.mp he
      obtain ⟨u, hu, rfl⟩ := List.mem_map.mp he
      have htimed := hc.uops _ (List.fst_mem_of_mem_zipIdx hu)
      -- the uop of a part is that of the recipe, up to what it waits for
      unfold Entry.Timed
      dsimp only
      split
      · exact htimed
      · exact htimed

theorem entryMemory_scaled (i : Instruction) (d : Option Decomposition) (e : Entry) : Scaled (entryMemory P i d e) := by
  unfold entryMemory
  split
  · split
    · exact raises_ok
    · exact raises_ok
    · refine scaled_map ?_
      unfold memoryPart
      split
      · exact scaled_invalid _
      · split
        · exact scaled_invalid _
        · exact raises_ok
  · exact raises_ok

theorem measured_scaled (value : CycleParam) (path : String) : Scaled (measured value path) := by
  cases value with
  | none => exact scaled_measure _
  | some q => exact raises_ok

theorem requireL1_scaled (hP : Timings P) (k : Kind) : Scaled (requireL1 P k) := by
  unfold requireL1
  split
  · exact (parameterTicks_scaled hP.l1d _).bind fun _ _ => measured_scaled _ _
  · exact (parameterTicks_scaled hP.l1d _).bind fun _ _ => measured_scaled _ _
  · exact raises_ok

theorem executionUop_scaled (hP : Timings P) (i : Instruction) (c : ChosenRecipe) (semantics : List ℕ)
    (d : Option Decomposition) (depended : List String) (first : ℕ) {e : Entry × ℕ} (he : e.1.Timed P) :
    Scaled (executionUop P i c semantics d depended first e) := by
  refine (entryMemory_scaled _ _ _).bind fun memory _ => (parameterTicks_scaled he.occupancy _).bind fun occupancy _ =>
    (parameterTicks_scaled he.latency _).bind fun latency _ => (requireL1_scaled hP _).bind fun _ _ =>
    (parameterTicks_scaled he.interval _).bind fun interval _ => Raises.bind ?_ fun factor _ => raises_ok
  unfold intervalFactor
  split
  · split
    · exact scaled_map ((parameterInt_scaled _ _).bind fun _ _ => raises_ok)
    · exact raises_ok
  · exact raises_ok

theorem producerDependencies_scaled (terminals : Id → Option (List ExecutionUop)) (part : Option ℕ) (producers : List Id) :
    Scaled (producerDependencies terminals part producers) := by
  refine Raises.bind (raises_mapM fun producer _ => ?_) fun _ _ => raises_ok
  split
  · exact scaled_invalid _
  · exact raises_ok

theorem linkUop_scaled {c : ChosenRecipe} (hc : c.Timed P) (terminals : Id → Option (List ExecutionUop)) (i : Instruction)
    (semantics : List ℕ) (pairs : List (Entry × ExecutionUop)) (p : Entry × ExecutionUop) :
    Scaled (linkUop P terminals i c semantics pairs p) := by
  have hlocal : ∀ name, Scaled (localDependency pairs p.1.partIndex name) := by
    intro name
    unfold localDependency
    split
    · exact scaled_invalid _
    · exact raises_ok
  have hafter : Scaled (issueAfter P c (pairs.map (·.2)) p.1.partIndex) := by
    unfold issueAfter
    split
    · next d _ hd _ =>
      split
      · exact scaled_map (parameterTicks_scaled (hc.gap d hd) _)
      · exact raises_ok
    · exact raises_ok
  exact (raises_mapM fun name _ => hlocal name).bind fun internal _ => hafter.bind fun after _ =>
    (producerDependencies_scaled _ _ _).bind fun external _ => (producerDependencies_scaled _ _ _).bind fun state _ =>
      (producerDependencies_scaled _ _ _).bind fun old _ => raises_ok

theorem bindInstruction_scaled (hP : Timings P) (bound : List Binding) (i : Instruction) :
    Scaled (bindInstruction P bound i) := by
  refine (chooseRecipe_scaled i).bind fun c hc => Raises.bind ?_ fun semantics _ =>
    (decompositionFor_scaled i c).bind fun d hd => (entriesFor_scaled c d).bind fun entries hentries => ?_
  · refine (scaled_check _ _).bind fun _ _ => (raises_mapM fun u _ => ?_).bind fun _ _ =>
      (scaled_check _ _).bind fun _ _ => raises_ok
    unfold semanticOf
    split
    all_goals first | exact raises_ok | exact scaled_invalid _
  · have htimed := chooseRecipe_timed hP hc
    have hentry := entriesFor_timed htimed (fun d' hd' => decompositionFor_prep hP (hd' ▸ hd)) hentries
    refine (raises_mapM fun e he => ?_).bind fun uops _ =>
      (raises_mapM fun p _ => linkUop_scaled htimed _ _ _ _ p).bind fun pairs _ => Raises.bind ?_ fun op _ => raises_ok
    · exact executionUop_scaled hP i c semantics d _ _ (hentry e.1 (List.fst_mem_of_mem_zipIdx he))
    · exact (parameterInt_scaled _ _).bind fun _ _ => (parameterInt_scaled _ _).bind fun _ _ => raises_ok

/-- **Binding never raises in `ticks`.** -/
theorem bind_scaled (hP : Timings P) (trace : List Instruction) : Scaled (bind P trace) := by
  refine Raises.bind ?_ fun bound _ => Raises.bind (raises_mapM fun name _ => ?_) fun resources _ => raises_ok
  · exact raises_foldlM (I := fun _ => True) trivial
      (fun i _ bound _ => (bindInstruction_scaled hP bound i).bind fun _ _ => raises_ok) fun _ _ _ _ _ _ => trivial
  · unfold resourceOf
    split
    · exact scaled_invalid _
    · refine (parameterInt_scaled _ _).bind fun capacity _ => ?_
      split
      · exact raises_ok
      · exact scaled_map (measured_scaled _ _)

/-! ### Building an engine -/

/-- The engine does not raise in `ticks`. -/
abbrev EngineScaled {α : Type} (x : Except SimError α) : Prop := Raises (fun e => ∀ q, e ≠ .profile (.ticks q)) x

theorem liftProfile_scaled {α : Type} {x : Except ProfileError α} (h : Scaled x) : EngineScaled (liftProfile x) := by
  cases x with
  | ok a => exact raises_ok
  | error e =>
    refine raises_error fun q he => ?_
    injection he with he
    exact h e rfl q he

theorem liftMemory_scaled {α : Type} (x : Except MemoryError α) : EngineScaled (liftMemory x) := by
  cases x with
  | ok a => exact raises_ok
  | error e => exact raises_error fun q he => by cases he

theorem check_scaled (c : Prop) [Decidable c] {e : SimError} (h : ∀ q, e ≠ .profile (.ticks q)) :
    EngineScaled (check c e) := by
  unfold check
  split
  · exact raises_ok
  · exact raises_error h

/-- The parameters that the engines convert do. -/
structure Policies (P : Profile) : Prop where
  rename : P.rename.enabled = true →
    Converts P.ticksPerCycle P.rename.releaseDelayCycles ∧ Converts P.ticksPerCycle P.rename.availabilityDelayCycles
  storeCompletion : Converts P.ticksPerCycle P.vectorMemory.storeCompletionCycles
  service : ∀ es, P.vectorMemory.serviceCycles = some es → ∀ e ∈ es, Converts P.ticksPerCycle e.2
  split : ∀ boundary c, P.vectorMemory.flowSplit = some (boundary, c) → Converts P.ticksPerCycle c
  epochs : ∀ e, P.epochs = some e → Converts P.ticksPerCycle e.loadOnlyVisibilityCycles ∧
    Converts P.ticksPerCycle e.multiLoadDrainCycles ∧ Converts P.ticksPerCycle e.chainedComputeDrainCycles ∧
    Converts P.ticksPerCycle e.parallelReductionOverlapCycles

theorem ReadsFrom.policies (h : ReadsFrom D P) : Policies P where
  rename he := ⟨(h.rename he).1.converts h.scale, (h.rename he).2.converts h.scale⟩
  storeCompletion := by
    rcases h.storeCompletion with hzero | hread
    · rw [hzero]
      exact converts_of_dvd (ticksPerCycleOf_dvd h.scale).1 le_rfl (one_dvd _)
    · exact hread.converts h.scale
  service es hes e he := by
    obtain ⟨name, hname⟩ := h.service es hes e.1 e.2 he
    exact hname.converts h.scale
  split boundary c hc := (h.split boundary c hc).converts h.scale
  epochs e he := by
    obtain ⟨hvisibility, hmulti, hchained, hoverlap⟩ := h.epochs e he
    exact ⟨hvisibility.converts h.scale, hmulti.converts h.scale, hchained.converts h.scale, hoverlap.converts h.scale⟩

theorem renamePolicy_scaled (hP : Policies P) : Scaled (P.rename.policy P.ticksPerCycle) := by
  unfold RenameBackend.policy
  split
  · next henabled =>
    obtain ⟨hrelease, havailability⟩ := hP.rename henabled
    refine (raises_mapM fun e _ => (parameterInt_scaled _ _).bind fun _ _ => raises_ok).bind fun freeLists _ =>
      (parameterInt_scaled _ _).bind fun allocation _ => (parameterInt_scaled _ _).bind fun release _ =>
      (parameterTicks_scaled hrelease _).bind fun _ _ => (parameterTicks_scaled havailability _).bind fun _ _ => ?_
    split
    · exact scaled_measure _
    · exact raises_ok
  · exact raises_ok

theorem vectorMemoryPolicy_scaled (hP : Policies P) : Scaled (P.vectorMemory.policy P.ticksPerCycle) := by
  refine (parameterTicks_scaled hP.storeCompletion _).bind fun completion _ => (parameterInt_scaled _ _).bind fun loads _ =>
    (parameterInt_scaled _ _).bind fun stores _ =>
    (raises_mapM fun e _ => (parameterInt_scaled _ _).bind fun _ _ => raises_ok).bind fun capacity _ =>
    ?_
  dsimp only
  split
  · refine Raises.bind raises_ok fun service _ => ?_
    split
    · exact Raises.bind raises_ok fun _ _ => raises_ok
    · next boundary c hc =>
      exact (parameterInt_scaled _ _).bind fun _ _ => (parameterInt_scaled _ _).bind fun _ _ =>
        (parameterTicks_scaled (hP.split boundary c hc) _).bind fun _ _ => raises_ok
  · next es hes =>
    refine (raises_mapM fun e he => (parameterTicks_scaled (hP.service es hes e he) _).bind fun _ _ => raises_ok).bind
      fun entries _ => Raises.bind raises_ok fun service _ => ?_
    split
    · exact Raises.bind raises_ok fun _ _ => raises_ok
    · next boundary c hc =>
      exact (parameterInt_scaled _ _).bind fun _ _ => (parameterInt_scaled _ _).bind fun _ _ =>
        (parameterTicks_scaled (hP.split boundary c hc) _).bind fun _ _ => raises_ok

theorem epochPolicy_scaled (hP : Policies P) : Scaled (epochPolicy P.epochs P.ticksPerCycle) := by
  unfold epochPolicy
  split
  · exact raises_ok
  · next e he =>
    obtain ⟨hvisibility, hmulti, hchained, hoverlap⟩ := hP.epochs e he
    exact (parameterTicks_scaled hvisibility _).bind fun _ _ => (parameterTicks_scaled hmulti _).bind fun _ _ =>
      (parameterTicks_scaled hchained _).bind fun _ _ => (parameterTicks_scaled hoverlap _).bind fun _ _ =>
      (parameterInt_scaled _ _).bind fun _ _ => raises_ok

section Init

variable (T : BoundTrace) (inOrder : Bool) (mode : CacheMode) (limit : Option Bool)

theorem setupInit_scaled (P : EngineProfile) : EngineScaled (Setup.init T P inOrder mode limit) :=
  (liftMemory_scaled _).bind fun memory _ =>
    (liftProfile_scaled (raises_mapM fun e _ => (parameterInt_scaled _ _).bind fun _ _ => raises_ok)).bind fun domains _ =>
    (check_scaled _ fun q h => by cases h).bind fun _ _ => (check_scaled _ fun q h => by cases h).bind fun _ _ => raises_ok

theorem zen4Init_scaled (P : EngineProfile) : EngineScaled (Zen4.init T P inOrder mode limit) := by
  unfold Zen4.init
  split
  · exact raises_error fun q h => by cases h
  · exact setupInit_scaled T inOrder mode limit P

theorem schedulerTrace_scaled (P : EngineProfile) (expand : Bool) : EngineScaled (Xsai.schedulerTrace T P expand) := by
  unfold Xsai.schedulerTrace
  split
  · exact raises_error fun q h => by cases h
  · split
    · split
      · exact raises_error fun q h => by cases h
      · dsimp only
        split
        · exact raises_error fun q h => by cases h
        · exact raises_ok
    · exact raises_ok

theorem domainCapacities_scaled (kind : String) (entries : List (String × PositiveParam)) :
    EngineScaled (Xsai.domainCapacities kind entries) :=
  (check_scaled _ fun q h => by cases h).bind fun _ _ =>
    liftProfile_scaled (raises_mapM fun e _ => (parameterInt_scaled _ _).bind fun _ _ => raises_ok)

theorem forM_scaled {α : Type} {f : α → Except SimError Unit} : ∀ {l : List α}, (∀ x ∈ l, EngineScaled (f x)) →
    EngineScaled (l.forM f)
  | [], _ => raises_ok
  | x :: _, h => (h x List.mem_cons_self).bind fun _ _ => forM_scaled fun y hy => h y (List.mem_cons_of_mem _ hy)

theorem validateTopology_scaled (C : Xsai.Config) (x : ExecutionUop) : EngineScaled (Xsai.validateTopology C x) := by
  refine (check_scaled _ fun q h => by cases h).bind fun _ _ => (check_scaled _ fun q h => by cases h).bind fun _ _ =>
    (check_scaled _ fun q h => by cases h).bind fun _ _ => forM_scaled fun u _ => ?_
  split
  · exact raises_ok
  · exact (check_scaled _ fun q h => by cases h).bind fun _ _ => (check_scaled _ fun q h => by cases h).bind fun _ _ =>
      check_scaled _ fun q h => by cases h

theorem xsaiInit_scaled (hP : Policies P) (expand : Bool) :
    EngineScaled (Xsai.init T P.toEngineProfile inOrder mode limit expand) := by
  refine (schedulerTrace_scaled T _ _).bind fun T' _ => (domainCapacities_scaled _ _).bind fun read _ =>
    (domainCapacities_scaled _ _).bind fun completion _ =>
    (liftProfile_scaled (raises_mapM fun e _ => (parameterInt_scaled _ _).bind fun _ _ => raises_ok)).bind fun domains _ =>
    (liftProfile_scaled (renamePolicy_scaled hP)).bind fun rename _ =>
    (setupInit_scaled T' inOrder mode limit _).bind fun E _ =>
    (liftProfile_scaled (vectorMemoryPolicy_scaled hP)).bind fun memory _ =>
    (liftProfile_scaled (epochPolicy_scaled hP)).bind fun epochs _ =>
    (forM_scaled fun x _ => validateTopology_scaled _ x).bind fun _ _ =>
    (check_scaled _ fun q h => by cases h).bind fun _ _ => raises_ok

end Init

/-! ### The latency of an access -/

namespace MemoryConfig

variable {C : MemoryConfig} {s t : MemoryState} {a : MemoryAccess} {now : ℕ}

/-- An access hands `ticks` a latency that was not measured: it is not blocked, it merges with
no fill, and the level that serves it has no latency. -/
def LatencyRaises (C : MemoryConfig) (s : MemoryState) (a : MemoryAccess) (now : ℕ) : Prop :=
  ∃ t, C.blocker s (some a) now = .ok (t, none) ∧ lastFill (C.completeFills t now) a = none ∧
    (C.levelEntry (C.worstLevel (C.completeFills t now) a.cacheLines)).latencyTicks = none

theorem lastFill_none : lastFill s a = none ↔ ∀ line ∈ a.cacheLines, ¬ Pending s line := by
  unfold lastFill Pending
  rw [List.max?_eq_none_iff, List.map_eq_nil_iff, List.filter_eq_nil_iff]
  simp only [decide_eq_true_eq]
  constructor
  · rintro h line hline ⟨f, hf, rfl⟩
    exact h f hf hline
  · exact fun h f hf hline => h f.1 hline ⟨f, hf, rfl⟩

/-- A state in which a level alone holds the line 0. -/
def onlyAt (level : ℕ) : MemoryState := { empty with sets := fun l _ => if l = level then [0] else [] }

theorem worstLevel_onlyAt {level : ℕ} (h : level ≤ C.dramLevel) : C.worstLevel (onlyAt level) [0] = level := by
  have hcontains : ∀ l, C.contains (onlyAt level) l 0 = decide (l = level) := by
    intro l
    unfold contains onlyAt
    by_cases hl : l = level
    · simp [hl]
    · simp [hl]
  have hfind : ((List.range C.levels.length).find? fun l => C.contains (onlyAt level) l 0).getD C.dramLevel = level := by
    simp only [hcontains]
    rcases Nat.lt_or_eq_of_le h with hlt | rfl
    · have hsome : (List.range C.levels.length).find? (fun l => decide (l = level)) = some level := by
        rw [List.find?_range_eq_some]
        exact ⟨by simp, List.mem_range.mpr hlt, fun j hj => by simpa using hj.ne⟩
      rw [hsome]
      rfl
    · have hnone : (List.range C.levels.length).find? (fun l => decide (l = C.dramLevel)) = none := by
        rw [List.find?_eq_none]
        intro l hl
        have hlt : l < C.dramLevel := List.mem_range.mp hl
        simpa using hlt.ne
      rw [hnone]
      rfl
  unfold worstLevel
  rw [if_neg (by simp)]
  show max 0 (C.lineLevel (onlyAt level) 0) = level
  rw [Nat.zero_max]
  exact hfind

/-- **An access can hand `ticks` an unmeasured latency** just where the limits of the levels
above let it through. -/
theorem latencyRaises_iff (C : MemoryConfig) : (∀ s a now, ¬ LatencyRaises C s a now) ↔
    ∀ level ≤ C.dramLevel, (C.levelEntry level).latencyTicks = none → ∃ k ∈ C.missPath level,
      ∀ limit, (C.levelEntry k).maxOutstanding = some limit → limit = 0 := by
  constructor
  · intro h level hlevel hnone
    by_contra hlimits
    push Not at hlimits
    have hworst := worstLevel_onlyAt hlevel
    have hsettled : ∀ t : MemoryState, t.pendingFills = [] → C.completeFills t 0 = t :=
      fun t ht => completeFills_eq_self (by rw [ht]; simp)
    -- nothing is on its way, and each level of the miss path has room
    refine h (onlyAt level) { access := .load, address := 0, bytes := 1, cacheLines := [0] } 0
      ⟨dropFinished (onlyAt level) 0 (C.missPath level), ?_, ?_, ?_⟩
    · refine ok_bind.mpr ⟨_, rfl, ?_⟩
      dsimp only
      rw [hsettled _ rfl, hworst, if_neg (by simp [hasPending, onlyAt, empty]), if_neg (by simp [onlyAt, empty])]
      refine outstandingBlocker_none.mpr ⟨rfl, fun k hk => ?_⟩
      obtain ⟨limit, hlimit, hpos⟩ := hlimits k hk
      refine ⟨limit, ?_, Nat.pos_of_ne_zero hpos⟩
      unfold outstandingLimit
      rw [hlimit]
    · rw [hsettled _ rfl]
      rfl
    · rw [hsettled _ rfl]
      exact hworst.symm ▸ hnone
  · rintro h s a now ⟨t, hb, hlast, hlatency⟩
    have hsame : SameLines (C.completeFills s now) t := blocker_same hb
    have hfix : C.completeFills t now = t :=
      completeFills_eq_self (by rw [hsame.pendingFills]; exact completeFills_pending)
    rw [hfix] at hlast hlatency
    have hfree := lastFill_none.mp hlast
    obtain ⟨k, hk, hlimit⟩ := h _ (worstLevel_le_dram hfree) hlatency
    -- the check of the miss path asks for a limit that is not reached
    have hagain := blocker_again hb
    obtain ⟨_, hpeek, hagain⟩ := ok_bind.mp hagain
    cases hpeek
    dsimp only at hagain
    have hpend : ¬ hasPending t a.cacheLines = true := fun hp => by
      obtain ⟨line, hline, hin⟩ := hasPending_iff.mp hp
      exact hfree line hline hin
    rw [hfix, if_neg hpend] at hagain
    split at hagain
    · cases hagain
    · obtain ⟨-, hlimits⟩ := outstandingBlocker_none.mp hagain
      obtain ⟨n, hn, hlt⟩ := hlimits k hk
      unfold outstandingLimit at hn
      split at hn
      · next limit hsome =>
        cases hn
        have hzero := hlimit _ hsome
        omega
      · cases hn

end MemoryConfig

/-! ### The scale is exact -/

/-- A level has no latency just where the data leave it to be measured. -/
theorem ReadsFrom.latency_none (h : ReadsFrom D P) {level : ℕ} (hl : level ≤ P.memory.dramLevel) :
    (P.memory.levelEntry level).latencyTicks = none ↔ D.at? (latencyPath D level) = some (.text "measure") := by
  obtain ⟨c, hread, hlatency⟩ := h.latency level hl
  rw [hlatency]
  have hconverts := hread.converts h.scale
  obtain ⟨v, hv, hc⟩ := Option.bind_eq_some_iff.mp hread
  rw [hv]
  unfold cycleParam at hc
  split at hc
  · next q =>
    split at hc
    · obtain rfl := Option.some.inj hc
      obtain ⟨n, hn, -⟩ := hconverts q rfl
      constructor
      · intro he
        rw [Option.bind_some, hn] at he
        cases he
      · intro he
        cases he
    · cases hc
  · next s =>
    split at hc
    · next hs =>
      obtain rfl := Option.some.inj hc
      simp [hs]
    · cases hc
  · cases hc

/-- A number is the latency of its level, exactly. -/
theorem ReadsFrom.latency_some (h : ReadsFrom D P) {level : ℕ} (hl : level ≤ P.memory.dramLevel) {q : ℚ}
    (hq : D.at? (latencyPath D level) = some (.num q)) :
    ∃ n : ℕ, (P.memory.levelEntry level).latencyTicks = some n ∧ (n : ℚ) / P.ticksPerCycle = q := by
  obtain ⟨c, hread, hlatency⟩ := h.latency level hl
  have hconverts := hread.converts h.scale
  obtain ⟨v, hv, hc⟩ := Option.bind_eq_some_iff.mp hread
  obtain rfl := Option.some.inj (hq.symm.trans hv)
  unfold cycleParam at hc
  dsimp only at hc
  split at hc
  · obtain rfl := Option.some.inj hc
    obtain ⟨n, hn, hdiv⟩ := hconverts q rfl
    refine ⟨n, ?_, hdiv⟩
    rw [hlatency, Option.bind_some, hn]
    rfl
  · cases hc

/-- Every number of the data is that many ticks, and `ticks` never raises. -/
structure TicksExact (D : Document) (P : Profile) : Prop where
  numbers : ∀ q ∈ D.numbers, (q * P.ticksPerCycle).den = 1 ∧ ((q * P.ticksPerCycle).num : ℚ) / P.ticksPerCycle = q
  converts : ∀ q ∈ D.numbers, 0 ≤ q → Converts P.ticksPerCycle (some q)
  binding : ∀ trace q, bind P trace ≠ .error (.ticks q)
  construction : ∀ T inOrder mode limit q,
    Zen4.init T P.toEngineProfile inOrder mode limit ≠ .error (.profile (.ticks q)) ∧
    ∀ expand, Xsai.init T P.toEngineProfile inOrder mode limit expand ≠ .error (.profile (.ticks q))
  latencies : ∀ level ≤ P.memory.dramLevel, ∀ q, D.at? (latencyPath D level) = some (.num q) →
    ∃ n : ℕ, (P.memory.levelEntry level).latencyTicks = some n ∧ (n : ℚ) / P.ticksPerCycle = q
  run : ∀ s a now, ¬ LatencyRaises P.memory s a now

/-- **The scale is exact**, and `ticks` never raises just where no access gets to a level whose
latency is still to be measured: above each such level there is one that lets none through. -/
theorem ticks_exact (D : Document) (P : Profile) (h : ReadsFrom D P) : TicksExact D P ↔
    ∀ level ≤ P.memory.dramLevel, D.at? (latencyPath D level) = some (.text "measure") →
      ∃ k ∈ P.memory.missPath level, ∀ limit, (P.memory.levelEntry k).maxOutstanding = some limit → limit = 0 := by
  obtain ⟨htpc, hdvd⟩ := ticksPerCycleOf_dvd h.scale
  have hrun : (∀ s a now, ¬ LatencyRaises P.memory s a now) ↔
      ∀ level ≤ P.memory.dramLevel, D.at? (latencyPath D level) = some (.text "measure") →
        ∃ k ∈ P.memory.missPath level, ∀ limit, (P.memory.levelEntry k).maxOutstanding = some limit → limit = 0 := by
    rw [latencyRaises_iff]
    exact forall_congr' fun level => forall_congr' fun hl => by rw [h.latency_none hl]
  rw [← hrun]
  refine ⟨TicksExact.run, fun hnever => ?_⟩
  constructor
  · exact fun q hq => ⟨whole_of_dvd (hdvd q hq), num_div_eq htpc (whole_of_dvd (hdvd q hq))⟩
  · exact fun q hq hpos => converts_of_dvd htpc hpos (hdvd q hq)
  · exact fun trace q he => bind_scaled h.timings trace _ he q rfl
  · exact fun T inOrder mode limit q => ⟨fun he => zen4Init_scaled T inOrder mode limit _ _ he q rfl,
      fun expand he => xsaiInit_scaled T inOrder mode limit h.policies expand _ he q rfl⟩
  · exact fun level hl q hq => h.latency_some hl hq
  · exact hnever

namespace Sample

def bandwidths : List (String × Document) := [("read_bytes_per_cycle", .num 32), ("write_bytes_per_cycle", .num 32)]

/-- A level of 5/2 cycles below one of 4 cycles, or of a latency to be measured. -/
def data (latency : Document) : Document := .mapping [
  ("recipes", .mapping []), ("resources", .mapping []),
  ("memory", .mapping [
    ("levels", .mapping [("l1d", .mapping (("latency_cycles", .num 4) :: bandwidths)),
      ("l2", .mapping (("latency_cycles", latency) :: bandwidths))]),
    ("dram", .mapping (("latency_cycles", .num 100) :: bandwidths))])]

def entry (latency : Option ℕ) : LevelEntry := ⟨latency, some 32, some 32, some 1⟩

/-- What is read of these data: eight ticks are a cycle. -/
def scaled (latency : Option ℕ) : Profile where
  toEngineProfile := { profile with
    ticksPerCycle := 8, ticksPerCycle_pos := by decide
    memory := {
      levels := [{ toLevelEntry := entry (some 32), ways := 1, setCount := 1 },
        { toLevelEntry := entry latency, ways := 2, setCount := 1 }]
      dram := entry (some 800)
      ticksPerCycle := 8 } }
  recipes := []
  resources := []
  l1d := ⟨some 4, some 32, some 32⟩

/-- The second level has no latency yet. -/
def unmeasured : Profile := scaled none

theorem data_readsFrom {latency : Document} {c : CycleParam} {ticks' : Option ℕ}
    (hscale : ticksPerCycleOf (data latency) = some 8) (hc : cycleParam latency = some c)
    (ht : ticks' = c.bind fun q => (ticks 8 q).toOption) : ReadsFrom (data latency) (scaled ticks') where
  scale := hscale
  recipes := by intro key r h; cases h
  gaps := by intro key r d h; cases h
  fit := by intro f h; cases h
  prep := by intro rules h; cases h
  l1d := rfl
  rename := by intro h; cases h
  storeCompletion := .inl rfl
  service := by intro es h; cases h
  split := by intro boundary c h; cases h
  epochs := by intro e h; cases h
  levels := rfl
  latency := by
    intro level hl
    have hfirst : cycleParam (.num 4) = some (some 4) ∧ some 32 = (ticks 8 4).toOption := by decide +kernel
    have hdram : cycleParam (.num 100) = some (some 100) ∧ some 800 = (ticks 8 100).toOption := by decide +kernel
    match level, hl with
    | 0, _ => exact ⟨some 4, hfirst⟩
    | 1, _ => exact ⟨c, hc, ht⟩
    | 2, _ => exact ⟨some 100, hdram⟩
    | n + 3, hl => exact absurd hl (by show ¬ n + 3 ≤ 2; omega)

/-- An instruction that loads a line. -/
def lineInstruction (n : ℕ) : Instruction where
  id := n
  sequence := n
  mnemonic := "vmovups"
  memory := some { address := 64 * n, bytes := 64, cacheLines := [n], access := .load }

/-- A load of one of two lines, which the first level cannot hold together. -/
def twoLines : BoundTrace := { trace [0] with
  ticksPerCycle := 8
  uops := [{ uop with kind := .loadData, memory := (lineInstruction 0).memory }]
  source := [lineInstruction 0, lineInstruction 1] }

end Sample

theorem ticks_exact_sample : TicksExact (Sample.data (.num (5 / 2))) (Sample.scaled (some 20)) := by
  have hreads : ReadsFrom (Sample.data (.num (5 / 2))) (Sample.scaled (some 20)) :=
    Sample.data_readsFrom (c := some (5 / 2)) (by decide +kernel) (by decide +kernel) (by decide +kernel)
  refine (ticks_exact _ _ hreads).mpr fun level hl hmeasure => ?_
  match level, hl with
  | 0, _ => cases hmeasure
  | 1, _ => cases hmeasure
  | 2, _ => cases hmeasure
  | n + 3, hl => exact absurd hl (by show ¬ n + 3 ≤ 2; omega)

/-- A trace that is warmed into a level without a latency: its load raises in `ticks`. -/
theorem latency_unmeasured : ReadsFrom (Sample.data (.text "measure")) Sample.unmeasured ∧
    ¬ TicksExact (Sample.data (.text "measure")) Sample.unmeasured ∧
    ∃ E, Zen4.init Sample.twoLines Sample.unmeasured.toEngineProfile false .hotCapacity none = .ok E ∧
      Zen4.run E = .error (.memory .unmeasured) := by
  have hreads : ReadsFrom (Sample.data (.text "measure")) Sample.unmeasured :=
    Sample.data_readsFrom (c := none) (by decide +kernel) rfl rfl
  refine ⟨hreads, fun h => ?_, ?_⟩
  · -- the second level holds the line, and the first lets a miss through
    obtain ⟨k, hk, hzero⟩ := (latencyRaises_iff _).mp h.run 1 (by decide) rfl
    obtain rfl : k = 0 := by simpa [missPath, dramLevel, Sample.unmeasured, Sample.scaled] using hk
    exact absurd (hzero 1 rfl) (by decide)
  · obtain ⟨E, hE⟩ := Checked.exists_ok
      (x := Zen4.init Sample.twoLines Sample.unmeasured.toEngineProfile false .hotCapacity none) (by decide +kernel)
    have hrun : errorOf ((Zen4.init Sample.twoLines Sample.unmeasured.toEngineProfile false .hotCapacity none).bind
        Zen4.run) = some (.memory .unmeasured) := by decide +kernel
    rw [hE] at hrun
    exact ⟨E, hE, errorOf_eq.mp hrun⟩

end VectorSim
