/-
# The XSAI engine finds what it needs

The same of the XSAI engine: where the profile is measured and has for each macro-op what
it asks of an empty machine (`Equipped`), and the uops name partitions, units and domains
as the constructor has checked (`Wired`), the errors left are internal ones, and of those
there are none. So its visits return, and so does its search for the next tick.
-/
import VectorSim.Backend.XsaiErrors
import VectorSim.Backend.Accepted
import VectorSim.Backend.Provided

namespace VectorSim
namespace Xsai

open Checked Setup Core

variable {E : Config} {now : ℕ} {s s' : Sched} {x : ExecutionUop} {m : MacroOp}

/-! ### What there is -/

/-- What the machine has for a macro-op when nothing else is there. -/
structure Roomy (E : Config) (m : MacroOp) : Prop where
  dispatch : ∃ n ∈ E.pipeline.dispatchMacroOpsPerCycle, 0 < n
  rob : ∃ n ∈ E.pipeline.robEntries, m.robEntryCount ≤ n
  retire : ∃ n ∈ E.pipeline.retireMacroOpsPerCycle, m.retireMacroOps ≤ n
  vector : usesLegacyVectorScheduler E m = true → ∃ n ∈ E.pipeline.vectorSchedulerEntries, 1 ≤ n
  load : m.usesLoadQueue = true → ∃ n ∈ E.pipeline.loadQueueEntries, 1 ≤ n
  store : m.usesStoreQueue = true → ∃ n ∈ E.pipeline.storeQueueEntries, 1 ≤ n
  domains : ∀ d ∈ m.dispatchDomains, ∃ n : ℕ+, E.dispatchDomainCapacity.lookup d = some n ∧ domainDemand m d ≤ n
  width : E.rename.enabled = true → allocationTotal m ≤ E.rename.allocationWidth
  entries : E.rename.enabled = true → ∀ e ∈ m.renameAllocations, e.1 ∈ E.rename.freeLists.map (·.1) ∧
    e.2 + E.rename.guardEntries ≤ lookupD E.rename.freeLists e.1 0

instance (E : Config) (m : MacroOp) : Decidable (Roomy E m) :=
  decidable_of_iff ((∃ n ∈ E.pipeline.dispatchMacroOpsPerCycle, 0 < n) ∧
    (∃ n ∈ E.pipeline.robEntries, m.robEntryCount ≤ n) ∧ (∃ n ∈ E.pipeline.retireMacroOpsPerCycle, m.retireMacroOps ≤ n) ∧
    (usesLegacyVectorScheduler E m = true → ∃ n ∈ E.pipeline.vectorSchedulerEntries, 1 ≤ n) ∧
    (m.usesLoadQueue = true → ∃ n ∈ E.pipeline.loadQueueEntries, 1 ≤ n) ∧
    (m.usesStoreQueue = true → ∃ n ∈ E.pipeline.storeQueueEntries, 1 ≤ n) ∧
    (∀ d ∈ m.dispatchDomains, ∃ n ∈ E.dispatchDomainCapacity.lookup d, domainDemand m d ≤ n) ∧
    (E.rename.enabled = true → allocationTotal m ≤ E.rename.allocationWidth) ∧
    (E.rename.enabled = true → ∀ e ∈ m.renameAllocations, e.1 ∈ E.rename.freeLists.map (·.1) ∧
      e.2 + E.rename.guardEntries ≤ lookupD E.rename.freeLists e.1 0))
    ⟨fun ⟨h1, h2, h3, h4, h5, h6, h7, h8, h9⟩ => ⟨h1, h2, h3, h4, h5, h6, h7, h8, h9⟩,
      fun h => ⟨h.dispatch, h.rob, h.retire, h.vector, h.load, h.store, h.domains, h.width, h.entries⟩⟩

/-- The machine has what its trace asks for. -/
structure Equipped (E : Config) : Prop extends Provided E.toSetup where
  room : ∀ m ∈ E.trace.macros, Roomy E m

/-- What the constructor has checked of the partitions, units and domains of a uop. -/
structure Wired (E : Config) (x : ExecutionUop) : Prop where
  partitions : ∀ p ∈ x.schedulerPartitionChoices, 0 < entries E p ∧ 0 < enqueueWidth E p ∧
    ∃ u ∈ x.executionUnitChoices, (unit? E u).any (·.schedulerPartition = p) = true
  units : ∀ u ∈ x.executionUnitChoices, ∃ r ∈ x.resourceChoices, (unit? E u).any (r ∈ ·.functionalUnits) = true
  reads : ∀ u ∈ x.executionUnitChoices, ∀ d ∈ readDomainFor E x (some u), d ∈ E.readCapacity.map (·.1)
  writes : ∀ u ∈ x.executionUnitChoices, ∀ d ∈ completionDomainFor E x (some u), d ∈ E.completionCapacity.map (·.1)

theorem capacityOf_pos {capacities : List (String × ℕ+)} {d : String} (h : d ∈ capacities.map (·.1)) :
    0 < capacityOf capacities d := by
  unfold capacityOf
  cases hl : capacities.lookup d with
  | none =>
    obtain ⟨e, he, rfl⟩ := List.mem_map.mp h
    have := List.lookup_eq_none_iff.mp hl e he
    simp at this
  | some n => exact n.pos

theorem Accepted.wired {T : BoundTrace} {P : EngineProfile} {inOrder expand : Bool}
    (h : Accepted T P inOrder expand E) (hx : x ∈ E.trace.uops) : Wired E x := by
  have htopology := h.topology x hx
  simp only [validateTopology, ok_bind, check_ok, forM_ok, exists_const] at htopology
  obtain ⟨hpartitions, hunits, ⟨hderived, -⟩, hunit⟩ := htopology
  have hchoice : ∀ u ∈ x.executionUnitChoices, ∃ unit, unit? E u = some unit ∧
      (∃ r ∈ x.resourceChoices, r ∈ unit.functionalUnits) ∧
      (x.requiresCompletionToken = true → ∃ d ∈ unit.vectorWritebackDomain, d ∈ E.completionCapacity.map (·.1)) ∧
      (x.requiresVectorReadToken = true → ∃ d ∈ unit.vectorReadDomain, d ∈ E.readCapacity.map (·.1)) := by
    intro u hu
    have hchecks := hunit u hu
    cases hl : E.units.lookup u with
    | none =>
      obtain ⟨e, he, rfl⟩ := List.mem_map.mp (hunits hu)
      have := List.lookup_eq_none_iff.mp hl e he
      simp at this
    | some unit =>
      rw [hl] at hchecks
      simp only [ok_bind, check_ok, exists_const] at hchecks
      exact ⟨unit, hl, hchecks⟩
  refine ⟨fun p hp => ?_, fun u hu => ?_, fun u hu d hd => ?_, fun u hu d hd => ?_⟩
  · obtain ⟨partition, hmem, rfl⟩ := List.mem_map.mp (hpartitions hp)
    have hfound : (partition? E partition.id).isSome := List.find?_isSome.mpr ⟨partition, hmem, by simp⟩
    obtain ⟨q, hq⟩ := Option.isSome_iff_exists.mp hfound
    have hid : q.id = partition.id := by simpa using List.find?_some hq
    obtain ⟨hentries, hwidth⟩ := h.measured x hx q (List.mem_of_find?_eq_some hq) (hid ▸ hp)
    obtain ⟨n, hn⟩ := Option.isSome_iff_exists.mp hentries
    obtain ⟨w, hw⟩ := Option.isSome_iff_exists.mp hwidth
    refine ⟨?_, ?_, ?_⟩
    · simp [entries, hq, hn]
    · simp [enqueueWidth, hq, hw]
    · obtain ⟨u, hu, hunit⟩ := List.mem_filterMap.mp (hderived hp)
      obtain ⟨unit, hl, heq⟩ := Option.map_eq_some_iff.mp hunit
      exact ⟨u, hu, by simp [unit?, hl, heq]⟩
  · obtain ⟨unit, hl, ⟨r, hr, hf⟩, -⟩ := hchoice u hu
    exact ⟨r, hr, by simp [hl, hf]⟩
  · obtain ⟨unit, hl, -, -, hread⟩ := hchoice u hu
    unfold readDomainFor at hd
    split at hd
    · next hreq =>
      obtain ⟨e, he, hmem⟩ := hread hreq
      have : unit.vectorReadDomain = some d := by simpa [hl] using hd
      rw [Option.mem_def.mp he, Option.some.injEq] at this
      exact this ▸ hmem
    · cases hd
  · obtain ⟨unit, hl, -, hwrite, -⟩ := hchoice u hu
    unfold completionDomainFor at hd
    split at hd
    · next hreq =>
      obtain ⟨e, he, hmem⟩ := hwrite hreq
      have : unit.vectorWritebackDomain = some d := by simpa [hl] using hd
      rw [Option.mem_def.mp he, Option.some.injEq] at this
      exact this ▸ hmem
    · cases hd

/-! ### What a state keeps of it -/

/-- The lanes and tokens are all there, and a uop is in a partition of its choices. -/
structure Stocked (E : Config) (s : Sched) : Prop where
  sized : Sized E.toSetup s.toMachine
  placed : ∀ u, ∀ p ∈ (s.placement u).partition, p ∈ (E.uop u).schedulerPartitionChoices

theorem stocked_init : Stocked E (schedInit E) :=
  ⟨⟨laneInv_init.capacity, tokenInv_init.capacity⟩, fun _ _ h => by cases h⟩

theorem Stocked.of_eq (h : Stocked E s) (hr : s'.resourceFree = s.resourceFree) (hd : s'.issueDomainFree = s.issueDomainFree)
    (hp : ∀ u, (s'.placement u).partition = (s.placement u).partition) : Stocked E s' :=
  ⟨h.sized.of_eq hr hd, fun u p hu => h.placed u p (hp u ▸ hu)⟩

theorem stocked_issued (hE : Provided E.toSetup) (h : Stocked E s) (hx : x ∈ E.trace.uops) {r : Reserved}
    (reserved : reserveIssueDomains x now x.issueDomains s.issueDomainFree = .ok r.issueDomainFree) :
    Stocked E (issued E s x now r) := by
  refine ⟨⟨fun q => ?_, fun d => ?_⟩, fun u p hp => h.placed u p ?_⟩
  · rw [← h.sized.lanes q]
    by_cases hq : q = r.path.resource
    · simp [issued, hq]
    · simp [issued, hq]
  · rw [← h.sized.domains d]
    exact (reserveIssueDomains_ok _ reserved fun e he => (h.sized.domains e).symm ▸ hE.domains x hx e he).1 d
  · by_cases hu : u = x.id
    · subst hu
      simpa [issued] using hp
    · simpa [issued, hu] using hp

/-- A chunk enters partitions of the choices of its uops. -/
theorem stocked_enqueue (hT : WellFormed E.trace) (hm : m ∈ E.trace.macros) {us : List Id}
    {r : Sched × DispatchCycle} (h : Stocked E r.1) (hsub : us ⊆ m.uopIds) {a : List (Id × String)}
    {t : Sched} {enqueues : String → ℕ} (planned : planAssignment E t true enqueues us = some a) (units : ℕ) :
    Stocked E (enqueue (spend r m units) us a now).1 := by
  refine ⟨h.sized.of_eq rfl rfl, fun u p hp => ?_⟩
  by_cases hu : u ∈ us
  · have hassigned : assigned a u = some p := by simpa [enqueue, hu] using hp
    obtain ⟨y, hy, hid, hchoice⟩ := (assign_some planned).choices _ (assigned_mem hassigned)
    obtain ⟨v, hv, rfl⟩ := List.mem_map.mp (List.mem_filter.mp ((partitioned_perm us).mem_iff.mp hy)).1
    -- a uop of the macro-op is known under its id
    obtain ⟨z, hz, -⟩ := hT.owned m hm v (hsub hv)
    obtain ⟨hzm, rfl⟩ := E.trace.uop?_mem hz
    rw [Setup.uop_eq hT hzm] at hid hchoice
    dsimp only at hid
    rw [← hid, Setup.uop_eq hT hzm]
    exact hchoice
  · exact h.placed u p (by simpa [enqueue, spend, hu] using hp)

/-- Every step keeps them. -/
theorem stocked_step (hT : WellFormed E.trace) (hE : Provided E.toSetup) (h : Stocked E s) (hstep : Step E now s s') :
    Stocked E s' := by
  cases hstep with
  | @complete e rest _ _ =>
    have hsame := completeEntry_partitions (E := E) (s := s) e rest
    refine h.of_eq ?_ ?_ hsame.placed
    · unfold completeEntry
      dsimp only
      split <;> rfl
    · unfold completeEntry
      dsimp only
      split <;> rfl
  | releaseFlow _ _ => exact h.of_eq rfl rfl fun _ => rfl
  | releaseRename _ _ => exact h.of_eq rfl rfl fun _ => rfl
  | @take c m _ _ _ _ head taken _ =>
    obtain ⟨count, -, rfl⟩ := taken.listed
    have hquiet : Quiet s (admitOnce E s c m now).1 := admitOnce_quiet c m now
    have hadmitted : Stocked E (admitOnce E s c m now).1 :=
      h.of_eq hquiet.resourceFree hquiet.issueDomainFree (admitOnce_partitions c m now).placed
    exact stocked_enqueue hT (List.mem_of_getElem? head) hadmitted
      (fun u hu => (List.mem_filter.mp (List.mem_of_mem_take hu)).1) taken.planned _
  | @budget c m _ _ _ _ _ =>
    have hquiet : Quiet s (admitOnce E s c m now).1 := admitOnce_quiet c m now
    exact h.of_eq hquiet.resourceFree hquiet.issueDomainFree (admitOnce_partitions c m now).placed
  | advance _ _ => exact h.of_eq rfl rfl fun _ => rfl
  | stall _ _ _ => exact h.of_eq rfl rfl fun _ => rfl
  | poll _ => exact h.of_eq rfl rfl fun _ => rfl
  | issue issuable _ _ _ _ reserved => exact stocked_issued hE h issuable.mem (reserve_ok reserved).domains
  | retire _ _ _ => exact h.of_eq rfl rfl fun _ => rfl

theorem AtTick.stocked (hT : WellFormed E.trace) (hE : Provided E.toSetup) (h : AtTick E now s) : Stocked E s :=
  h.invariant (P := fun _ s => Stocked E s) hT stocked_init (fun _ _ _ hs hstep => stocked_step hT hE hs hstep)
    fun _ _ _ hs _ => hs

theorem steps_stocked (hT : WellFormed E.trace) (hE : Provided E.toSetup) (h : Stocked E s) (hsteps : Steps E now s s') :
    Stocked E s' :=
  hsteps.invariant h fun _ _ hs hstep => stocked_step hT hE hs hstep

/-! ### Checks -/

theorem eligibleUnits_subset {u : String} (hu : u ∈ eligibleUnits E s x) : u ∈ x.executionUnitChoices := by
  unfold eligibleUnits at hu
  split at hu
  · exact hu
  · exact (List.mem_filter.mp hu).1

/-- A uop has a unit of the partition it is in. -/
theorem Stocked.eligible (h : Stocked E s) (hT : WellFormed E.trace) (hw : Wired E x) (hx : x ∈ E.trace.uops)
    (hne : x.executionUnitChoices ≠ []) : eligibleUnits E s x ≠ [] := by
  unfold eligibleUnits
  split
  · exact hne
  · next p hp =>
    have hchoice := h.placed x.id p hp
    rw [Setup.uop_eq hT hx] at hchoice
    obtain ⟨-, -, u, hu, hunit⟩ := hw.partitions p hchoice
    exact List.ne_nil_of_mem (List.mem_filter.mpr ⟨hu, hunit⟩)

theorem unitBlocker_furnished (h : Stocked E s) (hT : WellFormed E.trace) (hw : Wired E x) (hx : x ∈ E.trace.uops) :
    Furnished (unitBlocker E s x now) := by
  unfold unitBlocker
  split
  · exact raises_ok
  · next hne =>
    split
    · next hmin =>
      have := List.min?_eq_none_iff.mp hmin
      exact absurd (List.map_eq_nil_iff.mp this) (h.eligible hT hw hx hne)
    · exact raises_ok

theorem resourceChecks_furnished (hE : Provided E.toSetup) (h : Stocked E s) (hT : WellFormed E.trace) (hw : Wired E x)
    (hx : x ∈ E.trace.uops) : Furnished (resourceChecks E s x now) := by
  refine (resourceBlocker_furnished hE h.sized hx).bind fun b _ => ?_
  split
  · exact raises_ok
  · exact unitBlocker_furnished h hT hw hx

theorem vectorMemoryBlocker_furnished : Furnished (vectorMemoryBlocker E s x now) := by
  have hsplit : Furnished (splitBlocker E s x now) := by
    unfold splitBlocker
    split
    · exact raises_ok
    · split
      · exact raises_error (by decide)
      · exact raises_ok
  have hservice : Furnished (serviceBlocker E s x now) := by
    unfold serviceBlocker
    split
    · exact raises_ok
    · split
      · split
        · exact raises_error (by decide)
        · exact raises_ok
      · exact raises_ok
  unfold vectorMemoryBlocker
  split
  · refine hsplit.bind fun b _ => ?_
    split
    · exact raises_ok
    · refine hservice.bind fun b _ => ?_
      split <;> exact raises_ok
  · exact raises_ok

theorem memoryBlocker_furnished (hE : Provided E.toSetup) (hx : x ∈ E.trace.uops) : Furnished (memoryBlocker E s x now) := by
  unfold memoryBlocker
  split
  · next hk =>
    refine vectorMemoryBlocker_furnished.bind fun b _ => ?_
    split
    · exact raises_ok
    · exact hierarchyBlocker_furnished hE hx hk s.memory
  · exact raises_ok

theorem tokenChecks_furnished (hE : Provided E.toSetup) (h : Sized E.toSetup s.toMachine) (hx : x ∈ E.trace.uops) :
    Furnished (tokenChecks E s x now) := by
  have hready : Furnished (nextExecutionReadyTick E s x now) :=
    (raises_mapM fun _ hr => (firstFree_furnished hE h hx hr).bind fun _ _ => raises_ok).bind fun _ _ => raises_ok
  refine (domainBlocker_furnished hE h hx).bind fun b _ => ?_
  split
  · exact raises_ok
  · unfold executionBlocker
    split
    · exact raises_ok
    · split
      · split
        · exact raises_ok
        · exact hready.bind fun _ _ => raises_ok
      · exact raises_ok

theorem issueBlocker_furnished (hE : Provided E.toSetup) (h : Stocked E s) (hT : WellFormed E.trace) (hw : Wired E x)
    (hx : x ∈ E.trace.uops) : Furnished (issueBlocker E s x now) := by
  unfold issueBlocker
  split
  · exact raises_ok
  · refine (resourceChecks_furnished hE h hT hw hx).bind fun b _ => ?_
    split
    · exact raises_ok
    · refine (memoryBlocker_furnished hE hx).bind fun r _ => ?_
      split
      · exact raises_ok
      · exact (tokenChecks_furnished hE h.sized hx).bind fun _ _ => raises_ok

/-! ### Issue -/

theorem accessMemory_furnished (hE : Provided E.toSetup) {memory : MemoryState}
    (h : memoryBlocker E s x now = .ok (memory, none)) : Furnished (accessMemory E { s with memory := memory } x now) := by
  unfold accessMemory
  split
  · next hk => exact (access_furnished hE (memoryBlocker_none h hk).2).bind fun _ _ => raises_ok
  · exact raises_ok

theorem issueUop_furnished (hE : Provided E.toSetup) {memory : MemoryState}
    (hb : issueBlocker E s x now = .ok (memory, none)) : Furnished (issueUop E { s with memory := memory } x now) := by
  obtain ⟨-, -, hmemory, -⟩ := issueBlocker_none hb
  have hselect : Furnished (selectExecution E { s with memory := memory } x now) := by
    unfold selectExecution
    split
    · exact raises_error rfl
    · exact raises_ok
  have hleave : Furnished (leavePartition { s with memory := memory } x) := by
    unfold leavePartition
    split
    · exact raises_ok
    · split
      · exact raises_error rfl
      · exact raises_ok
  have hread : ∀ d, Furnished (reserveRead E { s with memory := memory } d now) := by
    intro d
    unfold reserveRead
    split
    · exact raises_ok
    · split
      · exact raises_error rfl
      · exact raises_ok
  refine Raises.bind ?_ fun _ _ => raises_ok
  exact hselect.bind fun _ _ => (accessMemory_furnished hE hmemory).bind fun _ _ => hleave.bind fun _ _ =>
    (reserveIssueDomains_furnished _ _).bind fun _ _ => (hread _).bind fun _ _ => raises_ok

theorem issueList_furnished (hE : Provided E.toSetup) (hT : WellFormed E.trace) (hw : ∀ x ∈ E.trace.uops, Wired E x) :
    ∀ (xs : List ExecutionUop) (s : Sched), Stocked E s → (∀ x ∈ xs, x ∈ E.trace.uops) → Furnished (issueList E now xs s)
  | [], _, _, _ => raises_ok
  | x :: xs, s, h, hxs => by
    have hx := hxs x List.mem_cons_self
    have hrest := fun y hy => hxs y (List.mem_cons_of_mem x hy)
    refine (issueBlocker_furnished hE h hT (hw x hx) hx).bind fun b hb => ?_
    obtain ⟨memory, b⟩ := b
    have hpolled : Stocked E { s with memory := memory } := h.of_eq rfl rfl fun _ => rfl
    cases b with
    | some b =>
      dsimp only
      split
      · exact raises_ok
      · exact issueList_furnished hE hT hw xs { s with memory := memory } hpolled hrest
    | none =>
      refine (issueUop_furnished hE hb).bind fun s₁ h₁ => ?_
      obtain ⟨r, hr, h₁⟩ := ok_bind.mp h₁
      cases h₁
      exact (issueList_furnished hE hT hw xs _ (stocked_issued hE hpolled hx (reserve_ok hr).domains) hrest).bind
        fun _ _ => raises_ok

theorem issueFixedPoint_furnished (hE : Provided E.toSetup) (hT : WellFormed E.trace) (hw : ∀ x ∈ E.trace.uops, Wired E x)
    (h : Stocked E s) : Furnished (issueFixedPoint E now s) := by
  have hcandidates : ∀ s : Sched, Candidates E.toSetup s.toCore (E.issueCandidates s.toCore) := fun s =>
    candidates_issueCandidates hT _
  refine FixedPoint.run_raises (P := Stocked E) (μ := remaining) h (Nat.lt_succ_self _) (fun s hs => ?_)
    (fun s r hs hr => ?_) fun s hs => ?_
  · exact ⟨steps_stocked hT hE hs (complete_steps s), completeLoop_remaining _ s⟩
  · exact ⟨steps_stocked hT hE hs (issueOnce_steps hT hr), issueList_remaining _ s (hcandidates s) hr⟩
  · exact issueList_furnished hE hT hw _ s hs fun x hx => ((hcandidates s).mem x hx).1

/-! ### Dispatch -/

theorem domainFull_furnished {c : DispatchCycle} : ∀ ds : List String,
    (∀ d ∈ ds, ∃ n : ℕ+, E.dispatchDomainCapacity.lookup d = some n ∧ domainDemand m d ≤ n) → Furnished (domainFull E c m ds)
  | [], _ => raises_ok
  | d :: ds, h => by
    obtain ⟨n, hn, -⟩ := h d List.mem_cons_self
    unfold domainFull
    rw [hn]
    dsimp only
    split
    · exact raises_ok
    · exact domainFull_furnished ds fun e he => h e (List.mem_cons_of_mem _ he)

theorem renameBlocker_furnished {c : DispatchCycle} (hm : Roomy E m) : Furnished (renameBlocker E s c m) := by
  unfold renameBlocker
  split
  · exact raises_ok
  · next hon =>
    have henabled : E.rename.enabled = true := by
      simp only [Bool.or_eq_true, Bool.not_eq_true', not_or, Bool.not_eq_false] at hon
      exact hon.1
    split
    · next hunknown =>
      obtain ⟨e, he, hnot⟩ := List.any_eq_true.mp hunknown
      exact absurd (hm.entries henabled e he).1 (by simpa using hnot)
    · split <;> exact raises_ok

theorem queueBlocker_furnished (hm : Roomy E m) : Furnished (queueBlocker E s m) := by
  have hqueue : ∀ (uses : Bool) (v : Option ℕ) (name : String) (occupancy : ℤ),
      (uses = true → ∃ n ∈ v, 1 ≤ n) → Furnished (queueFull uses v name occupancy) := by
    intro uses v name occupancy hv
    unfold queueFull
    split
    · next huses =>
      obtain ⟨n, hn, -⟩ := hv huses
      exact (pipelineInt_furnished (by simp [Option.mem_def.mp hn])).bind fun _ _ => raises_ok
    · exact raises_ok
  have hvector : Furnished (vectorFull E s m) := by
    unfold vectorFull
    split
    · next huses =>
      obtain ⟨n, hn, -⟩ := hm.vector huses
      exact (pipelineInt_furnished (by simp [Option.mem_def.mp hn])).bind fun _ _ => raises_ok
    · exact raises_ok
  refine hvector.bind fun _ _ => ?_
  split
  · exact raises_ok
  · refine (hqueue _ _ _ _ hm.load).bind fun _ _ => ?_
    split
    · exact raises_ok
    · exact (hqueue _ _ _ _ hm.store).bind fun _ _ => raises_ok

theorem dispatchBlocker_furnished {c : DispatchCycle} (hm : Roomy E m) : Furnished (dispatchBlocker E s c m) := by
  obtain ⟨rob, hrob, -⟩ := hm.rob
  unfold dispatchBlocker admissionBlocker
  split
  · exact raises_ok
  · refine (pipelineInt_furnished (by simp [Option.mem_def.mp hrob])).bind fun _ _ => ?_
    split
    · exact raises_ok
    · refine (domainFull_furnished _ hm.domains).bind fun _ _ => ?_
      split
      · exact raises_ok
      · refine (renameBlocker_furnished hm).bind fun _ _ => ?_
        split
        · exact raises_ok
        · exact queueBlocker_furnished hm

theorem stopBlocked_furnished {c : DispatchCycle} (reason : DispatchStall) : Furnished (stopBlocked s c m now reason) := by
  refine Raises.bind ?_ fun _ _ => raises_ok
  unfold recordDispatchBlocker
  dsimp only
  split
  · split
    · exact raises_error rfl
    · exact raises_ok
  · exact raises_ok

theorem dispatchTurn_furnished {c : DispatchCycle} {width : ℕ} (hm : Roomy E m) :
    Furnished (dispatchTurn E width now s c m) := by
  unfold dispatchTurn
  dsimp only
  split
  · exact raises_ok
  · split
    · exact raises_ok
    · next chunk _ =>
      refine (dispatchBlocker_furnished hm).bind fun b _ => ?_
      cases b with
      | some reason => exact stopBlocked_furnished reason
      | none =>
        cases chunk with
        | take us a units =>
          dsimp only
          unfold closeTurn
          split
          · split
            · exact raises_error rfl
            · exact raises_ok
          · exact raises_ok
        | budget units => exact raises_ok
        | blocked =>
          dsimp only
          split <;> exact stopBlocked_furnished _

theorem dispatchLoop_furnished (hE : Equipped E) {width : ℕ} : ∀ (fuel : ℕ) (s : Sched) (c : DispatchCycle),
    Furnished (dispatchLoop E width now fuel s c)
  | 0, _, _ => raises_ok
  | fuel + 1, s, c => by
    unfold dispatchLoop
    split
    · exact raises_ok
    · next m hm =>
      split
      · exact raises_ok
      · refine (dispatchTurn_furnished (hE.room m (List.mem_of_getElem? hm))).bind fun r _ => ?_
        split
        · exact dispatchLoop_furnished hE fuel _ _
        · exact raises_ok

/-! ### Visits and jumps -/

/-- The widths of a machine that has something to run. -/
theorem Equipped.widths (hE : Equipped E) (hm : m ∈ E.trace.macros) :
    E.pipeline.dispatchMacroOpsPerCycle.isSome ∧ E.pipeline.retireMacroOpsPerCycle.isSome := by
  obtain ⟨d, hd, -⟩ := (hE.room m hm).dispatch
  obtain ⟨r, hr, -⟩ := (hE.room m hm).retire
  simp [Option.mem_def.mp hd, Option.mem_def.mp hr]

theorem phase_furnished (hT : WellFormed E.trace) (hE : Equipped E) (hw : ∀ x ∈ E.trace.uops, Wired E x)
    (hne : E.trace.macros ≠ []) (h : Stocked E s) {f : Sched → Except SimError Sched} (hf : f ∈ phases E now) :
    Furnished (f s) := by
  obtain ⟨m, hm⟩ := List.exists_mem_of_ne_nil _ hne
  obtain ⟨hdispatch, hretire⟩ := hE.widths hm
  simp only [phases, List.mem_cons, List.not_mem_nil, or_false] at hf
  rcases hf with rfl | rfl | rfl | rfl | rfl | rfl | rfl
  · exact raises_ok
  · exact raises_ok
  · exact raises_ok
  · dsimp only
    split
    · exact (pipelineInt_furnished hdispatch).bind fun _ _ => dispatchLoop_furnished hE _ _ _
    · exact raises_ok
  · exact issueFixedPoint_furnished hE.toProvided hT hw h
  · exact raises_ok
  · dsimp only
    split
    · exact (pipelineInt_furnished hretire).bind fun _ _ => raises_ok
    · exact raises_ok

/-- **A visit returns.** -/
theorem visit_returns (hT : WellFormed E.trace) (hn : ∀ m ∈ E.trace.macros, m.uopIds.Nodup) (hE : Equipped E)
    (hw : ∀ x ∈ E.trace.uops, Wired E x) (hne : E.trace.macros ≠ []) (hs : Sound E now s) (h : Stocked E s) :
    ∃ s', visitOf (phases E now) s = .ok s' := by
  refine Furnished.returns ?_ (visit_clean hT hE.distinct hn hs)
  exact raises_foldlM (I := Stocked E) h (fun _ hf s hs => phase_furnished hT hE hw hne hs hf)
    fun _ hf _ _ hs hs' => steps_stocked hT hE.toProvided hs (phase_steps hT hf hs')

/-- **So does the search for the next tick, while there is work.** -/
theorem nextEventTick_returns (hT : WellFormed E.trace) (hE : Equipped E) (hw : ∀ x ∈ E.trace.uops, Wired E x)
    (hs : FlowInv E s) (h : Stocked E s) (hu : E.unfinished s.toCore = true) : ∃ r, nextEventTick E now s = .ok r := by
  have hmem : ∀ x ∈ E.issueCandidates s.toCore, x ∈ E.trace.uops := fun x hx =>
    ((candidates_issueCandidates hT _).mem x hx).1
  refine Furnished.returns ?_ (nextEventTick_clean hs)
  refine Raises.bind ?_ fun r _ => ?_
  · refine raises_foldlM (I := fun _ => True) trivial (fun x hx r _ => ?_) fun _ _ _ _ _ _ => trivial
    have hpolled : Stocked E { s with memory := r.1 } := h.of_eq rfl rfl fun _ => rfl
    exact (issueBlocker_furnished hE.toProvided hpolled hT (hw x (hmem x hx)) (hmem x hx)).bind fun _ _ =>
      (waitingTicks_furnished hE.toProvided h.sized (hmem x hx) _).bind fun _ _ => raises_ok
  · split
    · next hmin =>
      have := List.min?_eq_none_iff.mp hmin
      simp [scheduledTicks, hu] at this
    · exact raises_ok

end Xsai
end VectorSim
