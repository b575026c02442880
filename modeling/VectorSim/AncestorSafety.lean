/-
# The ancestors of a computed store

`_computed_store_ancestor_parents` searches the dependencies of the store inside
its epoch. For every dependency graph, cyclic or not, it ends, and returns the
instructions it counts, each once (`ancestors_exact`): by instruction, not by uop.
An instruction with a vector load in the epoch counts as a load as soon as any of
its uops is reached, and one with a vector memory uop never counts as a compute.
-/
import VectorSim.EpochSafety
import VectorSim.Lib.Worklist
import Mathlib.Data.Set.Card

namespace VectorSim
namespace Xsai

open Checked Setup

variable {E : Config} {store x : ExecutionUop} {body : List ExecutionUop}

/-- `memory_parents`: the instructions with a vector memory uop. -/
def memoryParents (E : Config) : List Id := ((ordered E).filter (isVectorMemory E)).map (·.parentId)

/-- `load_parents`: the instructions with a vector load in the body. -/
def loadParents (E : Config) (body : List ExecutionUop) : List Id :=
  (body.filter fun x => isVectorMemory E x && x.kind = .loadData).map (·.parentId)

/-- What `_build_vector_epoch_constraints` has for a store of an epoch: the instructions that
compute and those that load. -/
def epochAncestors (E : Config) (store : ExecutionUop) (body : List ExecutionUop) : List Id × List Id :=
  ancestorParents E store (body.map (·.id)) (memoryParents E) (loadParents E body)

/-- A dependency inside the body. -/
def DependsWithin (E : Config) (body : List ExecutionUop) (u d : Id) : Prop :=
  d ∈ (E.uop u).dependencies ∧ d ∈ body.map (·.id)

/-- A path of dependencies, not empty and inside the body, leads from the store to the uop. -/
def IsAncestor (E : Config) (body : List ExecutionUop) (store x : ExecutionUop) : Prop :=
  x ∈ body ∧ Relation.TransGen (DependsWithin E body) store.id x.id

/-- The instructions of the ancestors that have a vector load in the body. -/
def loadAncestors (E : Config) (body : List ExecutionUop) (store : ExecutionUop) : Set Id :=
  {p | ∃ x, IsAncestor E body store x ∧ x.parentId = p ∧
    ∃ y ∈ body, y.parentId = p ∧ isVectorMemory E y = true ∧ y.kind = .loadData}

/-- The instructions of the ancestors that compute, without those that have a vector memory uop. -/
def computeAncestors (E : Config) (body : List ExecutionUop) (store : ExecutionUop) : Set Id :=
  {p | ∃ x, IsAncestor E body store x ∧ x.parentId = p ∧ isComputeKind x.kind = true ∧
    ¬ ∃ y ∈ E.trace.uops, y.parentId = p ∧ isVectorMemory E y = true}

/-- The dependencies in the order in which the search pops them. -/
def popped (E : Config) (u : Id) : List Id := (E.uop u).dependencies.reverse

/-- The offset for the instructions that load and those that compute. -/
def drainOffset (E : Config) (loads computes : ℕ) : ℕ :=
  if 2 ≤ loads then E.epochs.multiLoadDrainTicks
  else if 2 ≤ computes then E.epochs.chainedComputeDrainTicks else 0

/-! ### The search -/

theorem ancestors_eq_visit (ids : List Id) : ∀ (fuel : ℕ) (pending visited : List Id),
    ancestors E ids fuel pending visited = Worklist.visit (popped E) (· ∈ ids) fuel pending visited
  | 0, _, _ => rfl
  | _ + 1, [], _ => rfl
  | fuel + 1, d :: pending, visited => by
    unfold ancestors Worklist.visit
    rw [ancestors_eq_visit ids fuel, ancestors_eq_visit ids fuel]
    rfl

/-- Uops with ids of their own are found by them. -/
theorem uop_of_mem (hn : (E.trace.uops.map (·.id)).Nodup) (hx : x ∈ E.trace.uops) : E.uop x.id = x := by
  unfold Setup.uop
  cases h : E.trace.uop? x.id with
  | none => exact absurd (List.find?_eq_none.mp h x hx) (by simp)
  | some y =>
    obtain ⟨hy, he⟩ := E.trace.uop?_mem h
    exact List.inj_on_of_nodup_map hn hy hx he

/-- The dependencies of a uop, and of all uops, are fewer than the steps the search may take. -/
theorem searchFuel_enough (hn : (E.trace.uops.map (·.id)).Nodup) (hstore : store ∈ E.trace.uops) :
    store.dependencies.reverse.length + Worklist.unseen (popped E) (E.trace.uops.map (·.id)) [] < E.searchFuel := by
  have hall : Worklist.unseen (popped E) (E.trace.uops.map (·.id)) [] =
      (E.trace.uops.map fun y => y.dependencies.length).sum := by
    unfold Worklist.unseen
    rw [List.filter_eq_self.mpr (by simp), List.map_map]
    refine congrArg List.sum (List.map_congr_left fun y hy => ?_)
    show (E.uop y.id).dependencies.reverse.length = _
    rw [uop_of_mem hn hy, List.length_reverse]
  have hless : (E.trace.uops.map fun y => y.dependencies.length).sum ≤
      (E.trace.uops.map fun y => y.dependencies.length + 1).sum :=
    List.sum_le_sum fun y _ => Nat.le_succ _
  have hone : store.dependencies.length ≤ (E.trace.uops.map fun y => y.dependencies.length).sum :=
    List.single_le_sum (fun _ _ => Nat.zero_le _) _ (List.mem_map.mpr ⟨store, hstore, rfl⟩)
  rw [hall, List.length_reverse]
  unfold searchFuel
  omega

/-- **The search ends**: with the steps it may take its worklist is empty. -/
theorem ancestors_end (hn : (E.trace.uops.map (·.id)).Nodup) (hstore : store ∈ E.trace.uops)
    (hbody : body ⊆ E.trace.uops) :
    Worklist.Searches (popped E) (· ∈ body.map (·.id)) store.dependencies.reverse []
      (ancestors E (body.map (·.id)) E.searchFuel store.dependencies.reverse []) := by
  rw [ancestors_eq_visit]
  refine Worklist.searches_visit (fun u hu => ?_) _ _ _ (searchFuel_enough hn hstore)
  obtain ⟨y, hy, rfl⟩ := List.mem_map.mp hu
  exact List.mem_map_of_mem (hbody hy)

/-- What the search reaches from the dependencies of the store is what paths lead to. -/
theorem reached_iff (hn : (E.trace.uops.map (·.id)).Nodup) (hstore : store ∈ E.trace.uops) {u : Id} :
    Worklist.Reached (popped E) (· ∈ body.map (·.id)) store.dependencies.reverse u ↔
      Relation.TransGen (DependsWithin E body) store.id u := by
  have hstep : Worklist.Step (popped E) (· ∈ body.map (·.id)) = DependsWithin E body := by
    funext a b
    unfold Worklist.Step popped DependsWithin
    rw [List.mem_reverse]
  unfold Worklist.Reached
  rw [hstep]
  constructor
  · rintro ⟨a, ha, hin, hr⟩
    refine .head' ⟨?_, hin⟩ hr
    rw [uop_of_mem hn hstore]
    exact List.mem_reverse.mp ha
  · intro h
    obtain ⟨a, ⟨ha, hin⟩, hr⟩ := Relation.TransGen.head'_iff.mp h
    rw [uop_of_mem hn hstore] at ha
    exact ⟨a, List.mem_reverse.mpr ha, hin, hr⟩

/-- The uops that are visited are the ancestors. -/
theorem mem_ancestors (hn : (E.trace.uops.map (·.id)).Nodup) (hstore : store ∈ E.trace.uops)
    (hbody : body ⊆ E.trace.uops) {u : Id} :
    u ∈ ancestors E (body.map (·.id)) E.searchFuel store.dependencies.reverse [] ↔
      ∃ x, IsAncestor E body store x ∧ x.id = u ∧ E.uop u = x := by
  rw [(ancestors_end hn hstore hbody).visited_iff, reached_iff hn hstore]
  constructor
  · intro h
    obtain ⟨a, -, -, hin⟩ := Relation.TransGen.tail'_iff.mp h
    obtain ⟨x, hx, rfl⟩ := List.mem_map.mp hin
    exact ⟨x, ⟨hx, h⟩, rfl, uop_of_mem hn (hbody hx)⟩
  · rintro ⟨x, ⟨-, h⟩, rfl, -⟩
    exact h

theorem mem_memoryParents {p : Id} :
    p ∈ memoryParents E ↔ ∃ y ∈ E.trace.uops, y.parentId = p ∧ isVectorMemory E y = true := by
  unfold memoryParents
  simp only [List.mem_map, List.mem_filter, (ordered_perm E).mem_iff]
  exact exists_congr fun y => by tauto

theorem mem_loadParents {p : Id} :
    p ∈ loadParents E body ↔ ∃ y ∈ body, y.parentId = p ∧ isVectorMemory E y = true ∧ y.kind = .loadData := by
  unfold loadParents
  simp only [List.mem_map, List.mem_filter, Bool.and_eq_true, decide_eq_true_eq]
  exact exists_congr fun y => by tauto

/-- The length of a list without repetitions is the number of its members. -/
theorem length_eq_ncard {l : List Id} (hn : l.Nodup) {s : Set Id} (h : ∀ p, p ∈ l ↔ p ∈ s) : l.length = s.ncard := by
  have hs : s = (l.toFinset : Set Id) := Set.ext fun p => by simp [h]
  rw [hs, Set.ncard_coe_finset, List.toFinset_card_of_nodup hn]

/-- The last computed store of an epoch without reductions closes it, with an offset for the counts. -/
theorem classify_close (hlast : (body.filter (isComputedStore E)).getLast? = some store)
    (hnone : body.filter (isReduction E) = []) : (classify E body).close = some (store.id,
      (drainOffset E (epochAncestors E store body).2.length (epochAncestors E store body).1.length : ℤ)) := by
  unfold classify
  dsimp only
  rw [hlast, hnone]
  rfl

/-- **The ancestors are exact**: the search ends, and returns the instructions that load and those
that compute among the ancestors of the store. Each counts once for the offset of an epoch that
the store closes. -/
theorem ancestors_exact (E : Config) (hn : (E.trace.uops.map (·.id)).Nodup) (store : ExecutionUop)
    (hstore : store ∈ E.trace.uops) (body : List ExecutionUop) (hbody : body ⊆ E.trace.uops) :
    Worklist.Searches (popped E) (· ∈ body.map (·.id)) store.dependencies.reverse []
      (ancestors E (body.map (·.id)) E.searchFuel store.dependencies.reverse []) ∧
    (∀ p, p ∈ (epochAncestors E store body).1 ↔ p ∈ computeAncestors E body store) ∧
    (∀ p, p ∈ (epochAncestors E store body).2 ↔ p ∈ loadAncestors E body store) ∧
    (epochAncestors E store body).1.length = (computeAncestors E body store).ncard ∧
    (epochAncestors E store body).2.length = (loadAncestors E body store).ncard ∧
    ((body.filter (isComputedStore E)).getLast? = some store → body.filter (isReduction E) = [] →
      (classify E body).close = some (store.id,
        (drainOffset E (loadAncestors E body store).ncard (computeAncestors E body store).ncard : ℤ))) := by
  have hcompute : ∀ p, p ∈ (epochAncestors E store body).1 ↔ p ∈ computeAncestors E body store := by
    intro p
    unfold epochAncestors ancestorParents computeAncestors
    simp only [List.mem_dedup, List.mem_map, List.mem_filter, mem_ancestors hn hstore hbody, decide_eq_true_eq]
    constructor
    · rintro ⟨u, ⟨⟨x, hx, rfl, he⟩, -, hmemory, hkind⟩, rfl⟩
      rw [he] at hmemory hkind ⊢
      exact ⟨x, hx, rfl, hkind, fun h => hmemory (mem_memoryParents.mpr h)⟩
    · rintro ⟨x, hx, rfl, hkind, hmemory⟩
      have he := uop_of_mem hn (hbody hx.1)
      refine ⟨x.id, ⟨⟨x, hx, rfl, he⟩, ?_⟩, by rw [he]⟩
      rw [he]
      refine ⟨fun h => ?_, fun h => hmemory (mem_memoryParents.mp h), hkind⟩
      -- a load is a memory uop
      obtain ⟨y, hy, hp, hmem, -⟩ := mem_loadParents.mp h
      exact hmemory ⟨y, hbody hy, hp, hmem⟩
  have hload : ∀ p, p ∈ (epochAncestors E store body).2 ↔ p ∈ loadAncestors E body store := by
    intro p
    unfold epochAncestors ancestorParents loadAncestors
    simp only [List.mem_dedup, List.mem_map, List.mem_filter, mem_ancestors hn hstore hbody, decide_eq_true_eq]
    constructor
    · rintro ⟨u, ⟨⟨x, hx, rfl, he⟩, hin⟩, rfl⟩
      rw [he] at hin ⊢
      exact ⟨x, hx, rfl, mem_loadParents.mp hin⟩
    · rintro ⟨x, hx, rfl, hin⟩
      have he := uop_of_mem hn (hbody hx.1)
      refine ⟨x.id, ⟨⟨x, hx, rfl, he⟩, ?_⟩, by rw [he]⟩
      rw [he]
      exact mem_loadParents.mpr hin
  have hcomputes := length_eq_ncard (List.nodup_dedup _) hcompute
  have hloads := length_eq_ncard (List.nodup_dedup _) hload
  refine ⟨ancestors_end hn hstore hbody, hcompute, hload, hcomputes, hloads, fun hlast hnone => ?_⟩
  rw [classify_close hlast hnone, ← hcomputes, ← hloads]
  rfl

/-! ### A load whose address alone is reached -/

namespace Sample

/-- A store of what is computed from the address of a load, not from what it loads. -/
def addressStore : BoundTrace := { epochTrace [] with
  macros := [
    { id := 0, sequence := 0, uopIds := [0], decodedMacroOps := 1, retireMacroOps := 1,
      usesVectorScheduler := false, usesLoadQueue := false, usesStoreQueue := false },
    { id := 1, sequence := 1, uopIds := [1, 2], decodedMacroOps := 1, retireMacroOps := 1,
      usesVectorScheduler := false, usesLoadQueue := true, usesStoreQueue := false },
    { id := 3, sequence := 3, uopIds := [3], decodedMacroOps := 1, retireMacroOps := 1,
      usesVectorScheduler := true, usesLoadQueue := false, usesStoreQueue := false },
    { id := 4, sequence := 4, uopIds := [4], decodedMacroOps := 1, retireMacroOps := 1,
      usesVectorScheduler := false, usesLoadQueue := false, usesStoreQueue := true }]
  uops := [
    epochUop 0 .scalarAlu .vectorConfig [], epochUop 1 .addressGeneration .vectorLoad [0],
    { epochUop 2 .loadData .vectorLoad [1] with parentId := 1 }, epochUop 3 .vectorFp .vectorFpAdd [1],
    epochUop 4 .storeData .vectorStore [3]] }

/-- The uops of its epoch. -/
def addressBody : List ExecutionUop := addressStore.uops.drop 1

end Sample

theorem ancestors_exact_sample : ∃ E store, init Sample.crossedEpochs Sample.epochProfile false .cold none false = .ok E ∧
    store ∈ E.trace.uops ∧ (epochAncestors E store E.trace.uops).1 = [2] ∧
    (epochAncestors E store E.trace.uops).1.length = (computeAncestors E E.trace.uops store).ncard := by
  obtain ⟨E, hE⟩ := exists_ok (x := init Sample.crossedEpochs Sample.epochProfile false .cold none false)
    (by decide +kernel)
  have hfacts : ((init Sample.crossedEpochs Sample.epochProfile false .cold none false).map fun E =>
      decide ((E.trace.uops.map (·.id)).Nodup ∧ ∃ store ∈ E.trace.uops,
        (epochAncestors E store E.trace.uops).1 = [2])).toOption = some true := by
    decide +kernel
  rw [hE] at hfacts
  obtain ⟨hn, store, hstore, hparents⟩ := of_decide_eq_true (Option.some.inj hfacts)
  obtain ⟨-, -, -, hcount, -⟩ := ancestors_exact E hn store hstore E.trace.uops (List.Subset.refl _)
  exact ⟨E, store, hE, hstore, hparents, hcount⟩

/-- The load counts as an ancestor of the store, though no load uop is one. -/
theorem address_counts_as_load : ∃ E store, init Sample.addressStore Sample.epochProfile false .cold none false = .ok E ∧
    (E.trace.uops.map (·.id)).Nodup ∧ store ∈ E.trace.uops ∧ isComputedStore E store = true ∧
    (∃ e ∈ epochList E, store ∈ e.2 ∧ e.2 = Sample.addressBody) ∧
    (epochAncestors E store Sample.addressBody).2 = [1] ∧
    ¬ ∃ x, IsAncestor E Sample.addressBody store x ∧ x.parentId = 1 ∧ isVectorMemory E x = true ∧
      x.kind = .loadData := by
  obtain ⟨E, hE⟩ := exists_ok (x := init Sample.addressStore Sample.epochProfile false .cold none false)
    (by decide +kernel)
  have hfacts : ((init Sample.addressStore Sample.epochProfile false .cold none false).map fun E =>
      decide ((E.trace.uops.map (·.id)).Nodup ∧ Sample.addressBody ⊆ E.trace.uops ∧ ∃ store ∈ E.trace.uops,
        isComputedStore E store = true ∧ (∃ e ∈ epochList E, store ∈ e.2 ∧ e.2 = Sample.addressBody) ∧
        (epochAncestors E store Sample.addressBody).2 = [1] ∧
        ∀ u ∈ ancestors E (Sample.addressBody.map (·.id)) E.searchFuel store.dependencies.reverse [],
          (E.uop u).kind ≠ .loadData)).toOption = some true := by
    decide +kernel
  rw [hE] at hfacts
  obtain ⟨hn, hbody, store, hstore, hcomputed, he, hparents, hkinds⟩ := of_decide_eq_true (Option.some.inj hfacts)
  refine ⟨E, store, hE, hn, hstore, hcomputed, he, hparents, ?_⟩
  rintro ⟨x, hx, -, -, hkind⟩
  have hid := uop_of_mem hn (hbody hx.1)
  have := hkinds x.id ((mem_ancestors hn hstore hbody).mpr ⟨x, hx, rfl, hid⟩)
  rw [hid] at this
  exact this hkind

end Xsai
end VectorSim
