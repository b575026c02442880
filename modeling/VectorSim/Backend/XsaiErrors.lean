/-
# The XSAI engine raises no internal error

In every state of a run whose uops list their issue domains once and whose
macro-ops list their uops once, a visit of the event loop and the choice of the
next tick are clean. What it takes beyond the agreement of the checks and the
actions: a flow in service has an entry in the heap that releases it, or waits
for its completion (`FlowInv`); the uops of a macro-op are dispatched in order
(`PrefixInv`), which makes the dispatch units add up.
-/
import VectorSim.Backend.Errors
import VectorSim.Backend.XsaiOccupancy

namespace VectorSim
namespace Xsai

open Checked Setup Core

variable {E : Config} {now : ℕ} {s s' : Sched} {x : ExecutionUop}

/-! ### Flows in service -/

/-- The flows in service, and what releases them. -/
structure FlowInv (E : Config) (s : Sched) : Prop where
  kind : ∀ {k u}, u ∈ s.inflight k → accessKind (E.uop u) = k
  nodup : ∀ k, (s.inflight k).Nodup
  entry : ∀ {k u}, u ∈ s.inflight k → serviceTicks E (E.uop u) = none ∨ ∃ e ∈ s.serviceHeap, e.id = u
  lanes : ∀ k, s.splitIssueFree k ≠ []

theorem flowInv_init : FlowInv E (schedInit E) where
  kind h := by cases h
  nodup _ := List.nodup_nil
  entry h := by cases h
  lanes k := by
    have := (E.vectorMemory.splitLanes k).pos
    simp only [schedInit, ne_eq, List.replicate_eq_nil_iff]
    omega

/-- Flows that leave service leave the others there. -/
theorem FlowInv.less (h : FlowInv E s) (sub : ∀ k, (s'.inflight k).Sublist (s.inflight k))
    (heap : ∀ k u, u ∈ s'.inflight k → ∀ e ∈ s.serviceHeap, e.id = u → ∃ e' ∈ s'.serviceHeap, e'.id = u)
    (lanes : s'.splitIssueFree = s.splitIssueFree) : FlowInv E s' where
  kind hu := h.kind ((sub _).subset hu)
  nodup k := (h.nodup k).sublist (sub k)
  entry hu := by
    rcases h.entry ((sub _).subset hu) with hn | ⟨e, he, hid⟩
    · exact .inl hn
    · exact .inr (heap _ _ hu e he hid)
  lanes := lanes ▸ h.lanes

theorem sublist_update_erase (inflight : AccessKind → List Id) (k₀ : AccessKind) (u : Id) (k : AccessKind) :
    (Function.update inflight k₀ ((inflight k₀).erase u) k).Sublist (inflight k) := by
  by_cases hk : k = k₀
  · subst hk; simpa using List.erase_sublist
  · simp [hk]

theorem flowInv_releaseFlow (h : FlowInv E s) {e : HeapEntry} {rest : List HeapEntry}
    (head : s.serviceHeap = e :: rest) : FlowInv E (releaseFlow E s e rest) := by
  refine h.less (fun k => sublist_update_erase _ _ _ k) (fun k u hu e' he' hid => ?_) rfl
  rw [head] at he'
  rcases List.mem_cons.mp he' with rfl | he'
  · -- the flow that leaves has been in service once
    exfalso
    subst hid
    have hmem := (sublist_update_erase s.inflight (accessKind (E.uop e'.id)) e'.id k).subset hu
    obtain rfl := h.kind hmem
    simp only [releaseFlow, Function.update_self] at hu
    exact ((h.nodup _).mem_erase_iff.mp hu).1 rfl
  · exact ⟨e', he', hid⟩

theorem flowInv_complete (h : FlowInv E s) (e : HeapEntry) (rest : List HeapEntry) :
    FlowInv E (completeEntry E s e rest).2 := by
  unfold completeEntry
  dsimp only
  split
  · exact ⟨h.kind, h.nodup, h.entry, h.lanes⟩
  · refine h.less (fun k => ?_) (fun k u _ e he hid => ⟨e, he, hid⟩) rfl
    dsimp only
    split
    · exact sublist_update_erase _ _ _ k
    · exact List.Sublist.refl _

/-- A flow in service was so before, or is the one of the uop that issues. -/
theorem mem_enterService {k : AccessKind} {u : Id} (hu : u ∈ enterService E s x k) : u ∈ s.inflight k ∨
    u = x.id ∧ k = accessKind x ∧ isVectorMemory E x = true ∧ serviceTicks E x ≠ some 0 := by
  unfold enterService at hu
  split at hu
  · next hc =>
    simp only [Bool.and_eq_true, decide_eq_true_eq] at hc
    by_cases hk : k = accessKind x
    · subst hk
      rw [Function.update_self] at hu
      rcases List.mem_insert_iff.mp hu with rfl | hu
      · exact .inr ⟨rfl, rfl, hc.1, by simpa using hc.2⟩
      · exact .inl hu
    · rw [Function.update_of_ne hk] at hu
      exact .inl hu
  · split at hu
    · exact .inl ((sublist_update_erase _ _ _ _).subset hu)
    · exact .inl hu

theorem flowInv_issue (hT : WellFormed E.trace) (h : FlowInv E s) (hx : x ∈ E.trace.uops) (r : Reserved) :
    FlowInv E (issued E s x now r) := by
  have hux : E.uop x.id = x := Setup.uop_eq hT hx
  have hold : ∀ {e}, e ∈ s.serviceHeap → e ∈ pushService E s x now := by
    intro e he
    unfold pushService
    split
    · exact he
    · split
      · exact Queue.mem_push.mpr (.inr he)
      · exact he
  have hlanes : ∀ k, (issued E s x now r).splitIssueFree k ≠ [] := by
    intro k
    show reserveSplit E s x now k ≠ []
    unfold reserveSplit
    cases E.vectorMemory.flowSplit with
    | none => exact h.lanes k
    | some split =>
      dsimp only
      split
      · by_cases hk : k = accessKind x
        · subst hk
          rw [Function.update_self, ne_eq, ← List.length_eq_zero_iff, Slots.occupy_length,
            List.length_eq_zero_iff]
          exact h.lanes _
        · rw [Function.update_of_ne hk]
          exact h.lanes k
      · exact h.lanes k
  have hcases : ∀ {k u}, u ∈ (issued E s x now r).inflight k → u ∈ s.inflight k ∨
      u = x.id ∧ k = accessKind x ∧ isVectorMemory E x = true ∧ serviceTicks E x ≠ some 0 := mem_enterService
  refine ⟨fun hu => ?_, fun k => ?_, fun hu => ?_, hlanes⟩
  · rcases hcases hu with hu | ⟨rfl, rfl, -⟩
    · exact h.kind hu
    · rw [hux]
  · show (enterService E s x k).Nodup
    unfold enterService
    split
    · by_cases hk : k = accessKind x
      · subst hk
        rw [Function.update_self]
        exact (h.nodup _).insert
      · rw [Function.update_of_ne hk]
        exact h.nodup k
    · split
      · exact (h.nodup k).sublist (sublist_update_erase _ _ _ k)
      · exact h.nodup k
  · rcases hcases hu with hu | ⟨rfl, rfl, hv, hne⟩
    · rcases h.entry hu with hn | ⟨e, he, hid⟩
      · exact .inl hn
      · exact .inr ⟨e, hold he, hid⟩
    · rw [hux]
      cases hs : serviceTicks E x with
      | none => exact .inl rfl
      | some n =>
        refine .inr ⟨⟨now + n, x.sequence, x.id⟩, ?_, rfl⟩
        have hn : n ≠ 0 := by rintro rfl; exact hne hs
        show _ ∈ pushService E s x now
        unfold pushService
        rw [hs]
        simp [hv, hn]

theorem flowInv_step (hT : WellFormed E.trace) (hs : FlowInv E s) (h : Step E now s s') : FlowInv E s' := by
  cases h with
  | complete _ _ => exact flowInv_complete hs _ _
  | releaseFlow head _ => exact flowInv_releaseFlow hs head
  | @take c m width us a units _ _ _ =>
    unfold admitOnce
    split <;> exact ⟨hs.kind, hs.nodup, hs.entry, hs.lanes⟩
  | @budget c m width units _ _ _ =>
    unfold admitOnce
    split <;> exact ⟨hs.kind, hs.nodup, hs.entry, hs.lanes⟩
  | releaseRename _ _ | advance _ _ | stall _ _ _ | poll _ | retire _ _ _ =>
    exact ⟨hs.kind, hs.nodup, hs.entry, hs.lanes⟩
  | @issue x r issuable _ _ _ _ _ => exact flowInv_issue hT hs issuable.mem r

/-! ### Checks -/

theorem domainFull_clean {c : DispatchCycle} {m : MacroOp} : ∀ ds : List String, Clean (domainFull E c m ds)
  | [] => raises_ok
  | d :: ds => by
    unfold domainFull
    split
    · exact raises_error rfl
    · split
      · exact raises_ok
      · exact domainFull_clean ds

theorem renameBlocker_clean {c : DispatchCycle} {m : MacroOp} : Clean (renameBlocker E s c m) := by
  unfold renameBlocker
  split
  · exact raises_ok
  · split
    · exact raises_error rfl
    · split <;> exact raises_ok

theorem queueBlocker_clean {m : MacroOp} : Clean (queueBlocker E s m) := by
  refine Raises.bind ?_ fun _ _ => ?_
  · unfold vectorFull
    split
    · exact (pipelineInt_clean _ _).bind fun _ _ => raises_ok
    · exact raises_ok
  · split
    · exact raises_ok
    · refine (queueFull_clean _ _ _ _).bind fun _ _ => ?_
      split
      · exact raises_ok
      · exact (queueFull_clean _ _ _ _).bind fun _ _ => raises_ok

theorem dispatchBlocker_clean {c : DispatchCycle} {m : MacroOp} : Clean (dispatchBlocker E s c m) := by
  unfold dispatchBlocker
  split
  · exact raises_ok
  · refine (pipelineInt_clean _ _).bind fun _ _ => ?_
    split
    · exact raises_ok
    · refine (domainFull_clean _).bind fun b _ => ?_
      cases b with
      | some _ => exact raises_ok
      | none =>
        refine renameBlocker_clean.bind fun b _ => ?_
        cases b with
        | some _ => exact raises_ok
        | none => exact queueBlocker_clean

theorem splitBlocker_clean (h : FlowInv E s) : Clean (splitBlocker E s x now) := by
  unfold splitBlocker
  split
  · exact raises_ok
  · split
    · next hmin => exact absurd (List.min?_eq_none_iff.mp hmin) (h.lanes _)
    · exact raises_ok

/-- **Where the service is full, some flow will leave it.** -/
theorem serviceBlocker_clean (h : FlowInv E s) : Clean (serviceBlocker E s x now) := by
  unfold serviceBlocker
  split
  · exact raises_ok
  · next capacity _ =>
    split
    · next hfull =>
      split
      · next hmin =>
        exfalso
        have hnil := List.min?_eq_none_iff.mp hmin
        obtain ⟨u, hu⟩ := List.exists_mem_of_length_pos (capacity.pos.trans_le hfull)
        rw [releaseTicks, List.append_eq_nil_iff, List.map_eq_nil_iff, List.map_eq_nil_iff,
          List.filter_eq_nil_iff, List.filter_eq_nil_iff] at hnil
        rcases h.entry hu with hn | ⟨e, he, rfl⟩
        · exact hnil.2 u hu (by simp [hn])
        · exact hnil.1 e he (by simpa using hu)
      · exact raises_ok
    · exact raises_ok

theorem memoryBlocker_clean (h : FlowInv E s) : Clean (memoryBlocker E s x now) := by
  unfold memoryBlocker
  split
  · refine Raises.bind ?_ fun b _ => ?_
    · unfold vectorMemoryBlocker
      split
      · refine (splitBlocker_clean h).bind fun b _ => ?_
        cases b with
        | some _ => exact raises_ok
        | none =>
          refine (serviceBlocker_clean h).bind fun b _ => ?_
          cases b <;> exact raises_ok
      · exact raises_ok
    · cases b with
      | some _ => exact raises_ok
      | none => exact hierarchyBlocker_clean _
  · exact raises_ok

theorem resourceChecks_clean : Clean (resourceChecks E s x now) := by
  refine resourceBlocker_clean.bind fun b _ => ?_
  cases b with
  | some _ => exact raises_ok
  | none =>
    unfold unitBlocker
    dsimp only
    split
    · exact raises_ok
    · split
      · exact raises_error rfl
      · exact raises_ok

theorem tokenChecks_clean : Clean (tokenChecks E s x now) := by
  refine domainBlocker_clean.bind fun b _ => ?_
  cases b with
  | some _ => exact raises_ok
  | none =>
    unfold executionBlocker
    dsimp only
    split
    · exact raises_ok
    · split
      · split
        · exact raises_ok
        · refine Raises.bind ?_ fun _ _ => raises_ok
          exact (raises_mapM fun r _ => (firstFree_clean r).bind fun _ _ => raises_ok).bind fun _ _ => raises_ok
      · exact raises_ok

theorem issueBlocker_clean (h : FlowInv E s) : Clean (issueBlocker E s x now) := by
  unfold issueBlocker
  split
  · exact raises_ok
  · refine resourceChecks_clean.bind fun b _ => ?_
    cases b with
    | some _ => exact raises_ok
    | none =>
      refine (memoryBlocker_clean h).bind fun r _ => ?_
      obtain ⟨memory, b⟩ := r
      cases b with
      | some _ => exact raises_ok
      | none => exact tokenChecks_clean.bind fun _ _ => raises_ok

/-! ### Issue -/

/-- **The path that the check has found is selected.** -/
theorem selectExecution_clean (h : tokenChecks E s x now = .ok none) :
    Clean (selectExecution E s x now) ∧ ∀ p, selectExecution E s x now = .ok p → PathOk E s x now p := by
  obtain ⟨b, -, h⟩ := ok_bind.mp h
  cases b with
  | some _ => cases h
  | none =>
    have hne : executionCandidates E s x now true true ≠ [] := by
      intro hnil
      dsimp only at h
      unfold executionBlocker at h
      split at h
      · cases h
      · split at h
        · cases h
        · obtain ⟨t, -, h⟩ := ok_bind.mp h
          cases h
    unfold selectExecution
    cases hmin : Slots.minBy? Path.le (executionCandidates E s x now true true) with
    | none => exact absurd (Slots.minBy?_eq_none.mp hmin) hne
    | some p =>
      refine ⟨raises_ok, fun q hq => ?_⟩
      cases hq
      exact mem_executionCandidates (Slots.minBy?_mem hmin)

/-- A uop that waits is counted in its partition. -/
theorem leavePartition_clean (hs : PartitionInv E s) (hi : CoreInv E now s) (hx : x ∈ E.trace.uops)
    (hw : x.id ∈ s.unissued) : Clean (leavePartition s x) := by
  unfold leavePartition
  split
  · exact raises_ok
  · next p hp =>
    have hpos : 0 < E.trace.uops.countP (waitsIn s p) := by
      obtain ⟨hd, hi'⟩ := (hi.uops.waiting x.id).mp hw
      exact List.countP_pos_iff.mpr ⟨x, hx, by simp [waitsIn, hp, hd, hi']⟩
    rw [if_neg (by have := hs.counted p; omega)]
    exact raises_ok

theorem reserveRead_clean {p : Path} (h : PathOk E s x now p) : Clean (reserveRead E s p.readDomain now) := by
  unfold reserveRead
  cases hd : p.readDomain with
  | none => exact raises_ok
  | some d =>
    dsimp only
    rw [h.read d (by rw [hd]; rfl)]
    exact raises_ok

theorem accessMemory_clean {memory : MemoryState} (h : memoryBlocker E s x now = .ok (memory, none)) :
    Clean (accessMemory E { s with memory := memory } x now) := by
  unfold accessMemory
  split
  · next hx => exact (access_clean (memoryBlocker_none h hx).2).bind fun _ _ => raises_ok
  · exact raises_ok

/-- An issue that is not blocked succeeds. -/
theorem issueUop_clean (hT : WellFormed E.trace) (hs : PartitionInv E s) (hi : CoreInv E now s)
    (hx : x ∈ E.trace.uops) (hw : x.id ∈ s.unissued) (hn : x.issueDomains.Nodup) {memory : MemoryState}
    (h : issueBlocker E s x now = .ok (memory, none)) :
    Clean (issueUop E { s with memory := memory } x now) := by
  obtain ⟨-, -, hmem, htok⟩ := issueBlocker_none h
  have hdom : domainBlocker s.toMachine x now = .ok none := by
    obtain ⟨b, hb, h⟩ := ok_bind.mp htok
    cases b with
    | some _ => cases h
    | none => exact hb
  have hselect := selectExecution_clean (s := { s with memory := memory }) htok
  refine Raises.bind ?_ fun _ _ => raises_ok
  exact hselect.1.bind fun p hp => (accessMemory_clean hmem).bind fun _ _ =>
    (leavePartition_clean (s := { s with memory := memory }) ⟨hs.counted, hs.fits⟩ hi hx hw).bind fun _ _ =>
      (reserve_clean hT hx hn hdom).bind fun _ _ => (reserveRead_clean (hselect.2 p hp)).bind fun _ _ =>
        raises_ok

/-! ### The dispatch units add up -/

/-- The uops of a macro-op are dispatched in order. -/
def PrefixInv (E : Config) (s : Sched) : Prop :=
  ∀ m ∈ E.trace.macros, ∃ k, pendingUops s m = m.uopIds.drop k

theorem prefixInv_init : PrefixInv E (schedInit E) := by
  intro m _
  refine ⟨0, List.filter_eq_self.mpr fun u _ => ?_⟩
  rfl

theorem PrefixInv.same (hs : PrefixInv E s) (h : ∀ u, (s'.uop u).dispatchTick = (s.uop u).dispatchTick) :
    PrefixInv E s' := by
  intro m hm
  obtain ⟨k, hk⟩ := hs m hm
  refine ⟨k, hk ▸ List.filter_congr fun u _ => ?_⟩
  rw [h u]

/-- A list without a prefix of it. -/
theorem filter_not_mem_take {α : Type} [DecidableEq α] {l : List α} (hn : l.Nodup) (n : ℕ) :
    l.filter (fun u => u ∉ l.take n) = l.drop n := by
  have hdisj : ∀ u ∈ l.drop n, u ∉ l.take n := fun u hu hu' =>
    List.disjoint_take_drop hn le_rfl hu' hu
  conv_lhs => rw [← List.take_append_drop n l]
  rw [List.filter_append, List.take_append_drop, List.filter_eq_nil_iff.mpr (fun u hu => by simpa using hu),
    List.filter_eq_self.mpr (fun u hu => by simpa using hdisj u hu), List.nil_append]

/-- The uops that are pending once a chunk is dispatched. -/
theorem pendingUops_enqueue (r : Sched × DispatchCycle) (m m' : MacroOp) (units : ℕ) (us : List Id)
    (a : List (Id × String)) : pendingUops (enqueue (spend r m units) us a now).1 m' =
      (pendingUops r.1 m').filter fun u => u ∉ us := by
  simp only [pendingUops, enqueue, spend, dispatchAll_uop, List.filter_filter]
  refine List.filter_congr fun u _ => ?_
  by_cases hu : u ∈ us <;> simp [hu]

theorem prefixInv_step (hT : WellFormed E.trace) (hn : ∀ m ∈ E.trace.macros, m.uopIds.Nodup)
    (hs : PrefixInv E s) (h : Step E now s s') : PrefixInv E s' := by
  cases h with
  | complete _ _ => exact hs.same (completeEntry_partitions _ _).dispatch
  | @take c m width us a units head taken _ =>
    have hm := List.mem_of_getElem? head
    obtain ⟨count, -, rfl⟩ := taken.listed
    intro m' hm'
    obtain ⟨k, hk⟩ := hs m' hm'
    have hpend : pendingUops (admitOnce E s c m now).1 m' = pendingUops s m' := by
      rw [pendingUops, pendingUops, admitOnce_uop]
    rw [pendingUops_enqueue, hpend]
    by_cases hmm : m' = m
    · subst hmm
      refine ⟨k + count, ?_⟩
      have hnodup : (pendingUops s m').Nodup := by rw [hk]; exact (hn m' hm').sublist (List.drop_sublist _ _)
      rw [filter_not_mem_take hnodup, hk, List.drop_drop]
    · refine ⟨k, ?_⟩
      rw [List.filter_eq_self.mpr, hk]
      intro u hu
      have hu' := (List.mem_filter.mp hu).1
      simp only [decide_eq_true_eq]
      exact fun hmem => hmm (hT.owner_unique hm' hm hu' (List.mem_filter.mp (List.mem_of_mem_take hmem)).1)
  | @budget c m width units _ _ _ => exact hs.same fun u => by simp only [spend, admitOnce_uop]
  | releaseFlow _ _ | releaseRename _ _ | advance _ _ | stall _ _ _ | poll _ | retire _ _ _ =>
    exact hs.same fun _ => rfl
  | @issue x r _ _ _ _ _ _ =>
    refine hs.same fun u => ?_
    simp only [issued, issue_uop]
    split <;> rfl

/-- The units of all the uops of a macro-op are those of the macro-op. -/
theorem unitsOf_length {m : MacroOp} (hm : m.uopIds ≠ []) : unitsOf m m.uopIds.length = m.dispatchWidthUnits := by
  have hpos := List.length_pos_iff.mpr hm
  have htake : ∀ j ≤ m.uopIds.length, unitsOf m j = j * m.dispatchWidthUnits / m.uopIds.length := by
    intro j
    induction j with
    | zero => simp [unitsOf]
    | succ j ih =>
      intro hj
      have hget : (dispatchUnitCosts m)[j]? = some ((j + 1) * m.dispatchWidthUnits / m.uopIds.length -
          j * m.dispatchWidthUnits / m.uopIds.length) := by
        simp [dispatchUnitCosts, List.getElem?_range (show j < m.uopIds.length from hj)]
      have hmono : j * m.dispatchWidthUnits / m.uopIds.length ≤
          (j + 1) * m.dispatchWidthUnits / m.uopIds.length :=
        Nat.div_le_div_right (Nat.mul_le_mul_right _ (Nat.le_succ j))
      rw [unitsOf, List.take_add_one, hget, List.sum_append, ← unitsOf, ih (by omega)]
      simp only [Option.toList_some, List.sum_singleton]
      omega
  rw [htake _ le_rfl, Nat.mul_div_cancel_left _ hpos]

/-- **A macro-op that is dispatched whole has spent its units.** -/
theorem Taken.complete {c : DispatchCycle} {m : MacroOp} {width units : ℕ} {us : List Id}
    {a : List (Id × String)} (h : Taken E s c m width us a units) (hn : m.uopIds.Nodup)
    (hpre : ∃ k, pendingUops s m = m.uopIds.drop k) (hpend : pendingUops s m ≠ [])
    (done : ∀ u ∈ pendingUops s m, u ∈ us) : s.unitProgress m.id + units = m.dispatchWidthUnits := by
  have hne : m.uopIds ≠ [] := by
    intro hnil
    rw [pendingUops, hnil] at hpend
    exact hpend rfl
  rcases h.accounted with hacc | ⟨-, -, hzero, hunits⟩
  · obtain ⟨k, hk⟩ := hpre
    obtain ⟨count, -, rfl⟩ := h.listed
    have hnodup : (pendingUops s m).Nodup := hn.filter _
    have hlen : ((pendingUops s m).take count).length = (pendingUops s m).length :=
      le_antisymm ((List.take_sublist _ _).length_le) ((hnodup.subperm done).length_le)
    have hklt : k < m.uopIds.length := by
      by_contra hge
      exact hpend (by rw [hk, List.drop_eq_nil_of_le (not_lt.mp hge)])
    have hhead : (pendingUops s m).headD 0 = m.uopIds[k] := by
      rw [hk, List.drop_eq_getElem_cons hklt]
      rfl
    rw [hacc, hlen, hhead, hn.idxOf_getElem, hk, List.length_drop, Nat.add_sub_cancel' hklt.le]
    exact unitsOf_length hne
  · rw [hzero, hunits, Nat.zero_add]

/-- The invariants that the dispatcher and the issue need. -/
structure Sound (E : Config) (now : ℕ) (s : Sched) : Prop where
  core : CoreInv E now s
  partitions : PartitionInv E s
  flows : FlowInv E s
  ordered : PrefixInv E s

theorem Sound.step (hT : WellFormed E.trace) (hn : ∀ m ∈ E.trace.macros, m.uopIds.Nodup)
    (hs : Sound E now s) (h : Step E now s s') : Sound E now s' :=
  ⟨inv_step hT hs.core h, partitionInv_step hT hn hs.core hs.partitions h, flowInv_step hT hs.flows h,
    prefixInv_step hT hn hs.ordered h⟩

theorem sound_init : Sound E 0 (schedInit E) := ⟨inv_init, partitionInv_init, flowInv_init, prefixInv_init⟩

theorem stopBlocked_clean {c : DispatchCycle} {m : MacroOp} (reason : DispatchStall) :
    Clean (stopBlocked s c m now reason) := by
  refine Raises.bind ?_ fun _ _ => raises_ok
  unfold recordDispatchBlocker
  dsimp only
  split
  · -- the domain has been noted
    next d => simp only [noteDomain, Function.update_self, Option.isNone_some]; exact raises_ok
  · exact raises_ok

theorem dispatchTurn_clean (hn : ∀ m ∈ E.trace.macros, m.uopIds.Nodup) (hs : Sound E now s)
    {width : ℕ} {c : DispatchCycle} {m : MacroOp} (head : E.trace.macros[s.nextDispatch]? = some m) :
    Clean (dispatchTurn E width now s c m) := by
  have hm := List.mem_of_getElem? head
  unfold dispatchTurn
  dsimp only
  split
  · exact raises_ok
  · next hp =>
    split
    · exact raises_ok
    · next chunk hchunk =>
      refine dispatchBlocker_clean.bind fun b _ => ?_
      cases b with
      | some reason => exact stopBlocked_clean reason
      | none =>
        cases chunk with
        | take us a units =>
          have htaken := chooseChunk_take hp hchunk
          dsimp only
          unfold closeTurn
          split
          · next hdone =>
            have hcomplete : s.unitProgress m.id + units = m.dispatchWidthUnits := by
              refine htaken.complete (hn m hm) (hs.ordered m hm) hp fun u hu => ?_
              by_contra hnot
              have hu' : u ∈ pendingUops (enqueue (spend (admitOnce E s c m now) m units) us a now).1 m := by
                rw [pendingUops_enqueue]
                refine List.mem_filter.mpr ⟨?_, by simpa using hnot⟩
                rwa [pendingUops, admitOnce_uop]
              have hnone := (List.mem_filter.mp hu').2
              have hsome := hdone u (List.mem_filter.mp hu).1
              rw [Option.isNone_iff_eq_none] at hnone
              rw [hnone] at hsome
              cases hsome
            have hunits : (enqueue (spend (admitOnce E s c m now) m units) us a now).1.unitProgress m.id =
                s.unitProgress m.id + units := by
              have : (admitOnce E s c m now).1.unitProgress = s.unitProgress := by
                unfold admitOnce; split <;> rfl
              simp [enqueue, spend, this]
            rw [if_neg (by rw [hunits, hcomplete]; exact not_not.mpr rfl)]
            exact raises_ok
          · exact raises_ok
        | budget units => exact raises_ok
        | blocked =>
          dsimp only
          split <;> exact stopBlocked_clean _

theorem dispatchLoop_clean (hT : WellFormed E.trace) (hn : ∀ m ∈ E.trace.macros, m.uopIds.Nodup) {width : ℕ} :
    ∀ (fuel : ℕ) (s : Sched) (c : DispatchCycle), Sound E now s → Clean (dispatchLoop E width now fuel s c)
  | 0, _, _, _ => raises_ok
  | fuel + 1, s, c, hs => by
    unfold dispatchLoop
    split
    · exact raises_ok
    · next m hm =>
      split
      · exact raises_ok
      · refine (dispatchTurn_clean hn hs hm).bind fun r hr => ?_
        split
        · exact dispatchLoop_clean hT hn fuel _ _
            ((dispatchTurn_steps hm hr).invariant hs fun _ _ => Sound.step hT hn)
        · exact raises_ok

/-! ### The fixed point ends -/

/-- The completions to come, of the uops that wait and of those that run. -/
def remaining (s : Sched) : ℕ := 2 * s.unissued.length + s.completionHeap.length

theorem completeLoop_remaining : ∀ (fuel : ℕ) (s : Sched),
    remaining (completeLoop E now fuel s).2 + (completeLoop E now fuel s).1.toNat ≤ remaining s
  | 0, s => le_rfl
  | fuel + 1, s => by
    unfold completeLoop
    cases hq : s.completionHeap with
    | nil => exact le_rfl
    | cons e rest =>
      dsimp only
      split
      · have ih := completeLoop_remaining fuel (completeEntry E s e rest).2
        have hless : remaining (completeEntry E s e rest).2 + 1 = remaining s := by
          unfold completeEntry remaining
          dsimp only
          split <;> simp [hq, Core.completeUop] <;> omega
        have hone : ∀ a b : Bool, (a || b).toNat ≤ b.toNat + 1 := by decide
        have := hone (completeEntry E s e rest).1 (completeLoop E now fuel (completeEntry E s e rest).2).1
        dsimp only
        omega
      · exact le_rfl

theorem issueList_remaining : ∀ (xs : List ExecutionUop) (s : Sched) {r : Bool × Sched},
    Candidates E.toSetup s.toCore xs → issueList E now xs s = .ok r → remaining r.2 + r.1.toNat ≤ remaining s
  | [], s, r, _, h => by cases h; exact le_rfl
  | x :: xs, s, r, hc, h => by
    obtain ⟨⟨memory, b⟩, -, h⟩ := ok_bind.mp h
    cases b with
    | some b =>
      dsimp only at h
      split at h
      · cases h; exact le_rfl
      · exact issueList_remaining xs { s with memory := memory } hc.tail h
    | none =>
      dsimp only at h
      obtain ⟨s₁, h₁, h⟩ := ok_bind.mp h
      obtain ⟨r', h', h⟩ := ok_bind.mp h
      cases h
      obtain ⟨p, -, h₁⟩ := ok_bind.mp h₁
      cases h₁
      have ih := issueList_remaining xs _ (hc.issue _) h'
      have hwait : (s.unissued.erase x.id).length + 1 = s.unissued.length := by
        rw [List.length_erase_of_mem hc.head.2.1]
        have := List.length_pos_of_mem hc.head.2.1
        omega
      have hless : remaining (issued E { s with memory := memory } x now p) + 1 = remaining s := by
        simp only [remaining, issued, Core.issue, (Queue.push_perm _ _).length_eq,
          List.length_cons]
        omega
      have hone : r'.1.toNat ≤ 1 := Bool.toNat_le r'.1
      show remaining r'.2 + 1 ≤ _
      omega

theorem issueList_clean (hT : WellFormed E.trace) (hd : ∀ x ∈ E.trace.uops, x.issueDomains.Nodup)
    (hn : ∀ m ∈ E.trace.macros, m.uopIds.Nodup) : ∀ (xs : List ExecutionUop) (s : Sched), Sound E now s →
      Candidates E.toSetup s.toCore xs → Clean (issueList E now xs s)
  | [], _, _, _ => raises_ok
  | x :: xs, s, hs, hc => by
    refine (issueBlocker_clean hs.flows).bind fun b hb => ?_
    obtain ⟨memory, b⟩ := b
    cases b with
    | some b =>
      dsimp only
      split
      · exact raises_ok
      · exact issueList_clean hT hd hn xs { s with memory := memory } (hs.step hT hn (.poll memory)) hc.tail
    | none =>
      refine (issueUop_clean hT hs.partitions hs.core hc.head.1 hc.head.2.1 (hd x hc.head.1) hb).bind fun s₁ h₁ => ?_
      have hone : issueList E now [x] s = .ok (true, s₁) := by
        rw [issueList, hb]
        show (issueUop E { s with memory := memory } x now >>= _) = _
        rw [h₁]
        rfl
      have hcand : Candidates E.toSetup s.toCore [x] :=
        ⟨fun y hy => by rw [List.mem_singleton.mp hy]; exact ⟨hc.head.1, hc.head.2.1⟩, by simp,
          fun hin => ⟨by simp, fun y hy => by rw [List.mem_singleton.mp hy]; exact hc.head.2.2 hin⟩⟩
      have hs₁ : Sound E now s₁ := (issueList_steps [x] s hcand hone).invariant hs fun _ _ => Sound.step hT hn
      obtain ⟨p, -, h₁⟩ := ok_bind.mp h₁
      cases h₁
      exact (issueList_clean hT hd hn xs _ hs₁ (hc.issue _)).bind fun _ _ => raises_ok

theorem issueFixedPoint_clean (hT : WellFormed E.trace) (hd : ∀ x ∈ E.trace.uops, x.issueDomains.Nodup)
    (hn : ∀ m ∈ E.trace.macros, m.uopIds.Nodup) (hs : Sound E now s) : Clean (issueFixedPoint E now s) :=
  FixedPoint.run_raises (P := Sound E now) (μ := remaining) hs (Nat.lt_succ_self _)
    (fun s hs => ⟨(complete_steps s).invariant hs fun _ _ => Sound.step hT hn, completeLoop_remaining _ s⟩)
    (fun s _ hs hr => ⟨(issueOnce_steps hT hr).invariant hs fun _ _ => Sound.step hT hn,
      issueList_remaining _ s (candidates_issueCandidates hT _) hr⟩)
    fun s hs => issueList_clean hT hd hn _ s hs (candidates_issueCandidates hT _)

/-! ### Visits and jumps -/

theorem phase_clean (hT : WellFormed E.trace) (hd : ∀ x ∈ E.trace.uops, x.issueDomains.Nodup)
    (hn : ∀ m ∈ E.trace.macros, m.uopIds.Nodup) {f : Sched → Except SimError Sched} (hf : f ∈ phases E now)
    (hs : Sound E now s) : Clean (f s) := by
  simp only [phases, List.mem_cons, List.not_mem_nil, or_false] at hf
  rcases hf with rfl | rfl | rfl | rfl | rfl | rfl | rfl
  · exact raises_ok
  · exact raises_ok
  · exact raises_ok
  · dsimp only
    split
    · exact (pipelineInt_clean _ _).bind fun _ _ => dispatchLoop_clean hT hn _ _ _ hs
    · exact raises_ok
  · exact issueFixedPoint_clean hT hd hn hs
  · exact raises_ok
  · dsimp only
    split
    · exact (pipelineInt_clean _ _).bind fun _ _ => raises_ok
    · exact raises_ok

/-- **A visit raises no internal error.** -/
theorem visit_clean (hT : WellFormed E.trace) (hd : ∀ x ∈ E.trace.uops, x.issueDomains.Nodup)
    (hn : ∀ m ∈ E.trace.macros, m.uopIds.Nodup) (hs : Sound E now s) : Clean (visitOf (phases E now) s) :=
  raises_foldlM (I := Sound E now) hs (fun _ hf _ hs => phase_clean hT hd hn hf hs)
    fun _ hf _ _ hs h => (phase_steps hT hf h).invariant hs fun _ _ => Sound.step hT hn

/-- Nor does the choice of the next tick. -/
theorem nextEventTick_clean (hs : FlowInv E s) : Clean (nextEventTick E now s) := by
  refine Raises.bind ?_ fun r _ => ?_
  · refine raises_foldlM (I := fun _ => True) trivial (fun x _ r _ => ?_) fun _ _ _ _ _ _ => trivial
    have hpoll : FlowInv E { s with memory := r.1 } := ⟨hs.kind, hs.nodup, hs.entry, hs.lanes⟩
    exact (issueBlocker_clean hpoll).bind fun _ _ => (waitingTicks_clean _).bind fun _ _ => raises_ok
  · split
    · exact raises_error rfl
    · exact raises_ok

theorem AtTick.sound (hT : WellFormed E.trace) (hn : ∀ m ∈ E.trace.macros, m.uopIds.Nodup)
    (h : AtTick E now s) : Sound E now s :=
  h.invariant hT sound_init (fun _ _ _ hs => hs.step hT hn)
    fun _ _ _ hs hlt => ⟨hs.core.later hlt.le, hs.partitions, hs.flows, hs.ordered⟩

theorem run_clean (hT : WellFormed E.trace) (hd : ∀ x ∈ E.trace.uops, x.issueDomains.Nodup)
    (hn : ∀ m ∈ E.trace.macros, m.uopIds.Nodup) : Clean (run E) := by
  refine EventLoop.raises_run (fun n t s h => ?_) (fun n t s₁ s₂ h hv => ?_) (fun _ => rfl) rfl
  · exact visit_clean hT hd hn (AtTick.sound hT hn ⟨n, h⟩)
  · have hs₂ := (visit_steps hT (List.Subset.refl _) hv).invariant (AtTick.sound hT hn ⟨n, h⟩)
      fun _ _ => Sound.step hT hn
    exact nextEventTick_clean hs₂.flows

end Xsai
end VectorSim
