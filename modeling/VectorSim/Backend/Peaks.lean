/-
# The peaks of a run

`_record_peaks` of both engines and the peaks that `run` puts into its summary.
`run` records the counters at the end of every visit of its loop, and
`_dispatch` of the XSAI engine a partition's at every uop that enters it; the
loop with its peaks observes the loop without (`Zen4.peakLoop_observes`,
`Xsai.peakLoop_observes`). The rename entries in the summary are those that are
not free at the end.
-/
import VectorSim.Backend.Zen4Steps
import VectorSim.Backend.XsaiRename
import VectorSim.Lib.Observer

namespace VectorSim

open Checked Setup

/-- `self.peaks`. -/
structure Peaks where
  rob : ℤ := 0
  vectorScheduler : ℤ := 0
  loadQueue : ℤ := 0
  storeQueue : ℤ := 0
  memoryComputePendingGroups : ℤ := 0

namespace Zen4

variable (E : Setup)

/-- `_record_peaks`. -/
def recordPeaks (s : Machine) (p : Peaks) : Peaks where
  rob := max p.rob s.robOccupancy
  vectorScheduler := max p.vectorScheduler s.vectorSchedulerOccupancy
  loadQueue := max p.loadQueue s.loadQueueOccupancy
  storeQueue := max p.storeQueue s.storeQueueOccupancy
  memoryComputePendingGroups := max p.memoryComputePendingGroups s.pendingGroups.length

/-- The event loop of `run`, with the peaks. -/
def peakLoop : EventLoop.Loop (Machine × Peaks) SimError where
  unfinished := fun r => E.unfinished r.1.toCore
  visit := fun now r => do
    let s ← visitOf (phases E now) r.1
    .ok (s, recordPeaks s r.2)
  next := fun now r => do
    let n ← nextEventTick E now r.1
    .ok ((n.1, r.2), n.2)
  stuck := .noForwardProgress
  diverged := .didNotConverge

/-- `Engine.run`: the state and the peaks at the end, and the last tick. -/
def runPeaks : Except SimError ((Machine × Peaks) × ℕ) :=
  EventLoop.run (peakLoop E) E.iterationBound 0 (E.machineInit, {})

theorem peakLoop_observes : EventLoop.Observes (loop E) (peakLoop E) where
  unfinished _ := rfl
  visit now r := by
    show (visitOf (phases E now) r.1 >>= fun s => Except.ok (s, recordPeaks s r.2)).map (·.1) = visitOf (phases E now) r.1
    cases visitOf (phases E now) r.1 <;> rfl
  next now r := by
    show (nextEventTick E now r.1 >>= fun n => Except.ok ((n.1, r.2), n.2)) = _
    show _ = (nextEventTick E now r.1).map _
    cases nextEventTick E now r.1 <;> rfl
  stuck := rfl
  diverged := rfl

end Zen4

namespace Xsai

variable (E : Config)

/-- `self.peaks` of the XSAI engine. -/
structure EnginePeaks extends Peaks where
  /-- `vector_memory_inflight_{access_kind}` -/
  vectorMemoryInflight : AccessKind → ℤ := fun _ => 0
  mixedVectorEpochs : ℤ := 0
  /-- `scheduler_partition:{partition_id}` -/
  schedulerPartition : String → ℤ := fun _ => 0

/-- The vector scheduler with the partitions of kind `vector_compute`. -/
def vectorOccupancy (s : Sched) : ℤ :=
  s.vectorSchedulerOccupancy +
    ((E.partitions.filter (·.kind = .vectorCompute)).map fun p => s.partitionOccupancy p.id).sum

/-- `_record_peaks`. -/
def recordPeaks (s : Sched) (p : EnginePeaks) : EnginePeaks where
  rob := max p.rob s.robOccupancy
  vectorScheduler := max p.vectorScheduler (vectorOccupancy E s)
  loadQueue := max p.loadQueue s.loadQueueOccupancy
  storeQueue := max p.storeQueue s.storeQueueOccupancy
  memoryComputePendingGroups := max p.memoryComputePendingGroups s.pendingGroups.length
  vectorMemoryInflight := fun k => max (p.vectorMemoryInflight k) (s.inflight k).length
  mixedVectorEpochs := max p.mixedVectorEpochs s.mixedActive.length
  schedulerPartition := p.schedulerPartition

/-- The chunk that a turn of `_dispatch` dispatches, with its assignment. -/
def chunkTaken (width : ℕ) (s : Sched) (c : DispatchCycle) (m : MacroOp) : List Id × List (Id × String) :=
  if pendingUops s m = [] then ([], [])
  else
    match chooseChunk E s c m (pendingUops s m) width, dispatchBlocker E s c m with
    | some (.take us a _), .ok none => (us, a)
    | _, _ => ([], [])

/-- A uop enters a partition: the occupancies and the peaks after. -/
def recordEnqueue (a : List (Id × String)) (r : (String → ℤ) × (String → ℤ)) (u : Id) :
    (String → ℤ) × (String → ℤ) :=
  match assigned a u with
  | none => r
  | some p => (Function.update r.1 p (r.1 p + 1), Function.update r.2 p (max (r.2 p) (r.1 p + 1)))

/-- The loop of `_dispatch` with the peaks of the partitions. -/
def dispatchLoopPeaks (width now : ℕ) : ℕ → Sched → DispatchCycle → (String → ℤ) →
    Except SimError (Sched × (String → ℤ))
  | 0, s, _, peaks => .ok (s, peaks)
  | fuel + 1, s, c, peaks =>
    match E.trace.macros[s.nextDispatch]? with
    | none => .ok (s, peaks)
    | some m =>
      if width ≤ c.dispatched then .ok (s, peaks)
      else do
        let r ← dispatchTurn E width now s c m
        let chunk := chunkTaken E width s c m
        let peaks := (chunk.1.foldl (recordEnqueue chunk.2) (s.partitionOccupancy, peaks)).2
        if r.1 then dispatchLoopPeaks width now fuel r.2.1 r.2.2 peaks else .ok (r.2.1, peaks)

/-- `_dispatch` with the peaks of the partitions. -/
def dispatchPeaks (now : ℕ) (s : Sched) (peaks : String → ℤ) : Except SimError (Sched × (String → ℤ)) := do
  let width ← pipelineInt E.pipeline.dispatchMacroOpsPerCycle "dispatch_macro_ops_per_cycle"
  dispatchLoopPeaks E width now (E.trace.macros.length - s.nextDispatch) s {} peaks

/-- `if now % self.tpc == 0: self._dispatch(now)`, with the peaks of the partitions. -/
def boundaryPeaks (now : ℕ) (s : Sched) (peaks : String → ℤ) : Except SimError (Sched × (String → ℤ)) :=
  if E.boundary now then dispatchPeaks E now s peaks else .ok (s, peaks)

/-- The body of the loop of `run` with the peaks. -/
def visitPeaks (now : ℕ) (r : Sched × EnginePeaks) : Except SimError (Sched × EnginePeaks) := do
  let s ← visitOf ((phases E now).take 3) r.1
  let q ← boundaryPeaks E now s r.2.schedulerPartition
  let s ← visitOf ((phases E now).drop 4) q.1
  .ok (s, recordPeaks E s { r.2 with schedulerPartition := q.2 })

/-- The event loop of `run`, with the peaks. -/
def peakLoop : EventLoop.Loop (Sched × EnginePeaks) SimError where
  unfinished := fun r => E.unfinished r.1.toCore
  visit := visitPeaks E
  next := fun now r => do
    let n ← nextEventTick E now r.1
    .ok ((n.1, r.2), n.2)
  stuck := .noForwardProgress
  diverged := .didNotConverge

/-- `run`: the state and the peaks at the end, and the last tick. -/
def runPeaks : Except SimError ((Sched × EnginePeaks) × ℕ) :=
  EventLoop.run (peakLoop E) E.iterationBound 0 (schedInit E, {})

/-- `peak_allocated` of the summary, from the state at the end. -/
def peakAllocated (s : Sched) (f : String) : ℤ := initialFree E f - s.renameFree f

/-! ### The peaks change nothing -/

variable {E} {now : ℕ}

theorem dispatchLoopPeaks_fst (width now : ℕ) : ∀ (fuel : ℕ) (s : Sched) (c : DispatchCycle) (peaks : String → ℤ),
    (dispatchLoopPeaks E width now fuel s c peaks).map (·.1) = dispatchLoop E width now fuel s c
  | 0, _, _, _ => rfl
  | fuel + 1, s, c, peaks => by
    unfold dispatchLoopPeaks dispatchLoop
    cases E.trace.macros[s.nextDispatch]? with
    | none => rfl
    | some m =>
      dsimp only
      by_cases hfull : width ≤ c.dispatched
      · rw [if_pos hfull, if_pos hfull]
        rfl
      · rw [if_neg hfull, if_neg hfull]
        cases dispatchTurn E width now s c m with
        | error e => rfl
        | ok r =>
          obtain ⟨goes, s', c'⟩ := r
          cases goes with
          | true => exact dispatchLoopPeaks_fst width now fuel s' c' _
          | false => rfl

theorem dispatchPeaks_fst (s : Sched) (peaks : String → ℤ) :
    (dispatchPeaks E now s peaks).map (·.1) = dispatch E now s := by
  unfold dispatchPeaks dispatch
  cases pipelineInt E.pipeline.dispatchMacroOpsPerCycle "dispatch_macro_ops_per_cycle" with
  | error e => rfl
  | ok width => exact dispatchLoopPeaks_fst width now _ s {} peaks

theorem boundaryPeaks_fst (s : Sched) (peaks : String → ℤ) :
    (boundaryPeaks E now s peaks).map (·.1) = if E.boundary now then dispatch E now s else .ok s := by
  unfold boundaryPeaks
  split
  · exact dispatchPeaks_fst s peaks
  · rfl

/-- A visit, split at its dispatch. -/
theorem visit_halves (s : Sched) : visitOf (phases E now) s = visitOf ((phases E now).take 3) s >>= fun s =>
    (if E.boundary now then dispatch E now s else .ok s) >>= visitOf ((phases E now).drop 4) := by
  have hsplit : phases E now = (phases E now).take 3 ++ (phases E now).drop 3 := rfl
  rw [hsplit]
  exact List.foldlM_append

theorem visitPeaks_fst (r : Sched × EnginePeaks) :
    (visitPeaks E now r).map (·.1) = visitOf (phases E now) r.1 := by
  rw [visit_halves]
  unfold visitPeaks
  cases visitOf ((phases E now).take 3) r.1 with
  | error e => rfl
  | ok s =>
    show (boundaryPeaks E now s r.2.schedulerPartition >>= _).map _ = (if _ then _ else _) >>= _
    rw [← boundaryPeaks_fst s r.2.schedulerPartition]
    cases boundaryPeaks E now s r.2.schedulerPartition with
    | error e => rfl
    | ok q =>
      show (visitOf ((phases E now).drop 4) q.1 >>= _).map _ = visitOf ((phases E now).drop 4) q.1
      cases visitOf ((phases E now).drop 4) q.1 <;> rfl

theorem peakLoop_observes : EventLoop.Observes (loop E) (peakLoop E) where
  unfinished _ := rfl
  visit _ r := visitPeaks_fst r
  next now r := by
    show (nextEventTick E now r.1 >>= fun n => Except.ok ((n.1, r.2), n.2)) = (nextEventTick E now r.1).map _
    cases nextEventTick E now r.1 <;> rfl
  stuck := rfl
  diverged := rfl

/-! ### What goes down -/

theorem releaseRenameLoop_falls : ∀ (fuel width : ℕ) (s : Sched), Falls s (releaseRenameLoop now fuel width s)
  | 0, _, s => .refl s
  | fuel + 1, width, s => by
    unfold releaseRenameLoop
    cases hq : s.renamePending with
    | nil => exact .refl s
    | cons b rest =>
      dsimp only
      split
      · exact .refl s
      · have hbatch : Falls s (returnBatch s b rest width).2.2 :=
          ⟨⟨le_rfl, le_rfl, le_rfl, le_rfl⟩, fun _ => le_rfl, returnEntries_le b.allocations width s.renameFree⟩
        split
        · exact hbatch.trans (releaseRenameLoop_falls fuel _ _)
        · exact hbatch

theorem releaseRename_falls (s : Sched) : Falls s (releaseRename E now s) := by
  unfold releaseRename
  split
  · exact releaseRenameLoop_falls _ _ s
  · exact .refl s

/-- Dispatch is the only procedure of a visit in which an occupancy goes up. -/
theorem phase_falls (hT : WellFormed E.trace) {k : ℕ} {f : Sched → Except SimError Sched} {s s' : Sched}
    (hf : (phases E now)[k]? = some f) (hk : k ≠ 3) (h : f s = .ok s') : Falls s s' := by
  by_cases hrelease : k = 2
  · subst hrelease
    cases hf
    cases h
    exact releaseRename_falls s
  · exact (phase_unloads hT hf hrelease hk h).falls

/-! ### The peaks of the partitions -/

/-- The uops that enter a partition raise its peak to its occupancy after them. -/
theorem recordEnqueue_peak {a : List (Id × String)} {p : String} : ∀ (us : List Id) (r : (String → ℤ) × (String → ℤ)),
    r.1 p ≤ r.2 p → (us.foldl (recordEnqueue a) r).1 p = r.1 p + enqueued us a p ∧
      (us.foldl (recordEnqueue a) r).2 p = max (r.2 p) (r.1 p + enqueued us a p)
  | [], r, h => by
    show r.1 p = r.1 p + (0 : ℕ) ∧ r.2 p = max (r.2 p) (r.1 p + (0 : ℕ))
    omega
  | u :: us, r, h => by
    rw [List.foldl_cons]
    have hcount : (enqueued (u :: us) a p : ℤ) =
        enqueued us a p + if assigned a u = some p then 1 else 0 := by
      simp only [enqueued, List.countP_cons, decide_eq_true_eq]
      split <;> simp
    have hstep : (recordEnqueue a r u).1 p = r.1 p + (if assigned a u = some p then 1 else 0) ∧
        (recordEnqueue a r u).2 p = max (r.2 p) ((recordEnqueue a r u).1 p) := by
      unfold recordEnqueue
      cases ha : assigned a u with
      | none => simp [h]
      | some q =>
        by_cases hq : q = p
        · simp [hq]
        · simp [hq, Ne.symm hq, h]
    obtain ⟨h1, h2⟩ := recordEnqueue_peak us (recordEnqueue a r u) (hstep.2 ▸ le_max_right _ _)
    rw [h1, h2, hcount]
    omega

theorem closeTurn_partition {r : Sched × DispatchCycle} {m : MacroOp} {r' : Bool × Sched × DispatchCycle}
    (h : closeTurn r m = .ok r') : r'.2.1.partitionOccupancy = r.1.partitionOccupancy := by
  unfold closeTurn at h
  split at h
  · split at h
    · cases h
    · cases h; rfl
  · cases h; rfl

theorem stopBlocked_partition {s : Sched} {c : DispatchCycle} {m : MacroOp} {reason : DispatchStall}
    {r : Bool × Sched × DispatchCycle} (h : stopBlocked s c m now reason = .ok r) :
    r.2.1.partitionOccupancy = s.partitionOccupancy := by
  obtain ⟨stalls, domains, rfl⟩ := stopBlocked_ok h
  rfl

/-- The chunk of a turn is what enters the partitions. -/
theorem dispatchTurn_partition {width : ℕ} {s : Sched} {c : DispatchCycle} {m : MacroOp}
    {r : Bool × Sched × DispatchCycle} (h : dispatchTurn E width now s c m = .ok r) (p : String) :
    r.2.1.partitionOccupancy p = s.partitionOccupancy p +
      enqueued (chunkTaken E width s c m).1 (chunkTaken E width s c m).2 p := by
  have hnone : ∀ {o : ℤ}, o = s.partitionOccupancy p →
      o = s.partitionOccupancy p + (enqueued [] [] p : ℤ) := by
    intro o ho
    rw [ho]
    exact (add_zero _).symm
  unfold dispatchTurn at h
  unfold chunkTaken
  dsimp only at h
  split at h
  · next hp =>
    rw [if_pos hp]
    cases h
    exact hnone rfl
  · next hp =>
    rw [if_neg hp]
    split at h
    · next hc =>
      rw [hc]
      cases h
      exact hnone rfl
    · next chunk hc =>
      rw [hc]
      obtain ⟨b, hb, h⟩ := ok_bind.mp h
      rw [hb]
      cases b with
      | some reason =>
        cases chunk <;> exact hnone (congrFun (stopBlocked_partition h) p)
      | none =>
        have hentry : (admitOnce E s c m now).1.partitionOccupancy = s.partitionOccupancy := by
          unfold admitOnce
          split <;> rfl
        cases chunk with
        | take us a units =>
          rw [congrFun (closeTurn_partition h) p]
          show (admitOnce E s c m now).1.partitionOccupancy p + _ = _
          rw [hentry]
        | budget units =>
          cases h
          exact hnone (congrFun hentry p)
        | blocked =>
          dsimp only at h
          split at h <;> exact hnone (congrFun (stopBlocked_partition h) p)

theorem dispatchLoopPeaks_peak {width : ℕ} {p : String} : ∀ {fuel : ℕ} {s : Sched} {c : DispatchCycle}
    {peaks : String → ℤ} {q : Sched × (String → ℤ)}, dispatchLoopPeaks E width now fuel s c peaks = .ok q →
    s.partitionOccupancy p ≤ peaks p →
      s.partitionOccupancy p ≤ q.1.partitionOccupancy p ∧ q.2 p = max (peaks p) (q.1.partitionOccupancy p)
  | 0, s, c, peaks, q, h, hle => by
    cases h
    exact ⟨le_rfl, (max_eq_left hle).symm⟩
  | fuel + 1, s, c, peaks, q, h, hle => by
    unfold dispatchLoopPeaks at h
    split at h
    · cases h
      exact ⟨le_rfl, (max_eq_left hle).symm⟩
    · next m _ =>
      split at h
      · cases h
        exact ⟨le_rfl, (max_eq_left hle).symm⟩
      · obtain ⟨r, hr, h⟩ := ok_bind.mp h
        have hpart := dispatchTurn_partition hr p
        have hmono : s.partitionOccupancy p ≤ r.2.1.partitionOccupancy p := by omega
        obtain ⟨-, hpeak⟩ := recordEnqueue_peak (a := (chunkTaken E width s c m).2)
          (chunkTaken E width s c m).1 (s.partitionOccupancy, peaks) hle
        rw [← hpart] at hpeak
        dsimp only at h hpeak
        split at h
        · obtain ⟨h1, h2⟩ := dispatchLoopPeaks_peak h (hpeak ▸ le_max_right _ _)
          rw [hpeak] at h2
          omega
        · cases h
          exact ⟨hmono, hpeak⟩

theorem boundaryPeaks_peak {s : Sched} {peaks : String → ℤ} {q : Sched × (String → ℤ)}
    (h : boundaryPeaks E now s peaks = .ok q) (p : String) (hle : s.partitionOccupancy p ≤ peaks p) :
    q.2 p = max (peaks p) (q.1.partitionOccupancy p) := by
  unfold boundaryPeaks at h
  split at h
  · obtain ⟨width, -, h⟩ := ok_bind.mp h
    exact (dispatchLoopPeaks_peak h hle).2
  · cases h
    exact (max_eq_left hle).symm

/-- What a visit does to the peaks, with the states before, after and behind its dispatch. -/
theorem visitPeaks_ok {r r' : Sched × EnginePeaks} (h : visitPeaks E now r = .ok r') :
    ∃ s q, visitOf ((phases E now).take 3) r.1 = .ok s ∧ boundaryPeaks E now s r.2.schedulerPartition = .ok q ∧
      visitOf ((phases E now).take 4) r.1 = .ok q.1 ∧ visitOf ((phases E now).drop 4) q.1 = .ok r'.1 ∧
      r'.2 = recordPeaks E r'.1 { r.2 with schedulerPartition := q.2 } := by
  obtain ⟨s, hs, h⟩ := ok_bind.mp h
  obtain ⟨q, hq, h⟩ := ok_bind.mp h
  obtain ⟨e, he, h⟩ := ok_bind.mp h
  cases h
  refine ⟨s, q, hs, hq, foldlM_append (l := (phases E now).take 3).mpr ⟨s, hs, ?_⟩, he, rfl⟩
  have hdispatch : (boundaryPeaks E now s r.2.schedulerPartition).map (·.1) = _ :=
    boundaryPeaks_fst s r.2.schedulerPartition
  rw [hq] at hdispatch
  show (if E.boundary now then dispatch E now s else .ok s) >>= Except.ok = _
  rw [← hdispatch]
  rfl

theorem visit_falls (hT : WellFormed E.trace) {fs : List (Sched → Except SimError Sched)} {s s' : Sched}
    (hfs : ∀ f ∈ fs, ∃ k, k ≠ 3 ∧ (phases E now)[k]? = some f) (h : visitOf fs s = .ok s') : Falls s s' :=
  foldlM_ok (P := fun t => Falls s t) h (.refl s) fun f hf _ _ ht hstep => by
    obtain ⟨k, hk, hget⟩ := hfs f hf
    exact ht.trans (phase_falls hT hget hk hstep)

/-- In a run no partition is fuller than its peak. -/
theorem within_peaks (hT : WellFormed E.trace) {n t : ℕ} {r : Sched × EnginePeaks}
    (h : EventLoop.Reaches (peakLoop E) n 0 (schedInit E, {}) t r) (p : String) :
    r.1.partitionOccupancy p ≤ r.2.schedulerPartition p := by
  refine h.invariant (P := fun _ r => r.1.partitionOccupancy p ≤ r.2.schedulerPartition p) le_rfl ?_ ?_
  · intro now r r' hr _ hv
    obtain ⟨s, q, hs, hq, -, he, hpeaks⟩ := visitPeaks_ok hv
    have hup : s.partitionOccupancy p ≤ r.1.partitionOccupancy p :=
      (visit_falls hT (fun f hf => EventLoop.mem_take_index le_rfl hf) hs).partition p
    have hdown : r'.1.partitionOccupancy p ≤ q.1.partitionOccupancy p :=
      (visit_falls hT (fun f hf => EventLoop.mem_drop_index hf) he).partition p
    have hpeak := boundaryPeaks_peak hq p (hup.trans hr)
    have hsame : r'.2.schedulerPartition p = q.2 p := by rw [hpeaks]; rfl
    rw [hsame, hpeak]
    exact hdown.trans (le_max_right _ _)
  · intro now r r' t hr hn _
    obtain ⟨⟨s, u⟩, hm, he⟩ := ok_bind.mp hn
    cases he
    obtain ⟨memory, rfl⟩ := nextEventTick_ok hm
    exact hr

/-- **The peak of a partition** goes up to the partition's occupancy after every dispatch. -/
theorem visitPeaks_partition (hT : WellFormed E.trace) {n t : ℕ} {r r' : Sched × EnginePeaks} {d : Sched}
    (h : EventLoop.Reaches (peakLoop E) n 0 (schedInit E, {}) t r) (hv : visitPeaks E t r = .ok r')
    (hd : visitOf ((phases E t).take 4) r.1 = .ok d) (p : String) :
    r'.2.schedulerPartition p = max (r.2.schedulerPartition p) (d.partitionOccupancy p) := by
  obtain ⟨s, q, hs, hq, hq', -, hpeaks⟩ := visitPeaks_ok hv
  obtain rfl : q.1 = d := Except.ok.inj (hq'.symm.trans hd)
  have hup : s.partitionOccupancy p ≤ r.1.partitionOccupancy p :=
    (visit_falls hT (fun f hf => EventLoop.mem_take_index le_rfl hf) hs).partition p
  rw [hpeaks]
  exact boundaryPeaks_peak hq p (hup.trans (within_peaks hT h p))

end Xsai
end VectorSim
