/-
# The occupancy counters

Both engines keep the same four counters: the entries of the reorder buffer,
of the unpartitioned vector scheduler and of the two queues. `Counters` says
that each is what it counts and that none exceeds its number of entries.
`enter`, `issue` and `retire` are the steps that change a counter, for an
engine that counts `entries m` buffer entries and `uses m` of the scheduler for
a macro-op `m`; any other step is `SameCounters`.
-/
import VectorSim.Backend.Occupancy

namespace VectorSim

open Core Setup

variable {E : Setup} {entries : MacroOp → ℕ} {uses : MacroOp → Bool} {now : ℕ} {s s' : Machine}

/-- The counters are what they count, and within the capacities of the pipeline. -/
structure Counters (E : Setup) (entries : MacroOp → ℕ) (uses : MacroOp → Bool) (s : Machine) :
    Prop where
  rob : s.robOccupancy = occupancy E.trace s.toCore entries
  vector : s.vectorSchedulerOccupancy = waitingVector E uses s.toCore
  load : s.loadQueueOccupancy = occupancy E.trace s.toCore (·.usesLoadQueue.toNat)
  store : s.storeQueueOccupancy = occupancy E.trace s.toCore (·.usesStoreQueue.toNat)
  robFits : ∀ n ∈ E.pipeline.robEntries, s.robOccupancy ≤ n
  vectorFits : ∀ n ∈ E.pipeline.vectorSchedulerEntries, s.vectorSchedulerOccupancy ≤ n
  loadFits : ∀ n ∈ E.pipeline.loadQueueEntries, s.loadQueueOccupancy ≤ n
  storeFits : ∀ n ∈ E.pipeline.storeQueueEntries, s.storeQueueOccupancy ≤ n

/-- No counter is negative. -/
theorem Counters.nonneg (h : Counters E entries uses s) : 0 ≤ s.robOccupancy ∧
    0 ≤ s.vectorSchedulerOccupancy ∧ 0 ≤ s.loadQueueOccupancy ∧ 0 ≤ s.storeQueueOccupancy := by
  rw [h.rob, h.vector, h.load, h.store]
  exact ⟨Int.natCast_nonneg _, Int.natCast_nonneg _, Int.natCast_nonneg _, Int.natCast_nonneg _⟩

theorem counters_init : Counters E entries uses E.machineInit where
  rob := by simp [machineInit]
  vector := by simp [machineInit]
  load := by simp [machineInit]
  store := by simp [machineInit]
  robFits _ _ := Int.natCast_nonneg _
  vectorFits _ _ := Int.natCast_nonneg _
  loadFits _ _ := Int.natCast_nonneg _
  storeFits _ _ := Int.natCast_nonneg _

/-- The step changes no counter and nothing that they count. -/
structure SameCounters (s s' : Machine) : Prop where
  ticks : SameTicks s.toCore s'.toCore
  issue : ∀ u, (s'.uop u).issueTick = (s.uop u).issueTick
  rob : s'.robOccupancy = s.robOccupancy
  vector : s'.vectorSchedulerOccupancy = s.vectorSchedulerOccupancy
  load : s'.loadQueueOccupancy = s.loadQueueOccupancy
  store : s'.storeQueueOccupancy = s.storeQueueOccupancy

theorem Counters.same (h : Counters E entries uses s) (hs : SameCounters s s') :
    Counters E entries uses s' where
  rob := by rw [hs.rob, h.rob, occupancy_congr hs.ticks.dispatch hs.ticks.retire]
  vector := by rw [hs.vector, h.vector, waitingVector_congr hs.ticks.dispatch hs.issue]
  load := by rw [hs.load, h.load, occupancy_congr hs.ticks.dispatch hs.ticks.retire]
  store := by rw [hs.store, h.store, occupancy_congr hs.ticks.dispatch hs.ticks.retire]
  robFits := hs.rob ▸ h.robFits
  vectorFits := hs.vector ▸ h.vectorFits
  loadFits := hs.load ▸ h.loadFits
  storeFits := hs.store ▸ h.storeFits

/-! ### A macro-op enters -/

/-- The dispatch checks found room for the macro-op. -/
structure Room (E : Setup) (entries : MacroOp → ℕ) (uses : MacroOp → Bool) (s : Machine)
    (m : MacroOp) : Prop where
  rob : ∀ n ∈ E.pipeline.robEntries, s.robOccupancy + entries m ≤ n
  vector : uses m = true → ∀ n ∈ E.pipeline.vectorSchedulerEntries, s.vectorSchedulerOccupancy + 1 ≤ n
  load : m.usesLoadQueue = true → ∀ n ∈ E.pipeline.loadQueueEntries, s.loadQueueOccupancy + 1 ≤ n
  store : m.usesStoreQueue = true → ∀ n ∈ E.pipeline.storeQueueEntries, s.storeQueueOccupancy + 1 ≤ n

/-- The macro-op is in the reorder buffer and is counted. -/
def entered (entries : MacroOp → ℕ) (uses : MacroOp → Bool) (s : Machine) (m : MacroOp) (now : ℕ) :
    Machine :=
  { s with
    toCore := s.toCore.enterRob m.id now
    robOccupancy := s.robOccupancy + entries m
    vectorSchedulerOccupancy := s.vectorSchedulerOccupancy + (uses m).toNat
    loadQueueOccupancy := s.loadQueueOccupancy + m.usesLoadQueue.toNat
    storeQueueOccupancy := s.storeQueueOccupancy + m.usesStoreQueue.toNat }

/-- A counter that goes up by a flag fits where it did, or where there was room for one more. -/
theorem fits_flag {b : Bool} {v : ℤ} {capacity : Option ℕ} (h : ∀ n ∈ capacity, v ≤ n)
    (room : b = true → ∀ n ∈ capacity, v + 1 ≤ n) : ∀ n ∈ capacity, v + (b.toNat : ℤ) ≤ n := by
  intro n hn
  cases b with
  | false => simpa using h n hn
  | true => simpa using room rfl n hn

theorem Counters.enter (hT : WellFormed E.trace) (hc : Core.Inv E.trace E.inOrder now s.toCore)
    (h : Counters E entries uses s) {m : MacroOp} (head : E.trace.macros[s.nextDispatch]? = some m)
    (outside : (s.macro_ m.id).dispatchTick = none) (room : Room E entries uses s m) :
    Counters E entries uses (entered entries uses s m now) where
  rob := by
    show s.robOccupancy + (entries m : ℤ) = _
    rw [h.rob, entered, occupancy_enterRob hT hc head outside]
    push_cast; rfl
  vector := by
    show s.vectorSchedulerOccupancy + ((uses m).toNat : ℤ) = _
    rw [h.vector, entered, waitingVector_enterRob hT hc head outside]
    push_cast; rfl
  load := by
    show s.loadQueueOccupancy + (m.usesLoadQueue.toNat : ℤ) = _
    rw [h.load, entered, occupancy_enterRob hT hc head outside]
    push_cast; rfl
  store := by
    show s.storeQueueOccupancy + (m.usesStoreQueue.toNat : ℤ) = _
    rw [h.store, entered, occupancy_enterRob hT hc head outside]
    push_cast; rfl
  robFits := room.rob
  vectorFits := fits_flag h.vectorFits room.vector
  loadFits := fits_flag h.loadFits room.load
  storeFits := fits_flag h.storeFits room.store

theorem pipelineInt_ok {v : Option ℕ} {name : String} {n : ℕ} :
    pipelineInt v name = .ok n ↔ v = some n := by
  cases v <;> simp [pipelineInt]

theorem queueFull_false {flag : Bool} {capacity : Option ℕ} {name : String} {v : ℤ}
    (h : queueFull flag capacity name v = .ok false) (used : flag = true) :
    ∀ n ∈ capacity, v + 1 ≤ n := by
  intro n hn
  unfold queueFull at h
  rw [if_pos used] at h
  obtain ⟨k, hk, h⟩ := Checked.ok_bind.mp h
  rw [pipelineInt_ok.mp hk] at hn
  cases hn
  have : ¬ ((n : ℤ) ≤ v) := of_decide_eq_false (Except.ok.inj h)
  omega

/-! ### A uop issues -/

theorem Counters.issue (hT : WellFormed E.trace) (hc : Core.Inv E.trace E.inOrder now s.toCore)
    (h : Counters E entries uses s) {x : ExecutionUop} {latency : ℕ} {flag : Bool}
    (hx : Issuable E.trace E.inOrder now s.toCore x)
    (flagged : ∀ m, E.trace.macro? x.parentId = some m → x.kind.isVectorResource = true →
      flag = uses m)
    (core : s'.toCore = s.toCore.issue x now latency E.inOrder) (rob : s'.robOccupancy = s.robOccupancy)
    (vector : s'.vectorSchedulerOccupancy = s.vectorSchedulerOccupancy -
      (x.kind.isVectorResource && flag && !E.otherVectorIssued s.toCore x).toNat)
    (load : s'.loadQueueOccupancy = s.loadQueueOccupancy)
    (store : s'.storeQueueOccupancy = s.storeQueueOccupancy) : Counters E entries uses s' := by
  have hticks : SameTicks s.toCore s'.toCore := by
    rw [core]; exact ⟨fun _ => rfl, fun _ => rfl⟩
  obtain ⟨m, hm, hp, -, hu⟩ := hT.mem_parent hx.mem
  have hwait := waitingVector_issue hT hc hx hm hu latency uses
  have hflag : (x.kind.isVectorResource && flag && !E.otherVectorIssued s.toCore x) =
      (x.kind.isVectorResource && uses m && !E.otherVectorIssued s.toCore x) := by
    cases hk : x.kind.isVectorResource with
    | false => rfl
    | true => rw [flagged m hp hk]
  have hvector : s'.vectorSchedulerOccupancy = waitingVector E uses s'.toCore := by
    rw [vector, h.vector, hflag, core, ← hwait]
    push_cast
    ring
  refine ⟨?_, hvector, ?_, ?_, rob ▸ h.robFits, fun n hn => ?_, load ▸ h.loadFits,
    store ▸ h.storeFits⟩
  · rw [rob, h.rob, occupancy_congr hticks.dispatch hticks.retire]
  · rw [load, h.load, occupancy_congr hticks.dispatch hticks.retire]
  · rw [store, h.store, occupancy_congr hticks.dispatch hticks.retire]
  · have := h.vectorFits n hn
    rw [vector]
    omega

/-! ### A macro-op retires -/

theorem Counters.retire (hT : WellFormed E.trace) (hc : Core.Inv E.trace E.inOrder now s.toCore)
    (h : Counters E entries uses s) {m : MacroOp} {rest : List Id} (mem : m ∈ E.trace.macros)
    (head : s.rob = m.id :: rest) (core : s'.toCore = s.toCore.retire m.id now)
    (rob : s'.robOccupancy = s.robOccupancy - entries m)
    (vector : s'.vectorSchedulerOccupancy = s.vectorSchedulerOccupancy)
    (load : s'.loadQueueOccupancy = s.loadQueueOccupancy - m.usesLoadQueue.toNat)
    (store : s'.storeQueueOccupancy = s.storeQueueOccupancy - m.usesStoreQueue.toNat) :
    Counters E entries uses s' := by
  have hocc : ∀ f : MacroOp → ℕ,
      (occupancy E.trace s'.toCore f : ℤ) = occupancy E.trace s.toCore f - f m := by
    intro f
    rw [core, ← occupancy_retire hT hc mem head]
    push_cast
    ring
  have hdispatch : ∀ m', (s'.macro_ m').dispatchTick = (s.macro_ m').dispatchTick := by
    intro m'
    rw [core]
    simp only [Core.retire, Function.update_apply]
    split
    · next he => rw [he]
    · rfl
  have hissue : ∀ u, (s'.uop u).issueTick = (s.uop u).issueTick := by
    intro u; rw [core]; rfl
  refine ⟨?_, ?_, ?_, ?_, fun n hn => ?_, vector ▸ h.vectorFits, fun n hn => ?_, fun n hn => ?_⟩
  · rw [rob, h.rob, hocc]
  · rw [vector, h.vector, waitingVector_congr hdispatch hissue]
  · rw [load, h.load, hocc]
  · rw [store, h.store, hocc]
  · have := h.robFits n hn
    rw [rob]; omega
  · have := h.loadFits n hn
    rw [load]; omega
  · have := h.storeFits n hn
    rw [store]; omega

end VectorSim
