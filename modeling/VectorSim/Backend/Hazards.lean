/-
# Structural hazards

What the reservations of the XSAI engine keep apart. Each resource has its own
small invariant over the issue ticks that the uops record: the lanes and the
execution units (`Serial.Exclusive`), the scheduling classes (`ClassInv`), the
issue-domain tokens (`TokenInv`), the tokens of a cycle (`CycleInv`, for the
vector reads and for the completions), and the flows in service
(`ServiceInv`). An issue is the only step that takes anything; every other
step is quiet (`Quiet`), but for the flows that it may release.
-/
import VectorSim.Backend.XsaiSteps
import VectorSim.Lib.Serial

namespace VectorSim
namespace Xsai

open Checked Setup Core

variable {E : Config} {now : ℕ} {s s' : Sched} {x : ExecutionUop}

/-! ### What an issue has reserved -/

/-- An execution path that passes its tests. -/
structure PathOk (E : Config) (s : Sched) (x : ExecutionUop) (now : ℕ) (p : Path) : Prop where
  resource : p.resource ∈ x.resourceChoices
  lane : p.lane < (s.resourceFree p.resource).length
  laneFree : (s.resourceFree p.resource).getD p.lane 0 ≤ now
  unit : ∀ u ∈ p.unit, s.executionUnitFree u ≤ now
  read : ∀ d ∈ p.readDomain, readAvailable E s d now = true
  completion : ∀ d ∈ p.completionDomain,
    completionAvailable E s d (now + (s.uop x.id).latencyTicks) = true

theorem mem_executionCandidates {p : Path} (h : p ∈ executionCandidates E s x now true true) :
    PathOk E s x now p := by
  simp only [executionCandidates, List.mem_flatMap, List.mem_map, List.mem_filter] at h
  obtain ⟨r, hr, ⟨free, lane⟩, hl, u, ⟨-, hok⟩, rfl⟩ := h
  obtain ⟨hlt, hget⟩ := List.mem_zipIdx' hl
  simp only [pathOk, Bool.and_eq_true, decide_eq_true_eq, Bool.not_true, Bool.false_or,
    Option.all_eq_true] at hok
  obtain ⟨⟨⟨hfree, hunit⟩, hread⟩, hcompletion⟩ := hok
  refine ⟨hr, hlt, ?_, ?_, fun d hd => hread d hd, fun d hd => hcompletion d hd⟩
  · rw [List.getD_eq_getElem?_getD, List.getElem?_eq_getElem hlt, Option.getD_some]
    exact hget ▸ hfree
  · rintro v rfl
    simp only [unitFits, Bool.and_eq_true, decide_eq_true_eq] at hunit
    exact hunit.2

/-- The parts of a reservation. -/
structure ReservedOk (E : Config) (s : Sched) (x : ExecutionUop) (now : ℕ) (r : Reserved) : Prop where
  path : PathOk E s x now r.path
  access : accessMemory E s x now = .ok (r.memory, r.level, r.latency)
  partition : leavePartition s x = .ok r.partitionOccupancy
  domains : reserveIssueDomains x now x.issueDomains s.issueDomainFree = .ok r.issueDomainFree
  reads : reserveRead E s r.path.readDomain now = .ok r.readReservations

theorem reserve_ok {r : Reserved} (h : reserve E s x now = .ok r) : ReservedOk E s x now r := by
  obtain ⟨p, hp, h⟩ := ok_bind.mp h
  obtain ⟨a, ha, h⟩ := ok_bind.mp h
  obtain ⟨o, ho, h⟩ := ok_bind.mp h
  obtain ⟨d, hd, h⟩ := ok_bind.mp h
  obtain ⟨q, hq, h⟩ := ok_bind.mp h
  cases h
  refine ⟨?_, ha, ho, hd, hq⟩
  unfold selectExecution at hp
  split at hp
  · cases hp
  · next p' hmin => cases hp; exact mem_executionCandidates (Slots.minBy?_mem hmin)

/-- What is known of a uop when it issues. -/
structure Issues (E : Config) (now : ℕ) (s : Sched) (x : ExecutionUop) (r : Reserved) : Prop where
  issuable : Issuable E.trace E.inOrder now s.toCore x
  early : earlyBlocker E s x now = none
  vector : x.kind.isMemory = true → vectorMemoryBlocker E s x now = .ok none
  demand : ∀ d ∈ x.issueDomains, issueDomainDemand x d ≤ (s.issueDomainFree d).length
  reserved : ReservedOk E s x now r

theorem tokenChecks_demand (h : tokenChecks E s x now = .ok none) :
    ∀ d ∈ x.issueDomains, issueDomainDemand x d ≤ (s.issueDomainFree d).length := by
  obtain ⟨b, hb, -⟩ := ok_bind.mp h
  exact domainBlocker_demand hb

/-! ### Quiet steps -/

/-- Where a uop executes, apart from its partition. -/
def pathOf (p : Placement) : Placement := { p with partition := none, memoryLevel := none }

/-- A step that issues nothing. -/
structure Quiet (s s' : Sched) : Prop where
  issue : ∀ u, (s'.uop u).issueTick = (s.uop u).issueTick
  latency : ∀ u, (s'.uop u).latencyTicks = (s.uop u).latencyTicks
  placement : ∀ u, pathOf (s'.placement u) = pathOf (s.placement u)
  resourceFree : s'.resourceFree = s.resourceFree
  lastClassIssue : s'.lastClassIssue = s.lastClassIssue
  issueDomainFree : s'.issueDomainFree = s.issueDomainFree
  executionUnitFree : s'.executionUnitFree = s.executionUnitFree
  readReservations : s'.readReservations = s.readReservations
  completionReservations : s'.completionReservations = s.completionReservations

theorem admitOnce_quiet (c : DispatchCycle) (m : MacroOp) (now : ℕ) : Quiet s (admitOnce E s c m now).1 := by
  unfold admitOnce
  split
  · exact ⟨fun _ => rfl, fun _ => rfl, fun _ => rfl, rfl, rfl, rfl, rfl, rfl, rfl⟩
  · exact ⟨fun _ => rfl, fun _ => rfl, fun _ => rfl, rfl, rfl, rfl, rfl, rfl, rfl⟩

theorem enqueue_quiet (r : Sched × DispatchCycle) (m : MacroOp) (units : ℕ) (us : List Id)
    (a : List (Id × String)) (h : Quiet s r.1) : Quiet s (enqueue (spend r m units) us a now).1 := by
  refine ⟨fun u => ?_, fun u => ?_, fun u => ?_, h.resourceFree, h.lastClassIssue, h.issueDomainFree,
    h.executionUnitFree, h.readReservations, h.completionReservations⟩
  · simp only [enqueue, dispatchAll_uop]
    split <;> exact h.issue u
  · simp only [enqueue, dispatchAll_uop]
    split <;> exact h.latency u
  · simp only [enqueue]
    split <;> exact h.placement u

/-- **A step issues a uop or is quiet.** -/
theorem step_cases (h : Step E now s s') :
    Quiet s s' ∨ ∃ x r, Issues E now s x r ∧ s' = issued E s x now r := by
  cases h with
  | @complete e rest head due =>
    left
    unfold completeEntry
    dsimp only
    split
    · exact ⟨fun _ => rfl, fun _ => rfl, fun _ => rfl, rfl, rfl, rfl, rfl, rfl, rfl⟩
    · refine ⟨fun u => ?_, fun u => ?_, fun _ => rfl, rfl, rfl, rfl, rfl, rfl, rfl⟩
      · rw [completeUop_uop]; split <;> rfl
      · rw [completeUop_uop]; split <;> rfl
  | releaseFlow _ _ | releaseRename _ _ | advance _ _ | stall _ _ _ | poll _ | retire _ _ _ =>
    exact .inl ⟨fun _ => rfl, fun _ => rfl, fun _ => rfl, rfl, rfl, rfl, rfl, rfl, rfl⟩
  | @take c m width us a units _ _ _ => exact .inl (enqueue_quiet _ m units us a (admitOnce_quiet c m _))
  | @budget c m width units _ _ _ =>
    have h := admitOnce_quiet (E := E) (s := s) c m now
    exact .inl ⟨h.issue, h.latency, h.placement, h.resourceFree, h.lastClassIssue,
      h.issueDomainFree, h.executionUnitFree, h.readReservations, h.completionReservations⟩
  | issue issuable early _ vector tokens reserved =>
    exact .inr ⟨_, _, ⟨issuable, early, vector, tokenChecks_demand tokens, reserve_ok reserved⟩, rfl⟩

/-! ### What a uop records when it issues -/

section Issued

variable {r : Reserved}

theorem issued_issueTick (u : Id) : ((issued E s x now r).uop u).issueTick =
    if u = x.id then some now else (s.uop u).issueTick := by
  simp only [issued, issue_uop]
  split <;> rfl

theorem issued_placement (u : Id) : pathOf ((issued E s x now r).placement u) =
    if u = x.id then { resource := some r.path.resource, lane := r.path.lane, unit := r.path.unit,
                       readDomain := r.path.readDomain, completionDomain := r.path.completionDomain }
    else pathOf (s.placement u) := by
  simp only [issued, Function.update_apply]
  split <;> rfl

theorem Issues.unissued (hs : CoreInv E now s) (h : Issues E now s x r) :
    (s.uop x.id).issueTick = none :=
  ((hs.uops.waiting x.id).mp h.issuable.waiting).2

end Issued

/-! ### Lanes and units -/

open Serial (Uses Exclusive)

/-- The uops on the lanes of the resources. -/
def laneUses (E : Config) (s : Sched) : Uses Id (String × ℕ) where
  start u := (s.uop u).issueTick
  length u := (E.uop u).occupancyTicks
  key u := (pathOf (s.placement u)).resource.map fun r => (r, (pathOf (s.placement u)).lane)

/-- The uops on the execution units. -/
def unitUses (E : Config) (s : Sched) : Uses Id String where
  start u := (s.uop u).issueTick
  length u := (E.uop u).occupancyTicks
  key u := (pathOf (s.placement u)).unit

structure LaneInv (E : Config) (s : Sched) : Prop where
  capacity : ∀ r, (s.resourceFree r).length = lookupD E.trace.resources r 0
  placed : ∀ {u i}, (s.uop u).issueTick = some i → ∃ r, (pathOf (s.placement u)).resource = some r ∧
    (pathOf (s.placement u)).lane < lookupD E.trace.resources r 0
  exclusive : Exclusive (laneUses E s) fun k => (s.resourceFree k.1).getD k.2 0

theorem laneInv_init : LaneInv E (schedInit E) where
  capacity r := by simp [schedInit, machineInit, freeSlots]
  placed h := by cases h
  exclusive := .init fun _ => rfl

theorem LaneInv.quiet (hs : LaneInv E s) (h : Quiet s s') : LaneInv E s' where
  capacity r := by rw [h.resourceFree]; exact hs.capacity r
  placed {u i} hi := by
    rw [h.issue] at hi
    rw [h.placement]
    exact hs.placed hi
  exclusive := hs.exclusive.congr (by simp [laneUses, h.issue, h.placement]) (by rw [h.resourceFree])

theorem LaneInv.issue {r : Reserved} (hT : WellFormed E.trace) (hs : LaneInv E s)
    (h : Issues E now s x r) : LaneInv E (issued E s x now r) := by
  have hp := h.reserved.path
  have hx : E.uop x.id = x := Setup.uop_eq hT h.issuable.mem
  have hlength : ∀ q, ((issued E s x now r).resourceFree q).length = (s.resourceFree q).length := by
    intro q
    by_cases hq : q = r.path.resource
    · subst hq; simp [issued]
    · simp [issued, hq]
  refine ⟨fun q => (hlength q).trans (hs.capacity q), fun {u i} hi => ?_, ?_⟩
  · rw [issued_placement]
    rw [issued_issueTick] at hi
    split
    · exact ⟨_, rfl, hs.capacity r.path.resource ▸ hp.lane⟩
    · next hu => rw [if_neg hu] at hi; exact hs.placed hi
  · have hfree : (fun k : String × ℕ => ((issued E s x now r).resourceFree k.1).getD k.2 0) =
        Function.update (fun k : String × ℕ => (s.resourceFree k.1).getD k.2 0)
          (r.path.resource, r.path.lane) (now + (laneUses E s).length x.id) := by
      funext ⟨q, l⟩
      have hocc : (laneUses E s).length x.id = x.occupancyTicks := by simp only [laneUses, hx]
      rw [hocc]
      by_cases hq : q = r.path.resource
      · subst hq
        by_cases hl : l = r.path.lane
        · subst hl
          simp [issued, List.getD_eq_getElem?_getD, hp.lane]
        · simp [issued, List.getD_eq_getElem?_getD, hl, Ne.symm hl]
      · simp [issued, hq]
    rw [hfree]
    refine hs.exclusive.take hp.laneFree rfl (fun u hu => ?_) (fun u hu => ?_) ?_ ?_
    · simp only [laneUses, issued_issueTick, if_neg hu]
    · simp only [laneUses, issued_placement, if_neg hu]
    · simp only [laneUses, issued_issueTick, if_pos]
    · simp only [laneUses, issued_placement, if_pos]; rfl

abbrev UnitInv (E : Config) (s : Sched) : Prop := Exclusive (unitUses E s) s.executionUnitFree

theorem unitInv_quiet (hs : UnitInv E s) (h : Quiet s s') : UnitInv E s' :=
  hs.congr (by simp [unitUses, h.issue, h.placement]) h.executionUnitFree

theorem unitInv_issue {r : Reserved} (hT : WellFormed E.trace) (hs : UnitInv E s)
    (h : Issues E now s x r) : UnitInv E (issued E s x now r) := by
  have hx : E.uop x.id = x := Setup.uop_eq hT h.issuable.mem
  have hstart : ∀ u, u ≠ x.id → (unitUses E (issued E s x now r)).start u = (unitUses E s).start u :=
    fun u hu => by simp only [unitUses, issued_issueTick, if_neg hu]
  have hkey : ∀ u, u ≠ x.id → (unitUses E (issued E s x now r)).key u = (unitUses E s).key u :=
    fun u hu => by simp only [unitUses, issued_placement, if_neg hu]
  have hself : (unitUses E (issued E s x now r)).key x.id = r.path.unit := by
    simp only [unitUses, issued_placement, if_pos]
  cases hu : r.path.unit with
  | none =>
    have hfree : (issued E s x now r).executionUnitFree = s.executionUnitFree := by
      simp only [issued, hu]
    unfold UnitInv
    rw [hfree]
    exact hs.skip rfl hstart hkey (hself.trans hu)
  | some v =>
    have hfree : (issued E s x now r).executionUnitFree =
        Function.update s.executionUnitFree v (now + (unitUses E s).length x.id) := by
      simp only [issued, hu, unitUses, hx]
    unfold UnitInv
    rw [hfree]
    exact hs.take (h.reserved.path.unit v hu) rfl hstart hkey
      (by simp only [unitUses, issued_issueTick, if_pos]) (hself.trans hu)

/-! ### Scheduling classes -/

/-- The last issue of each class is recorded, and the issues of a class keep their distance. -/
structure ClassInv (E : Config) (s : Sched) : Prop where
  last : ∀ {u i}, (s.uop u).issueTick = some i →
    ∃ t, s.lastClassIssue (E.uop u).schedulingClass = some t ∧ i ≤ t
  apart : ∀ {u v i j}, u ≠ v → (s.uop u).issueTick = some i → (s.uop v).issueTick = some j →
    (E.uop u).schedulingClass = (E.uop v).schedulingClass →
      i + (E.uop v).issueIntervalTicks ≤ j ∨ j + (E.uop u).issueIntervalTicks ≤ i

theorem classInv_init : ClassInv E (schedInit E) where
  last h := by cases h
  apart _ h := by cases h

theorem ClassInv.quiet (hs : ClassInv E s) (h : Quiet s s') : ClassInv E s' where
  last {u i} hi := by
    rw [h.issue] at hi
    rw [h.lastClassIssue]
    exact hs.last hi
  apart {u v i j} huv hi hj hc := by
    rw [h.issue] at hi hj
    exact hs.apart huv hi hj hc

theorem ClassInv.issue {r : Reserved} (hT : WellFormed E.trace) (hc : CoreInv E now s)
    (hs : ClassInv E s) (h : Issues E now s x r) : ClassInv E (issued E s x now r) := by
  have hx : E.uop x.id = x := Setup.uop_eq hT h.issuable.mem
  have hinterval := intervalBlocker_none.mp (earlyBlocker_none h.early).2.2.2.2
  -- the new issue is its interval after the last of its class
  have hnew : ∀ {v j}, (s.uop v).issueTick = some j →
      (E.uop v).schedulingClass = x.schedulingClass → j + x.issueIntervalTicks ≤ now := by
    intro v j hj he
    obtain ⟨t, ht, hle⟩ := hs.last hj
    have := hinterval t (he ▸ ht)
    omega
  have hlast : (issued E s x now r).lastClassIssue =
      Function.update s.lastClassIssue x.schedulingClass (some now) := rfl
  constructor
  · intro u i hi
    rw [issued_issueTick] at hi
    rw [hlast]
    by_cases hcls : (E.uop u).schedulingClass = x.schedulingClass
    · rw [hcls, Function.update_self]
      refine ⟨now, rfl, ?_⟩
      split at hi
      · cases hi; exact le_rfl
      · exact (hc.uops.issued hi).1
    · rw [Function.update_of_ne hcls]
      split at hi
      · next hu => exact absurd (by rw [hu, hx]) hcls
      · exact hs.last hi
  · intro u v i j huv hi hj he
    rw [issued_issueTick] at hi hj
    by_cases hu : u = x.id
    · subst hu
      rw [if_pos rfl] at hi
      rw [if_neg huv.symm] at hj
      cases hi
      rw [hx] at he ⊢
      exact .inr (hnew hj he.symm)
    · rw [if_neg hu] at hi
      by_cases hv : v = x.id
      · subst hv
        rw [if_pos rfl] at hj
        cases hj
        rw [hx] at he ⊢
        exact .inl (hnew hi he)
      · rw [if_neg hv] at hj
        exact hs.apart huv hi hj he

/-! ### Tokens of the issue domains -/

/-- The tokens of a domain that a uop holds at a tick. -/
def tokens (E : Config) (s : Sched) (d : String) (t : ℕ) (x : ExecutionUop) : ℕ :=
  if (laneUses E s).holds x.id t then x.issueDomains.count d * issueDomainDemand x d else 0

/-- The capacity of an issue domain. -/
def domainCapacity (E : Config) (d : String) : ℕ := capacityOf E.issueDomains d

structure TokenInv (E : Config) (now : ℕ) (s : Sched) : Prop where
  capacity : ∀ d, (s.issueDomainFree d).length = domainCapacity E d
  /-- From now on, the tokens that are held are not free. -/
  held : ∀ d t, now ≤ t → (E.trace.uops.map (tokens E s d t)).sum ≤ Slots.held (s.issueDomainFree d) t
  bounded : ∀ d t, (E.trace.uops.map (tokens E s d t)).sum ≤ domainCapacity E d

theorem tokens_quiet (h : Quiet s s') (d : String) (t : ℕ) : tokens E s' d t = tokens E s d t := by
  funext x
  have : (laneUses E s').holds x.id t = (laneUses E s).holds x.id t :=
    Uses.holds_congr (h.issue x.id) rfl
  rw [tokens, tokens, this]

theorem TokenInv.quiet (hs : TokenInv E now s) (h : Quiet s s') : TokenInv E now s' where
  capacity d := by rw [h.issueDomainFree]; exact hs.capacity d
  held d t ht := by rw [tokens_quiet h, h.issueDomainFree]; exact hs.held d t ht
  bounded d t := by rw [tokens_quiet h]; exact hs.bounded d t

theorem lookupD_map (capacities : List (String × ℕ+)) (d : String) :
    lookupD (capacities.map fun e => (e.1, (e.2 : ℕ))) d 0 = capacityOf capacities d := by
  induction capacities with
  | nil => rfl
  | cons e l ih =>
    obtain ⟨key, n⟩ := e
    simp only [lookupD, capacityOf, List.map_cons, List.lookup_cons] at ih ⊢
    cases d == key with
    | true => rfl
    | false => exact ih

theorem tokenInv_init : TokenInv E 0 (schedInit E) := by
  have hzero : ∀ d t, (E.trace.uops.map (tokens E (schedInit E) d t)).sum = 0 := by
    intro d t
    refine List.sum_eq_zero fun n hn => ?_
    obtain ⟨x, -, rfl⟩ := List.mem_map.mp hn
    rfl
  refine ⟨fun d => ?_, fun d t _ => ?_, fun d t => ?_⟩
  · rw [domainCapacity, ← lookupD_map]
    simp [schedInit, machineInit, freeSlots]
  · rw [hzero]; exact Nat.zero_le _
  · rw [hzero]; exact Nat.zero_le _

theorem uops_nodup (hT : WellFormed E.trace) : E.trace.uops.Nodup := hT.uopIds.of_map _

/-- Uops of the trace with one id are the same. -/
theorem uop_ext (hT : WellFormed E.trace) {y : ExecutionUop} (hx : x ∈ E.trace.uops)
    (hy : y ∈ E.trace.uops) (h : y.id = x.id) : y = x := by
  have h1 := hT.uop?_eq hx
  rw [← h, hT.uop?_eq hy] at h1
  exact Option.some.inj h1

theorem TokenInv.issue {r : Reserved} (hT : WellFormed E.trace) (hc : CoreInv E now s)
    (hs : TokenInv E now s) (h : Issues E now s x r) : TokenInv E now (issued E s x now r) := by
  have hx : E.uop x.id = x := Setup.uop_eq hT h.issuable.mem
  obtain ⟨hlen, hheld⟩ := reserveIssueDomains_ok _ h.reserved.domains h.demand
  have hfree : (issued E s x now r).issueDomainFree = r.issueDomainFree := rfl
  have hcap : ∀ d, (r.issueDomainFree d).length = domainCapacity E d :=
    fun d => (hlen d).trans (hs.capacity d)
  have hother : ∀ d t, ∀ y ∈ E.trace.uops, y ≠ x →
      tokens E (issued E s x now r) d t y = tokens E s d t y := by
    intro d t y hy hyx
    have hid : y.id ≠ x.id := fun he => hyx (uop_ext hT h.issuable.mem hy he)
    have : (laneUses E (issued E s x now r)).holds y.id t = (laneUses E s).holds y.id t := by
      refine Uses.holds_congr ?_ rfl
      simp only [laneUses, issued_issueTick, if_neg hid]
    rw [tokens, tokens, this]
  have hold : ∀ d t, tokens E s d t x = 0 := by
    intro d t
    simp only [tokens, laneUses, Uses.holds, h.unissued hc, Option.any_none]
    rfl
  have hself : ∀ d t, now ≤ t → tokens E (issued E s x now r) d t x =
      x.issueDomains.count d * if t < now + x.occupancyTicks then issueDomainDemand x d else 0 := by
    intro d t ht
    by_cases hlt : t < now + x.occupancyTicks
    · simp [tokens, laneUses, Uses.holds, issued_issueTick, hx, ht, hlt]
    · simp [tokens, laneUses, Uses.holds, issued_issueTick, hx, hlt]
  have hfuture : ∀ d t, now ≤ t → (E.trace.uops.map (tokens E (issued E s x now r) d t)).sum ≤
      Slots.held (r.issueDomainFree d) t := by
    intro d t ht
    rw [hheld d t ht]
    have hstep := Serial.sum_of_step (uops_nodup hT) h.issuable.mem (hother d t)
    have hbefore := hs.held d t ht
    rw [hold, hself d t ht] at hstep
    omega
  refine ⟨hcap, hfuture, fun d t => ?_⟩
  rcases le_or_gt now t with ht | ht
  · exact (hfuture d t ht).trans ((Slots.held_le _ t).trans_eq (hcap d))
  · -- the past is as it was
    have hpast : tokens E (issued E s x now r) d t x = 0 := by
      simp [tokens, laneUses, Uses.holds, issued_issueTick, show ¬ now ≤ t by omega]
    have hstep := Serial.sum_of_step (uops_nodup hT) h.issuable.mem (hother d t)
    have hbefore := hs.bounded d t
    rw [hold, hpast] at hstep
    omega

theorem TokenInv.later {next : ℕ} (hs : TokenInv E now s) (h : now ≤ next) : TokenInv E next s :=
  ⟨hs.capacity, fun d t ht => hs.held d t (h.trans ht), hs.bounded⟩

end Xsai
end VectorSim
