/-
# Structural-hazard safety of the XSAI engine

In every state of a run, the uops that have issued keep to the lanes, the
units, the tokens and the service capacity that the profile gives them
(`HazardFree`). A uop holds its lane, its unit and its issue-domain tokens from
its issue tick on, for `occupancy_ticks` ticks. The validation of a trace lets a
uop with none through; such a uop holds nothing, and any number of them may issue
at one tick (`tokens_of_nothing`).
-/
import VectorSim.Backend.CycleTokens
import VectorSim.Backend.Accepted

namespace VectorSim
namespace Xsai

open Checked Setup Core

variable {E : Config} {now : ℕ} {s : Sched}

/-- A uop that has issued holds its resources at a tick. -/
def executing (s : Sched) (t : ℕ) (x : ExecutionUop) : Bool :=
  (s.uop x.id).issueTick.any fun i => i ≤ t ∧ t < i + x.occupancyTicks

/-- The tokens of an issue domain that a uop takes when it issues. -/
def demandOn (d : String) (x : ExecutionUop) : ℕ := x.issueDomains.count d * issueDomainDemand x d

/-- What a state's record of issues, lanes, units and tokens satisfies. -/
structure HazardFree (E : Config) (s : Sched) : Prop where
  /-- Every uop that has issued has a lane of its resource. -/
  lane : ∀ x ∈ E.trace.uops, (s.uop x.id).issueTick.isSome → ∃ r,
    (s.placement x.id).resource = some r ∧ (s.placement x.id).lane < lookupD E.trace.resources r 0
  /-- Two uops on one lane hold it at disjoint times. -/
  lanes : ∀ x ∈ E.trace.uops, ∀ y ∈ E.trace.uops, x ≠ y → ∀ i j r,
    (s.uop x.id).issueTick = some i → (s.uop y.id).issueTick = some j →
    (s.placement x.id).resource = some r → (s.placement y.id).resource = some r →
    (s.placement x.id).lane = (s.placement y.id).lane →
      i + x.occupancyTicks ≤ j ∨ j + y.occupancyTicks ≤ i
  /-- A resource is held by no more uops than it has lanes. -/
  laneCount : ∀ r t, E.trace.uops.countP (fun x =>
    (s.placement x.id).resource = some r && executing s t x) ≤ lookupD E.trace.resources r 0
  /-- Two uops on one execution unit hold it at disjoint times. -/
  units : ∀ x ∈ E.trace.uops, ∀ y ∈ E.trace.uops, x ≠ y → ∀ i j u,
    (s.uop x.id).issueTick = some i → (s.uop y.id).issueTick = some j →
    (s.placement x.id).unit = some u → (s.placement y.id).unit = some u →
      i + x.occupancyTicks ≤ j ∨ j + y.occupancyTicks ≤ i
  /-- The tokens of an issue domain that are held at a tick are within its capacity. -/
  tokens : ∀ d t, ((E.trace.uops.filter (executing s t)).map (demandOn d)).sum ≤ domainCapacity E d
  /-- So are those taken at an issue tick, by uops that hold them. -/
  issueTokens : ∀ d t, ((E.trace.uops.filter fun x =>
    (s.uop x.id).issueTick = some t ∧ 0 < x.occupancyTicks).map (demandOn d)).sum ≤ domainCapacity E d
  /-- The vector reads of a cycle are within the capacity of their domain. -/
  reads : ∀ d c, E.trace.uops.countP (fun x => (s.placement x.id).readDomain = some d &&
    (s.uop x.id).issueTick.any fun i => i / E.ticksPerCycle = c) ≤ capacityOf E.readCapacity d
  /-- The completions of a cycle are too, each at the tick the uop is complete at. -/
  writes : ∀ d c, E.trace.uops.countP (fun x => (s.placement x.id).completionDomain = some d &&
    (dueTick s x.id).any fun t => t / E.ticksPerCycle = c) ≤ capacityOf E.completionCapacity d
  completes : ∀ x ∈ E.trace.uops, ∀ t, (s.uop x.id).completeTick = some t → dueTick s x.id = some t
  /-- Two uops of one scheduling class issue the later one's interval apart. -/
  classes : ∀ x ∈ E.trace.uops, ∀ y ∈ E.trace.uops, x ≠ y → ∀ i j,
    (s.uop x.id).issueTick = some i → (s.uop y.id).issueTick = some j →
    x.schedulingClass = y.schedulingClass →
      i + y.issueIntervalTicks ≤ j ∨ j + x.issueIntervalTicks ≤ i
  /-- The flows in service at a tick are within the service capacity, and so are those the
  engine has not released. -/
  service : ∀ k capacity, E.vectorMemory.serviceCapacity.lookup k = some capacity →
    (s.inflight k).length ≤ capacity ∧ ∀ t, E.trace.uops.countP (inService E s k t) ≤ capacity

/-- The invariants of all the reservations. -/
structure Inv (E : Config) (now : ℕ) (s : Sched) : Prop where
  core : CoreInv E now s
  lanes : LaneInv E s
  units : UnitInv E s
  classes : ClassInv E s
  tokens : TokenInv E now s
  reads : ReadInv E s
  writes : WriteInv E s
  service : ServiceInv E now s

theorem Inv.init : Inv E 0 (schedInit E) where
  core := inv_init
  lanes := laneInv_init
  units := .init fun _ => rfl
  classes := classInv_init
  tokens := tokenInv_init
  reads := readInv_init
  writes := writeInv_init
  service := serviceInv_init

theorem Inv.step (hT : WellFormed E.trace) (htpc : 0 < E.ticksPerCycle) {s' : Sched}
    (hs : Inv E now s) (h : Step E now s s') : Inv E now s' := by
  have hcore := inv_step hT hs.core h
  have hservice := hs.service.step hT hs.core h
  rcases step_cases h with hq | ⟨x, r, hi, rfl⟩
  · exact ⟨hcore, hs.lanes.quiet hq, unitInv_quiet hs.units hq, hs.classes.quiet hq,
      hs.tokens.quiet hq, readInv_quiet hs.reads hq, writeInv_quiet hs.writes hq, hservice⟩
  · exact ⟨hcore, hs.lanes.issue hT hi, unitInv_issue hT hs.units hi, hs.classes.issue hT hs.core hi,
      hs.tokens.issue hT hs.core hi, readInv_issue hT hs.reads hi,
      writeInv_issue hT htpc hs.writes hi, hservice⟩

theorem Inv.later {next : ℕ} (hs : Inv E now s) (h : now ≤ next) : Inv E next s :=
  ⟨hs.core.later h, hs.lanes, hs.units, hs.classes, hs.tokens.later h, hs.reads, hs.writes,
    hs.service.later hs.core h⟩

/-- The reservations of a state of a run. -/
theorem Reachable.inv (hT : WellFormed E.trace) (htpc : 0 < E.ticksPerCycle)
    (h : Reachable E now s) : Inv E now s :=
  h.invariant hT .init (fun _ _ _ hs => hs.step hT htpc) fun _ _ _ hs hlt => hs.later hlt.le

theorem sum_filter_map {p : ExecutionUop → Bool} {f : ExecutionUop → ℕ} (l : List ExecutionUop) :
    ((l.filter p).map f).sum = (l.map fun x => if p x then f x else 0).sum := by
  induction l with
  | nil => rfl
  | cons x l ih =>
    by_cases hp : p x <;> simp [hp, ih]

theorem sum_map_le {f g : ExecutionUop → ℕ} {l : List ExecutionUop} (h : ∀ x ∈ l, f x ≤ g x) :
    (l.map f).sum ≤ (l.map g).sum := List.sum_le_sum h

/-- The invariants bound what the uops record. -/
theorem Inv.hazardFree (hT : WellFormed E.trace) (hs : Inv E now s) : HazardFree E s := by
  have hne : ∀ {x y}, x ∈ E.trace.uops → y ∈ E.trace.uops → x ≠ y → x.id ≠ y.id :=
    fun hx hy hxy he => hxy (uop_ext hT hy hx he)
  have hholds : ∀ x ∈ E.trace.uops, ∀ t, (laneUses E s).holds x.id t = executing s t x := by
    intro x hx t
    simp only [Serial.Uses.holds, laneUses, executing, uop_eq hT hx]
  have htokens : ∀ d t, ((E.trace.uops.filter (executing s t)).map (demandOn d)).sum ≤
      domainCapacity E d := by
    intro d t
    refine le_trans (le_of_eq ?_) (hs.tokens.bounded d t)
    rw [sum_filter_map]
    refine congrArg List.sum (List.map_congr_left fun x hx => ?_)
    rw [Xsai.tokens, hholds x hx, demandOn]
  refine { lane := ?_, lanes := ?_, laneCount := ?_, units := ?_, tokens := htokens,
           issueTokens := ?_, reads := ?_, writes := ?_, completes := ?_, classes := ?_, service := ?_ }
  · intro x _ hi
    obtain ⟨i, hi⟩ := Option.isSome_iff_exists.mp hi
    exact hs.lanes.placed hi
  · intro x hx y hy hxy i j r hi hj hr hr' hl
    have hk : (laneUses E s).key x.id = some (r, (s.placement x.id).lane) := by
      simp only [laneUses, pathOf, hr, Option.map_some]
    have hk' : (laneUses E s).key y.id = some (r, (s.placement x.id).lane) := by
      simp only [laneUses, pathOf, hr', hl, Option.map_some]
    have := hs.lanes.exclusive.disjoint (hne hx hy hxy) hi hj hk hk'
    simpa only [laneUses, uop_eq hT hx, uop_eq hT hy] using this
  · intro r t
    have hcount := hs.lanes.exclusive.count_le hT.uopIds
      (p := fun u => (s.placement u).resource = some r)
      t fun u _ hp hh => by
        obtain ⟨i, hi, -, -⟩ := Serial.Uses.holds_iff.mp hh
        obtain ⟨r', hr', hl⟩ := hs.lanes.placed hi
        have hr : (s.placement u).resource = some r := by simpa using hp
        obtain rfl : r' = r := Option.some.inj (hr'.symm.trans hr)
        refine ⟨(r', (s.placement u).lane), List.mem_map.mpr ⟨_, List.mem_range.mpr hl, rfl⟩, ?_⟩
        simp only [laneUses, pathOf, hr, Option.map_some]
    rw [List.countP_map, List.length_map, List.length_range] at hcount
    refine le_trans (le_of_eq (List.countP_congr fun x hx => ?_)) hcount
    rw [Function.comp_apply, hholds x hx]
  · intro x hx y hy hxy i j u hi hj hu hv
    have := hs.units.disjoint (hne hx hy hxy) hi hj hu hv
    simpa only [unitUses, uop_eq hT hx, uop_eq hT hy] using this
  · intro d t
    refine le_trans ?_ (htokens d t)
    rw [sum_filter_map, sum_filter_map]
    refine sum_map_le fun x _ => ?_
    by_cases h : (s.uop x.id).issueTick = some t ∧ 0 < x.occupancyTicks
    · have hex : executing s t x = true := by simp [executing, h.1, h.2]
      simp [h, hex]
    · simp [h]
  · exact fun d c => (hs.reads.counted d c).trans (hs.reads.bounded d c)
  · exact fun d c => (hs.writes.counted d c).trans (hs.writes.bounded d c)
  · intro x _ t ht
    obtain ⟨i, hi, rfl, -⟩ := hs.core.uops.completed ht
    rw [dueTick, hi, Option.map_some]
  · intro x hx y hy hxy i j hi hj hc
    have := hs.classes.apart (hne hx hy hxy) hi hj (by rw [uop_eq hT hx, uop_eq hT hy]; exact hc)
    simpa only [uop_eq hT hx, uop_eq hT hy] using this
  · exact fun k capacity hk => ⟨hs.service.released hk, fun t => hs.service.bounded t hk⟩

/-- **No state of a run has a structural hazard.** -/
theorem reachable_hazardFree (T : BoundTrace) (P : EngineProfile) (inOrder : Bool) (mode : CacheMode)
    (limit : Option Bool) (expand : Bool) (E : Config)
    (hE : init T P inOrder mode limit expand = .ok E) (now : ℕ) (s : Sched)
    (h : Reachable E now s) : HazardFree E s := by
  have hA := init_ok hE
  exact (h.inv hA.wellFormed hA.setup.tpc_pos).hazardFree hA.wellFormed

/-! ### A machine with one token -/

namespace Sample

/-- A profile whose domain `port` has one token. -/
def profile : EngineProfile where
  id := "sample"
  ticksPerCycle := 1
  pipeline := ⟨some 2, some 2, some 4, some 4, some 4, some 4⟩
  issueDomains := [("port", some 1)]
  memory := .oneLine ⟨none, none, none, none⟩ 1

def uop (u : Id) (interval occupancy : ℕ) : ExecutionUop where
  id := u
  sequence := u
  parentId := 0
  kind := .scalarAlu
  schedulingClass := .recipe "scalar" "add" none
  latencyTicks := 1
  issueIntervalTicks := interval
  occupancyTicks := occupancy
  resourceChoices := ["alu"]
  issueDomains := ["port"]

/-- Two uops of one macro-op, the first with an interval of five ticks. -/
def trace (occupancy : ℕ) : BoundTrace where
  profileId := "sample"
  ticksPerCycle := 1
  macros := [{ id := 0, sequence := 0, uopIds := [0, 1], decodedMacroOps := 1, retireMacroOps := 1,
               usesVectorScheduler := false, usesLoadQueue := false, usesStoreQueue := false }]
  uops := [uop 0 5 occupancy, uop 1 0 occupancy]
  resources := [("alu", 2)]

end Sample

theorem reachable_hazardFree_sample : ∃ E now s,
    init (Sample.trace 1) Sample.profile false .cold none false = .ok E ∧ run E = .ok (s, now) ∧
      HazardFree E s := by
  obtain ⟨E, hE⟩ := exists_ok (x := init (Sample.trace 1) Sample.profile false .cold none false)
    (by decide +kernel)
  have hrun : ((init (Sample.trace 1) Sample.profile false .cold none false).bind run).toOption.isSome := by
    decide +kernel
  rw [hE] at hrun
  obtain ⟨⟨s, t⟩, h⟩ := exists_ok hrun
  exact ⟨E, t, s, hE, h, reachable_hazardFree _ _ _ _ _ _ E hE t s (run_reachable h)⟩

/-- Two uops that hold their token for no time take the only token of the domain at one
tick, and issue at once although the first has an interval of five ticks. -/
theorem tokens_of_nothing : ∃ E now s,
    init (Sample.trace 0) Sample.profile false .cold none false = .ok E ∧ run E = .ok (s, now) ∧
      domainCapacity E "port" < ((E.trace.uops.filter fun x =>
        (s.uop x.id).issueTick = some 0).map (demandOn "port")).sum ∧
      (s.uop 0).issueTick = (s.uop 1).issueTick ∧ (Sample.uop 0 5 0).issueIntervalTicks = 5 := by
  obtain ⟨E, hE⟩ := exists_ok (x := init (Sample.trace 0) Sample.profile false .cold none false)
    (by decide +kernel)
  have hrun : ((init (Sample.trace 0) Sample.profile false .cold none false).bind fun E =>
      (run E).map fun r => decide (domainCapacity E "port" < ((E.trace.uops.filter fun x =>
        (r.1.uop x.id).issueTick = some 0).map (demandOn "port")).sum ∧
          (r.1.uop 0).issueTick = (r.1.uop 1).issueTick)).toOption = some true := by
    decide +kernel
  rw [hE] at hrun
  obtain ⟨⟨s, t⟩, h, hlt⟩ := ok_map.mp (toOption_ok.mp hrun)
  obtain ⟨htokens, hsame⟩ := of_decide_eq_true hlt
  exact ⟨E, t, s, hE, h, htokens, hsame, rfl⟩

end Xsai
end VectorSim
