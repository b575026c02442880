/-
# Structural-hazard safety of the Zen 4 engine

In every state of a run of the Zen 4 engine, the uops that have issued keep to
the lanes of the resources they may use, to the intervals of their scheduling
classes and to the tokens of the issue domains (`Zen4.HazardFree`), as the uops of
the XSAI engine do. A uop that occupies its lane for no tick holds nothing.
-/
import VectorSim.Backend.Zen4Hazards
import VectorSim.Backend.Accepted
import VectorSim.StructuralSafety
import VectorSim.RunSafety

namespace VectorSim

open Core

/-! ### Lanes, tokens and intervals -/

/-- A uop that has issued holds its resources at a tick. -/
def Core.executing (c : Core) (t : ℕ) (x : ExecutionUop) : Bool :=
  (c.uop x.id).issueTick.any fun i => i ≤ t ∧ t < i + x.occupancyTicks

namespace Zen4

open Setup

variable {E : Setup} {now : ℕ} {s : Machine}

/-- What a state's record of issues, lanes and tokens satisfies. -/
structure HazardFree (E : Setup) (s : Machine) : Prop where
  /-- Every uop that has issued has a lane of a resource that it may use. -/
  lane : ∀ x ∈ E.trace.uops, (s.uop x.id).issueTick.isSome → ∃ r ∈ x.resourceChoices,
    (s.placement x.id).resource = some r ∧ (s.placement x.id).lane < lookupD E.trace.resources r 0
  /-- Two uops on one lane hold it at disjoint times. -/
  lanes : ∀ x ∈ E.trace.uops, ∀ y ∈ E.trace.uops, x ≠ y → ∀ i j r,
    (s.uop x.id).issueTick = some i → (s.uop y.id).issueTick = some j →
    (s.placement x.id).resource = some r → (s.placement y.id).resource = some r →
    (s.placement x.id).lane = (s.placement y.id).lane →
      i + x.occupancyTicks ≤ j ∨ j + y.occupancyTicks ≤ i
  /-- A resource is held by no more uops than it has lanes. -/
  laneCount : ∀ r t, E.trace.uops.countP (fun x =>
    (s.placement x.id).resource = some r && s.executing t x) ≤ lookupD E.trace.resources r 0
  /-- The tokens of an issue domain that are held at a tick are within its capacity. -/
  tokens : ∀ d t, ((E.trace.uops.filter (s.executing t)).map (demandOn d)).sum ≤ domainCapacity E d
  /-- Two uops of one scheduling class issue the later one's interval apart. -/
  classes : ∀ x ∈ E.trace.uops, ∀ y ∈ E.trace.uops, x ≠ y → ∀ i j,
    (s.uop x.id).issueTick = some i → (s.uop y.id).issueTick = some j →
    x.schedulingClass = y.schedulingClass →
      i + y.issueIntervalTicks ≤ j ∨ j + x.issueIntervalTicks ≤ i

/-- The invariants bound what the uops record. -/
theorem Held.hazardFree (hT : WellFormed E.trace) (hs : Held E now s) : HazardFree E s := by
  have hid : ∀ {x y}, x ∈ E.trace.uops → y ∈ E.trace.uops → x ≠ y → x.id ≠ y.id := fun hx hy hxy he =>
    hxy (Option.some.inj ((hT.uop?_eq hx).symm.trans (he ▸ hT.uop?_eq hy)))
  have hholds : ∀ x ∈ E.trace.uops, ∀ t, (laneUses E s).holds x.id t = s.executing t x := by
    intro x hx t
    simp only [Serial.Uses.holds, laneUses, Core.executing, uop_eq hT hx]
  refine { lane := ?_, lanes := ?_, laneCount := ?_, tokens := ?_, classes := ?_ }
  · intro x hx hi
    obtain ⟨i, hi⟩ := Option.isSome_iff_exists.mp hi
    have hplaced := hs.lanes.placed hi
    rwa [uop_eq hT hx] at hplaced
  · intro x hx y hy hxy i j r hi hj hr hr' hl
    have hk : (laneUses E s).key x.id = some (r, (s.placement x.id).lane) := by
      simp only [laneUses, hr, Option.map_some]
    have hk' : (laneUses E s).key y.id = some (r, (s.placement x.id).lane) := by
      simp only [laneUses, hr', hl, Option.map_some]
    have := hs.lanes.exclusive.disjoint (hid hx hy hxy) hi hj hk hk'
    simpa only [laneUses, uop_eq hT hx, uop_eq hT hy] using this
  · intro r t
    -- the lanes of the resource are the pool
    have hcount := hs.lanes.exclusive.count_le hT.uopIds (p := fun u => (s.placement u).resource = some r)
      t fun u _ hp hh => by
        obtain ⟨i, hi, -, -⟩ := Serial.Uses.holds_iff.mp hh
        obtain ⟨r', -, hr', hl⟩ := hs.lanes.placed hi
        have hr : (s.placement u).resource = some r := by simpa using hp
        obtain rfl : r' = r := Option.some.inj (hr'.symm.trans hr)
        refine ⟨(r', (s.placement u).lane), List.mem_map.mpr ⟨_, List.mem_range.mpr hl, rfl⟩, ?_⟩
        simp only [laneUses, hr, Option.map_some]
    rw [List.countP_map, List.length_map, List.length_range] at hcount
    refine le_trans (le_of_eq (List.countP_congr fun x hx => ?_)) hcount
    rw [Function.comp_apply, hholds x hx]
  · intro d t
    refine le_trans (le_of_eq ?_) (hs.tokens.bounded d t)
    rw [Xsai.sum_filter_map]
    refine congrArg List.sum (List.map_congr_left fun x hx => ?_)
    rw [Zen4.tokens, hholds x hx]
  · intro x hx y hy hxy i j hi hj hc
    have := hs.classes.apart (hid hx hy hxy) hi hj (by rw [uop_eq hT hx, uop_eq hT hy]; exact hc)
    simpa only [uop_eq hT hx, uop_eq hT hy] using this

/-- **No state of a run has a structural hazard.** -/
theorem lanes_safe (T : BoundTrace) (P : EngineProfile) (inOrder : Bool) (mode : CacheMode)
    (limit : Option Bool) (E : Setup) (hE : init T P inOrder mode limit = .ok E) (now : ℕ) (s : Machine)
    (h : Reachable E now s) : HazardFree E s := by
  have hT := (init_ok hE).1
  exact (h.held hT).hazardFree hT

theorem lanes_safe_sample : ∃ E s t, init Sample.kernelTrace Sample.kernelProfile false .cold none = .ok E ∧
    run E = .ok (s, t) ∧ HazardFree E s := by
  obtain ⟨E, s, t, hE, h, -⟩ := Sample.zen4_runs
  exact ⟨E, s, t, hE, h, lanes_safe _ _ _ _ _ E hE t s (run_reachable h)⟩

end Zen4
end VectorSim
