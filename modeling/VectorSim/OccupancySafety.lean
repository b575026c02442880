/-
# The occupancies of a run

For a trace as the binder makes it, every state of a run of either engine
counts what its counters say, within the capacities of the profile, and no
cycle does more than the widths allow.
-/
import VectorSim.Backend.Zen4Occupancy
import VectorSim.Backend.XsaiWidths
import VectorSim.RunSafety

namespace VectorSim

open Core

/-- No counter of the pipeline is negative. -/
structure Nonneg (s : Machine) : Prop where
  rob : 0 ≤ s.robOccupancy
  vector : 0 ≤ s.vectorSchedulerOccupancy
  load : 0 ≤ s.loadQueueOccupancy
  store : 0 ≤ s.storeQueueOccupancy

namespace Zen4

/-- The accounts of a state of the Zen 4 engine. -/
structure Accounted (E : Setup) (s : Machine) : Prop where
  counters : Counters E (·.decodedMacroOps) (·.usesVectorScheduler) s
  nonneg : Nonneg s
  widths : Widths E s

end Zen4

namespace Xsai

/-- The accounts of a state of the XSAI engine. -/
structure Accounted (E : Config) (s : Sched) : Prop where
  counters : Counters E.toSetup (·.robEntryCount) (usesLegacyVectorScheduler E) s.toMachine
  nonneg : Nonneg s.toMachine
  /-- A partition holds the uops assigned to it that are dispatched and have not issued. -/
  partition : ∀ p, s.partitionOccupancy p = (E.trace.uops.countP (waitsIn s p) : ℕ) ∧
    s.partitionOccupancy p ≤ entries E p
  partitionNonneg : ∀ p, 0 ≤ s.partitionOccupancy p
  renameNonneg : ∀ f, 0 ≤ s.renameFree f
  widths : Widths E s

/-- The units dispatched from one tick of a run to any later state of the same cycle are
within the dispatch width. -/
def UnitsWithin (E : Config) : Prop :=
  ∀ {n now t s s₁ s' fs gs}, AtTick E now s → EventLoop.Reaches (loop E) n now s t s₁ →
    t / E.ticksPerCycle = now / E.ticksPerCycle → phases E t = fs ++ gs → Setup.visitOf fs s₁ = .ok s' →
      spentUnits E s' ≤ spentUnits E s + dispatchWidth E

end Xsai

/-- **The counters of a run are what they count and stay within the profile.** -/
theorem run_accounted (T : BoundTrace) (hB : Bound T) (P : EngineProfile) (inOrder : Bool)
    (mode : CacheMode) (limit : Option Bool) :
    (∀ E now s, Zen4.init T P inOrder mode limit = .ok E → Zen4.Reachable E now s → Zen4.Accounted E s) ∧
    (∀ expand E, Xsai.init T P inOrder mode limit expand = .ok E →
      (∀ now s, Xsai.Reachable E now s → Xsai.Accounted E s) ∧ Xsai.UnitsWithin E) := by
  have hnonneg : ∀ {E entries uses s}, Counters E entries uses s → Nonneg s := fun h =>
    ⟨h.nonneg.1, h.nonneg.2.1, h.nonneg.2.2.1, h.nonneg.2.2.2⟩
  constructor
  · intro E now s hE h
    obtain ⟨hT, hA⟩ := Zen4.init_ok hE
    have hcounters := h.counters hT (hA.trace ▸ hB)
    exact ⟨hcounters, hnonneg hcounters, h.widths hT⟩
  · intro expand E hE
    have hA := Xsai.init_ok hE
    have hT := hA.wellFormed
    have hbound := Xsai.schedulerTrace_bound hB hA.scheduled
    have hdistinct : ∀ m ∈ E.trace.macros, m.uopIds.Nodup := fun m hm => (hbound m hm).1
    refine ⟨fun now s h => ?_, ?_⟩
    · have hocc := h.occupied hT hdistinct fun m hm => (hbound m hm).2
      refine ⟨hocc.counters, hnonneg hocc.counters,
        fun p => ⟨hocc.partitions.counted p, hocc.partitions.fits p⟩, fun p => ?_, hocc.rename,
        h.widths hT hdistinct⟩
      rw [hocc.partitions.counted p]
      exact Int.natCast_nonneg _
    · intro n now t s s₁ s' fs gs h hr hc hfs hv
      refine (Xsai.units_within hT hdistinct h hr hc hfs hv).trans (Nat.add_le_add_left ?_ _)
      split
      · exact le_rfl
      · exact Nat.zero_le _

theorem run_accounted_sample :
    (∃ E s t, Zen4.init Sample.kernelTrace Sample.kernelProfile false .cold none = .ok E ∧ Zen4.run E = .ok (s, t) ∧
      Zen4.Accounted E s) ∧
    ∃ E s t, Xsai.init Sample.kernelTrace Sample.kernelProfile false .cold none false = .ok E ∧
      Xsai.run E = .ok (s, t) ∧ Xsai.Accounted E s := by
  obtain ⟨E, s, t, hE, h, -⟩ := Sample.zen4_runs
  obtain ⟨E', s', t', hE', h', -⟩ := Sample.xsai_runs
  exact ⟨⟨E, s, t, hE, h, (run_accounted _ Sample.kernelTrace_bound _ _ _ _).1 E t s hE (Zen4.run_reachable h)⟩,
    E', s', t', hE', h',
    ((run_accounted _ Sample.kernelTrace_bound _ _ _ _).2 false E' hE').1 t' s' (Xsai.run_reachable h')⟩

end VectorSim
