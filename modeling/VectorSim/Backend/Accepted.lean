/-
# What the constructors accept

A constructor that returns has validated the trace and the topology; the runs
rely on what it has checked (`Setup.Accepted`, `Xsai.Accepted`).
-/
import VectorSim.Backend.Zen4Steps
import VectorSim.Backend.XsaiSteps

namespace VectorSim

open Checked

/-- What the constructors have checked in common. -/
structure Setup.Accepted (T : BoundTrace) (inOrder : Bool) (E : Setup) : Prop where
  trace : E.trace = T
  inOrder : E.inOrder = inOrder
  tpc_pos : 0 < E.ticksPerCycle
  domains : ∀ x ∈ T.uops, ∀ d ∈ x.issueDomains, d ∈ E.issueDomains.map (·.1)

variable {T : BoundTrace} {P : EngineProfile} {inOrder : Bool} {mode : CacheMode} {limit : Option Bool}

theorem Setup.init_ok {E : Setup} (h : Setup.init T P inOrder mode limit = .ok E) :
    Setup.Accepted T inOrder E := by
  obtain ⟨_, -, h⟩ := ok_bind.mp h
  obtain ⟨_, -, h⟩ := ok_bind.mp h
  obtain ⟨_, hdomains, h⟩ := ok_bind.mp h
  obtain ⟨_, htpc, h⟩ := ok_bind.mp h
  cases h
  exact ⟨rfl, rfl, check_ok.mp htpc, check_ok.mp hdomains⟩

theorem Zen4.init_ok {E : Setup} (h : Zen4.init T P inOrder mode limit = .ok E) :
    WellFormed E.trace ∧ Setup.Accepted T inOrder E := by
  unfold Zen4.init at h
  split at h
  · cases h
  · next hv =>
    have hE := Setup.init_ok h
    exact ⟨hE.trace ▸ wellFormed_of_valid hv, hE⟩

/-- The trace the engine schedules is valid. -/
theorem Zen4.init_valid {E : Setup} (h : Zen4.init T P inOrder mode limit = .ok E) :
    validateBoundTrace E.trace = .ok () := by
  unfold Zen4.init at h
  split at h
  · cases h
  · next hv => exact (Setup.init_ok h).trace ▸ hv

namespace Xsai

/-- The trace the engine schedules is valid. -/
theorem schedulerTrace_valid {T' : BoundTrace} {expand : Bool}
    (h : schedulerTrace T P expand = .ok T') : validateBoundTrace T' = .ok () := by
  unfold schedulerTrace at h
  split at h
  · cases h
  · next hv =>
    split at h
    · split at h
      · cases h
      · dsimp only at h
        split at h
        · cases h
        · next hv' => cases h; exact hv'
    · cases h; exact hv

/-- The macro-ops of the trace the engine schedules list no uop twice, where those it is
given list none. -/
theorem schedulerTrace_distinct {T' : BoundTrace} {expand : Bool}
    (hn : ∀ m ∈ T.macros, m.uopIds.Nodup) (h : schedulerTrace T P expand = .ok T') :
    ∀ m ∈ T'.macros, m.uopIds.Nodup := by
  have hvalid := schedulerTrace_valid h
  unfold schedulerTrace at h
  split at h
  · cases h
  · next hv =>
    split at h
    · split at h
      · cases h
      · next slots hslots =>
        dsimp only at h
        split at h
        · cases h
        · cases h
          exact Expander.materialize_distinct
            (Expander.expand_macroUops (wellFormed_of_valid hv) hslots) (wellFormed_of_valid hvalid).uopIds
    · cases h
      exact hn

/-- The macro-ops keep their rename allocations. -/
theorem schedulerTrace_renames {T' : BoundTrace} {expand : Bool} (h : schedulerTrace T P expand = .ok T') :
    ∀ m ∈ T'.macros, ∃ m' ∈ T.macros, m.renameAllocations = m'.renameAllocations := by
  unfold schedulerTrace at h
  split at h
  · cases h
  · split at h
    · split at h
      · cases h
      · dsimp only at h
        split at h
        · cases h
        · cases h
          intro m hm
          obtain ⟨m', hm', rfl⟩ := List.mem_map.mp hm
          exact ⟨m', hm', rfl⟩
    · cases h
      exact fun m hm => ⟨m, hm, rfl⟩

/-- What the binder promises of a trace's macro-ops, the engine finds in the one it schedules. -/
theorem schedulerTrace_bound {T' : BoundTrace} {expand : Bool} (hB : Bound T)
    (h : schedulerTrace T P expand = .ok T') :
    ∀ m ∈ T'.macros, m.uopIds.Nodup ∧ (m.renameAllocations.map (·.1)).Nodup := by
  intro m hm
  obtain ⟨m', hm', he⟩ := schedulerTrace_renames h m hm
  exact ⟨schedulerTrace_distinct hB.distinct h m hm, he ▸ hB.renames m' hm'⟩

/-- The engine schedules uops that reserve the domains of uops of the trace it is given. -/
theorem schedulerTrace_issueDomains {T' : BoundTrace} {expand : Bool}
    (h : schedulerTrace T P expand = .ok T') :
    ∀ x ∈ T'.uops, ∃ y ∈ T.uops, x.issueDomains = y.issueDomains := by
  unfold schedulerTrace at h
  split at h
  · cases h
  · split at h
    · split at h
      · cases h
      · next slots hslots =>
        dsimp only at h
        split at h
        · cases h
        · cases h
          exact Expander.materialize_issueDomains hslots
    · cases h
      exact fun x hx => ⟨x, hx, rfl⟩

/-- What the constructor of the XSAI engine has checked. -/
structure Accepted (T : BoundTrace) (P : EngineProfile) (inOrder expand : Bool) (E : Config) : Prop where
  setup : Setup.Accepted E.trace inOrder E.toSetup
  scheduled : schedulerTrace T P expand = .ok E.trace
  valid : validateBoundTrace E.trace = .ok ()
  topology : ∀ x ∈ E.trace.uops, validateTopology E x = .ok ()
  measured : ∀ x ∈ E.trace.uops, ∀ p ∈ E.partitions, p.id ∈ x.schedulerPartitionChoices →
    p.entries.isSome ∧ p.enqueueWidth.isSome

theorem Accepted.wellFormed {expand : Bool} {E : Config} (h : Accepted T P inOrder expand E) :
    WellFormed E.trace := wellFormed_of_valid h.valid

theorem init_ok {expand : Bool} {E : Config} (h : init T P inOrder mode limit expand = .ok E) :
    Accepted T P inOrder expand E := by
  obtain ⟨T', hT', h⟩ := ok_bind.mp h
  obtain ⟨read, -, h⟩ := ok_bind.mp h
  obtain ⟨completion, -, h⟩ := ok_bind.mp h
  obtain ⟨domains, -, h⟩ := ok_bind.mp h
  obtain ⟨rename, -, h⟩ := ok_bind.mp h
  obtain ⟨S, hS, h⟩ := ok_bind.mp h
  obtain ⟨vector, -, h⟩ := ok_bind.mp h
  obtain ⟨epochs, -, h⟩ := ok_bind.mp h
  obtain ⟨_, htop, h⟩ := ok_bind.mp h
  obtain ⟨_, hmeas, h⟩ := ok_bind.mp h
  cases h
  have hsetup := Setup.init_ok hS
  obtain rfl := hsetup.trace
  exact ⟨⟨rfl, hsetup.inOrder, hsetup.tpc_pos, hsetup.domains⟩, hT', schedulerTrace_valid hT',
    forM_ok.mp htop, check_ok.mp hmeas⟩

/-- Beside its own policies the engine is set up as the Zen 4 engine is. -/
theorem init_setup {expand : Bool} {E : Config} (h : init T P inOrder mode limit expand = .ok E) :
    Setup.init E.trace P inOrder mode limit = .ok E.toSetup := by
  obtain ⟨T', -, h⟩ := ok_bind.mp h
  obtain ⟨_, -, h⟩ := ok_bind.mp h
  obtain ⟨_, -, h⟩ := ok_bind.mp h
  obtain ⟨_, -, h⟩ := ok_bind.mp h
  obtain ⟨_, -, h⟩ := ok_bind.mp h
  obtain ⟨S, hS, h⟩ := ok_bind.mp h
  obtain ⟨_, -, h⟩ := ok_bind.mp h
  obtain ⟨_, -, h⟩ := ok_bind.mp h
  obtain ⟨_, -, h⟩ := ok_bind.mp h
  obtain ⟨_, -, h⟩ := ok_bind.mp h
  cases h
  have htrace : S.trace = T' := (Setup.init_ok hS).trace
  show Setup.init S.trace P inOrder mode limit = .ok S
  rw [htrace, hS]

/-- Without the expander the engine schedules the trace it is given. -/
theorem init_trace {E : Config} (h : init T P inOrder mode limit false = .ok E) : E.trace = T := by
  have hscheduled := (init_ok h).scheduled
  unfold schedulerTrace at hscheduled
  split at hscheduled
  · cases hscheduled
  · rw [Bool.false_and, if_neg (by simp)] at hscheduled
    exact (Except.ok.inj hscheduled).symm

/-- The rename policy of the engine is the profile's. -/
theorem init_rename {expand : Bool} {E : Config} (h : init T P inOrder mode limit expand = .ok E) :
    P.rename.policy P.ticksPerCycle = .ok E.rename := by
  obtain ⟨T', -, h⟩ := ok_bind.mp h
  obtain ⟨read, -, h⟩ := ok_bind.mp h
  obtain ⟨completion, -, h⟩ := ok_bind.mp h
  obtain ⟨domains, -, h⟩ := ok_bind.mp h
  obtain ⟨rename, hrename, h⟩ := ok_bind.mp h
  obtain ⟨S, -, h⟩ := ok_bind.mp h
  obtain ⟨vector, -, h⟩ := ok_bind.mp h
  obtain ⟨epochs, -, h⟩ := ok_bind.mp h
  obtain ⟨_, -, h⟩ := ok_bind.mp h
  obtain ⟨_, -, h⟩ := ok_bind.mp h
  cases h
  unfold liftProfile at hrename
  split at hrename
  · next hp => cases hrename; exact hp
  · cases hrename

/-- An enabled release has a positive width. -/
theorem releaseWidth_pos {expand : Bool} {E : Config} (h : init T P inOrder mode limit expand = .ok E)
    (henabled : E.rename.enabled = true) : 0 < E.rename.releaseWidth := by
  have hpolicy := init_rename h
  unfold RenameBackend.policy at hpolicy
  split at hpolicy
  · obtain ⟨_, -, hpolicy⟩ := ok_bind.mp hpolicy
    obtain ⟨_, -, hpolicy⟩ := ok_bind.mp hpolicy
    obtain ⟨width, -, hpolicy⟩ := ok_bind.mp hpolicy
    obtain ⟨_, -, hpolicy⟩ := ok_bind.mp hpolicy
    obtain ⟨_, -, hpolicy⟩ := ok_bind.mp hpolicy
    split at hpolicy
    · cases hpolicy
    · rw [← Except.ok.inj hpolicy]
      exact width.pos
  · rw [← Except.ok.inj hpolicy] at henabled
    cases henabled

end Xsai
end VectorSim
