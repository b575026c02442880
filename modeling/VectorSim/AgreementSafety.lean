/-
# The Zen 4 engine and the generic-token engine agree

`GenericTokenEngine` is the XSAI engine without the uop expansion. On a profile
without optional policies, and a trace that loads from a warm L1 alone, both
engines run alike: every tick, resource and lane is the same (`engines_agree`).
The one thing they compute differently is the latency of a load, which is the
access's in one and no less than the recipe's in the other; so no recipe may be
slower than the level that serves the load. For a load of no line that is the
last level, not L1 (`engines_differ`).
-/
import VectorSim.Backend.Lockstep

namespace VectorSim

open Checked Setup Xsai

/-- The profile has none of the optional policies of a backend. -/
structure Plain (P : EngineProfile) : Prop where
  partitions : P.partitions = []
  units : P.units = []
  rename : P.rename.enabled = false
  dispatchDomains : P.dispatchDomains = []
  epochs : ∀ e ∈ P.epochs, e.enabled = false
  vectorMemory : P.vectorMemory = {}

/-- The trace is accounted for by decoded macro-ops that fit a cycle, stores nothing, loads from
the lines of its instructions, and no load is slower by its recipe than by the level `served`. -/
structure Comparable (T : BoundTrace) (P : EngineProfile) (served : MemoryAccess → ℕ) : Prop where
  domains : ∀ m ∈ T.macros, ∀ d ∈ m.dispatchDomains, d ∈ P.dispatchDomains.map (·.1)
  width : ∀ m ∈ T.macros, m.dispatchWidthUnits = m.decodedMacroOps
  rob : ∀ m ∈ T.macros, m.robEntryCount = m.decodedMacroOps
  fits : ∀ m ∈ T.macros, ∀ w ∈ P.pipeline.dispatchMacroOpsPerCycle, m.dispatchWidthUnits ≤ w
  stores : ∀ x ∈ T.uops, x.kind ≠ .storeData
  inside : ∀ x ∈ T.uops, ∀ a ∈ x.memory, MemoryConfig.Inside T.sourceLines a
  latency : ∀ x ∈ T.uops, x.kind = .loadData → ∀ a ∈ x.memory,
    ∀ t ∈ (P.memory.levelEntry (served a)).latencyTicks, x.latencyTicks ≤ t

variable {T : BoundTrace} {P : EngineProfile} {inOrder : Bool} {limit : Option Bool}

/-- The shared part of the constructors. -/
theorem setup_ok {mode : CacheMode} {E : Setup} (h : Setup.init T P inOrder mode limit = .ok E) :
    E.trace = T ∧ E.pipeline = P.pipeline ∧ E.memory = P.memory ∧
      P.memory.initialState mode T.sourceLines = .ok E.memoryInit := by
  obtain ⟨memory, hmemory, h⟩ := ok_bind.mp h
  obtain ⟨_, -, h⟩ := ok_bind.mp h
  obtain ⟨_, -, h⟩ := ok_bind.mp h
  obtain ⟨_, -, h⟩ := ok_bind.mp h
  cases h
  refine ⟨rfl, rfl, rfl, ?_⟩
  unfold liftMemory at hmemory
  split at hmemory
  · next h => cases hmemory; exact h
  · cases hmemory

theorem liftProfile_ok {α : Type} {x : Except ProfileError α} {a : α} (h : liftProfile x = .ok a) : x = .ok a := by
  unfold liftProfile at h
  split at h
  · cases h; rfl
  · cases h

/-- A default vector-memory section is no policy. -/
theorem vectorMemory_default {tpc : ℕ} {v : VectorMemoryPolicy}
    (h : VectorMemoryBackend.policy {} tpc = .ok v) :
    v.flowSplit = none ∧ v.serviceCapacity = [] ∧ v.serviceTicks = none ∧ v.issueOrder = .any := by
  obtain ⟨_, -, h⟩ := ok_bind.mp h
  obtain ⟨_, -, h⟩ := ok_bind.mp h
  obtain ⟨_, -, h⟩ := ok_bind.mp h
  obtain ⟨_, hcapacity, h⟩ := ok_bind.mp h
  obtain ⟨_, hservice, h⟩ := ok_bind.mp h
  obtain ⟨_, hsplit, h⟩ := ok_bind.mp h
  cases hcapacity
  cases hservice
  cases hsplit
  cases h
  exact ⟨rfl, rfl, rfl, rfl⟩

theorem epochs_disabled {e : Option EpochBackend} {tpc : ℕ} {p : EpochPolicy} (he : ∀ b ∈ e, b.enabled = false)
    (h : epochPolicy e tpc = .ok p) : p.enabled = false := by
  cases e with
  | none => cases h; rfl
  | some b =>
    obtain ⟨_, -, h⟩ := ok_bind.mp h
    obtain ⟨_, -, h⟩ := ok_bind.mp h
    obtain ⟨_, -, h⟩ := ok_bind.mp h
    obtain ⟨_, -, h⟩ := ok_bind.mp h
    obtain ⟨_, -, h⟩ := ok_bind.mp h
    cases h
    exact he b rfl

/-- **The constructor finds nothing to do for the policies**: without partitions and units no
uop may choose one. -/
theorem bare_of_plain {C : Config} (hB : Bound T) (hP : Plain P) (hT : Comparable T P P.memory.servedLevel)
    (h : Xsai.init T P inOrder .hotL1 limit false = .ok C) :
    Setup.init T P inOrder .hotL1 limit = .ok C.toSetup ∧ Bare T.sourceLines C := by
  obtain ⟨T', hT', h⟩ := ok_bind.mp h
  obtain ⟨read, -, h⟩ := ok_bind.mp h
  obtain ⟨completion, -, h⟩ := ok_bind.mp h
  obtain ⟨domains, -, h⟩ := ok_bind.mp h
  obtain ⟨rename, hrename, h⟩ := ok_bind.mp h
  obtain ⟨E, hE, h⟩ := ok_bind.mp h
  obtain ⟨vector, hvector, h⟩ := ok_bind.mp h
  obtain ⟨epochs, hepochs, h⟩ := ok_bind.mp h
  obtain ⟨_, htopology, h⟩ := ok_bind.mp h
  obtain ⟨_, -, h⟩ := ok_bind.mp h
  cases h
  obtain rfl : T = T' := by
    unfold schedulerTrace at hT'
    split at hT'
    · cases hT'
    · cases hT'; rfl
  obtain ⟨htrace, hpipeline, hmemory, -⟩ := setup_ok hE
  have hv := vectorMemory_default (hP.vectorMemory ▸ liftProfile_ok hvector)
  have hr : rename.enabled = false := by
    have hpolicy := liftProfile_ok hrename
    unfold RenameBackend.policy at hpolicy
    rw [hP.rename] at hpolicy
    cases hpolicy
    rfl
  have hchoices : ∀ x ∈ T.uops, x.executionUnitChoices = [] ∧ x.schedulerPartitionChoices = [] := by
    intro x hx
    have hx' := forM_ok.mp htopology x hx
    obtain ⟨_, hpartitions, hx'⟩ := ok_bind.mp hx'
    obtain ⟨_, hunits, -⟩ := ok_bind.mp hx'
    have h1 : x.schedulerPartitionChoices ⊆ P.partitions.map (·.id) := check_ok.mp hpartitions
    have h2 : x.executionUnitChoices ⊆ P.units.map (·.1) := check_ok.mp hunits
    rw [hP.partitions] at h1
    rw [hP.units] at h2
    exact ⟨List.subset_nil.mp h2, List.subset_nil.mp h1⟩
  refine ⟨hE, ?_⟩
  constructor
  · exact fun x hx => (hchoices x (htrace ▸ hx)).1
  · exact fun x hx => (hchoices x (htrace ▸ hx)).2
  · intro m hm
    have hnone := hT.domains m (htrace ▸ hm)
    rw [hP.dispatchDomains] at hnone
    exact List.eq_nil_iff_forall_not_mem.mpr fun d hd => List.not_mem_nil (hnone d hd)
  · exact hr
  · exact epochs_disabled hP.epochs (liftProfile_ok hepochs)
  · exact hv.1
  · exact hv.2.1
  · exact hv.2.2.1
  · exact hv.2.2.2
  · exact fun m hm => hT.width m (htrace ▸ hm)
  · exact fun m hm => hT.rob m (htrace ▸ hm)
  · exact fun m hm => hpipeline ▸ hT.fits m (htrace ▸ hm)
  · exact fun m hm => htrace ▸ hB.vector m (htrace ▸ hm)
  · exact fun x hx => hT.stores x (htrace ▸ hx)
  · exact fun x hx => hT.inside x (htrace ▸ hx)
  · exact fun x hx hk => hmemory ▸ hT.latency x (htrace ▸ hx) hk

/-- Nothing has happened yet. -/
theorem idle_init {C : Config} {lines : List ℤ} (hresident : C.memory.Resident lines C.memoryInit) :
    Idle lines C (schedInit C) where
  service := rfl
  rename := rfl
  partition _ := rfl
  progress _ _ _ _ := rfl
  scheduler n _ := Int.natCast_nonneg n
  resident := hresident
  latency _ _ := rfl

/-- **The engines agree.** Where the Zen 4 engine's run returns, so does the other's, at the same
tick and with the same state of all they share: the dispatch, ready, issue, complete and retire
ticks, the resources and lanes, the event log. Where the other's returns, so does the Zen 4
engine's, unless it refuses the profile; and an error of the one is an error of the other. -/
theorem engines_agree (T : BoundTrace) (hB : Bound T) (P : EngineProfile) (hP : Plain P)
    (hT : Comparable T P P.memory.servedLevel) (inOrder : Bool) (limit : Option Bool) (E : Setup) (C : Config)
    (hE : Zen4.init T P inOrder .hotL1 limit = .ok E) (hC : Xsai.init T P inOrder .hotL1 limit false = .ok C) :
    (∀ z t, Zen4.run E = .ok (z, t) → ∃ q, Xsai.run C = .ok (q, t) ∧ q.toMachine = z) ∧
    (∀ q t, Xsai.run C = .ok (q, t) →
      Zen4.run E = .ok (q.toMachine, t) ∨ ∃ e, Refused e ∧ Zen4.run E = .error e) ∧
    ∀ e, Zen4.run E = .error e → Refused e ∨ Xsai.run C = .error e := by
  obtain ⟨hsetup, hbare⟩ := bare_of_plain hB hP hT hC
  have hwf : WellFormed C.trace := (Xsai.init_ok hC).wellFormed
  obtain rfl : E = C.toSetup := by
    unfold Zen4.init at hE
    split at hE
    · cases hE
    · exact Except.ok.inj (hE.symm.trans hsetup)
  obtain ⟨-, -, hmemory, hinit⟩ := setup_ok hsetup
  have hresident := MemoryConfig.resident_initialState hinit
  rw [← hmemory] at hresident
  have hrun := run_upTo hbare hwf (idle_init hresident)
  refine ⟨fun z t hz => ?_, fun q t hq => ?_, fun e he => ?_⟩
  · obtain ⟨⟨q, t'⟩, hq, ht, hstep⟩ := hrun.ok hz
    dsimp only at ht hstep
    subst ht
    exact ⟨q, hq, hstep.machine⟩
  · rcases hrun.ok_right hq with ⟨e, he, hrefused⟩ | ⟨⟨z, t'⟩, hz, ht, hstep⟩
    · exact .inr ⟨e, he, hrefused⟩
    · dsimp only at ht hstep
      subst ht
      exact .inl (hstep.machine ▸ hz)
  · rcases hrun with ⟨e', he', hrefused⟩ | hboth
    · obtain rfl := Except.error.inj (he.symm.trans hrefused)
      exact .inl he'
    · rw [he] at hboth
      generalize Xsai.run C = y at hboth
      cases hboth
      exact .inr rfl

namespace Sample

/-- A profile with an L1 of `l1` ticks and an L2 of `l2`. -/
def twoLevels (l1 l2 : ℕ) : EngineProfile where
  id := "sample"
  ticksPerCycle := 1
  pipeline := ⟨some 2, some 2, some 4, some 4, some 4, some 4⟩
  memory := { levels := [⟨⟨some l1, some 64, some 64, some 4⟩, 2, 1⟩, ⟨⟨some l2, some 64, some 64, some 4⟩, 4, 1⟩],
              dram := ⟨some 9, some 64, some 64, some 4⟩, ticksPerCycle := 1 }

def plainUop (u : Id) (kind : Kind) : ExecutionUop where
  id := u
  sequence := u
  parentId := 0
  kind := kind
  schedulingClass := .recipe "scalar" "op" none
  latencyTicks := 4
  issueIntervalTicks := 1
  occupancyTicks := 1
  resourceChoices := ["alu"]

/-- A load of the lines, and a uop that waits for it. -/
def loadTrace (lines : List ℤ) : BoundTrace where
  profileId := "sample"
  ticksPerCycle := 1
  macros := [{ id := 0, sequence := 0, uopIds := [0, 1], decodedMacroOps := 1, retireMacroOps := 1,
               usesVectorScheduler := false, usesLoadQueue := true, usesStoreQueue := false }]
  uops := [{ plainUop 0 .loadData with memory := some ⟨0, 4, lines, .load, []⟩ },
    { plainUop 1 .scalarAlu with dependencies := [0] }]
  resources := [("alu", 1)]
  source := [{ id := 0, sequence := 0, mnemonic := "lw", memory := some ⟨0, 4, lines, .load, []⟩ }]

end Sample

theorem twoLevels_plain (l1 l2 : ℕ) : Plain (Sample.twoLevels l1 l2) :=
  ⟨rfl, rfl, rfl, rfl, fun _ he => (Option.not_mem_none _ he).elim, rfl⟩

theorem loadTrace_comparable {lines : List ℤ} {l1 l2 : ℕ} {served : MemoryAccess → ℕ}
    (h : ∀ t ∈ ((Sample.twoLevels l1 l2).memory.levelEntry (served ⟨0, 4, lines, .load, []⟩)).latencyTicks, 4 ≤ t) :
    Comparable (Sample.loadTrace lines) (Sample.twoLevels l1 l2) served := by
  have hmacro : ∀ m ∈ (Sample.loadTrace lines).macros, m.dispatchDomains = [] ∧ m.dispatchWidthUnits = 1 ∧
      m.robEntryCount = 1 ∧ m.decodedMacroOps = 1 := by
    intro m hm
    obtain rfl := List.mem_singleton.mp hm
    exact ⟨rfl, rfl, rfl, rfl⟩
  have huop : ∀ x ∈ (Sample.loadTrace lines).uops, x.kind ≠ .storeData ∧ x.latencyTicks ≤ 4 ∧
      ∀ a ∈ x.memory, a = ⟨0, 4, lines, .load, []⟩ := by
    intro x hx
    rcases List.mem_cons.mp hx with rfl | hx
    · exact ⟨(by decide : Kind.loadData ≠ .storeData), le_rfl, fun a ha => (Option.some.inj ha).symm⟩
    · obtain rfl := List.mem_singleton.mp hx
      exact ⟨by decide, le_rfl, fun a ha => (Option.not_mem_none _ ha).elim⟩
  refine ⟨fun m hm d hd => ?_, fun m hm => ?_, fun m hm => ?_, fun m hm w hw => ?_, fun x hx => (huop x hx).1,
    fun x hx a ha l hl => ?_, fun x hx _ a ha t ht => ?_⟩
  · rw [( hmacro m hm).1] at hd
    cases hd
  · rw [( hmacro m hm).2.1, ( hmacro m hm).2.2.2]
  · rw [( hmacro m hm).2.2.1, ( hmacro m hm).2.2.2]
  · obtain rfl : 2 = w := Option.some.inj hw
    rw [( hmacro m hm).2.1]
    decide
  · obtain rfl := (huop x hx).2.2 a ha
    simpa [BoundTrace.sourceLines, Sample.loadTrace] using hl
  · obtain rfl := (huop x hx).2.2 a ha
    exact (huop x hx).2.1.trans (h t ht)

theorem engines_agree_sample : ∃ E C z q t, Zen4.init (Sample.loadTrace [0]) (Sample.twoLevels 5 14) false .hotL1 none = .ok E ∧
    Xsai.init (Sample.loadTrace [0]) (Sample.twoLevels 5 14) false .hotL1 none false = .ok C ∧
    Zen4.run E = .ok (z, t) ∧ Xsai.run C = .ok (q, t) ∧ q.toMachine = z := by
  obtain ⟨E, hE⟩ := exists_ok (x := Zen4.init (Sample.loadTrace [0]) (Sample.twoLevels 5 14) false .hotL1 none)
    (by decide +kernel)
  obtain ⟨C, hC⟩ := exists_ok (x := Xsai.init (Sample.loadTrace [0]) (Sample.twoLevels 5 14) false .hotL1 none false)
    (by decide +kernel)
  have hrun : ((Zen4.init (Sample.loadTrace [0]) (Sample.twoLevels 5 14) false .hotL1 none).bind
      Zen4.run).toOption.isSome := by decide +kernel
  rw [hE] at hrun
  obtain ⟨⟨z, t⟩, hz⟩ := exists_ok hrun
  have hB : Bound (Sample.loadTrace [0]) := ⟨by decide, by decide, by decide, by decide, by decide⟩
  have hT : Comparable (Sample.loadTrace [0]) (Sample.twoLevels 5 14) (Sample.twoLevels 5 14).memory.servedLevel :=
    loadTrace_comparable (by decide)
  obtain ⟨q, hq, hqz⟩ := (engines_agree _ hB _ (twoLevels_plain 5 14) hT false none E C hE hC).1 z t hz
  exact ⟨E, C, z, q, t, hE, hC, hz, hq, hqz⟩

/-- With an L2 faster than the L1, a load of no line completes at two ticks in one engine and at
the four of its recipe in the other, although its recipe is faster than the L1. -/
theorem engines_differ : ∃ E C z q t t', Bound (Sample.loadTrace []) ∧ Plain (Sample.twoLevels 5 2) ∧
    Comparable (Sample.loadTrace []) (Sample.twoLevels 5 2) (fun _ => 0) ∧
    Zen4.init (Sample.loadTrace []) (Sample.twoLevels 5 2) false .hotL1 none = .ok E ∧
    Xsai.init (Sample.loadTrace []) (Sample.twoLevels 5 2) false .hotL1 none false = .ok C ∧
    Zen4.run E = .ok (z, t) ∧ Xsai.run C = .ok (q, t') ∧
    (z.uop 0).completeTick = some 2 ∧ (q.uop 0).completeTick = some 4 ∧ t ≠ t' := by
  have hB : Bound (Sample.loadTrace []) := ⟨by decide, by decide, by decide, by decide, by decide⟩
  have hzen : ((Zen4.init (Sample.loadTrace []) (Sample.twoLevels 5 2) false .hotL1 none).bind fun E =>
      (fun r => ((r.1.uop 0).completeTick, r.2)) <$> Zen4.run E).toOption = some (some 2, 6) := by decide +kernel
  have hxsai : ((Xsai.init (Sample.loadTrace []) (Sample.twoLevels 5 2) false .hotL1 none false).bind fun C =>
      (fun r => ((r.1.uop 0).completeTick, r.2)) <$> Xsai.run C).toOption = some (some 4, 8) := by decide +kernel
  obtain ⟨E, hE, hz⟩ := ok_bind.mp (toOption_ok.mp hzen)
  obtain ⟨⟨z, t⟩, hz, hzt⟩ := ok_map.mp hz
  obtain ⟨C, hC, hq⟩ := ok_bind.mp (toOption_ok.mp hxsai)
  obtain ⟨⟨q, t'⟩, hq, hqt⟩ := ok_map.mp hq
  obtain ⟨h2, rfl⟩ := Prod.mk.inj hzt
  obtain ⟨h4, rfl⟩ := Prod.mk.inj hqt
  exact ⟨E, C, z, q, 6, 8, hB, twoLevels_plain 5 2, loadTrace_comparable (by decide), hE, hC, hz, hq, h2, h4, by decide⟩

end VectorSim
