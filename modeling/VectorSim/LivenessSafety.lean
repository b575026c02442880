/-
# Every program that fits is simulated to its end

The converse of the programs that the guard rejects: without a limit on the overlap of
loads and sums, and with a profile that is measured and has what the trace asks for, the
event loop of the Zen 4 engine comes to its end, in order or out of order, with all
macro-ops retired, from whatever trace whose edges point back (`simulable_ends`). None of
its errors can occur, `deadlock` and `noForwardProgress` among them, and the guard on the
visits alone can cut the run off. The XSAI loop ends as well, where its mixed epochs take
their tokens in the order of the program and give them back (`Xsai.supplied_ends`).
-/
import VectorSim.Lib.Liveness
import VectorSim.Backend.Zen4Liveness
import VectorSim.XsaiLiveness
import VectorSim.AgreementSafety
import VectorSim.RunSafety
import VectorSim.TraceSafety
import VectorSim.Layout

namespace VectorSim

open Checked Setup Core EventLoop

/-! ### The loop advances -/

namespace Zen4

variable {E : Setup} {now h : ℕ} {s s' : Machine}

theorem AtTick.atHead (hT : WellFormed E.trace) (hB : Bound E.trace) (hE : Equipped E) (hs : AtTick E now s) :
    AtHead E now s where
  inv := hs.invariant (P := Inv E) hT inv_init (fun _ _ _ => inv_step hT) fun _ _ _ h hlt => h.later hlt.le
  counters := Reachable.counters hT hB ⟨s, [], phases E now, hs, rfl, rfl⟩
  tracked := by
    refine (hs.invariant (P := fun now s => Inv E now s ∧ Tracked E.trace s.toCore) hT ⟨inv_init, tracked_init hT⟩
      (fun _ _ _ h hstep => ⟨inv_step hT h.1 hstep, ?_⟩) fun _ _ _ h hlt => ⟨h.1.later hlt.le, h.2⟩).2
    exact (step_core h.1 hstep).invariant _ _ _ h.2 fun _ _ hc hstep => tracked_step hT hc hstep
  sized := hs.sized hT hE.toProvided

/-- After a visit nothing is due. -/
theorem visit_head (hv : visitOf (phases E now) s = .ok s') : ∀ e ∈ s'.completionHeap.head?, now < e.tick := by
  obtain ⟨s₁, -, hv⟩ := ok_bind.mp hv
  obtain ⟨s₂, -, hv⟩ := ok_bind.mp hv
  obtain ⟨s₃, -, hv⟩ := ok_bind.mp hv
  obtain ⟨s₄, h₄, hv⟩ := ok_bind.mp hv
  obtain ⟨s₅, h₅, hv⟩ := ok_bind.mp hv
  cases hv
  cases h₄
  have hretire : ∀ (width fuel retired : ℕ) (t : Machine),
      (retireLoop E width now fuel retired t).completionHeap = t.completionHeap := by
    intro width fuel
    induction fuel with
    | zero => exact fun _ _ => rfl
    | succ fuel ih =>
      intro retired t
      unfold retireLoop
      split
      · rfl
      · split
        · rw [ih]; rfl
        · rfl
  have hheap : s'.completionHeap = (complete E now s₃).2.completionHeap := by
    dsimp only at h₅
    split at h₅
    · obtain ⟨width, -, h₅⟩ := ok_bind.mp h₅
      cases h₅
      exact hretire _ _ _ _
    · cases h₅; rfl
  rw [hheap]
  exact completeLoop_head _ s₃ le_rfl

theorem pollAll_later : ∀ (xs : List ExecutionUop) {r r' : MemoryState × List ℕ}, (∀ t ∈ r.2, now < t) →
    xs.foldlM (pollWaiting E now s) r = .ok r' → ∀ t ∈ r'.2, now < t
  | [], _, _, hr, h => by cases h; exact hr
  | x :: xs, r, r', hr, h => by
    rw [List.foldlM_cons] at h
    obtain ⟨q, hq, h⟩ := ok_bind.mp h
    obtain ⟨b, -, hq⟩ := ok_bind.mp hq
    obtain ⟨ticks, hticks, hq⟩ := ok_bind.mp hq
    cases hq
    refine pollAll_later xs (fun t ht => ?_) h
    rcases List.mem_append.mp ht with ht | ht
    · exact hr t ht
    · exact waitingTicks_later hticks t ht

/-- The next tick is a later one. -/
theorem nextEventTick_later (htpc : 0 < E.ticksPerCycle) (hhead : ∀ e ∈ s.completionHeap.head?, now < e.tick) {t : ℕ}
    (hn : nextEventTick E now s = .ok (s', t)) : now < t := by
  obtain ⟨r, hr, hn⟩ := ok_bind.mp hn
  split at hn
  · cases hn
  · next t' hmin =>
    cases hn
    rcases List.mem_append.mp (List.min?_eq_some_iff.mp hmin).1 with ht | ht
    · rcases List.mem_append.mp ht with ht | ht
      · obtain ⟨e, he, rfl⟩ : ∃ e, s.completionHeap.head? = some e ∧ e.tick = t := by simpa using ht
        exact hhead e he
      · split at ht
        · obtain rfl := List.mem_singleton.mp ht
          have := Nat.lt_div_mul_add htpc (a := now)
          rw [nextCycle, Nat.add_one_mul]
          omega
        · cases ht
    · exact pollAll_later _ (by simp) hr t ht

/-- **The loop is steady.** -/
theorem steady (hT : WellFormed E.trace) (htpc : 0 < E.ticksPerCycle) (hB : Bound E.trace) (hP : InProgramOrder E.trace)
    (hcounts : ∀ m ∈ E.trace.macros, 0 < m.decodedMacroOps ∧ 0 < m.retireMacroOps) (hE : Equipped E)
    (hover : E.overlap.enabled = false) :
    Steady (loop E) (AtTick E) (fun s => work E.trace s.toCore) Idle (Calm E) (E.boundary · = true) where
  calm now s := by
    obtain ⟨h, hcalm⟩ := exists_calm E s
    have hge : h + now ≤ (h + now) * E.ticksPerCycle := Nat.le_mul_of_pos_right _ htpc
    exact ⟨(h + now) * E.ticksPerCycle, by simp [boundary], by omega, hcalm _ (by omega)⟩
  visit {now s} hs hu := by
    have hhead := hs.atHead hT hB hE
    have hne : E.trace.macros ≠ [] := by
      rintro hnil
      obtain ⟨r, a, hr⟩ := hhead.inv.core.rob
      have hrob : s.rob = [] := by simpa [hnil] using hr.rob
      simp [loop, unfinished, hnil, hrob] at hu
    obtain ⟨s₁, hv⟩ : ∃ s₁, visitOf (phases E now) s = .ok s₁ := visit_returns hT hE hne hhead.sized
    exact ⟨s₁, hv, visit_moves hT (List.Subset.refl _) hv⟩
  works hs hu hb hc hv := visit_works hT hB hP hcounts hE hover hb (hs.atHead hT hB hE) hc hu hv
  next {now s s₁} hs hu hv hu₁ := by
    have hsized := steps_sized hE.toProvided (hs.sized hT hE.toProvided) (visit_steps hT (List.Subset.refl _) hv)
    obtain ⟨⟨s₂, t⟩, hn⟩ : ∃ r, nextEventTick E now s₁ = .ok r := nextEventTick_returns hT hE hsized hu₁
    have hlt := nextEventTick_later htpc (visit_head hv) hn
    refine ⟨s₂, t, hn, hlt, ?_, nextEventTick_idle hn, fun h hb hnow => ?_⟩
    · obtain ⟨n, hr⟩ := hs
      exact ⟨n + 1, hr.trans (.succ ⟨hu, s₁, hv, hu₁, hn, hlt⟩ .zero)⟩
    · exact (nextEventTick_le hu₁ hn).trans (nextCycle_le htpc hb hnow)
  still {s s'} hi := by
    refine ⟨by rw [hi.core], ?_, fun h hc => hi.calm hc⟩
    show E.unfinished s'.toCore = E.unfinished s.toCore
    rw [hi.core]

end Zen4

namespace Xsai

variable {E : Config}

/-- **So is the loop of the XSAI engine**, where the machine is able. -/
theorem steady (hE : Able E) (htpc : 0 < E.ticksPerCycle) :
    Steady (loop E) (AtTick E) (work E) Polled (Calm E) (E.boundary · = true) where
  calm now s := by
    obtain ⟨h, hcalm⟩ := exists_calm htpc s
    have hge : h + now ≤ (h + now) * E.ticksPerCycle := Nat.le_mul_of_pos_right _ htpc
    exact ⟨(h + now) * E.ticksPerCycle, by simp [boundary], by omega, hcalm _ (by omega)⟩
  visit {now s} hs hu := by
    have hhead := hs.atHead hE.wellFormed hE.onceEach hE.toProvided hE.terminals
    have hne : E.trace.macros ≠ [] := by
      rintro hnil
      obtain ⟨r, a, hr⟩ := hhead.sound.core.rob
      have hrob : s.rob = [] := by simpa [hnil] using hr.rob
      simp [loop, unfinished, hnil, hrob] at hu
    obtain ⟨s₁, hv⟩ : ∃ s₁, visitOf (phases E now) s = .ok s₁ :=
      visit_returns hE.wellFormed hE.onceEach hE.toEquipped hE.wired hne hhead.sound hhead.stocked
    exact ⟨s₁, hv, visit_proceeds hE.wellFormed (List.Subset.refl _) hv⟩
  works hs hu hb hc hv :=
    visit_works hE hb (hs.atHead hE.wellFormed hE.onceEach hE.toProvided hE.terminals) hc hu hv
  next {now s s₁} hs hu hv hu₁ := by
    have hsteps : Steps E now s s₁ := visit_steps hE.wellFormed (List.Subset.refl _) hv
    have hhead := hsteps.invariant (hs.atHead hE.wellFormed hE.onceEach hE.toProvided hE.terminals)
      fun _ _ hs hstep => hs.step hE.wellFormed hE.onceEach hE.toProvided hE.terminals hstep
    obtain ⟨⟨s₂, t⟩, hn⟩ : ∃ r, nextEventTick E now s₁ = .ok r :=
      nextEventTick_returns hE.wellFormed hE.toEquipped hE.wired hhead.sound.flows hhead.stocked hu₁
    obtain ⟨hheap, hflows⟩ := visit_ahead hE.wellFormed hv
    have hlt := nextEventTick_later htpc hheap hflows hn
    refine ⟨s₂, t, hn, hlt, ?_, nextEventTick_polled hn, fun h hb hnow => ?_⟩
    · obtain ⟨n, hr⟩ := hs
      exact ⟨n + 1, hr.trans (.succ ⟨hu, s₁, hv, hu₁, hn, hlt⟩ .zero)⟩
    · exact (nextEventTick_le hu₁ hn).trans (nextCycle_le htpc hb hnow)
  still {s s'} hp := by
    refine ⟨hp.work, ?_, fun h hc => hp.calm hc⟩
    obtain ⟨⟨_, _, _, _, rfl⟩, -, -⟩ := hp
    rfl

end Xsai

/-! ### Runs -/

/-- All macro-ops of the trace have retired. -/
def AllRetired (T : BoundTrace) (c : Core) : Prop :=
  ∀ m ∈ T.macros, (c.macro_ m.id).retireTick.isSome

theorem allRetired_of_ordered {inOrder : Bool} {c : Core} (h : RunOrdered T inOrder c) : AllRetired T c := by
  intro m hm
  obtain ⟨s, t, -, ht, -⟩ := h.macroRetire m hm
  rw [ht]
  rfl

/-- The edges of the trace point to earlier uops, and a machine that is drained has room for
each of its macro-ops. -/
def Simulable (T : BoundTrace) (P : EngineProfile) : Prop :=
  PointsBack T ∧
    ∀ m ∈ T.macros, (∃ n ∈ P.pipeline.dispatchMacroOpsPerCycle, m.decodedMacroOps ≤ n) ∧
      (∃ n ∈ P.pipeline.robEntries, m.decodedMacroOps ≤ n) ∧
      (∃ n ∈ P.pipeline.retireMacroOpsPerCycle, m.retireMacroOps ≤ n) ∧
      (∃ n ∈ P.pipeline.vectorSchedulerEntries, 1 ≤ n) ∧ (∃ n ∈ P.pipeline.loadQueueEntries, 1 ≤ n) ∧
      ∃ n ∈ P.pipeline.storeQueueEntries, 1 ≤ n

instance (T : BoundTrace) (P : EngineProfile) : Decidable (Simulable T P) := by
  unfold Simulable; infer_instance

/-- The profile has what the trace asks for, and is measured where the trace is simulated. -/
structure Supplied (T : BoundTrace) (P : EngineProfile) : Prop where
  choices : ∀ x ∈ T.uops, x.resourceChoices ≠ []
  lanes : ∀ x ∈ T.uops, ∀ r ∈ x.resourceChoices, 0 < lookupD T.resources r 0
  distinct : ∀ x ∈ T.uops, x.issueDomains.Nodup
  domains : ∀ x ∈ T.uops, ∀ d ∈ x.issueDomains, ∃ n : ℕ+, P.issueDomains.lookup d = some (some n) ∧ issueDomainDemand x d ≤ n
  accesses : ∀ x ∈ T.uops, x.kind.isMemory = true → x.memory.isSome
  memory : P.memory.Measured

/-- The capacities of an engine are those of its profile. -/
theorem capacity_of_init {T : BoundTrace} {P : EngineProfile} {inOrder : Bool} {mode : CacheMode} {limit : Option Bool}
    {E : Setup} (h : Setup.init T P inOrder mode limit = .ok E) {d : String} {n : ℕ+}
    (hd : P.issueDomains.lookup d = some (some n)) : Xsai.capacityOf E.issueDomains d = n := by
  obtain ⟨_, -, h⟩ := ok_bind.mp h
  obtain ⟨domains, hdomains, h⟩ := ok_bind.mp h
  obtain ⟨_, -, h⟩ := ok_bind.mp h
  obtain ⟨_, -, h⟩ := ok_bind.mp h
  cases h
  have hread : ∀ {l : List (String × PositiveParam)} {ds : List (String × ℕ+)},
      List.Forall₂ (fun e r => e = (r.1, some r.2)) l ds → l.lookup d = some (some n) → ds.lookup d = some n := by
    intro l ds hall
    induction hall with
    | nil => simp
    | @cons e r l ds he _ ih =>
      obtain ⟨k, v⟩ := r
      subst he
      by_cases hk : d = k
      · simp [hk]
      · simpa [List.lookup_cons, beq_false_of_ne hk] using ih
  have hforall : List.Forall₂ (fun e r => e = (r.1, some r.2)) P.issueDomains domains := by
    refine (mapM_ok.mp (liftProfile_ok hdomains)).imp fun e r he => ?_
    obtain ⟨k, hk, he⟩ := ok_bind.mp he
    cases he
    unfold parameterInt at hk
    split at hk
    · next heq => cases hk; exact Prod.ext rfl heq
    · cases hk
  show Xsai.capacityOf domains d = n
  rw [Xsai.capacityOf, hread hforall hd]
  rfl

theorem counts_of_valid {T : BoundTrace} (h : validateBoundTrace T = .ok ()) :
    ∀ m ∈ T.macros, 0 < m.decodedMacroOps ∧ 0 < m.retireMacroOps := by
  simp only [validateBoundTrace, ok_bind, check_ok, forM_ok, exists_const] at h
  obtain ⟨-, -, hmacros, -⟩ := h
  intro m hm
  have hchecks := hmacros m hm
  simp only [validateMacro, ok_bind, check_ok, forM_ok, exists_const] at hchecks
  obtain ⟨hdecoded, -, -, hretire, -⟩ := hchecks
  exact ⟨hdecoded, hretire⟩

/-- The end of the Zen 4 loop has everything retired, and is the run's where the guard allows it. -/
theorem Zen4.ends_run {E : Setup} (hT : WellFormed E.trace) {n t : ℕ} {s : Machine}
    (h : Ends (Zen4.loop E) n 0 E.machineInit s t) : AllRetired E.trace s.toCore ∧
      Zen4.run E = if n ≤ max 10000 (E.trace.uops.length * 100) then .ok (s, t) else .error .didNotConverge := by
  have hkeep : ∀ now s s' t, (Zen4.loop E).unfinished s = true → (Zen4.loop E).next now s = .ok (s', t) →
      (Zen4.loop E).unfinished s' = true := by
    intro now s s' t hu hn
    obtain ⟨memory, rfl⟩ := Zen4.nextEventTick_ok hn
    exact hu
  have hrun := (run_ok_iff hkeep).mpr ⟨n, le_rfl, h⟩
  exact ⟨allRetired_of_ordered (Zen4.run_ordered hT hrun).2.1, h.run_eq hkeep⟩

/-- The same of the XSAI loop. -/
theorem Xsai.ends_run {E : Xsai.Config} (hT : WellFormed E.trace) {n t : ℕ} {s : Xsai.Sched}
    (h : Ends (Xsai.loop E) n 0 (Xsai.schedInit E) s t) : AllRetired E.trace s.toCore ∧
      Xsai.run E = if n ≤ max 10000 (E.trace.uops.length * 100) then .ok (s, t) else .error .didNotConverge := by
  have hkeep : ∀ now s s' t, (Xsai.loop E).unfinished s = true → (Xsai.loop E).next now s = .ok (s', t) →
      (Xsai.loop E).unfinished s' = true := by
    intro now s s' t hu hn
    obtain ⟨memory, rfl⟩ := Xsai.nextEventTick_ok hn
    exact hu
  have hrun := (run_ok_iff hkeep).mpr ⟨n, le_rfl, h⟩
  exact ⟨allRetired_of_ordered (Xsai.run_ordered hT hrun).2.1, h.run_eq hkeep⟩

/-- An engine has what its profile has. -/
theorem Supplied.provided {P : EngineProfile} {inOrder : Bool} {mode : CacheMode} {limit : Option Bool} {E : Setup}
    (hsup : Supplied E.trace P) (h : Setup.init E.trace P inOrder mode limit = .ok E) : Provided E where
  lanes x hx := ⟨hsup.choices x hx, hsup.lanes x hx⟩
  distinct := hsup.distinct
  domains x hx d hd := by
    obtain ⟨n, hn, hle⟩ := hsup.domains x hx d hd
    rw [capacity_of_init h hn]
    exact hle
  accesses := hsup.accesses
  memory := by
    obtain ⟨-, -, hmemory, -⟩ := setup_ok h
    exact hmemory ▸ hsup.memory

/-- The overlap of loads and sums is limited where the caller or the profile says so. -/
theorem setup_overlap {T : BoundTrace} {P : EngineProfile} {inOrder : Bool} {mode : CacheMode} {limit : Option Bool}
    {E : Setup} (h : Setup.init T P inOrder mode limit = .ok E) :
    E.overlap.enabled = limit.getD P.overlap.enabled := by
  obtain ⟨_, -, h⟩ := ok_bind.mp h
  obtain ⟨_, -, h⟩ := ok_bind.mp h
  obtain ⟨_, -, h⟩ := ok_bind.mp h
  obtain ⟨_, -, h⟩ := ok_bind.mp h
  cases h
  rfl

/-- The Zen 4 loop comes to an end on what fits: the edges point back, and the profile has what
the trace asks for. -/
theorem Zen4.supplied_ends {T : BoundTrace} {P : EngineProfile} {inOrder : Bool} {mode : CacheMode}
    {limit : Option Bool} {E : Setup} (hE : Zen4.init T P inOrder mode limit = .ok E) (hlaid : LaidOut T) (hB : Bound T)
    (hsim : Simulable T P) (hsup : Supplied T P) (hover : limit.getD P.overlap.enabled = false) :
    ∃ n s t, Ends (Zen4.loop E) n 0 E.machineInit s t := by
  obtain ⟨hT, hA⟩ := Zen4.init_ok hE
  obtain ⟨hvalid, hsetup⟩ : validateBoundTrace T = .ok () ∧ Setup.init T P inOrder mode limit = .ok E := by
    unfold Zen4.init at hE
    cases hv : validateBoundTrace T with
    | error e => rw [hv] at hE; cases hE
    | ok _ => rw [hv] at hE; exact ⟨rfl, hE⟩
  have hoverE : E.overlap.enabled = false := (setup_overlap hsetup).trans hover
  obtain rfl := hA.trace
  obtain ⟨-, hpipeline, -⟩ := setup_ok hsetup
  obtain ⟨hedges, hroom⟩ := hsim
  have hequipped : Zen4.Equipped E := {
    toProvided := hsup.provided hsetup
    room := fun m hm => by
      obtain ⟨h1, h2, h3, h4, h5, h6⟩ := hroom m hm
      rw [hpipeline]
      exact ⟨h1, h2, h3, h4, h5, h6⟩ }
  exact (Zen4.steady hT hA.tpc_pos hB (hlaid.inProgramOrder hedges) (counts_of_valid hvalid) hequipped
    hoverE).exists_ends ⟨0, .zero⟩

/-- **Every program that fits is simulated to its end.** Of a trace laid out as the binder lays
them out, whose edges point back, and a profile that has what it asks for, the Zen 4 loop comes
to an end with everything retired, in order or out of order and in every cache mode, where the
overlap of loads and sums is not limited; the run returns that end, unless it takes more visits
than the guard allows. -/
theorem simulable_ends (T : BoundTrace) (P : EngineProfile) (inOrder : Bool) (mode : CacheMode) (limit : Option Bool)
    (hlaid : LaidOut T) (hB : Bound T) (hsim : Simulable T P) (hsup : Supplied T P)
    (hover : limit.getD P.overlap.enabled = false) (E : Setup) (hE : Zen4.init T P inOrder mode limit = .ok E) :
    ∃ n s t, Ends (Zen4.loop E) n 0 E.machineInit s t ∧ AllRetired T s.toCore ∧
      Zen4.run E = if n ≤ max 10000 (T.uops.length * 100) then .ok (s, t) else .error .didNotConverge := by
  obtain ⟨n, s, t, hends⟩ := Zen4.supplied_ends hE hlaid hB hsim hsup hover
  obtain ⟨hT, hA⟩ := Zen4.init_ok hE
  rw [← hA.trace]
  exact ⟨n, s, t, hends, Zen4.ends_run hT hends⟩

/-- The same of the trace that the XSAI engine schedules. -/
structure Xsai.Simulable (E : Xsai.Config) : Prop where
  back : PointsBack E.trace
  room : ∀ m ∈ E.trace.macros, Xsai.Roomy E m

/-- The XSAI loop comes to an end on what fits, where mixed epochs take their tokens in order and
give them back. -/
theorem Xsai.supplied_ends {T : BoundTrace} {P : EngineProfile} {inOrder : Bool} {mode : CacheMode}
    {limit : Option Bool} {expand : Bool} {E : Xsai.Config} (hE : Xsai.init T P inOrder mode limit expand = .ok E)
    (hlaid : LaidOut T) (hB : Bound T) (hsim : Xsai.Simulable E) (hsup : Supplied E.trace P)
    (hterminals : Xsai.TerminalsDepend E) (hconfigs : Xsai.ConfigsOrdered E)
    (hover : limit.getD P.overlap.enabled = false) :
    ∃ n s t, Ends (Xsai.loop E) n 0 (Xsai.schedInit E) s t := by
  have hA := Xsai.init_ok hE
  have hsetup := Xsai.init_setup hE
  have hlaidE : LaidOut E.trace := Xsai.schedulerTrace_laidOut hlaid hA.scheduled
  have hable : Xsai.Able E := {
    toProvided := hsup.provided hsetup
    room := hsim.room
    wellFormed := hA.wellFormed
    onceEach := fun m hm => (Xsai.schedulerTrace_bound hB hA.scheduled m hm).1
    inProgramOrder := hlaidE.inProgramOrder hsim.back
    sequenced := hlaidE.sequenced hsim.back
    terminals := hterminals
    configs := hconfigs
    counts := fun m hm => (counts_of_valid hA.valid m hm).2
    wired := fun _ hx => hA.wired hx
    releases := Xsai.releaseWidth_pos hE
    unlimited := (setup_overlap hsetup).trans hover }
  exact (Xsai.steady hable hA.setup.tpc_pos).exists_ends ⟨0, .zero⟩

namespace Sample

/-- A profile that admits one pending group of a load and its sums. -/
def oneGroup : EngineProfile := { profile with
  overlap := { enabled := true, maxPendingGroups := 1, computeKinds := [.vectorFpAdd] }
  memory := { levels := [⟨⟨some 1, some 64, some 64, some 4⟩, 2, 1⟩], dram := ⟨some 3, some 64, some 64, some 4⟩,
              ticksPerCycle := 1 } }

/-- An instruction that adds what it loads. -/
def addInstruction (n : ℕ) : Instruction where
  id := n
  sequence := n
  mnemonic := "vaddps"
  semanticUops := [{ kind := .vectorLoad }, { kind := .vectorFpAdd }]

def loadUop (u parent : Id) (dependencies : List Id) : ExecutionUop := { uop with
  id := u, sequence := u, parentId := parent, kind := .loadData, resourceChoices := ["load"],
  dependencies := dependencies, semanticIds := [(parent, 0)],
  memory := some { address := 64 * u, bytes := 64, cacheLines := [u], access := .load } }

def addUop (u parent : Id) (dependencies : List Id) : ExecutionUop := { uop with
  id := u, sequence := u, parentId := parent, kind := .vectorFp, resourceChoices := ["add"],
  dependencies := dependencies, semanticIds := [(parent, 1)] }

/-- The address of the first load takes three ticks, and the second sum adds to the first:
the load that goes first cannot be added before the other, which waits for the group. -/
def crossed : BoundTrace where
  profileId := "sample"
  ticksPerCycle := 1
  macros := [0, 1, 2].map fun n => {
    id := n, sequence := n, uopIds := if n = 0 then [0] else [2 * n - 1, 2 * n], decodedMacroOps := 1,
    retireMacroOps := 1, usesVectorScheduler := n ≠ 0, usesLoadQueue := n ≠ 0, usesStoreQueue := false }
  uops := [{ uop with latencyTicks := 3 }, loadUop 1 1 [0], addUop 2 1 [1], loadUop 3 2 [], addUop 4 2 [3, 2]]
  resources := [("alu", 1), ("load", 1), ("add", 1)]
  source := [addInstruction 1, addInstruction 2]

theorem crossed_supplied : Supplied crossed oneGroup := by
  have hentry : ∀ n, (⟨some n, some 64, some 64, some 4⟩ : LevelEntry).Measured := fun _ =>
    ⟨rfl, ⟨64, rfl, by decide +kernel⟩, ⟨64, rfl, by decide +kernel⟩, ⟨4, rfl, by decide⟩⟩
  have hdomains : ∀ x ∈ crossed.uops, x.issueDomains = [] := by decide
  exact ⟨by decide, by decide, by decide, fun x hx d hd => by simp [hdomains x hx] at hd, by decide,
    ⟨hentry 3, by simp [oneGroup, hentry 1]⟩⟩

end Sample

/-- The program that never ends where one group of loads and sums may be pending comes to its
end where their number is not limited. -/
theorem simulable_ends_sample : ∃ E n s t,
    Zen4.init Sample.crossed Sample.oneGroup false .cold (some false) = .ok E ∧
      Ends (Zen4.loop E) n 0 E.machineInit s t ∧ AllRetired Sample.crossed s.toCore := by
  obtain ⟨E, hE⟩ := Checked.exists_ok
    (x := Zen4.init Sample.crossed Sample.oneGroup false .cold (some false)) (by decide +kernel)
  obtain ⟨n, s, t, hends, hretired, -⟩ := simulable_ends Sample.crossed Sample.oneGroup false .cold (some false)
    ⟨by decide, by decide⟩ ⟨by decide, by decide, by decide, by decide, by decide⟩ (by decide +kernel)
    Sample.crossed_supplied rfl E hE
  exact ⟨E, n, s, t, hE, hends, hretired⟩

end VectorSim
