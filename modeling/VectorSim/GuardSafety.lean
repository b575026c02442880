/-
# The guard of the event loop

`run` gives up after `max 10000 (100 * uops)` visits, whatever the latencies of
the profile. What fits is simulated to its end by a loop without the guard, in as many
visits as cycles at least and as ticks at most; the run returns that end where the visits
are within the guard (`guard_exact`). A program of one uop whose latency is longer is
rejected; and a limit on the overlap of loads and sums, or mixed epochs that take their
tokens out of order or before they can give them back, hold a program up for ever
(`guard_rejects`).
-/
import VectorSim.LivenessSafety
import VectorSim.XsaiStranded
import VectorSim.Backend.Zen4Parked

namespace VectorSim

open Checked Core EventLoop Setup

/-- A loop that goes no further than the next cycle visits each of them, and no tick twice. -/
theorem ends_visits {σ : Type} {L : Loop σ SimError} {E : Setup} (hpos : 0 < E.ticksPerCycle)
    (hnext : ∀ now s s' t, L.unfinished s = true → L.next now s = .ok (s', t) → t ≤ E.nextCycle now)
    {n t : ℕ} {s s' : σ} (h : Ends L n 0 s s' t) : t / E.ticksPerCycle ≤ n ∧ n ≤ t + 1 := by
  rcases h with ⟨rfl, -, -, rfl⟩ | ⟨k, s₁, rfl, hr, -⟩
  · simp
  · have hcycle := Reaches.cycle_le (fun u => u / E.ticksPerCycle) hr fun now s s' t hu hn => by
      have hle := Nat.div_le_div_right (c := E.ticksPerCycle) (hnext now s s' t hu hn)
      have hmul : E.nextCycle now / E.ticksPerCycle = now / E.ticksPerCycle + 1 :=
        Nat.mul_div_cancel _ hpos
      omega
    have hadd := hr.add_le
    simp only [Nat.zero_div] at hcycle
    omega

/-- **The guard is exact.** What fits comes to its end in a loop without the guard, where the
overlap of loads and sums is not limited and, in the XSAI engine, mixed epochs take their tokens
in the order of the program and their terminals depend on them. Wherever that loop ends, all macro-ops have retired,
and the run returns that end if the visits are within the guard, and raises the guard's error
if they are not. The visits are as many as the cycles up to the last tick, at least, and as
the ticks, at most. -/
theorem guard_exact (T : BoundTrace) (P : EngineProfile) (inOrder : Bool) (mode : CacheMode)
    (limit : Option Bool) :
    (∀ E, Zen4.init T P inOrder mode limit = .ok E →
      (LaidOut T → Bound T → Simulable T P → Supplied T P → limit.getD P.overlap.enabled = false →
        ∃ n s t, Ends (Zen4.loop E) n 0 E.machineInit s t) ∧
      ∀ n s t, Ends (Zen4.loop E) n 0 E.machineInit s t →
        (AllRetired E.trace s.toCore ∧
          Zen4.run E = if n ≤ max 10000 (E.trace.uops.length * 100) then .ok (s, t) else .error .didNotConverge) ∧
        t / E.ticksPerCycle ≤ n ∧ n ≤ t + 1) ∧
    (∀ expand E, Xsai.init T P inOrder mode limit expand = .ok E →
      (LaidOut T → Bound T → Xsai.Simulable E → Supplied E.trace P → Xsai.TerminalsDepend E → Xsai.ConfigsOrdered E →
        limit.getD P.overlap.enabled = false → ∃ n s t, Ends (Xsai.loop E) n 0 (Xsai.schedInit E) s t) ∧
      ∀ n s t, Ends (Xsai.loop E) n 0 (Xsai.schedInit E) s t →
        (AllRetired E.trace s.toCore ∧
          Xsai.run E = if n ≤ max 10000 (E.trace.uops.length * 100) then .ok (s, t) else .error .didNotConverge) ∧
        t / E.ticksPerCycle ≤ n ∧ n ≤ t + 1) := by
  constructor
  · intro E hE
    obtain ⟨hT, hA⟩ := Zen4.init_ok hE
    refine ⟨fun hlaid hB hsim hsup hover => Zen4.supplied_ends hE hlaid hB hsim hsup hover, fun n s t h => ?_⟩
    exact ⟨Zen4.ends_run hT h, ends_visits hA.tpc_pos (fun _ _ _ _ => Zen4.nextEventTick_le) h⟩
  · intro expand E hE
    have hA := Xsai.init_ok hE
    refine ⟨fun hlaid hB hsim hsup hterminals hconfigs hover =>
      Xsai.supplied_ends hE hlaid hB hsim hsup hterminals hconfigs hover, fun n s t h => ?_⟩
    exact ⟨Xsai.ends_run hA.wellFormed h, ends_visits hA.setup.tpc_pos (fun _ _ _ _ => Xsai.nextEventTick_le) h⟩

namespace Sample

/-- One uop of a long latency. -/
def slowTrace (latency : ℕ) : BoundTrace := { trace [0] with uops := [{ uop with latencyTicks := latency }] }

theorem kernel_measured : kernelProfile.memory.Measured := by
  have hentry : ∀ n, (⟨some n, some 64, some 64, some 4⟩ : LevelEntry).Measured := fun _ =>
    ⟨rfl, ⟨64, rfl, by decide +kernel⟩, ⟨64, rfl, by decide +kernel⟩, ⟨4, rfl, by decide⟩⟩
  exact ⟨hentry 5, by simp [kernelProfile, hentry 2]⟩

theorem kernel_supplied : Supplied kernelTrace kernelProfile where
  choices := by decide
  lanes := by decide
  distinct := by decide
  domains x hx d hd := by
    have hport : ∀ x ∈ kernelTrace.uops, ∀ d ∈ x.issueDomains, d = "port" ∧ issueDomainDemand x d = 1 := by decide
    obtain ⟨rfl, hone⟩ := hport x hx d hd
    exact ⟨1, rfl, hone.le⟩
  accesses := by decide
  memory := kernel_measured

/-- The profile of the epochs with a cache. -/
def epochMachine : EngineProfile := { Xsai.Sample.epochProfile with memory := kernelProfile.memory }

/-- A reduction that does not wait for the config uop of its epoch, which waits for a slow uop,
completes before it. -/
def earlyTerminal : BoundTrace := Xsai.Sample.epochTrace [
  { Xsai.Sample.epochUop 0 .scalarAlu .scalarAlu [] with latencyTicks := 5 },
  Xsai.Sample.epochUop 1 .scalarAlu .vectorConfig [0], Xsai.Sample.epochUop 2 .vectorFp .vectorFpAdd [1],
  Xsai.Sample.epochUop 3 .storeData .vectorStore [2], Xsai.Sample.epochUop 4 .vectorFp .vectorReduceMax [],
  Xsai.Sample.epochUop 5 .scalarAlu .vectorConfig [1], Xsai.Sample.epochUop 6 .vectorFp .vectorFpAdd [5],
  Xsai.Sample.epochUop 7 .storeData .vectorStore [6], Xsai.Sample.epochUop 8 .vectorFp .vectorReduceMax [5]]

theorem epochMachine_supplied {T : BoundTrace} (hchoices : ∀ x ∈ T.uops, x.resourceChoices ≠ [])
    (hlanes : ∀ x ∈ T.uops, ∀ r ∈ x.resourceChoices, 0 < lookupD T.resources r 0)
    (hdomains : ∀ x ∈ T.uops, x.issueDomains = []) (haccesses : ∀ x ∈ T.uops, x.kind.isMemory = true → x.memory.isSome) :
    Supplied T epochMachine where
  choices := hchoices
  lanes := hlanes
  distinct x hx := by rw [hdomains x hx]; exact List.nodup_nil
  domains x hx d hd := by rw [hdomains x hx] at hd; cases hd
  accesses := haccesses
  memory := kernel_measured

end Sample

/-- Loads and sums that wait for each other's results come to their end, and the run returns it;
and so does the kernel on the XSAI engine. -/
theorem guard_exact_sample :
    (∃ E n s t, Zen4.init Sample.crossed Sample.oneGroup false .cold (some false) = .ok E ∧
      Ends (Zen4.loop E) n 0 E.machineInit s t ∧ AllRetired E.trace s.toCore ∧
      Zen4.run E = (if n ≤ max 10000 (E.trace.uops.length * 100) then .ok (s, t) else .error .didNotConverge) ∧
      t / E.ticksPerCycle ≤ n ∧ n ≤ t + 1) ∧
    ∃ E n s t, Xsai.init Sample.kernelTrace Sample.kernelProfile false .cold none false = .ok E ∧
      Ends (Xsai.loop E) n 0 (Xsai.schedInit E) s t ∧ AllRetired E.trace s.toCore ∧
      Xsai.run E = (if n ≤ max 10000 (E.trace.uops.length * 100) then .ok (s, t) else .error .didNotConverge) ∧
      t / E.ticksPerCycle ≤ n ∧ n ≤ t + 1 := by
  constructor
  · obtain ⟨E, hE⟩ := Checked.exists_ok
      (x := Zen4.init Sample.crossed Sample.oneGroup false .cold (some false)) (by decide +kernel)
    obtain ⟨hfits, hend⟩ := (guard_exact Sample.crossed Sample.oneGroup false .cold (some false)).1 E hE
    obtain ⟨n, s, t, h⟩ := hfits ⟨by decide, by decide⟩ ⟨by decide, by decide, by decide, by decide, by decide⟩
      (by decide +kernel) Sample.crossed_supplied rfl
    obtain ⟨⟨hretired, hrun⟩, hvisits⟩ := hend n s t h
    exact ⟨E, n, s, t, hE, h, hretired, hrun, hvisits⟩
  · obtain ⟨E, hE⟩ := Checked.exists_ok
      (x := Xsai.init Sample.kernelTrace Sample.kernelProfile false .cold none false) (by decide +kernel)
    have hfacts : (Xsai.init Sample.kernelTrace Sample.kernelProfile false .cold none false).map (fun E =>
        decide ((∀ m ∈ E.trace.macros, Xsai.Roomy E m) ∧ E.epochs.enabled = false)) = .ok true := by decide +kernel
    rw [hE] at hfacts
    obtain ⟨hroom, hoff⟩ := of_decide_eq_true (Except.ok.inj hfacts)
    have htrace : E.trace = Sample.kernelTrace := Xsai.init_trace hE
    have hnone : Xsai.epochList E = [] := by rw [Xsai.epochList, hoff]; rfl
    obtain ⟨hfits, hend⟩ := (guard_exact Sample.kernelTrace Sample.kernelProfile false .cold none).2 false E hE
    obtain ⟨n, s, t, h⟩ := hfits ⟨by decide, by decide⟩ Sample.kernelTrace_bound
      ⟨by rw [htrace]; decide, hroom⟩ (by rw [htrace]; exact Sample.kernel_supplied)
      (by simp [Xsai.TerminalsDepend, hnone]) (by simp [Xsai.ConfigsOrdered, hnone]) rfl
    obtain ⟨⟨hretired, hrun⟩, hvisits⟩ := hend n s t h
    exact ⟨E, n, s, t, hE, h, hretired, hrun, hvisits⟩

/-- One uop whose latency is more than the guard waits. -/
theorem slowTrace_rejected :
    ∃ E s t n, Zen4.init (Sample.slowTrace 20000) Sample.profile false .cold none = .ok E ∧
      Simulable (Sample.slowTrace 20000) Sample.profile ∧
      Ends (Zen4.loop E) n 0 E.machineInit s t ∧ Zen4.run E = .error .didNotConverge := by
  obtain ⟨E, hE⟩ := Checked.exists_ok
    (x := Zen4.init (Sample.slowTrace 20000) Sample.profile false .cold none) (by decide +kernel)
  have hfirst : ((Zen4.init (Sample.slowTrace 20000) Sample.profile false .cold none).toOption.bind fun E =>
      (follow (Zen4.loop E) 1 0 E.machineInit).map fun r => decide (r.2.1 = 1 ∧ Zen4.Parked E r.2.2 ∧
        r.2.2.completionHeap.map (·.tick) = [20000] ∧
        ((Zen4.loop E).visit 20000 r.2.2).toOption.any fun s => !(E.unfinished s.toCore))) = some true := by
    decide +kernel
  rw [hE] at hfirst
  obtain ⟨⟨vs, now, s⟩, hf, hs⟩ := Option.map_eq_some_iff.mp hfirst
  obtain ⟨rfl, hparked, hheap, hlast⟩ := of_decide_eq_true hs
  obtain ⟨s', hs', hdone⟩ := (Option.any_eq_true _ _).mp hlast
  have hhead : ∀ e ∈ s.completionHeap.head?, e.tick = 20000 := by
    intro e he
    have := congrArg List.head? hheap
    rw [List.head?_map, he] at this
    exact Option.some.inj this
  -- from the first tick on nothing happens before the completion
  obtain ⟨hpath, hlen⟩ := follow_path hf
  have hrest : Reaches (Zen4.loop E) 19999 1 s (1 + 19999) s :=
    Zen4.reaches_parked hparked fun e he => (hhead e he).ge
  have hall := hpath.reaches.trans hrest
  rw [hlen] at hall
  have hends : Ends (Zen4.loop E) 20001 0 E.machineInit s' 20000 :=
    .inr ⟨20000, s, rfl, hall, Zen4.parked_unfinished hparked, toOption_ok.mp hs',
      (Bool.not_eq_eq_eq_not ..).mp hdone⟩
  refine ⟨E, s', 20000, 20001, hE, by decide +kernel, hends, hends.run_diverged ?_⟩
  rw [iterationBound, (Zen4.init_ok hE).2.trace]
  decide

/-- The second load takes the only group before the first. -/
theorem crossed_never :
    ∃ E, Zen4.init Sample.crossed Sample.oneGroup false .cold none = .ok E ∧
      Simulable Sample.crossed Sample.oneGroup ∧ Zen4.run E = .error .didNotConverge ∧
      ∀ n s t, ¬ Ends (Zen4.loop E) n 0 E.machineInit s t := by
  obtain ⟨E, hE⟩ := Checked.exists_ok
    (x := Zen4.init Sample.crossed Sample.oneGroup false .cold none) (by decide +kernel)
  have hfirst : ((Zen4.init Sample.crossed Sample.oneGroup false .cold none).toOption.bind fun E =>
      (follow (Zen4.loop E) 6 0 E.machineInit).map fun r => decide (Zen4.Parked E r.2.2 ∧
        r.2.2.completionHeap = [])) = some true := by
    decide +kernel
  rw [hE] at hfirst
  obtain ⟨⟨vs, now, s⟩, hf, hs⟩ := Option.map_eq_some_iff.mp hfirst
  obtain ⟨hparked, hheap⟩ := of_decide_eq_true hs
  obtain ⟨hpath, hlen⟩ := follow_path hf
  have hr := hpath.reaches
  rw [hlen] at hr
  have hall := hr.trans (Zen4.reaches_parked (n := E.iterationBound - 6) hparked fun e he => by
    rw [hheap] at he; cases he)
  have hbound : 6 + (E.iterationBound - 6) = E.iterationBound := by
    have : 10000 ≤ E.iterationBound := le_max_left _ _
    omega
  rw [hbound] at hall
  exact ⟨E, hE, by decide +kernel, hall.run_diverged (Zen4.parked_unfinished hparked),
    fun n s' t => Zen4.parked_never hr hparked hheap⟩

/-- The config uop of the second mixed epoch takes the only token before that of the first. -/
theorem crossedEpochs_never :
    ∃ E, Xsai.init Xsai.Sample.crossedEpochs Sample.epochMachine false .cold none false = .ok E ∧
      Xsai.Simulable E ∧ Supplied E.trace Sample.epochMachine ∧ Xsai.TerminalsDepend E ∧
      ∀ n s t, ¬ Ends (Xsai.loop E) n 0 (Xsai.schedInit E) s t := by
  obtain ⟨E, hE⟩ := Checked.exists_ok
    (x := Xsai.init Xsai.Sample.crossedEpochs Sample.epochMachine false .cold none false) (by decide +kernel)
  have htrace : E.trace = Xsai.Sample.crossedEpochs := Xsai.init_trace hE
  -- the second config uop issues at tick 0
  have hvisit : ((Xsai.init Xsai.Sample.crossedEpochs Sample.epochMachine false .cold none false).bind fun E =>
      (Setup.visitOf (Xsai.phases E 0) (Xsai.schedInit E)).map fun s => decide (
        (∀ m ∈ E.trace.macros, Xsai.Roomy E m) ∧ Xsai.terminalsDepend E = true ∧ (Xsai.mixedTerminal E 1).isSome ∧
        E.epochs.mixedStoreReductionCapacity ≤ 1 ∧ E.unfinished (Xsai.schedInit E).toCore = true ∧
        (s.uop 1).issueTick = none ∧ 8 ∈ s.mixedActive ∧ Xsai.dependsDirectly E 8 4 = true ∧
        Xsai.dependsDirectly E 4 1 = true)).toOption = some true := by
    decide +kernel
  rw [hE] at hvisit
  obtain ⟨s, hs, hfacts⟩ := ok_map.mp (toOption_ok.mp hvisit)
  obtain ⟨hroom, hdep, hmixed, hone, hu, hwait, htaken, h84, h41⟩ := of_decide_eq_true hfacts
  have h81 : Xsai.DependsOn E 8 1 :=
    (Relation.TransGen.single (Xsai.dependsDirectly_iff.mp h84)).tail (Xsai.dependsDirectly_iff.mp h41)
  have hx : Xsai.Sample.epochUop 1 .scalarAlu .vectorConfig [0] ∈ E.trace.uops := by
    rw [htrace]; exact List.mem_cons_of_mem _ List.mem_cons_self
  refine ⟨E, hE, ⟨by rw [htrace]; decide, hroom⟩, ?_, (Xsai.terminalsDepend_sound hdep).1, fun n s' t =>
    Xsai.stranded_never (Xsai.init_ok hE).wellFormed hx hmixed hone .zero hu hs ⟨hwait, htaken, .inr h81⟩⟩
  rw [htrace]
  exact Sample.epochMachine_supplied (by decide) (by decide) (by decide) (by decide)

/-- The first token is taken for a terminal that has completed. -/
theorem earlyTerminal_never :
    ∃ E, Xsai.init Sample.earlyTerminal Sample.epochMachine false .cold none false = .ok E ∧
      Xsai.Simulable E ∧ Supplied E.trace Sample.epochMachine ∧ Xsai.ConfigsOrdered E ∧
      ∀ n s t, ¬ Ends (Xsai.loop E) n 0 (Xsai.schedInit E) s t := by
  obtain ⟨E, hE⟩ := Checked.exists_ok
    (x := Xsai.init Sample.earlyTerminal Sample.epochMachine false .cold none false) (by decide +kernel)
  have htrace : E.trace = Sample.earlyTerminal := Xsai.init_trace hE
  -- the first config uop issues at tick 5, for a reduction that has completed at tick 1
  have hvisit : ((Xsai.init Sample.earlyTerminal Sample.epochMachine false .cold none false).toOption.bind fun E =>
      (follow (Xsai.loop E) 5 0 (Xsai.schedInit E)).bind fun r =>
        (Setup.visitOf (Xsai.phases E r.2.1) r.2.2).toOption.map fun s => decide (
          (∀ m ∈ E.trace.macros, Xsai.Roomy E m) ∧ (Xsai.mixedTerminal E 5).isSome ∧
          E.epochs.mixedStoreReductionCapacity ≤ 1 ∧ E.unfinished r.2.2.toCore = true ∧
          (s.uop 5).issueTick = none ∧ 4 ∈ s.mixedActive ∧ (s.uop 4).completeTick.isSome ∧
          (Xsai.epochList E).map (fun e => e.1.id) = [1, 5] ∧ Xsai.dependsDirectly E 5 1 = true)) = some true := by
    decide +kernel
  rw [hE] at hvisit
  obtain ⟨_, hE', hvisit⟩ := Option.bind_eq_some_iff.mp hvisit
  cases hE'
  obtain ⟨⟨_, now, s₀⟩, hf, hvisit⟩ := Option.bind_eq_some_iff.mp hvisit
  obtain ⟨s, hs, hfacts⟩ := Option.map_eq_some_iff.mp hvisit
  obtain ⟨hroom, hmixed, hone, hu, hwait, htaken, hdone, hepochs, h51⟩ := of_decide_eq_true hfacts
  have hordered : Xsai.ConfigsOrdered E := by
    have h51 : Xsai.DependsOn E 5 1 := .single (Xsai.dependsDirectly_iff.mp h51)
    have hpair : ((Xsai.epochList E).map fun e => e.1.id).Pairwise fun i j => Xsai.DependsOn E j i := by
      rw [hepochs]
      simpa using h51
    exact .inr ((List.pairwise_map.mp hpair).imp fun h _ _ => h)
  have hx : Xsai.Sample.epochUop 5 .scalarAlu .vectorConfig [1] ∈ E.trace.uops := by
    rw [htrace]
    simp [Sample.earlyTerminal, Xsai.Sample.epochTrace]
  refine ⟨E, hE, ⟨by rw [htrace]; decide, hroom⟩, ?_, hordered, fun n s' t =>
    Xsai.stranded_never (Xsai.init_ok hE).wellFormed hx hmixed hone (follow_path hf).1.reaches hu
      (toOption_ok.mp hs) ⟨hwait, htaken, .inl hdone⟩⟩
  rw [htrace]
  exact Sample.epochMachine_supplied (by decide) (by decide) (by decide) (by decide)

/-- A program of one uop that takes longer than the guard waits; and programs whose edges all point
back but which never end: a second load takes the only group before the first, the config uop of
a second mixed epoch takes the only token before that of the first, and a terminal that does not
depend on the config uop of its epoch completes before that takes a token for it. -/
theorem guard_rejects :
    (∃ E s t n, Zen4.init (Sample.slowTrace 20000) Sample.profile false .cold none = .ok E ∧
      Simulable (Sample.slowTrace 20000) Sample.profile ∧
      Ends (Zen4.loop E) n 0 E.machineInit s t ∧ Zen4.run E = .error .didNotConverge) ∧
    (∃ E, Zen4.init Sample.crossed Sample.oneGroup false .cold none = .ok E ∧
      Simulable Sample.crossed Sample.oneGroup ∧ Zen4.run E = .error .didNotConverge ∧
      ∀ n s t, ¬ Ends (Zen4.loop E) n 0 E.machineInit s t) ∧
    (∃ E, Xsai.init Xsai.Sample.crossedEpochs Sample.epochMachine false .cold none false = .ok E ∧
      Xsai.Simulable E ∧ Supplied E.trace Sample.epochMachine ∧ Xsai.TerminalsDepend E ∧
      ∀ n s t, ¬ Ends (Xsai.loop E) n 0 (Xsai.schedInit E) s t) ∧
    ∃ E, Xsai.init Sample.earlyTerminal Sample.epochMachine false .cold none false = .ok E ∧
      Xsai.Simulable E ∧ Supplied E.trace Sample.epochMachine ∧ Xsai.ConfigsOrdered E ∧
      ∀ n s t, ¬ Ends (Xsai.loop E) n 0 (Xsai.schedInit E) s t :=
  ⟨slowTrace_rejected, crossed_never, crossedEpochs_never, earlyTerminal_never⟩

end VectorSim
