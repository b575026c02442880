/-
# The order of a run

Whatever trace an engine accepts and whatever the profile, a run that returns
has put the uops and the macro-ops in order (`RunOrdered`). The log has one
dispatch for each uop where no macro-op lists a uop twice; nothing in the
validation of a trace keeps a macro-op from doing so, and then the dispatcher
dispatches the uop as often as it is listed (`Zen4.Repeats`).
-/
import VectorSim.Backend.Accepted

namespace VectorSim

open Core

/-! ### How often a uop is dispatched -/

namespace Zen4

variable {E : Setup} {now : ℕ} {s s' : Machine}

/-- A uop of a dispatched macro-op has as many dispatches as the macro-op lists it. -/
structure Repeats (E : Setup) (c : Core) : Prop where
  listed : ∀ {k : ℕ} {m : MacroOp}, k < c.nextDispatch → E.trace.macros[k]? = some m →
    ∀ u ∈ m.uopIds, ticksOf .dispatch u c.events = List.replicate (m.uopIds.count u)
      (((c.uop u).dispatchTick).getD 0)

theorem repeats_dispatch (hT : WellFormed E.trace) (hs : Inv E now s) (hr : Repeats E s.toCore)
    {m : MacroOp} (head : E.trace.macros[s.nextDispatch]? = some m) :
    Repeats E (dispatchMacro s m now).toCore := by
  have hmem := List.mem_of_getElem? head
  have hev : (dispatchMacro s m now).events =
      s.events ++ m.uopIds.map fun u => ⟨.dispatch, now, u⟩ := by
    simp only [dispatchMacro, Core.advance, dispatchAll_eq]
    rfl
  have huop : ∀ u, (dispatchMacro s m now).uop u =
      if u ∈ m.uopIds then { s.uop u with dispatchTick := some now } else s.uop u := by
    intro u
    simp only [dispatchMacro, Core.advance, dispatchAll_uop]
    rfl
  have hnext : (dispatchMacro s m now).nextDispatch = s.nextDispatch + 1 := by
    simp [dispatchMacro, Core.advance, Core.enterRob]
  refine ⟨fun {k m'} hk hm' u hu => ?_⟩
  rw [hev, ticksOf_append, ticksOf_dispatches, huop]
  rw [hnext] at hk
  rcases Nat.lt_succ_iff_lt_or_eq.mp hk with hk | rfl
  · -- an older macro-op shares no uop with the one dispatched now
    have hne : u ∉ m.uopIds := by
      intro hu'
      have he := hT.owner_unique (List.mem_of_getElem? hm') hmem hu hu'
      subst he
      have := index_inj hT hm' head rfl
      omega
    rw [hr.listed hk hm' u hu, if_neg hne, List.count_eq_zero_of_not_mem hne]
    simp
  · obtain rfl : m = m' := Option.some.inj (head.symm.trans hm')
    have hout := hs.whole le_rfl head
    have hfresh : (s.uop u).dispatchTick = none := by
      by_contra hne
      have := hs.core.macros.owner hmem u hu (Option.isSome_iff_ne_none.mpr hne)
      rw [hout] at this
      cases this
    have hnone : ticksOf .dispatch u s.events = [] := by
      refine List.eq_nil_iff_forall_not_mem.mpr fun t ht => ?_
      rw [(hs.core.log.dispatch u t).mp ht] at hfresh
      cases hfresh
    rw [hnone, if_pos hu]
    rfl

theorem repeats_step (hT : WellFormed E.trace) (hs : Inv E now s) (hr : Repeats E s.toCore)
    (h : Step E now s s') : Repeats E s'.toCore := by
  have keep : ∀ {c : Core} {l : List Event}, c.nextDispatch = s.nextDispatch →
      (∀ u, (c.uop u).dispatchTick = (s.uop u).dispatchTick) → c.events = s.events ++ l →
      (∀ e ∈ l, e.kind ≠ .dispatch) → Repeats E c := by
    intro c l hn hu he hl
    refine ⟨fun {k m} hk hm u hmu => ?_⟩
    rw [hn] at hk
    have hnone : ticksOf .dispatch u l = [] := by
      simp only [ticksOf, List.map_eq_nil_iff, List.filter_eq_nil_iff]
      intro e he'
      simp [hl e he']
    rw [he, ticksOf_append, hnone, List.append_nil, hu, hr.listed hk hm u hmu]
  cases h with
  | @complete e rest head due =>
    unfold completeEntry
    dsimp only
    split
    · exact ⟨hr.listed⟩
    · refine keep (l := [⟨.complete, e.tick, e.id⟩]) rfl (fun u => ?_) rfl (by simp)
      rw [completeUop_uop]; split <;> rfl
  | dispatch head _ => exact repeats_dispatch hT hs hr head
  | stall _ | poll _ => exact ⟨hr.listed⟩
  | @issue x r a free _ _ _ _ _ _ =>
    refine keep (l := [⟨.ready, s.dependencyReadyTick x, x.id⟩, ⟨.issue, now, x.id⟩]) rfl
      (fun u => ?_) rfl (by simp)
    rw [issued, issue_uop]; split <;> rfl
  | @retire m rest _ _ _ =>
    exact keep (l := [⟨.retire, now, m.id⟩]) rfl (fun _ => rfl) rfl (by simp)

/-- At the end of a run each uop has one dispatch just where no macro-op lists one twice. -/
theorem run_dispatchedOnce_iff (hT : WellFormed E.trace) (h : run E = .ok (s, now)) :
    DispatchedOnce E.trace s.toCore ↔ ∀ m ∈ E.trace.macros, m.uopIds.Nodup := by
  obtain ⟨⟨hs, hr⟩, hf⟩ := run_invariant (P := fun now s => Inv E now s ∧ Repeats E s.toCore) hT
    ⟨inv_init, ⟨fun hk => absurd hk (Nat.not_lt_zero _)⟩⟩
    (fun _ _ _ h hstep => ⟨inv_step hT h.1 hstep, repeats_step hT h.1 h.2 hstep⟩)
    (fun _ _ _ h hlt => ⟨h.1.later hlt.le, h.2⟩) h
  have hend : E.trace.macros.length ≤ s.nextDispatch := by
    have : E.trace.macros.length ≤ s.nextDispatch ∧ s.rob = [] := by simpa [Setup.unfinished] using hf
    exact this.1
  refine ⟨fun honce m hm => ?_, hs.core.dispatchedOnce hT hend⟩
  obtain ⟨k, hk, rfl⟩ := List.getElem_of_mem hm
  rw [List.nodup_iff_count_le_one]
  intro u
  by_cases hu : u ∈ E.trace.macros[k].uopIds
  · obtain ⟨x, hx, -⟩ := hT.owned _ hm u hu
    obtain ⟨hmem, rfl⟩ := E.trace.uop?_mem hx
    obtain ⟨d, hd, -⟩ := honce x hmem
    have := hr.listed (by omega) (List.getElem?_eq_getElem hk) _ hu
    rw [hd] at this
    have hl := congrArg List.length this
    rw [List.length_replicate, List.length_singleton] at hl
    omega
  · rw [List.count_eq_zero_of_not_mem hu]
    exact Nat.zero_le 1

end Zen4

/-! ### Runs of both engines -/

/-- **A run that returns is in order**, and dispatches every uop once where no macro-op
lists a uop twice. -/
theorem run_inOrder (T : BoundTrace) (P : EngineProfile) (inOrder : Bool) (mode : CacheMode)
    (limit : Option Bool) :
    (∀ E s t, Zen4.init T P inOrder mode limit = .ok E → Zen4.run E = .ok (s, t) →
      RunOrdered E.trace inOrder s.toCore ∧
        (DispatchedOnce E.trace s.toCore ↔ ∀ m ∈ E.trace.macros, m.uopIds.Nodup)) ∧
    (∀ expand E s t, Xsai.init T P inOrder mode limit expand = .ok E → Xsai.run E = .ok (s, t) →
      RunOrdered E.trace inOrder s.toCore ∧
        ((∀ m ∈ E.trace.macros, m.uopIds.Nodup) → DispatchedOnce E.trace s.toCore)) := by
  constructor
  · intro E s t hE h
    have hT := (Zen4.init_ok hE).1
    obtain rfl := (Zen4.init_ok hE).2.inOrder
    exact ⟨(Zen4.run_ordered hT h).2.1, Zen4.run_dispatchedOnce_iff hT h⟩
  · intro expand E s t hE h
    have hA := Xsai.init_ok hE
    obtain rfl := hA.setup.inOrder
    exact (Xsai.run_ordered hA.wellFormed h).2

/-! ### A small machine -/

namespace Sample

/-- A profile with room for everything. -/
def profile : EngineProfile where
  id := "sample"
  ticksPerCycle := 1
  pipeline := ⟨some 2, some 2, some 4, some 4, some 4, some 4⟩
  memory := .oneLine ⟨none, none, none, none⟩ 1

def uop : ExecutionUop where
  id := 0
  sequence := 0
  parentId := 0
  kind := .scalarAlu
  schedulingClass := .recipe "scalar" "add" none
  latencyTicks := 1
  issueIntervalTicks := 1
  occupancyTicks := 1
  resourceChoices := ["alu"]

/-- A trace of one macro-op that lists the uops `us`. -/
def trace (us : List Id) : BoundTrace where
  profileId := "sample"
  ticksPerCycle := 1
  macros := [{ id := 0, sequence := 0, uopIds := us, decodedMacroOps := 1, retireMacroOps := 1,
               usesVectorScheduler := false, usesLoadQueue := false, usesStoreQueue := false }]
  uops := [uop]
  resources := [("alu", 1)]

/-! ### A small kernel -/

/-- A machine with a cache of two lines, one token of the port in a cycle, and two scheduler entries for its adder. -/
def kernelProfile : EngineProfile := { profile with
  pipeline := ⟨some 2, some 2, some 4, some 2, some 2, some 2⟩
  issueDomains := [("port", some 1)]
  memory := { levels := [⟨⟨some 2, some 64, some 64, some 4⟩, 2, 1⟩], dram := ⟨some 5, some 64, some 64, some 4⟩,
              ticksPerCycle := 1 }
  partitions := [⟨"vector", .vectorCompute, some 2, some 2⟩]
  units := [("adder", { schedulerPartition := "vector", functionalUnits := ["add"] })] }

def sumUop (u parent : Id) (dependencies : List Id) : ExecutionUop := { uop with
  id := u, sequence := u, parentId := parent, kind := .vectorFp, resourceChoices := ["add"], issueDomains := ["port"],
  schedulerPartitionChoices := ["vector"], executionUnitChoices := ["adder"], dependencies := dependencies }

def accessUop (u parent : Id) (access : AccessKind) (line : ℕ) (dependencies : List Id) : ExecutionUop := { uop with
  id := u, sequence := u, parentId := parent, kind := match access with | .load => .loadData | .store => .storeData
  resourceChoices := ["access"], dependencies := dependencies
  memory := some { address := 64 * line, bytes := 64, cacheLines := [(line : ℤ)], access := access } }

def kernelOp (m : Id) (uops : List Id) (vector load store : Bool) : MacroOp where
  id := m
  sequence := m
  uopIds := uops
  decodedMacroOps := 1
  retireMacroOps := 1
  usesVectorScheduler := vector
  usesLoadQueue := load
  usesStoreQueue := store

/-- A line is loaded, added in two parts that go one after the other, and added again by a sum that competes with
the second part for the adder; the sum is stored, and the line loaded again. -/
def kernelTrace : BoundTrace where
  profileId := "sample"
  ticksPerCycle := 1
  macros := [kernelOp 0 [0] false true false, kernelOp 1 [1, 2] true false false, kernelOp 2 [3] true false false,
    kernelOp 3 [4] false false true, kernelOp 4 [5] false true false]
  uops := [accessUop 0 0 .load 0 [], sumUop 1 1 [0], { sumUop 2 1 [0] with issueAfterUop := some 1, issueGapTicks := 1 },
    sumUop 3 2 [0, 1], accessUop 4 3 .store 1 [2, 3], accessUop 5 4 .load 0 []]
  resources := [("add", 1), ("access", 1)]

theorem kernelTrace_bound : Bound kernelTrace := ⟨by decide, by decide, by decide, by decide, by decide⟩

/-- The second part and the sum are ready at tick 6, and the adder takes one of them. -/
theorem zen4_runs : ∃ E s t, Zen4.init kernelTrace kernelProfile false .cold none = .ok E ∧ Zen4.run E = .ok (s, t) ∧
    (s.uop 2).issueTick = some 6 ∧ (s.uop 3).issueTick = some 7 := by
  obtain ⟨E, hE⟩ := Checked.exists_ok (x := Zen4.init kernelTrace kernelProfile false .cold none) (by decide +kernel)
  have hrun : ((Zen4.init kernelTrace kernelProfile false .cold none).bind fun E => (Zen4.run E).map fun r =>
      ((r.1.uop 2).issueTick, (r.1.uop 3).issueTick)).toOption = some (some 6, some 7) := by decide +kernel
  rw [hE] at hrun
  obtain ⟨⟨s, t⟩, h, htwo⟩ := Checked.ok_map.mp (Checked.toOption_ok.mp hrun)
  exact ⟨E, s, t, hE, h, Prod.mk.inj htwo⟩

theorem xsai_runs : ∃ E s t, Xsai.init kernelTrace kernelProfile false .cold none false = .ok E ∧
    Xsai.run E = .ok (s, t) ∧ (s.uop 2).issueTick = some 6 ∧ (s.uop 3).issueTick = some 7 := by
  obtain ⟨E, hE⟩ := Checked.exists_ok
    (x := Xsai.init kernelTrace kernelProfile false .cold none false) (by decide +kernel)
  have hrun : ((Xsai.init kernelTrace kernelProfile false .cold none false).bind fun E => (Xsai.run E).map fun r =>
      ((r.1.uop 2).issueTick, (r.1.uop 3).issueTick)).toOption = some (some 6, some 7) := by decide +kernel
  rw [hE] at hrun
  obtain ⟨⟨s, t⟩, h, htwo⟩ := Checked.ok_map.mp (Checked.toOption_ok.mp hrun)
  exact ⟨E, s, t, hE, h, Prod.mk.inj htwo⟩

end Sample

theorem run_inOrder_sample :
    (∃ E s t, Zen4.init Sample.kernelTrace Sample.kernelProfile false .cold none = .ok E ∧ Zen4.run E = .ok (s, t) ∧
      RunOrdered E.trace false s.toCore ∧ DispatchedOnce E.trace s.toCore) ∧
    ∃ E s t, Xsai.init Sample.kernelTrace Sample.kernelProfile false .cold none false = .ok E ∧
      Xsai.run E = .ok (s, t) ∧ RunOrdered E.trace false s.toCore ∧ DispatchedOnce E.trace s.toCore := by
  obtain ⟨E, s, t, hE, h, -⟩ := Sample.zen4_runs
  obtain ⟨E', s', t', hE', h', -⟩ := Sample.xsai_runs
  have hzen4 := (run_inOrder Sample.kernelTrace Sample.kernelProfile false .cold none).1 E s t hE h
  have hxsai := (run_inOrder Sample.kernelTrace Sample.kernelProfile false .cold none).2 false E' s' t' hE' h'
  refine ⟨⟨E, s, t, hE, h, hzen4.1, hzen4.2.mpr ?_⟩, E', s', t', hE', h', hxsai.1, hxsai.2 fun m hm => ?_⟩
  · rw [(Zen4.init_ok hE).2.trace]
    decide
  · exact (Xsai.schedulerTrace_bound Sample.kernelTrace_bound (Xsai.init_ok hE').scheduled m hm).1

/-- A macro-op that lists its uop twice dispatches it twice. -/
theorem dispatched_twice : ∃ E s t, Zen4.init (Sample.trace [0, 0]) Sample.profile false .cold none = .ok E ∧
    Zen4.run E = .ok (s, t) ∧ ¬ DispatchedOnce E.trace s.toCore := by
  obtain ⟨E, hE⟩ := Checked.exists_ok
    (x := Zen4.init (Sample.trace [0, 0]) Sample.profile false .cold none) (by decide +kernel)
  have hrun : ((Zen4.init (Sample.trace [0, 0]) Sample.profile false .cold none).bind
      fun E => (Zen4.run E).map fun r => ticksOf .dispatch 0 r.1.events).toOption = some [0, 0] := by
    decide +kernel
  rw [hE] at hrun
  obtain ⟨⟨s, t⟩, h, hev⟩ := Checked.ok_map.mp (Checked.toOption_ok.mp hrun)
  refine ⟨E, s, t, hE, h, fun honce => ?_⟩
  obtain ⟨d, hd, -⟩ := honce Sample.uop (by rw [(Zen4.init_ok hE).2.trace]; exact List.mem_cons_self)
  rw [show Sample.uop.id = 0 from rfl, hev] at hd
  cases hd

end VectorSim
