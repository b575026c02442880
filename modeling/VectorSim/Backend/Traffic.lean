/-
# What the engines ask of the memory hierarchy

The hierarchy changes in two places of an engine: the issue check of a load or store
asks it, also where the next tick is looked for, and the issue accesses it. Everything
else leaves it alone (`Still`). `Traffic` lists the three kinds of moves, which are the
same in both engines, and a property that each of them keeps holds in every state of a
run (`Zen4.Reachable.traffic`, `Xsai.Reachable.traffic`).
-/
import VectorSim.Backend.Zen4Steps
import VectorSim.Backend.CycleTokens

namespace VectorSim

open Checked Setup Core

/-- Nothing issues. -/
structure Still (s s' : Machine) : Prop where
  issue : ∀ u, (s'.uop u).issueTick = (s.uop u).issueTick
  latency : ∀ u, (s'.uop u).latencyTicks = (s.uop u).latencyTicks
  level : ∀ u, (s'.placement u).memoryLevel = (s.placement u).memoryLevel

/-- What the hierarchy does for a uop that issues. -/
def Accessed (E : Setup) (now : ℕ) (x : ExecutionUop) (s s' : Machine) : Prop :=
  if x.kind.isMemory then ∃ r, E.memory.access s.memory x.memory now = .ok (s'.memory, r) ∧
    (s'.placement x.id).memoryLevel = some r.level ∧
    (x.kind = .loadData → r.latencyTicks ≤ (s'.uop x.id).latencyTicks)
  else s'.memory = s.memory ∧ (s'.placement x.id).memoryLevel = none

/-- What an engine does to the hierarchy at a tick, and what it records of it. -/
inductive Traffic (E : Setup) (now : ℕ) (s s' : Machine) : Prop
  | still (still : Still s s') (memory : s'.memory = s.memory)
  | poll {x : ExecutionUop} {b : Option Blocked} (still : Still s s') (mem : x ∈ E.trace.uops)
      (kind : x.kind.isMemory = true) (asked : E.hierarchyBlocker s.memory x now = .ok (s'.memory, b))
  | issue {x : ExecutionUop} (mem : x ∈ E.trace.uops) (waiting : (s.uop x.id).issueTick = none)
      (issue : ∀ u, (s'.uop u).issueTick = if u = x.id then some now else (s.uop u).issueTick)
      (latency : ∀ u, u ≠ x.id → (s'.uop u).latencyTicks = (s.uop u).latencyTicks)
      (level : ∀ u, u ≠ x.id → (s'.placement u).memoryLevel = (s.placement u).memoryLevel)
      (accessed : Accessed E now x s s')

/-- A property of the states of a run that what an engine does keeps. -/
structure Keeps (E : Setup) (P : ℕ → Machine → Prop) : Prop where
  traffic : ∀ now s s', P now s → Traffic E now s s' → P now s'
  later : ∀ now next s, P now s → now < next → P next s

theorem Still.refl (s : Machine) : Still s s := ⟨fun _ => rfl, fun _ => rfl, fun _ => rfl⟩

theorem Still.trans {a b c : Machine} (h : Still a b) (h' : Still b c) : Still a c :=
  ⟨fun u => (h'.issue u).trans (h.issue u), fun u => (h'.latency u).trans (h.latency u),
    fun u => (h'.level u).trans (h.level u)⟩

/-- Nothing issues and the hierarchy is left alone. -/
structure Untouched (s s' : Machine) : Prop extends Still s s' where
  memory : s'.memory = s.memory

theorem Untouched.refl (s : Machine) : Untouched s s := ⟨.refl s, rfl⟩

theorem Untouched.trans {a b c : Machine} (h : Untouched a b) (h' : Untouched b c) : Untouched a c :=
  ⟨h.toStill.trans h'.toStill, h'.memory.trans h.memory⟩

variable {P : ℕ → Machine → Prop} {now : ℕ}

theorem Keeps.untouched {E : Setup} (hP : Keeps E P) {s s' : Machine} (hs : P now s) (h : Untouched s s') : P now s' :=
  hP.traffic _ _ _ hs (.still h.toStill h.memory)

namespace Zen4

variable {E : Setup} {s s' : Machine}

/-! ### The Zen 4 engine -/

theorem completeEntry_untouched (e : HeapEntry) (rest : List HeapEntry) : Untouched s (completeEntry E s e rest).2 := by
  unfold completeEntry
  dsimp only
  split
  · exact ⟨⟨fun _ => rfl, fun _ => rfl, fun _ => rfl⟩, rfl⟩
  · refine ⟨⟨fun u => ?_, fun u => ?_, fun _ => rfl⟩, rfl⟩
    · rw [completeUop_uop]
      split <;> rfl
    · rw [completeUop_uop]
      split <;> rfl

theorem completeLoop_untouched : ∀ (fuel : ℕ) (s : Machine), Untouched s (completeLoop E now fuel s).2
  | 0, s => .refl s
  | fuel + 1, s => by
    unfold completeLoop
    cases hq : s.completionHeap with
    | nil => exact .refl s
    | cons e rest =>
      dsimp only
      split
      · exact (completeEntry_untouched e rest).trans (completeLoop_untouched fuel _)
      · exact .refl s

theorem dispatchMacro_untouched (m : MacroOp) : Untouched s (dispatchMacro s m now) := by
  refine ⟨⟨fun u => ?_, fun u => ?_, fun _ => rfl⟩, rfl⟩
  · simp only [dispatchMacro, Core.advance, dispatchAll_uop]
    split <;> rfl
  · simp only [dispatchMacro, Core.advance, dispatchAll_uop]
    split <;> rfl

theorem dispatchLoop_untouched {width : ℕ} : ∀ (fuel dispatched : ℕ) (s : Machine) {s' : Machine},
    dispatchLoop E width now fuel dispatched s = .ok s' → Untouched s s'
  | 0, _, s, s', h => by cases h; exact .refl s
  | fuel + 1, dispatched, s, s', h => by
    unfold dispatchLoop at h
    split at h
    · cases h; exact .refl s
    · next m _ =>
      split at h
      · cases h; exact .refl s
      · obtain ⟨b, -, h⟩ := ok_bind.mp h
        split at h
        · cases h; exact ⟨⟨fun _ => rfl, fun _ => rfl, fun _ => rfl⟩, rfl⟩
        · exact (dispatchMacro_untouched m).trans (dispatchLoop_untouched fuel _ _ h)

theorem retireLoop_untouched {width : ℕ} : ∀ (fuel retired : ℕ) (s : Machine),
    Untouched s (retireLoop E width now fuel retired s)
  | 0, _, s => .refl s
  | fuel + 1, retired, s => by
    unfold retireLoop
    split
    · exact .refl s
    · split
      · have hretire : ∀ m, Untouched s (retireMacro s m now) := fun m =>
          ⟨⟨fun _ => rfl, fun _ => rfl, fun _ => rfl⟩, rfl⟩
        exact (hretire _).trans (retireLoop_untouched fuel _ _)
      · exact .refl s

/-- The issue check leaves the hierarchy alone or asks it about the uop. -/
theorem issueBlocker_traffic {x : ExecutionUop} {r : MemoryState × Option Blocked} (hx : x ∈ E.trace.uops)
    (h : issueBlocker E s x now = .ok r) : Traffic E now s { s with memory := r.1 } := by
  have hstill : Still s { s with memory := r.1 } := ⟨fun _ => rfl, fun _ => rfl, fun _ => rfl⟩
  unfold issueBlocker at h
  split at h
  · cases h; exact .still hstill rfl
  · obtain ⟨b, -, h⟩ := ok_bind.mp h
    split at h
    · cases h; exact .still hstill rfl
    · obtain ⟨q, hq, h⟩ := ok_bind.mp h
      have hr : r.1 = q.1 := by
        split at h
        · cases h; rfl
        · obtain ⟨b', -, h⟩ := ok_bind.mp h
          cases h; rfl
      unfold memoryBlocker at hq
      split at hq
      · next hkind =>
        refine .poll (b := q.2) hstill hx hkind ?_
        rw [show ({ s with memory := r.1 } : Machine).memory = q.1 from hr]
        exact hq
      · cases hq
        exact .still hstill hr

/-- The issue accesses the hierarchy for the uop. -/
theorem issueUop_traffic {x : ExecutionUop} (hx : x ∈ E.trace.uops) (hwait : (s.uop x.id).issueTick = none)
    (h : issueUop E s x now = .ok s') : Traffic E now s s' := by
  obtain ⟨p, a, free, -, ha, -, rfl⟩ := issueUop_ok h
  refine .issue hx hwait (fun u => ?_) (fun u hu => ?_) (fun u hu => ?_) ?_
  · simp only [issued, issue_uop]
    split <;> rfl
  · simp only [issued, issue_uop, if_neg hu]
  · simp only [issued, Function.update_of_ne hu]
  · unfold accessMemory at ha
    unfold Accessed
    split at ha
    · next hkind =>
      obtain ⟨r, hr, ha⟩ := ok_bind.mp ha
      cases ha
      rw [if_pos hkind]
      refine ⟨r.2, ?_, by simp [issued], fun hload => ?_⟩
      · cases haccess : E.memory.access s.memory x.memory now with
        | error e => rw [haccess] at hr; cases hr
        | ok q => rw [haccess] at hr; cases hr; rfl
      · simp [issued, issue_uop, hload]
    · next hkind =>
      cases ha
      rw [if_neg hkind]
      exact ⟨rfl, by simp [issued]⟩

/-- What a procedure keeps of the bookkeeping and of a property. -/
def Carries (E : Setup) (P : ℕ → Machine → Prop) (now : ℕ) (s s' : Machine) : Prop :=
  Inv E now s → P now s → Inv E now s' ∧ P now s'

theorem Carries.refl (s : Machine) : Carries E P now s s := fun hs hp => ⟨hs, hp⟩

theorem Carries.trans {a b c : Machine} (h : Carries E P now a b) (h' : Carries E P now b c) :
    Carries E P now a c := fun ha hp => h' (h ha hp).1 (h ha hp).2

theorem carries_untouched (hT : WellFormed E.trace) (hP : Keeps E P) (h : Steps E now s s') (ha : Untouched s s') :
    Carries E P now s s' := fun hs hp => ⟨h.invariant hs fun _ _ => inv_step hT, hP.untouched hp ha⟩

theorem issueList_carries (hT : WellFormed E.trace) (hP : Keeps E P) : ∀ (xs : List ExecutionUop) (s : Machine)
    {r : Bool × Machine}, Candidates E s.toCore xs → issueList E now xs s = .ok r → Carries E P now s r.2
  | [], s, r, _, h => by cases h; exact .refl s
  | x :: xs, s, r, hc, h => by
    obtain ⟨⟨memory, b⟩, hb, h⟩ := ok_bind.mp h
    have hx := hc.head.1
    have hpoll : Carries E P now s { s with memory := memory } := fun hs hp =>
      ⟨inv_step hT hs (.poll memory), hP.traffic _ _ _ hp (issueBlocker_traffic hx hb)⟩
    cases b with
    | some b =>
      dsimp only at h
      split at h
      · cases h; exact hpoll
      · exact hpoll.trans (issueList_carries hT hP xs { s with memory := memory } hc.tail h)
    | none =>
      dsimp only at h
      obtain ⟨s₁, h₁, h⟩ := ok_bind.mp h
      obtain ⟨r', h', h⟩ := ok_bind.mp h
      cases h
      have hissue : Carries E P now { s with memory := memory } s₁ := by
        intro hs hp
        have hwait := ((hs.core.uops.waiting x.id).mp hc.head.2.1).2
        have htraffic := issueUop_traffic hx hwait h₁
        obtain ⟨p, a, free, hp', ha, hf, rfl⟩ := issueUop_ok h₁
        obtain ⟨he, -, -, hd⟩ := issueBlocker_none hb
        have hn := earlyBlocker_none he
        have hstep : Step E now { s with memory := memory } (issued E { s with memory := memory } x now p a free) :=
          .issue (hc.issuable hn.1 hn.2.1) he hp' ha (domainBlocker_demand hd) hf
        exact ⟨inv_step hT hs hstep, hP.traffic _ _ _ hp htraffic⟩
      obtain ⟨p, a, free, -, -, -, rfl⟩ := issueUop_ok h₁
      have hrest : Carries E P now _ r'.2 := issueList_carries hT hP xs _ (hc.issue a.2.2) h'
      exact (hpoll.trans hissue).trans hrest

theorem phase_carries (hT : WellFormed E.trace) (hP : Keeps E P) {f : Machine → Except SimError Machine}
    (hf : f ∈ phases E now) (h : f s = .ok s') : Carries E P now s s' := by
  have hcomplete : ∀ s, Carries E P now s (complete E now s).2 := fun s =>
    carries_untouched hT hP (complete_steps s) (completeLoop_untouched _ s)
  have hsteps := phase_steps hT hf h
  simp only [phases, List.mem_cons, List.not_mem_nil, or_false] at hf
  rcases hf with rfl | rfl | rfl | rfl | rfl
  · cases h; exact hcomplete s
  · dsimp only at h
    split at h
    · obtain ⟨width, -, h⟩ := ok_bind.mp h
      exact carries_untouched hT hP hsteps (dispatchLoop_untouched _ _ _ h)
    · cases h; exact .refl s
  · exact FixedPoint.run_steps h .trans hcomplete fun s r hr =>
      issueList_carries hT hP _ s (candidates_issueCandidates hT _) hr
  · cases h; exact hcomplete s
  · dsimp only at h
    split at h
    · obtain ⟨width, -, h⟩ := ok_bind.mp h
      cases h
      exact carries_untouched hT hP hsteps (retireLoop_untouched _ _ s)
    · cases h; exact .refl s

theorem visit_carries (hT : WellFormed E.trace) (hP : Keeps E P) {fs : List (Machine → Except SimError Machine)}
    (hfs : fs ⊆ phases E now) (h : visitOf fs s = .ok s') : Carries E P now s s' :=
  foldlM_ok (P := fun t => Carries E P now s t) h (.refl s) fun _ hf _ _ ht hs =>
    ht.trans (phase_carries hT hP (hfs hf) hs)

/-- The choice of the next tick asks the hierarchy about the waiting uops. -/
theorem nextEventTick_keeps (hT : WellFormed E.trace) (hP : Keeps E P) {t : ℕ} (hs : P now s)
    (h : nextEventTick E now s = .ok (s', t)) : P now s' := by
  obtain ⟨r, hr, h⟩ := ok_bind.mp h
  have hpolled : P now { s with memory := r.1 } := by
    refine foldlM_ok (P := fun q : MemoryState × List ℕ => P now { s with memory := q.1 }) hr hs ?_
    intro x hx q q' hq hx'
    obtain ⟨b, hb, hx'⟩ := ok_bind.mp hx'
    obtain ⟨ticks, -, hx'⟩ := ok_bind.mp hx'
    cases hx'
    have hmem := ((candidates_issueCandidates hT s.toCore).mem x hx).1
    exact hP.traffic _ _ _ hq (issueBlocker_traffic (s := { s with memory := q.1 }) hmem hb)
  split at h
  · cases h
  · cases h; exact hpolled

theorem AtTick.traffic (hT : WellFormed E.trace) (hP : Keeps E P) (init : P 0 E.machineInit) (h : AtTick E now s) :
    Inv E now s ∧ P now s := by
  obtain ⟨n, h⟩ := h
  refine h.invariant (P := fun now s => Inv E now s ∧ P now s) ⟨inv_init, init⟩ ?_ ?_
  · rintro now s s' ⟨hs, hp⟩ - hv
    exact visit_carries hT hP (List.Subset.refl _) hv hs hp
  · rintro now s s' t ⟨hs, hp⟩ hn hlt
    refine ⟨?_, hP.later _ _ _ (nextEventTick_keeps hT hP hp hn) hlt⟩
    obtain ⟨memory, rfl⟩ := nextEventTick_ok hn
    exact (inv_step hT hs (.poll memory)).later hlt.le

/-- **What the traffic keeps holds in every state of a run.** -/
theorem Reachable.traffic (hT : WellFormed E.trace) (hP : Keeps E P) (init : P 0 E.machineInit)
    (h : Reachable E now s) : P now s := by
  obtain ⟨s₀, fs, gs, h₀, hfs, hv⟩ := h
  obtain ⟨hs, hp⟩ := h₀.traffic hT hP init
  exact (visit_carries hT hP (hfs ▸ List.subset_append_left fs gs) hv hs hp).2

end Zen4
namespace Xsai

variable {E : Config} {s s' : Sched}

/-! ### The XSAI engine -/

/-- What a turn of dispatch leaves alone. -/
abbrev Untouched (s s' : Sched) : Prop := VectorSim.Untouched s.toMachine s'.toMachine

theorem untouched_refl (s : Sched) : Untouched s s := VectorSim.Untouched.refl s.toMachine

theorem completeEntry_untouched (e : HeapEntry) (rest : List HeapEntry) : Untouched s (completeEntry E s e rest).2 := by
  unfold completeEntry
  dsimp only
  split
  · exact ⟨⟨fun _ => rfl, fun _ => rfl, fun _ => rfl⟩, rfl⟩
  · refine ⟨⟨fun u => ?_, fun u => ?_, fun _ => rfl⟩, rfl⟩
    · rw [completeUop_uop]
      split <;> rfl
    · rw [completeUop_uop]
      split <;> rfl

theorem completeLoop_untouched : ∀ (fuel : ℕ) (s : Sched), Untouched s (completeLoop E now fuel s).2
  | 0, s => untouched_refl s
  | fuel + 1, s => by
    unfold completeLoop
    cases hq : s.completionHeap with
    | nil => exact untouched_refl s
    | cons e rest =>
      dsimp only
      split
      · exact (completeEntry_untouched e rest).trans (completeLoop_untouched fuel _)
      · exact untouched_refl s

theorem releaseFlowsLoop_untouched : ∀ (fuel : ℕ) (s : Sched), Untouched s (releaseFlowsLoop E now fuel s)
  | 0, s => untouched_refl s
  | fuel + 1, s => by
    unfold releaseFlowsLoop
    cases hq : s.serviceHeap with
    | nil => exact untouched_refl s
    | cons e rest =>
      dsimp only
      split
      · have hflow : Untouched s (releaseFlow E s e rest) := ⟨⟨fun _ => rfl, fun _ => rfl, fun _ => rfl⟩, rfl⟩
        exact hflow.trans (releaseFlowsLoop_untouched fuel _)
      · exact untouched_refl s

theorem releaseRenameLoop_untouched : ∀ (fuel width : ℕ) (s : Sched), Untouched s (releaseRenameLoop now fuel width s)
  | 0, _, s => untouched_refl s
  | fuel + 1, width, s => by
    unfold releaseRenameLoop
    cases hq : s.renamePending with
    | nil => exact untouched_refl s
    | cons b rest =>
      dsimp only
      split
      · exact untouched_refl s
      · have hbatch : Untouched s (returnBatch s b rest width).2.2 := ⟨⟨fun _ => rfl, fun _ => rfl, fun _ => rfl⟩, rfl⟩
        split
        · exact hbatch.trans (releaseRenameLoop_untouched fuel _ _)
        · exact hbatch

theorem releaseRename_untouched (s : Sched) : Untouched s (releaseRename E now s) := by
  unfold releaseRename
  split
  · exact releaseRenameLoop_untouched _ _ s
  · exact untouched_refl s

theorem admitOnce_untouched (c : DispatchCycle) (m : MacroOp) : Untouched s (admitOnce E s c m now).1 := by
  unfold admitOnce
  split
  · exact untouched_refl s
  · exact ⟨⟨fun _ => rfl, fun _ => rfl, fun _ => rfl⟩, rfl⟩

theorem enqueue_untouched (r : Sched × DispatchCycle) (m : MacroOp) (units : ℕ) (us : List Id) (a : List (Id × String))
    (h : Untouched s r.1) : Untouched s (enqueue (spend r m units) us a now).1 := by
  refine ⟨⟨fun u => ?_, fun u => ?_, fun u => ?_⟩, h.memory⟩
  · simp only [enqueue, dispatchAll_uop]
    split <;> exact h.issue u
  · simp only [enqueue, dispatchAll_uop]
    split <;> exact h.latency u
  · simp only [enqueue]
    split <;> exact h.level u

theorem closeTurn_untouched {r : Sched × DispatchCycle} {m : MacroOp} {r' : Bool × Sched × DispatchCycle}
    (h : closeTurn r m = .ok r') : Untouched r.1 r'.2.1 := by
  unfold closeTurn at h
  split at h
  · split at h
    · cases h
    · cases h; exact ⟨⟨fun _ => rfl, fun _ => rfl, fun _ => rfl⟩, rfl⟩
  · cases h; exact untouched_refl r.1

theorem stopBlocked_untouched {c : DispatchCycle} {m : MacroOp} {reason : DispatchStall}
    {r : Bool × Sched × DispatchCycle} (h : stopBlocked s c m now reason = .ok r) : Untouched s r.2.1 := by
  obtain ⟨stalls, domains, rfl⟩ := stopBlocked_ok h
  exact ⟨⟨fun _ => rfl, fun _ => rfl, fun _ => rfl⟩, rfl⟩

theorem dispatchTurn_untouched {width : ℕ} {c : DispatchCycle} {m : MacroOp} {r : Bool × Sched × DispatchCycle}
    (h : dispatchTurn E width now s c m = .ok r) : Untouched s r.2.1 := by
  unfold dispatchTurn at h
  dsimp only at h
  split at h
  · cases h; exact ⟨⟨fun _ => rfl, fun _ => rfl, fun _ => rfl⟩, rfl⟩
  · split at h
    · cases h; exact untouched_refl s
    · next chunk _ =>
      obtain ⟨b, -, h⟩ := ok_bind.mp h
      cases b with
      | some reason => exact stopBlocked_untouched h
      | none =>
        cases chunk with
        | take us a units => exact (enqueue_untouched _ m units us a (admitOnce_untouched c m)).trans (closeTurn_untouched h)
        | budget units => cases h; exact admitOnce_untouched c m
        | blocked =>
          dsimp only at h
          split at h <;> exact stopBlocked_untouched h

theorem dispatchLoop_untouched {width : ℕ} : ∀ (fuel : ℕ) (s : Sched) (c : DispatchCycle) {s' : Sched},
    dispatchLoop E width now fuel s c = .ok s' → Untouched s s'
  | 0, s, _, s', h => by cases h; exact untouched_refl s
  | fuel + 1, s, c, s', h => by
    unfold dispatchLoop at h
    split at h
    · cases h; exact untouched_refl s
    · split at h
      · cases h; exact untouched_refl s
      · obtain ⟨r, hr, h⟩ := ok_bind.mp h
        have hturn := dispatchTurn_untouched hr
        split at h
        · exact hturn.trans (dispatchLoop_untouched fuel _ _ h)
        · cases h; exact hturn

theorem retireLoop_untouched {width : ℕ} : ∀ (fuel retired : ℕ) (s : Sched),
    Untouched s (retireLoop E width now fuel retired s)
  | 0, _, s => untouched_refl s
  | fuel + 1, retired, s => by
    unfold retireLoop
    split
    · exact untouched_refl s
    · split
      · have hretire : ∀ m, Untouched s (retireMacro E s m now) := fun m =>
          ⟨⟨fun _ => rfl, fun _ => rfl, fun _ => rfl⟩, rfl⟩
        exact (hretire _).trans (retireLoop_untouched fuel _ _)
      · exact untouched_refl s

/-- The issue check leaves the hierarchy alone or asks it about the uop. -/
theorem issueBlocker_traffic {x : ExecutionUop} {r : MemoryState × Option Blocked} (hx : x ∈ E.trace.uops)
    (h : issueBlocker E s x now = .ok r) :
    Traffic E.toSetup now s.toMachine { s.toMachine with memory := r.1 } := by
  have hstill : Still s.toMachine { s.toMachine with memory := r.1 } := ⟨fun _ => rfl, fun _ => rfl, fun _ => rfl⟩
  unfold issueBlocker at h
  split at h
  · cases h; exact .still hstill rfl
  · obtain ⟨b, -, h⟩ := ok_bind.mp h
    split at h
    · cases h; exact .still hstill rfl
    · obtain ⟨q, hq, h⟩ := ok_bind.mp h
      have hr : r.1 = q.1 := by
        split at h
        · cases h; rfl
        · obtain ⟨b', -, h⟩ := ok_bind.mp h
          cases h; rfl
      unfold memoryBlocker at hq
      split at hq
      · next hkind =>
        obtain ⟨v, -, hq⟩ := ok_bind.mp hq
        split at hq
        · cases hq
          exact .still hstill hr
        · refine .poll (b := q.2) hstill hx hkind ?_
          rw [show ({ s.toMachine with memory := r.1 } : Machine).memory = q.1 from hr]
          exact hq
      · cases hq
        exact .still hstill hr

/-- The issue accesses the hierarchy for the uop. -/
theorem issueUop_traffic (htpc : 0 < E.ticksPerCycle) {x : ExecutionUop} (hx : x ∈ E.trace.uops)
    (hwait : (s.uop x.id).issueTick = none) (h : issueUop E s x now = .ok s') :
    Traffic E.toSetup now s.toMachine s'.toMachine := by
  obtain ⟨p, hp, h⟩ := ok_bind.mp h
  cases h
  have ha := (reserve_ok hp).access
  refine .issue hx hwait (fun u => ?_) (fun u hu => ?_) (fun u hu => ?_) ?_
  · simp only [issued, issue_uop]
    split <;> rfl
  · simp only [issued, issue_uop, if_neg hu]
  · simp only [issued, Function.update_of_ne hu]
  · unfold accessMemory at ha
    unfold Accessed
    split at ha
    · next hkind =>
      obtain ⟨r, hr, ha⟩ := ok_bind.mp ha
      obtain ⟨hmemory, hlevel, hlatency⟩ : r.1 = p.memory ∧ some r.2.level = p.level ∧
          accessLatency E s x r.2.latencyTicks = p.latency := by simpa using ha
      rw [if_pos hkind]
      refine ⟨r.2, ?_, by simp [issued, hlevel], fun hload => ?_⟩
      · cases haccess : E.memory.access s.memory x.memory now with
        | error e => rw [haccess] at hr; cases hr
        | ok q =>
          rw [haccess] at hr
          cases hr
          exact congrArg Except.ok (Prod.ext hmemory rfl)
      · have hle : now + p.latency ≤ (reserveCompletion E s p.path.completionDomain (now + p.latency)).2 :=
          le_reserveCompletion htpc _ _
        have hmax : r.2.latencyTicks ≤ p.latency := by
          rw [← hlatency, accessLatency, if_neg (by simp [hload])]
          exact le_max_right _ _
        simp only [issued, issue_uop, if_pos]
        omega
    · next hkind =>
      obtain ⟨hmemory, hlevel, -⟩ : s.memory = p.memory ∧ none = p.level ∧ _ = p.latency := by simpa using ha
      rw [if_neg hkind]
      exact ⟨hmemory.symm, by simp [issued, ← hlevel]⟩

/-- What a procedure keeps of the bookkeeping and of a property. -/
def Carries (E : Config) (P : ℕ → Machine → Prop) (now : ℕ) (s s' : Sched) : Prop :=
  CoreInv E now s → P now s.toMachine → CoreInv E now s' ∧ P now s'.toMachine

theorem Carries.refl (s : Sched) : Carries E P now s s := fun hs hp => ⟨hs, hp⟩

theorem Carries.trans {a b c : Sched} (h : Carries E P now a b) (h' : Carries E P now b c) :
    Carries E P now a c := fun ha hp => h' (h ha hp).1 (h ha hp).2

theorem carries_untouched (hT : WellFormed E.trace) (hP : Keeps E.toSetup P) (h : Steps E now s s') (ha : Untouched s s') :
    Carries E P now s s' := fun hs hp => ⟨h.invariant hs fun _ _ => inv_step hT, hP.untouched hp ha⟩

theorem issueList_carries (hT : WellFormed E.trace) (htpc : 0 < E.ticksPerCycle) (hP : Keeps E.toSetup P) :
    ∀ (xs : List ExecutionUop) (s : Sched) {r : Bool × Sched}, Candidates E.toSetup s.toCore xs →
      issueList E now xs s = .ok r → Carries E P now s r.2
  | [], s, r, _, h => by cases h; exact .refl s
  | x :: xs, s, r, hc, h => by
    obtain ⟨⟨memory, b⟩, hb, h⟩ := ok_bind.mp h
    have hx := hc.head.1
    have hpoll : Carries E P now s { s with memory := memory } := fun hs hp =>
      ⟨inv_step hT hs (.poll memory), hP.traffic _ _ _ hp (issueBlocker_traffic hx hb)⟩
    cases b with
    | some b =>
      dsimp only at h
      split at h
      · cases h; exact hpoll
      · exact hpoll.trans (issueList_carries hT htpc hP xs { s with memory := memory } hc.tail h)
    | none =>
      dsimp only at h
      obtain ⟨s₁, h₁, h⟩ := ok_bind.mp h
      obtain ⟨r', h', h⟩ := ok_bind.mp h
      cases h
      have hreserved := h₁
      obtain ⟨p, hp, h₁⟩ := ok_bind.mp h₁
      cases h₁
      have hissue : Carries E P now { s with memory := memory } (issued E { s with memory := memory } x now p) := by
        intro hs hp'
        have hwait := ((hs.uops.waiting x.id).mp hc.head.2.1).2
        obtain ⟨he, hres, hm, ht⟩ := issueBlocker_none hb
        have hn := earlyBlocker_none he
        have hstep : Step E now { s with memory := memory } (issued E { s with memory := memory } x now p) :=
          .issue (hc.issuable hn.1 hn.2.2.1) he ((resourceChecks_memory s memory x).trans hres)
            (fun hx => (memoryBlocker_none hm hx).1) ht hp
        exact ⟨inv_step hT hs hstep, hP.traffic _ _ _ hp' (issueUop_traffic htpc hx hwait hreserved)⟩
      have hrest : Carries E P now _ r'.2 := issueList_carries hT htpc hP xs _ (hc.issue _) h'
      exact (hpoll.trans hissue).trans hrest

theorem phase_carries (hT : WellFormed E.trace) (htpc : 0 < E.ticksPerCycle) (hP : Keeps E.toSetup P)
    {f : Sched → Except SimError Sched} (hf : f ∈ phases E now) (h : f s = .ok s') : Carries E P now s s' := by
  have hcomplete : ∀ s, Carries E P now s (complete E now s).2 := fun s =>
    carries_untouched hT hP (complete_steps s) (completeLoop_untouched _ s)
  have hsteps := phase_steps hT hf h
  simp only [phases, List.mem_cons, List.not_mem_nil, or_false] at hf
  rcases hf with rfl | rfl | rfl | rfl | rfl | rfl | rfl
  · cases h; exact hcomplete s
  · cases h; exact carries_untouched hT hP hsteps (releaseFlowsLoop_untouched _ s)
  · cases h; exact carries_untouched hT hP hsteps (releaseRename_untouched s)
  · dsimp only at h
    split at h
    · obtain ⟨width, -, h⟩ := ok_bind.mp h
      exact carries_untouched hT hP hsteps (dispatchLoop_untouched _ _ _ h)
    · cases h; exact .refl s
  · exact FixedPoint.run_steps h .trans hcomplete fun s r hr =>
      issueList_carries hT htpc hP _ s (candidates_issueCandidates hT _) hr
  · cases h; exact hcomplete s
  · dsimp only at h
    split at h
    · obtain ⟨width, -, h⟩ := ok_bind.mp h
      cases h
      exact carries_untouched hT hP hsteps (retireLoop_untouched _ _ s)
    · cases h; exact .refl s

theorem visit_carries (hT : WellFormed E.trace) (htpc : 0 < E.ticksPerCycle) (hP : Keeps E.toSetup P)
    {fs : List (Sched → Except SimError Sched)} (hfs : fs ⊆ phases E now) (h : visitOf fs s = .ok s') :
    Carries E P now s s' :=
  foldlM_ok (P := fun t => Carries E P now s t) h (.refl s) fun _ hf _ _ ht hs =>
    ht.trans (phase_carries hT htpc hP (hfs hf) hs)

/-- The choice of the next tick asks the hierarchy about the waiting uops. -/
theorem nextEventTick_keeps (hT : WellFormed E.trace) (hP : Keeps E.toSetup P) {t : ℕ} (hs : P now s.toMachine)
    (h : nextEventTick E now s = .ok (s', t)) : P now s'.toMachine := by
  obtain ⟨r, hr, h⟩ := ok_bind.mp h
  have hpolled : P now { s.toMachine with memory := r.1 } := by
    refine foldlM_ok (P := fun q : MemoryState × List ℕ => P now { s.toMachine with memory := q.1 }) hr hs ?_
    intro x hx q q' hq hx'
    obtain ⟨b, hb, hx'⟩ := ok_bind.mp hx'
    obtain ⟨ticks, -, hx'⟩ := ok_bind.mp hx'
    cases hx'
    have hmem := ((candidates_issueCandidates hT s.toCore).mem x hx).1
    exact hP.traffic _ _ _ hq (issueBlocker_traffic (s := { s with memory := q.1 }) hmem hb)
  split at h
  · cases h
  · cases h; exact hpolled

theorem AtTick.traffic (hT : WellFormed E.trace) (htpc : 0 < E.ticksPerCycle) (hP : Keeps E.toSetup P)
    (init : P 0 E.machineInit) (h : AtTick E now s) : CoreInv E now s ∧ P now s.toMachine := by
  obtain ⟨n, h⟩ := h
  refine h.invariant (P := fun now s => CoreInv E now s ∧ P now s.toMachine) ⟨inv_init, init⟩ ?_ ?_
  · rintro now s s' ⟨hs, hp⟩ - hv
    exact visit_carries hT htpc hP (List.Subset.refl _) hv hs hp
  · rintro now s s' t ⟨hs, hp⟩ hn hlt
    refine ⟨?_, hP.later _ _ _ (nextEventTick_keeps hT hP hp hn) hlt⟩
    obtain ⟨memory, rfl⟩ := nextEventTick_ok hn
    exact (inv_step hT hs (.poll memory)).later hlt.le

/-- **What the traffic keeps holds in every state of a run.** -/
theorem Reachable.traffic (hT : WellFormed E.trace) (htpc : 0 < E.ticksPerCycle) (hP : Keeps E.toSetup P)
    (init : P 0 E.machineInit) (h : Reachable E now s) : P now s.toMachine := by
  obtain ⟨s₀, fs, gs, h₀, hfs, hv⟩ := h
  obtain ⟨hs, hp⟩ := h₀.traffic hT htpc hP init
  exact (visit_carries hT htpc hP (hfs ▸ List.subset_append_left fs gs) hv hs hp).2

end Xsai
end VectorSim
