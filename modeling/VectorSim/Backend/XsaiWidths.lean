/-
# The widths of the XSAI engine

What the dispatcher does in an architectural cycle is within the widths of the
profile: the dispatch units it spends, the uops that enter a partition, the
uses of a dispatch domain, the rename allocations; and so is what retires. The
dispatcher's own counters (`DispatchCycle`) start at zero at a cycle boundary
and are those of the whole cycle (`Counted`), as it runs at no other tick.
-/
import VectorSim.Backend.XsaiOccupancy

namespace VectorSim
namespace Xsai

open Checked Setup Core

variable {E : Config} {now : ℕ} {s s' : Sched}

/-! ### What is counted -/

/-- The uses that a macro-op makes of a dispatch domain. -/
def domainUnits (d : String) (m : MacroOp) : ℕ := if d ∈ m.dispatchDomains then domainDemand m d else 0

/-- The rename entries that a macro-op takes. -/
def renameUnits (E : Config) (m : MacroOp) : ℕ := if E.rename.enabled then allocationTotal m else 0

/-- The uop enters a partition in a cycle. -/
def entersIn (E : Config) (s : Sched) (p : String) (cycle : ℕ) (x : ExecutionUop) : Bool :=
  (s.placement x.id).partition = some p && (s.uop x.id).dispatchTick.any (· / E.ticksPerCycle = cycle)

/-- The dispatch units spent so far. -/
def spentUnits (E : Config) (s : Sched) : ℕ := (E.trace.macros.map fun m => s.unitProgress m.id).sum

/-- What the macro-ops admitted in a cycle take. -/
abbrev admittedIn (E : Config) (s : Sched) : (MacroOp → ℕ) → ℕ → ℕ :=
  dispatchedIn E.trace E.ticksPerCycle s.toCore

/-- What happens in a cycle is within the widths. -/
structure Widths (E : Config) (s : Sched) : Prop where
  enqueue : ∀ p cycle, E.trace.uops.countP (entersIn E s p cycle) ≤ enqueueWidth E p
  domain : ∀ d capacity, E.dispatchDomainCapacity.lookup d = some capacity → ∀ cycle,
    admittedIn E s (domainUnits d) cycle ≤ capacity
  rename : E.rename.enabled = true → ∀ cycle, admittedIn E s (renameUnits E) cycle ≤ E.rename.allocationWidth
  retire : ∀ n ∈ E.pipeline.retireMacroOpsPerCycle, ∀ cycle,
    retiredIn E.trace E.ticksPerCycle s.toCore (·.retireMacroOps) cycle ≤ n

/-- The step dispatches nothing. -/
structure Undispatched (s s' : Sched) : Prop where
  macros : ∀ m, (s'.macro_ m).dispatchTick = (s.macro_ m).dispatchTick
  uops : ∀ u, (s'.uop u).dispatchTick = (s.uop u).dispatchTick
  placed : ∀ u, (s'.placement u).partition = (s.placement u).partition
  units : s'.unitProgress = s.unitProgress

/-- Nor does it try to. -/
structure SameDispatch (s s' : Sched) : Prop extends Undispatched s s' where
  blocked : s'.blocked = s.blocked

theorem SameDispatch.refl (s : Sched) : SameDispatch s s :=
  ⟨⟨fun _ => rfl, fun _ => rfl, fun _ => rfl, rfl⟩, rfl⟩

theorem SameDispatch.trans {s'' : Sched} (h : SameDispatch s s') (h' : SameDispatch s' s'') :
    SameDispatch s s'' :=
  ⟨⟨fun m => (h'.macros m).trans (h.macros m), fun u => (h'.uops u).trans (h.uops u),
    fun u => (h'.placed u).trans (h.placed u), h'.units.trans h.units⟩, h'.blocked.trans h.blocked⟩

theorem Undispatched.spentUnits (h : Undispatched s s') : spentUnits E s' = Xsai.spentUnits E s := by
  rw [Xsai.spentUnits, Xsai.spentUnits, h.units]

theorem Undispatched.admittedIn {units : MacroOp → ℕ} {cycle : ℕ} (h : Undispatched s s') :
    admittedIn E s' units cycle = Xsai.admittedIn E s units cycle := by
  unfold Xsai.admittedIn dispatchedIn
  congr 1
  exact funext h.macros

theorem Undispatched.entersIn {p : String} {cycle : ℕ} (h : Undispatched s s') :
    entersIn E s' p cycle = Xsai.entersIn E s p cycle := by
  funext x
  rw [Xsai.entersIn, Xsai.entersIn, h.placed, h.uops]

/-! ### A turn of the dispatcher -/

/-- The dispatcher's counters are those of the cycle. -/
structure Counted (E : Config) (now width start : ℕ) (s : Sched) (c : DispatchCycle) : Prop where
  domains : ∀ d, c.domainUsage d = admittedIn E s (domainUnits d) (now / E.ticksPerCycle)
  renames : c.renameUsage = admittedIn E s (renameUnits E) (now / E.ticksPerCycle)
  enqueues : ∀ p, c.partitionEnqueues p = E.trace.uops.countP (entersIn E s p (now / E.ticksPerCycle))
  units : spentUnits E s = start + c.dispatched
  within : c.dispatched ≤ width

/-- What a turn keeps. -/
structure Turn (E : Config) (now width start : ℕ) (s : Sched) (c : DispatchCycle) : Prop where
  core : CoreInv E now s
  widths : Widths E s
  counted : Counted E now width start s c

variable {width start : ℕ} {c : DispatchCycle} {m : MacroOp}

/-- A step that dispatches nothing and retires nothing. -/
theorem Turn.same (h : Turn E now width start s c) (hi : CoreInv E now s') (hs : Undispatched s s')
    (hr : ∀ m, (s'.macro_ m).retireTick = (s.macro_ m).retireTick) : Turn E now width start s' c := by
  have hret : ∀ units cycle, retiredIn E.trace E.ticksPerCycle s'.toCore units cycle =
      retiredIn E.trace E.ticksPerCycle s.toCore units cycle := fun units cycle =>
    SameTicks.retiredIn ⟨hs.macros, hr⟩
  refine ⟨hi, ⟨?_, ?_, ?_, ?_⟩, ⟨?_, ?_, ?_, ?_, h.counted.within⟩⟩
  · intro p cycle; rw [hs.entersIn]; exact h.widths.enqueue p cycle
  · intro d capacity hd cycle; rw [hs.admittedIn]; exact h.widths.domain d capacity hd cycle
  · intro he cycle; rw [hs.admittedIn]; exact h.widths.rename he cycle
  · intro n hn cycle; rw [hret]; exact h.widths.retire n hn cycle
  · intro d; rw [hs.admittedIn]; exact h.counted.domains d
  · rw [hs.admittedIn]; exact h.counted.renames
  · intro p; rw [hs.entersIn]; exact h.counted.enqueues p
  · rw [hs.spentUnits]; exact h.counted.units

theorem domainFull_none : ∀ {ds : List String}, domainFull E c m ds = .ok none → ∀ d ∈ ds,
    ∃ capacity : ℕ+, E.dispatchDomainCapacity.lookup d = some capacity ∧
      c.domainUsage d + domainDemand m d ≤ capacity
  | [], _, d, hd => by cases hd
  | e :: ds, h, d, hd => by
    unfold domainFull at h
    split at h
    · cases h
    · next capacity hcap =>
      split at h
      · cases h
      · next hfit =>
        rcases List.mem_cons.mp hd with rfl | hd
        · exact ⟨capacity, hcap, not_lt.mp hfit⟩
        · exact domainFull_none h d hd

theorem usage_foldl : ∀ (ds : List String) (usage : String → ℕ), ds.Nodup → ∀ d,
    ds.foldl (fun (usage : String → ℕ) d => Function.update usage d (usage d + domainDemand m d)) usage d =
      usage d + if d ∈ ds then domainDemand m d else 0
  | [], usage, _, d => by simp
  | e :: ds, usage, hn, d => by
    obtain ⟨hnot, hn⟩ := List.nodup_cons.mp hn
    rw [List.foldl_cons, usage_foldl ds _ hn d]
    by_cases hd : d = e
    · subst hd; simp [hnot]
    · simp [hd]

theorem renameBlocker_width (henabled : E.rename.enabled = true) (h : renameBlocker E s c m = .ok none)
    (used : c.renameUsage ≤ E.rename.allocationWidth) :
    c.renameUsage + allocationTotal m ≤ E.rename.allocationWidth := by
  unfold renameBlocker at h
  cases hl : m.renameAllocations.isEmpty with
  | true =>
    rw [List.isEmpty_iff] at hl
    simpa [allocationTotal, hl] using used
  | false =>
    rw [if_neg (by simp [henabled, hl])] at h
    split at h
    · cases h
    · split at h
      · cases h
      · next hfit => exact not_lt.mp hfit

/-- The admission of a macro-op counts its domain uses and its rename entries. -/
theorem Turn.admit (hT : WellFormed E.trace) (h : Turn E now width start s c)
    (head : E.trace.macros[s.nextDispatch]? = some m) (room : dispatchBlocker E s c m = .ok none) :
    Turn E now width start (admitOnce E s c m now).1 (admitOnce E s c m now).2 := by
  have hi := (h.core.steps hT (admitOnce_core now (c := c) head).1)
  rcases admitOnce_cases now room with ⟨he, -⟩ | ⟨he, hout, hadm⟩
  · rw [he]; exact h
  rw [he] at hi ⊢
  have hm := List.mem_of_getElem? head
  have hadd : ∀ units cycle, admittedIn E (admitMacro E s c m now).1 units cycle =
      admittedIn E s units cycle + if now / E.ticksPerCycle = cycle then units m else 0 :=
    fun units cycle => dispatchedIn_enterRob hT hm hout
  have hret : ∀ m', ((admitMacro E s c m now).1.macro_ m').retireTick = (s.macro_ m').retireTick := by
    intro m'
    simp only [admitMacro, Core.enterRob, Function.update_apply]
    split
    · next heq => rw [heq]
    · rfl
  refine ⟨hi, ⟨h.widths.enqueue, fun d capacity hd => ?_, fun henabled => ?_, fun n hn cycle => ?_⟩,
    ⟨fun d => ?_, ?_, h.counted.enqueues, h.counted.units, h.counted.within⟩⟩
  · refine within_add (h.widths.domain d capacity hd) ?_ (hadd _)
    rw [← h.counted.domains]
    by_cases hmem : d ∈ m.dispatchDomains
    · obtain ⟨capacity', hd', hfit⟩ := domainFull_none hadm.domains d hmem
      obtain rfl : capacity' = capacity := Option.some.inj (hd'.symm.trans hd)
      simpa [domainUnits, hmem] using hfit
    · rw [domainUnits, if_neg hmem, Nat.add_zero, h.counted.domains]
      exact h.widths.domain d capacity hd _
  · refine within_add (h.widths.rename henabled) ?_ (hadd _)
    have hused := h.widths.rename henabled (now / E.ticksPerCycle)
    rw [← h.counted.renames] at hused ⊢
    rw [renameUnits, if_pos henabled]
    exact renameBlocker_width henabled hadm.rename hused
  · have : retiredIn E.trace E.ticksPerCycle (admitMacro E s c m now).1.toCore (·.retireMacroOps) cycle =
        retiredIn E.trace E.ticksPerCycle s.toCore (·.retireMacroOps) cycle := by
      rw [retiredIn, retiredIn]
      congr 1
      exact funext hret
    rw [this]
    exact h.widths.retire n hn cycle
  · rw [hadd, if_pos rfl, ← h.counted.domains]
    exact usage_foldl _ _ (hT.domains m hm) d
  · rw [hadd, if_pos rfl, ← h.counted.renames]
    unfold admitMacro renameUnits
    dsimp only
    split
    · rfl
    · rw [Nat.add_zero]

/-- Units are spent within the width. -/
theorem Turn.spend (hT : WellFormed E.trace) (h : Turn E now width start s c) (hm : m ∈ E.trace.macros)
    {units : ℕ} (fits : units ≤ width - c.dispatched) :
    Turn E now width start (Xsai.spend (s, c) m units).1 (Xsai.spend (s, c) m units).2 := by
  have hother : ∀ y ∈ E.trace.macros, y ≠ m →
      Function.update s.unitProgress m.id (s.unitProgress m.id + units) y.id = s.unitProgress y.id :=
    fun y hy hym => Function.update_of_ne (fun he => hym (macro_ext hT hy hm he)) _ _
  have hsum := Serial.sum_of_step (macros_nodup hT) hm hother
  rw [Function.update_self] at hsum
  have hunits : spentUnits E (Xsai.spend (s, c) m units).1 = spentUnits E s + units := by
    rw [spentUnits, spentUnits]
    show (E.trace.macros.map fun y =>
      Function.update s.unitProgress m.id (s.unitProgress m.id + units) y.id).sum = _
    omega
  have hw := h.counted.within
  refine ⟨h.core, ⟨h.widths.enqueue, h.widths.domain, h.widths.rename, h.widths.retire⟩,
    ⟨h.counted.domains, h.counted.renames, h.counted.enqueues, ?_, ?_⟩⟩
  · rw [hunits, h.counted.units, Nat.add_assoc]
    rfl
  · show c.dispatched + units ≤ width
    omega

/-- The uops of a chunk enter their partitions within the enqueue widths. -/
theorem Turn.enqueue (hT : WellFormed E.trace) (h : Turn E now width start s c) (hn : m.uopIds.Nodup)
    (hm : m ∈ E.trace.macros) {a : List (Id × String)} {count : ℕ}
    (hi : CoreInv E now (Xsai.enqueue (s, c) ((pendingUops s m).take count) a now).1)
    (planned : planAssignment E s true c.partitionEnqueues ((pendingUops s m).take count) = some a) :
    Turn E now width start (Xsai.enqueue (s, c) ((pendingUops s m).take count) a now).1
      (Xsai.enqueue (s, c) ((pendingUops s m).take count) a now).2 := by
  have hch := chunked (s := s) hT hm hn count
  have hassign := assign_some planned
  have hload := enqueued_eq_load hch hassign
  have hpend : ∀ u ∈ (pendingUops s m).take count, u ∈ m.uopIds ∧ (s.uop u).dispatchTick = none := by
    intro u hu
    simpa [pendingUops] using List.mem_of_mem_take hu
  have hadd : ∀ p cycle, E.trace.uops.countP
      (entersIn E (Xsai.enqueue (s, c) ((pendingUops s m).take count) a now).1 p cycle) =
        E.trace.uops.countP (entersIn E s p cycle) +
          if now / E.ticksPerCycle = cycle then enqueued ((pendingUops s m).take count) a p else 0 := by
    intro p cycle
    rw [countP_enqueue hT (a := a) (p := p) hch.nodup (fun u hu => (hpend u hu).1) hm
      (f := entersIn E s p cycle) (decide (now / E.ticksPerCycle = cycle)) (fun x hx => ⟨?_, ?_⟩) fun x hx => ?_]
    · simp
    · simp [entersIn, (hpend _ hx).2]
    · simp [entersIn, Xsai.enqueue, dispatchAll_uop, hx, Bool.and_comm]
    · simp [entersIn, Xsai.enqueue, dispatchAll_uop, hx]
  have hmac : (Xsai.enqueue (s, c) ((pendingUops s m).take count) a now).1.macro_ = s.macro_ := by
    simp [Xsai.enqueue]
  have hadm : ∀ units cycle, admittedIn E (Xsai.enqueue (s, c) ((pendingUops s m).take count) a now).1
      units cycle = admittedIn E s units cycle := by
    intro units cycle
    unfold admittedIn dispatchedIn
    rw [hmac]
  have hret : ∀ units cycle, retiredIn E.trace E.ticksPerCycle
      (Xsai.enqueue (s, c) ((pendingUops s m).take count) a now).1.toCore units cycle =
        retiredIn E.trace E.ticksPerCycle s.toCore units cycle := by
    intro units cycle
    unfold retiredIn
    rw [hmac]
  refine ⟨hi, ⟨fun p => ?_, fun d capacity hd cycle => ?_, fun he cycle => ?_, fun n hn cycle => ?_⟩,
    ⟨fun d => ?_, ?_, fun p => ?_, h.counted.units, h.counted.within⟩⟩
  · refine within_add (h.widths.enqueue p) ?_ (hadd p)
    rw [← h.counted.enqueues p, hload p]
    refine hassign.widths rfl p ?_
    rw [h.counted.enqueues p]
    exact h.widths.enqueue p _
  · rw [hadm]; exact h.widths.domain d capacity hd cycle
  · rw [hadm]; exact h.widths.rename he cycle
  · rw [hret]; exact h.widths.retire n hn cycle
  · rw [hadm]; exact h.counted.domains d
  · rw [hadm]; exact h.counted.renames
  · rw [hadd, if_pos rfl, ← h.counted.enqueues p]
    rfl

/-! ### The dispatcher -/

/-- What the dispatcher keeps, at every turn. -/
structure Turns (E : Config) (now width start : ℕ) (s s' : Sched) (c : DispatchCycle) : Prop where
  turn : Turn E now width start s' c
  retire : ∀ m, (s'.macro_ m).retireTick = (s.macro_ m).retireTick

theorem admitOnce_retire (m' : Id) :
    ((admitOnce E s c m now).1.macro_ m').retireTick = (s.macro_ m').retireTick := by
  unfold admitOnce
  split
  · rfl
  · simp only [admitMacro, Core.enterRob, Function.update_apply]
    split
    · next he => rw [he]
    · rfl

theorem stopBlocked_turns {reason : DispatchStall} {r : Bool × Sched × DispatchCycle}
    (h : Turn E now width start s c) (hr : stopBlocked s c m now reason = .ok r) :
    Turns E now width start s r.2.1 r.2.2 := by
  obtain ⟨stalls, domains, rfl⟩ := stopBlocked_ok hr
  exact ⟨h.same h.core ⟨fun _ => rfl, fun _ => rfl, fun _ => rfl, rfl⟩ fun _ => rfl, fun _ => rfl⟩

theorem admitOnce_cycle (s : Sched) (c : DispatchCycle) (m : MacroOp) :
    (admitOnce E s c m now).2.dispatched = c.dispatched ∧
      (admitOnce E s c m now).2.partitionEnqueues = c.partitionEnqueues := by
  unfold admitOnce
  split <;> exact ⟨rfl, rfl⟩

theorem closeTurn_turn {r : Sched × DispatchCycle} {r' : Bool × Sched × DispatchCycle}
    (h : Turn E now width start r.1 r.2) (hi : CoreInv E now r'.2.1) (hr : closeTurn r m = .ok r') :
    Turn E now width start r'.2.1 r'.2.2 ∧ r'.2.1.macro_ = r.1.macro_ := by
  unfold closeTurn at hr
  split at hr
  · split at hr
    · cases hr
    · cases hr
      exact ⟨h.same hi ⟨fun _ => rfl, fun _ => rfl, fun _ => rfl, rfl⟩ fun _ => rfl, rfl⟩
  · cases hr; exact ⟨h, rfl⟩

theorem dispatchTurn_turns (hT : WellFormed E.trace) (hn : m.uopIds.Nodup)
    {r : Bool × Sched × DispatchCycle} (head : E.trace.macros[s.nextDispatch]? = some m)
    (h : Turn E now width start s c) (hr : dispatchTurn E width now s c m = .ok r) :
    Turns E now width start s r.2.1 r.2.2 := by
  have hi : CoreInv E now r.2.1 := h.core.steps hT (Steps.invariant (P := fun t =>
    Core.Steps E.trace E.inOrder now s.toCore t.toCore) (dispatchTurn_steps head hr) .refl
      fun _ _ hs hstep => hs.trans (step_core hstep))
  have hm := List.mem_of_getElem? head
  unfold dispatchTurn at hr
  dsimp only at hr
  split at hr
  · cases hr
    exact ⟨h.same hi ⟨fun _ => rfl, fun _ => rfl, fun _ => rfl, rfl⟩ fun _ => rfl, fun _ => rfl⟩
  · next hp =>
    split at hr
    · cases hr; exact ⟨h, fun _ => rfl⟩
    · next chunk hchunk =>
      obtain ⟨b, hb, hr⟩ := ok_bind.mp hr
      cases b with
      | some reason => exact stopBlocked_turns h hr
      | none =>
        have hadm := h.admit hT head hb
        cases chunk with
        | take us a units =>
          have htaken := chooseChunk_take hp hchunk
          obtain ⟨count, -, rfl⟩ := htaken.listed
          have hpend : pendingUops (spend (admitOnce E s c m now) m units).1 m = pendingUops s m := by
            simp only [pendingUops, spend, admitOnce_uop]
          have hfits : units ≤ width - (admitOnce E s c m now).2.dispatched := by
            rw [(admitOnce_cycle s c m).1]; exact htaken.fits
          have hspent := hadm.spend hT hm hfits
          have hplan : planAssignment E (spend (admitOnce E s c m now) m units).1 true
              (spend (admitOnce E s c m now) m units).2.partitionEnqueues
              ((pendingUops (spend (admitOnce E s c m now) m units).1 m).take count) = some a := by
            rw [hpend]
            show planAssignment E (admitOnce E s c m now).1 true (admitOnce E s c m now).2.partitionEnqueues
              ((pendingUops s m).take count) = some a
            rw [(admitOnce_cycle s c m).2, planAssignment, (admitOnce_partitions c m now).occupancy]
            exact htaken.planned
          have htake := inv_step hT h.core (.take head htaken hb)
          have henqueue := hspent.enqueue hT hn hm (a := a) (by rw [hpend]; exact htake) hplan
          rw [hpend] at henqueue
          obtain ⟨hturn, hmac⟩ := closeTurn_turn henqueue hi hr
          refine ⟨hturn, fun m' => ?_⟩
          have hretire : ((admitOnce E s c m now).1.macro_ m').retireTick = (s.macro_ m').retireTick :=
            admitOnce_retire m'
          rw [hmac, ← hretire]
          simp [Xsai.enqueue, Xsai.spend]
        | budget units =>
          cases hr
          have hfits := (chooseChunk_budget hchunk).fits
          exact ⟨hadm.spend hT hm (by rw [(admitOnce_cycle s c m).1]; exact hfits),
            fun m' => admitOnce_retire m'⟩
        | blocked =>
          dsimp only at hr
          split at hr <;> exact stopBlocked_turns h hr

theorem dispatchLoop_turns (hT : WellFormed E.trace) (hn : ∀ m ∈ E.trace.macros, m.uopIds.Nodup) :
    ∀ (fuel : ℕ) (s : Sched) (c : DispatchCycle) {s' : Sched}, dispatchLoop E width now fuel s c = .ok s' →
      Turn E now width start s c → ∃ c', Turns E now width start s s' c'
  | 0, s, c, s', h, ht => by cases h; exact ⟨c, ht, fun _ => rfl⟩
  | fuel + 1, s, c, s', h, ht => by
    unfold dispatchLoop at h
    split at h
    · cases h; exact ⟨c, ht, fun _ => rfl⟩
    · next m hm =>
      split at h
      · cases h; exact ⟨c, ht, fun _ => rfl⟩
      · obtain ⟨r, hr, h⟩ := ok_bind.mp h
        have hturn := dispatchTurn_turns hT (hn m (List.mem_of_getElem? hm)) hm ht hr
        split at h
        · obtain ⟨c', hrest⟩ := dispatchLoop_turns hT hn fuel _ _ h hturn.turn
          exact ⟨c', hrest.turn, fun m => (hrest.retire m).trans (hturn.retire m)⟩
        · cases h; exact ⟨_, hturn⟩

/-! ### The other procedures -/

theorem completeEntry_dispatch (e : HeapEntry) (rest : List HeapEntry) :
    SameDispatch s (completeEntry E s e rest).2 ∧ SameTicks s.toCore (completeEntry E s e rest).2.toCore := by
  have h := completeEntry_same (E := E) (s := s) e rest
  have h' := completeEntry_partitions (E := E) (s := s) e rest
  refine ⟨⟨⟨h.ticks.dispatch, h'.dispatch, h'.placed, ?_⟩, ?_⟩, h.ticks⟩ <;>
    · unfold completeEntry
      dsimp only
      split <;> rfl

theorem completeLoop_dispatch : ∀ (fuel : ℕ) (s : Sched), SameDispatch s (completeLoop E now fuel s).2 ∧
    SameTicks s.toCore (completeLoop E now fuel s).2.toCore
  | 0, s => ⟨.refl s, .refl _⟩
  | fuel + 1, s => by
    unfold completeLoop
    cases s.completionHeap with
    | nil => exact ⟨.refl s, .refl _⟩
    | cons e rest =>
      dsimp only
      split
      · have h := completeEntry_dispatch (E := E) (s := s) e rest
        have ih := completeLoop_dispatch fuel (completeEntry E s e rest).2
        exact ⟨h.1.trans ih.1, h.2.trans ih.2⟩
      · exact ⟨.refl s, .refl _⟩

theorem releaseFlowsLoop_dispatch : ∀ (fuel : ℕ) (s : Sched),
    SameDispatch s (releaseFlowsLoop E now fuel s) ∧
      SameTicks s.toCore (releaseFlowsLoop E now fuel s).toCore
  | 0, s => ⟨.refl s, .refl _⟩
  | fuel + 1, s => by
    unfold releaseFlowsLoop
    cases s.serviceHeap with
    | nil => exact ⟨.refl s, .refl _⟩
    | cons e rest =>
      dsimp only
      split
      · have ih := releaseFlowsLoop_dispatch fuel (releaseFlow E s e rest)
        exact ⟨⟨⟨ih.1.macros, ih.1.uops, ih.1.placed, ih.1.units⟩, ih.1.blocked⟩, ⟨ih.2.dispatch, ih.2.retire⟩⟩
      · exact ⟨.refl s, .refl _⟩

theorem releaseRenameLoop_dispatch : ∀ (fuel width : ℕ) (s : Sched),
    SameDispatch s (releaseRenameLoop now fuel width s) ∧
      SameTicks s.toCore (releaseRenameLoop now fuel width s).toCore
  | 0, _, s => ⟨.refl s, .refl _⟩
  | fuel + 1, width, s => by
    unfold releaseRenameLoop
    cases s.renamePending with
    | nil => exact ⟨.refl s, .refl _⟩
    | cons b rest =>
      dsimp only
      split
      · exact ⟨.refl s, .refl _⟩
      · split
        · have ih := releaseRenameLoop_dispatch fuel (returnBatch s b rest width).2.1
            (returnBatch s b rest width).2.2
          exact ⟨⟨⟨ih.1.macros, ih.1.uops, ih.1.placed, ih.1.units⟩, ih.1.blocked⟩, ⟨ih.2.dispatch, ih.2.retire⟩⟩
        · exact ⟨⟨⟨fun _ => rfl, fun _ => rfl, fun _ => rfl, rfl⟩, rfl⟩, ⟨fun _ => rfl, fun _ => rfl⟩⟩

theorem issueList_dispatch : ∀ (xs : List ExecutionUop) (s : Sched) {r : Bool × Sched},
    issueList E now xs s = .ok r → SameDispatch s r.2 ∧ SameTicks s.toCore r.2.toCore
  | [], s, r, h => by cases h; exact ⟨.refl s, .refl _⟩
  | x :: xs, s, r, h => by
    obtain ⟨⟨memory, b⟩, -, h⟩ := ok_bind.mp h
    cases b with
    | some b =>
      dsimp only at h
      split at h
      · cases h; exact ⟨⟨⟨fun _ => rfl, fun _ => rfl, fun _ => rfl, rfl⟩, rfl⟩, ⟨fun _ => rfl, fun _ => rfl⟩⟩
      · have ih := issueList_dispatch xs { s with memory := memory } h
        exact ⟨⟨⟨ih.1.macros, ih.1.uops, ih.1.placed, ih.1.units⟩, ih.1.blocked⟩, ⟨ih.2.dispatch, ih.2.retire⟩⟩
    | none =>
      dsimp only at h
      obtain ⟨s₁, h₁, h⟩ := ok_bind.mp h
      obtain ⟨r', h', h⟩ := ok_bind.mp h
      cases h
      obtain ⟨p, -, h₁⟩ := ok_bind.mp h₁
      cases h₁
      have ih := issueList_dispatch xs _ h'
      refine ⟨⟨⟨ih.1.macros, fun u => (ih.1.uops u).trans ?_, fun u => (ih.1.placed u).trans ?_, ih.1.units⟩,
        ih.1.blocked⟩, ⟨ih.2.dispatch, ih.2.retire⟩⟩
      · simp only [issued, issue_uop]
        split <;> rfl
      · simp only [issued, Function.update_apply]
        split
        · next he => rw [he]
        · rfl

theorem issueFixedPoint_dispatch (h : issueFixedPoint E now s = .ok s') :
    SameDispatch s s' ∧ SameTicks s.toCore s'.toCore :=
  FixedPoint.run_steps (R := fun s s' : Sched => SameDispatch s s' ∧ SameTicks s.toCore s'.toCore) h
    (fun h h' => ⟨h.1.trans h'.1, h.2.trans h'.2⟩) (fun s => completeLoop_dispatch _ s)
    fun _ _ hr => issueList_dispatch _ _ hr

theorem retireMacro_dispatch (E : Config) (now : ℕ) (s : Sched) (m : MacroOp) :
    SameDispatch s (retireMacro E s m now) := by
  refine ⟨⟨fun m' => ?_, fun _ => rfl, fun _ => rfl, rfl⟩, rfl⟩
  simp only [retireMacro, Core.retire, Function.update_apply]
  split
  · next he => rw [he]
  · rfl

theorem retireLoop_dispatch (E : Config) (width now : ℕ) : ∀ (fuel retired : ℕ) (s : Sched),
    SameDispatch s (retireLoop E width now fuel retired s)
  | 0, _, s => .refl s
  | fuel + 1, retired, s => by
    unfold retireLoop
    split
    · exact .refl s
    · next m hm =>
      split
      · exact (retireMacro_dispatch E now s m).trans (retireLoop_dispatch E width now fuel _ _)
      · exact .refl s

/-- Only the fourth procedure of a visit dispatches. -/
theorem phase_cases {k : ℕ} {f : Sched → Except SimError Sched} (hf : (phases E now)[k]? = some f)
    (h : f s = .ok s') : SameDispatch s s' ∨ k = 3 ∧ E.boundary now = true ∧ dispatch E now s = .ok s' := by
  rcases k with _ | _ | _ | _ | _ | _ | _ | k
  · cases hf; cases h
    exact .inl (completeLoop_dispatch _ s).1
  · cases hf; cases h
    exact .inl (releaseFlowsLoop_dispatch _ s).1
  · cases hf; cases h
    unfold releaseRename
    split
    · exact .inl (releaseRenameLoop_dispatch _ _ s).1
    · exact .inl (.refl s)
  · cases hf
    dsimp only at h
    split at h
    · next hb => exact .inr ⟨rfl, hb, h⟩
    · cases h; exact .inl (.refl s)
  · cases hf
    exact .inl (issueFixedPoint_dispatch h).1
  · cases hf; cases h
    exact .inl (completeLoop_dispatch _ s).1
  · cases hf
    dsimp only at h
    split at h
    · obtain ⟨width, -, h⟩ := ok_bind.mp h
      cases h
      exact .inl (retireLoop_dispatch E width now _ _ s)
    · cases h; exact .inl (.refl s)
  · cases hf

/-- What retires in the cycle is within the width. -/
theorem retireLoop_widths (hT : WellFormed E.trace) : ∀ (fuel retired : ℕ) (s : Sched), CoreInv E now s →
    retiredIn E.trace E.ticksPerCycle s.toCore (·.retireMacroOps) (now / E.ticksPerCycle) = retired →
    (∀ cycle, retiredIn E.trace E.ticksPerCycle s.toCore (·.retireMacroOps) cycle ≤ width) →
    ∀ cycle, retiredIn E.trace E.ticksPerCycle (retireLoop E width now fuel retired s).toCore
        (·.retireMacroOps) cycle ≤ width
  | 0, _, s, _, _, hw => hw
  | fuel + 1, retired, s, hs, hr, hw => by
    unfold retireLoop
    split
    · exact hw
    · next m hm =>
      split
      · next hc =>
        obtain ⟨id, hid, hm⟩ := Option.bind_eq_some_iff.mp hm
        obtain ⟨hmem, rfl⟩ := E.trace.macro?_mem hm
        obtain ⟨rest, hrest⟩ := List.head?_eq_some_iff.mp hid
        obtain ⟨_, _, hrob⟩ := hs.rob
        have hadd : ∀ cycle, retiredIn E.trace E.ticksPerCycle (retireMacro E s m now).toCore
            (·.retireMacroOps) cycle = retiredIn E.trace E.ticksPerCycle s.toCore
              (·.retireMacroOps) cycle + if now / E.ticksPerCycle = cycle then m.retireMacroOps else 0 :=
          fun cycle => retiredIn_retire hT hmem (hrob.head_unretired hT hmem hrest)
        exact retireLoop_widths hT fuel (retired + m.retireMacroOps) (retireMacro E s m now)
          (inv_step hT hs (.retire hmem hrest hc.2.1)) (by rw [hadd, if_pos rfl, hr])
          (within_add hw (by rw [hr]; exact hc.2.2) hadd)
      · exact hw

/-! ### Visits -/

/-- `dispatch_macro_ops_per_cycle`. -/
def dispatchWidth (E : Config) : ℕ := E.pipeline.dispatchMacroOpsPerCycle.getD 0

/-- The units that may have been spent before the `k`-th procedure of a visit. -/
def spendable (E : Config) (k now : ℕ) : ℕ := if 3 < k ∧ E.boundary now then dispatchWidth E else 0

/-- The assertion before the `k`-th procedure of a visit that started with `start` units spent. -/
structure Phase (E : Config) (start k now : ℕ) (s : Sched) : Prop where
  core : CoreInv E now s
  widths : Widths E s
  fresh : Fresh 3 6 k now s.toCore
  uops : k ≤ 3 → ∀ u t, (s.uop u).dispatchTick = some t → t < now
  units : spentUnits E s ≤ start + spendable E k now

theorem spendable_mono {k : ℕ} : spendable E k now ≤ spendable E (k + 1) now := by
  unfold spendable
  by_cases h : E.boundary now = true
  · by_cases hk : 3 < k
    · simp [h, hk, Nat.lt_succ_of_lt hk]
    · simp [hk]
  · simp [h]

/-- A procedure that neither dispatches nor retires. -/
theorem Phase.same {k : ℕ} (hs : Phase E start k now s) (hi : CoreInv E now s')
    (h : SameDispatch s s' ∧ SameTicks s.toCore s'.toCore) : Phase E start (k + 1) now s' where
  core := hi
  widths := by
    refine ⟨fun p cycle => ?_, fun d capacity hd cycle => ?_, fun he cycle => ?_, fun n hn cycle => ?_⟩
    · rw [h.1.entersIn]; exact hs.widths.enqueue p cycle
    · rw [h.1.admittedIn]; exact hs.widths.domain d capacity hd cycle
    · rw [h.1.admittedIn]; exact hs.widths.rename he cycle
    · rw [h.2.retiredIn]; exact hs.widths.retire n hn cycle
  fresh := hs.fresh.same h.2 (Nat.le_succ k)
  uops hk u t ht := hs.uops (by omega) u t (h.1.uops u ▸ ht)
  units := by
    rw [h.1.spentUnits]
    exact hs.units.trans (Nat.add_le_add_left spendable_mono start)

theorem Phase.dispatch (hT : WellFormed E.trace) (hn : ∀ m ∈ E.trace.macros, m.uopIds.Nodup)
    (hs : Phase E start 3 now s) (hb : E.boundary now = true) (h : Xsai.dispatch E now s = .ok s') :
    Phase E start 4 now s' := by
  obtain ⟨width, hwidth, h⟩ := ok_bind.mp h
  have hwidth := pipelineInt_ok.mp hwidth
  have hmod : now % E.ticksPerCycle = 0 := by simpa [boundary] using hb
  have hzero : ∀ p, E.trace.uops.countP (entersIn E s p (now / E.ticksPerCycle)) = 0 := by
    intro p
    refine List.countP_eq_zero.mpr fun x _ => ?_
    cases ht : (s.uop x.id).dispatchTick with
    | none => simp [entersIn, ht]
    | some t => simp [entersIn, ht, div_ne_of_boundary hmod (hs.uops le_rfl _ _ ht)]
  have hturn : Turn E now width (spentUnits E s) s {} := by
    refine ⟨hs.core, hs.widths, fun d => ?_, ?_, fun p => (hzero p).symm, rfl, Nat.zero_le _⟩
    · exact (hs.fresh.dispatchedIn le_rfl hmod).symm
    · exact (hs.fresh.dispatchedIn le_rfl hmod).symm
  obtain ⟨c, hdone⟩ := dispatchLoop_turns hT hn _ s {} h hturn
  refine ⟨hdone.turn.core, hdone.turn.widths, ⟨fun hk => absurd hk (by omega), fun _ m t ht => ?_⟩,
    fun hk => absurd hk (by omega), ?_⟩
  · exact hs.fresh.retire (by omega) m t (hdone.retire m ▸ ht)
  · have hunits := hdone.turn.counted.units
    have hwithin := hdone.turn.counted.within
    have hstart := hs.units
    have h3 : spendable E 3 now = 0 := by simp [spendable]
    have h4 : spendable E 4 now = width := by simp [spendable, hb, dispatchWidth, hwidth]
    rw [h3] at hstart
    rw [h4]
    omega

theorem Phase.retire (hT : WellFormed E.trace) (hs : Phase E start 6 now s) (hi : CoreInv E now s')
    (hb : E.boundary now = true) (h : Xsai.retire E now s = .ok s') : Phase E start 7 now s' := by
  obtain ⟨width, hwidth, h⟩ := ok_bind.mp h
  cases h
  have hwidth := pipelineInt_ok.mp hwidth
  have hmod : now % E.ticksPerCycle = 0 := by simpa [boundary] using hb
  have hr := retireLoop_widths hT s.rob.length 0 s hs.core (hs.fresh.retiredIn le_rfl hmod)
    (hs.widths.retire width hwidth)
  have hd := retireLoop_dispatch E width now s.rob.length 0 s
  refine ⟨hi, ⟨fun p cycle => ?_, fun d capacity hlk cycle => ?_, fun he cycle => ?_, fun n hn => ?_⟩,
    ⟨fun hk => absurd hk (by omega), fun hk => absurd hk (by omega)⟩, fun hk => absurd hk (by omega), ?_⟩
  · rw [hd.entersIn]; exact hs.widths.enqueue p cycle
  · rw [hd.admittedIn]; exact hs.widths.domain d capacity hlk cycle
  · rw [hd.admittedIn]; exact hs.widths.rename he cycle
  · obtain rfl : width = n := Option.some.inj (hwidth.symm.trans hn)
    exact hr
  · rw [hd.spentUnits]
    exact hs.units.trans (Nat.add_le_add_left spendable_mono start)

/-- Each procedure keeps the assertions. -/
theorem phase_step (hT : WellFormed E.trace) (hn : ∀ m ∈ E.trace.macros, m.uopIds.Nodup) {k : ℕ}
    {f : Sched → Except SimError Sched} (hf : (phases E now)[k]? = some f) (hs : Phase E start k now s)
    (h : f s = .ok s') : Phase E start (k + 1) now s' := by
  have hi : CoreInv E now s' := (phase_steps hT (List.mem_of_getElem? hf) h).invariant hs.core
    fun _ _ => inv_step hT
  rcases k with _ | _ | _ | _ | _ | _ | _ | k
  · cases hf; cases h
    exact hs.same hi (completeLoop_dispatch _ s)
  · cases hf; cases h
    exact hs.same hi (releaseFlowsLoop_dispatch _ s)
  · cases hf; cases h
    refine hs.same hi ?_
    unfold releaseRename
    split
    · exact releaseRenameLoop_dispatch _ _ s
    · exact ⟨.refl s, .refl _⟩
  · cases hf
    dsimp only at h
    split at h
    · next hb => exact hs.dispatch hT hn hb h
    · cases h; exact hs.same hi ⟨.refl s, .refl _⟩
  · cases hf
    exact hs.same hi (issueFixedPoint_dispatch h)
  · cases hf; cases h
    exact hs.same hi (completeLoop_dispatch _ s)
  · cases hf
    dsimp only at h
    split at h
    · next hb => exact hs.retire hT hi hb h
    · cases h; exact hs.same hi ⟨.refl s, .refl _⟩
  · cases hf

theorem prefix_phase (hT : WellFormed E.trace) (hn : ∀ m ∈ E.trace.macros, m.uopIds.Nodup)
    {fs gs : List (Sched → Except SimError Sched)} (hfs : phases E now = fs ++ gs)
    (h : visitOf fs s = .ok s') (hs : Phase E start 0 now s) : Phase E start fs.length now s' := by
  have hlen : fs.length ≤ (phases E now).length := by rw [hfs]; simp
  have hfs : fs = (phases E now).take fs.length := by rw [hfs]; simp
  rw [visitOf, hfs] at h
  exact foldlM_take (P := fun k => Phase E start k now) hlen h hs fun _ _ _ _ hf hs => phase_step hT hn hf hs

theorem widths_init : Widths E (schedInit E) where
  enqueue p cycle := by
    rw [List.countP_eq_zero.mpr fun x _ => by simp [entersIn, schedInit, machineInit, Core.init]]
    exact Nat.zero_le _
  domain d capacity _ cycle := (sumIn_zero fun m t ht => by cases ht).trans_le (Nat.zero_le _)
  rename _ cycle := (sumIn_zero fun m t ht => by cases ht).trans_le (Nat.zero_le _)
  retire n _ cycle := (sumIn_zero fun m t ht => by cases ht).trans_le (Nat.zero_le _)

theorem AtTick.phase (hT : WellFormed E.trace) (hn : ∀ m ∈ E.trace.macros, m.uopIds.Nodup)
    (h : AtTick E now s) : Phase E (spentUnits E s) 0 now s := by
  obtain ⟨n, h⟩ := h
  refine h.alternate (P := fun now s => Phase E (spentUnits E s) 0 now s)
    (Q := fun now s => ∃ start, Phase E start 7 now s) ?_ ?_ ?_
  · exact ⟨inv_init, widths_init, fresh_init, fun _ _ _ ht => (by cases ht), Nat.le_add_right _ _⟩
  · exact fun now s s' hs _ hv => ⟨_, prefix_phase hT hn (List.append_nil _).symm hv hs⟩
  · rintro now s s' t ⟨start, hs⟩ hnext hlt
    obtain ⟨memory, rfl⟩ := nextEventTick_ok hnext
    refine ⟨(inv_step hT hs.core (.poll memory)).later hlt.le,
      ⟨hs.widths.enqueue, hs.widths.domain, hs.widths.rename, hs.widths.retire⟩, hs.core.fresh hlt,
      fun _ u t ht => (hs.core.uops.dispatched ht).trans_lt hlt, Nat.le_add_right _ _⟩

/-- **What happens in a cycle of a run is within the widths.** -/
theorem Reachable.widths (hT : WellFormed E.trace) (hn : ∀ m ∈ E.trace.macros, m.uopIds.Nodup)
    (h : Reachable E now s) : Widths E s := by
  obtain ⟨s₀, fs, gs, h₀, hfs, hv⟩ := h
  exact (prefix_phase hT hn hfs hv (h₀.phase hT hn)).widths

/-- The units spent in a visit: none but at a cycle boundary. -/
theorem AtTick.units (hT : WellFormed E.trace) (hn : ∀ m ∈ E.trace.macros, m.uopIds.Nodup)
    (h : AtTick E now s) {fs gs : List (Sched → Except SimError Sched)} (hfs : phases E now = fs ++ gs)
    (hv : visitOf fs s = .ok s') :
    spentUnits E s' ≤ spentUnits E s + if E.boundary now then dispatchWidth E else 0 := by
  refine (prefix_phase hT hn hfs hv (h.phase hT hn)).units.trans (Nat.add_le_add_left ?_ _)
  unfold spendable
  by_cases hb : E.boundary now = true
  · rw [if_pos hb]; split <;> omega
  · simp [hb]

/-- **The dispatch units spent in a cycle are within the dispatch width.** -/
theorem units_within (hT : WellFormed E.trace) (hn : ∀ m ∈ E.trace.macros, m.uopIds.Nodup)
    {n t : ℕ} {s₁ : Sched} (h : AtTick E now s) (hr : EventLoop.Reaches (loop E) n now s t s₁)
    (hc : t / E.ticksPerCycle = now / E.ticksPerCycle) {fs gs : List (Sched → Except SimError Sched)}
    (hfs : phases E t = fs ++ gs) (hv : visitOf fs s₁ = .ok s') :
    spentUnits E s' ≤ spentUnits E s + if E.boundary now then dispatchWidth E else 0 := by
  induction hr with
  | zero => exact h.units hT hn hfs hv
  | @succ n now s t' s₂ t s₁ first rest ih =>
    obtain ⟨s₃, hvisit, -, hnext, hlt⟩ := first.jump
    have hfirst := h.units hT hn (List.append_nil _).symm hvisit
    obtain ⟨memory, rfl⟩ := nextEventTick_ok hnext
    have hle := rest.le
    have hcycle : t' / E.ticksPerCycle = now / E.ticksPerCycle :=
      le_antisymm ((Nat.div_le_div_right hle).trans_eq hc) (Nat.div_le_div_right hlt.le)
    -- a later tick of the cycle is no boundary
    have hb : E.boundary t' = false := by
      rw [Bool.eq_false_iff]
      intro hb
      exact div_ne_of_boundary (by simpa [boundary] using hb) hlt hcycle.symm
    have hat : AtTick E t' { s₃ with memory := memory } := by
      obtain ⟨k, hk⟩ := h
      exact ⟨k + 1, hk.trans (.succ first .zero)⟩
    have := ih hat (by rw [hc, hcycle]) hfs hv
    rw [if_neg (by simp [hb])] at this
    exact this.trans hfirst

end Xsai
end VectorSim
