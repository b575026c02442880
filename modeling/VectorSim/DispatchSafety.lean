/-
# The dispatch units of a macro-op

`_dispatch` drains a macro-op of many uops over several cycles, and carries the
units it spends on a part of a uop over to the next one. A cycle of a macro-op
is a turn of `Draining`, whatever the budget that is left and the state of the
partitions (`Drains.charges`), and so is every step of a run (`drained_step`). So
the units spent on a macro-op are those of the uops that it has dispatched, in
order, and what the next uop has been charged.
-/
import VectorSim.Lib.Draining
import VectorSim.OccupancySafety
import VectorSim.Backend.XsaiErrors

namespace VectorSim
namespace Xsai

open Checked Setup Core Draining

variable {E : Config} {now k : ℕ} {s s' : Sched} {m : MacroOp}

/-! ### Cycles of a macro-op -/

/-- The units that a turn of the dispatcher charges to a macro-op. -/
def Chunk.units : Chunk → ℕ
  | .take _ _ units => units
  | .budget units => units
  | .blocked => 0

/-- The uops that it dispatches. -/
def Chunk.uops : Chunk → List Id
  | .take us _ _ => us
  | .budget _ => []
  | .blocked => []

/-- The progress of a macro-op after a turn. -/
def Chunk.after (chunk : Chunk) (p : Progress) : Progress :=
  ⟨p.finished + chunk.uops.length, p.spent + chunk.units⟩

/-- Cycles of a macro-op in the dispatcher, each with the units that are left for it and the
units it is charged. Whatever happens besides, the state holds the macro-op's progress. -/
inductive Drains (E : Config) (m : MacroOp) : List ℕ → List ℕ → Progress → Progress → Prop
  | nil {p : Progress} : Drains E m [] [] p p
  | turn {p q : Progress} {budgets charges : List ℕ} {s : Sched} {c : DispatchCycle} {width : ℕ} {chunk : Chunk}
      (pending : pendingUops s m = m.uopIds.drop p.finished) (more : pendingUops s m ≠ [])
      (progress : s.unitProgress m.id = p.spent)
      (chosen : chooseChunk E s c m (pendingUops s m) width = some chunk)
      (rest : Drains E m budgets charges (chunk.after p) q) :
      Drains E m ((width - c.dispatched) :: budgets) (chunk.units :: charges) p q
  /-- A full reorder buffer, a full partition, a macro-op that fits the next cycle. -/
  | wait {p q : Progress} {budgets charges : List ℕ} {budget : ℕ} (rest : Drains E m budgets charges p q) :
      Drains E m (budget :: budgets) (0 :: charges) p q

theorem costs_length (m : MacroOp) : (dispatchUnitCosts m).length = m.uopIds.length := by
  simp [dispatchUnitCosts]

/-- The costs of the uops of a macro-op sum to its units. -/
theorem costs_sum (hm : m.uopIds ≠ []) : (dispatchUnitCosts m).sum = m.dispatchWidthUnits := by
  rw [← priceOf_length, costs_length]
  exact unitsOf_length hm

/-- The first pending uop is the next one. -/
theorem idxOf_pending (hn : m.uopIds.Nodup) (hpend : pendingUops s m = m.uopIds.drop k)
    (more : pendingUops s m ≠ []) : m.uopIds.idxOf ((pendingUops s m).headD 0) = k := by
  have hk : k < m.uopIds.length := by
    by_contra hge
    exact more (by rw [hpend, List.drop_eq_nil_of_le (not_lt.mp hge)])
  have hhead : (pendingUops s m).headD 0 = m.uopIds[k] := by
    rw [hpend, List.drop_eq_getElem_cons hk]
    rfl
  rw [hhead, hn.idxOf_getElem]

/-- A chunk that is taken finishes the next uops. -/
theorem Taken.charge {c : DispatchCycle} {width units : ℕ} {us : List Id} {a : List (Id × String)}
    (h : Taken E s c m width us a units) (hn : m.uopIds.Nodup) (hpend : pendingUops s m = m.uopIds.drop k)
    (hk : k ≤ m.uopIds.length) (more : pendingUops s m ≠ []) :
    Charge (dispatchUnitCosts m) units ⟨k, s.unitProgress m.id⟩
      ⟨k + us.length, s.unitProgress m.id + units⟩ := by
  have hne : m.uopIds ≠ [] := fun hnil => more (by rw [pendingUops, hnil]; rfl)
  have hlen : (pendingUops s m).length = m.uopIds.length - k := by rw [hpend, List.length_drop]
  have hle : k + us.length ≤ m.uopIds.length := by
    obtain ⟨count, -, rfl⟩ := h.listed
    have := (List.take_sublist count (pendingUops s m)).length_le
    omega
  refine .finish (costs_length m ▸ hle) ?_
  rcases h.accounted with hacc | ⟨rfl, -, hzero, hunits⟩
  · rw [hacc, idxOf_pending hn hpend more]
    rfl
  · -- the macro-op is taken whole
    show s.unitProgress m.id + units = priceOf _ (k + (pendingUops s m).length)
    rw [hzero, hunits, hlen, Nat.zero_add, Nat.add_sub_cancel' hk, ← costs_length, priceOf_length, costs_sum hne]

/-- A part of a uop starts it. -/
theorem Partial.charge {c : DispatchCycle} {width units : ℕ} (h : Partial s c m width units) (hn : m.uopIds.Nodup)
    (hpend : pendingUops s m = m.uopIds.drop k) (more : pendingUops s m ≠ []) :
    Charge (dispatchUnitCosts m) units ⟨k, s.unitProgress m.id⟩ ⟨k, s.unitProgress m.id + units⟩ := by
  have hshort := h.short
  rw [idxOf_pending hn hpend more] at hshort
  exact .start hshort

/-- **Cycles with any budgets are turns**, each within its budget. -/
theorem Drains.charges (hn : m.uopIds.Nodup) {budgets charges : List ℕ} {p q : Progress}
    (h : Drains E m budgets charges p q) (hp : Kept (dispatchUnitCosts m) p) :
    Charges (dispatchUnitCosts m) charges p q ∧ List.Forall₂ (· ≤ ·) charges budgets := by
  induction h with
  | nil => exact ⟨.nil, .nil⟩
  | @turn p q budgets charges s c width chunk pending more progress chosen rest ih =>
    have hk : p.finished ≤ m.uopIds.length := costs_length m ▸ hp.within
    have hturn : Charge (dispatchUnitCosts m) chunk.units p (chunk.after p) ∧
        chunk.units ≤ width - c.dispatched := by
      cases chunk with
      | take us a units =>
        have htaken := chooseChunk_take more chosen
        have hturn := htaken.charge hn pending hk more
        rw [progress] at hturn
        exact ⟨hturn, htaken.fits⟩
      | budget units =>
        have hpart := chooseChunk_budget chosen
        have hturn := hpart.charge hn pending more
        rw [progress] at hturn
        exact ⟨hturn, hpart.fits⟩
      | blocked => exact ⟨.wait, Nat.zero_le _⟩
    obtain ⟨hrest, hfit⟩ := ih (hp.charge hturn.1)
    exact ⟨.cons hturn.1 hrest, .cons hturn.2 hfit⟩
  | wait rest ih =>
    obtain ⟨hrest, hfit⟩ := ih hp
    exact ⟨.cons .wait hrest, .cons (Nat.zero_le _) hfit⟩

/-! ### Runs -/

/-- The uops of a macro-op in the log of dispatches. -/
def dispatchLog (m : MacroOp) (c : Core) : List Id :=
  (c.events.filter fun e => decide (e.kind = .dispatch) && decide (e.id ∈ m.uopIds)).map (·.id)

/-- The first `k` uops of a macro-op are dispatched, once and in order, and its units are accounted for. -/
structure Drained (s : Sched) (m : MacroOp) (k : ℕ) : Prop where
  log : dispatchLog m s.toCore = m.uopIds.take k
  pending : pendingUops s m = m.uopIds.drop k
  kept : Kept (dispatchUnitCosts m) ⟨k, s.unitProgress m.id⟩

/-- A macro-op with no uop pending has been charged its units. -/
theorem Drained.whole (hs : Drained s m k) (h : pendingUops s m = []) :
    s.unitProgress m.id = (dispatchUnitCosts m).sum := by
  refine hs.kept.whole (le_antisymm hs.kept.within ?_)
  rw [costs_length]
  exact List.drop_eq_nil_iff.mp (hs.pending.symm.trans h)

theorem Drained.take (hs : Drained s m k) (hn : m.uopIds.Nodup) (hne : m.uopIds ≠ []) {c : DispatchCycle}
    {width units : ℕ} {us : List Id} {a : List (Id × String)} (h : Taken E s c m width us a units) :
    Charge (dispatchUnitCosts m) units ⟨k, s.unitProgress m.id⟩
      ⟨k + us.length, s.unitProgress m.id + units⟩ := by
  by_cases more : pendingUops s m = []
  · -- nothing is left to take, nor to charge
    have hfull := hs.whole more
    obtain ⟨count, -, rfl⟩ := h.listed
    have hzero : units = 0 := by
      rcases h.accounted with hacc | ⟨-, -, hstart, hunits⟩
      · have hle := priceOf_le (dispatchUnitCosts m)
          (m.uopIds.idxOf ((pendingUops s m).headD 0) + ((pendingUops s m).take count).length)
        rw [unitsOf, ← priceOf] at hacc
        omega
      · rw [hunits, ← costs_sum hne, ← hfull, hstart]
    rw [hzero, more, List.take_nil]
    exact .wait
  · exact h.charge hn hs.pending (costs_length m ▸ hs.kept.within) more

theorem Drained.part (hs : Drained s m k) (hn : m.uopIds.Nodup) {c : DispatchCycle} {width units : ℕ}
    (h : Partial s c m width units) :
    Charge (dispatchUnitCosts m) units ⟨k, s.unitProgress m.id⟩ ⟨k, s.unitProgress m.id + units⟩ := by
  refine h.charge hn hs.pending fun more => ?_
  -- a macro-op that is dispatched whole has no part left
  have hfull := hs.whole more
  have hle := priceOf_le (dispatchUnitCosts m) (m.uopIds.idxOf ((pendingUops s m).headD 0) + 1)
  have hshort := h.short
  rw [unitsOf, ← priceOf] at hshort
  omega

/-- The step dispatches no uop of the macro-op. -/
structure SameDrain (m : MacroOp) (s s' : Sched) : Prop where
  log : dispatchLog m s'.toCore = dispatchLog m s.toCore
  pending : pendingUops s' m = pendingUops s m

theorem pendingUops_congr (h : ∀ u ∈ m.uopIds, (s'.uop u).dispatchTick = (s.uop u).dispatchTick) :
    pendingUops s' m = pendingUops s m :=
  List.filter_congr fun u hu => by rw [h u hu]

/-- An event that is no dispatch. -/
theorem dispatchLog_append {c c' : Core} (es : List Event) (h : c'.events = c.events ++ es)
    (hes : ∀ e ∈ es, e.kind ≠ .dispatch) : dispatchLog m c' = dispatchLog m c := by
  have hnone : es.filter (fun e => decide (e.kind = .dispatch) && decide (e.id ∈ m.uopIds)) = [] :=
    List.filter_eq_nil_iff.mpr fun e he => by simp [hes e he]
  rw [dispatchLog, dispatchLog, h, List.filter_append, hnone, List.append_nil]

theorem dispatchLog_enqueue (now : ℕ) (r : Sched × DispatchCycle) (m m' : MacroOp) (units : ℕ) (us : List Id)
    (a : List (Id × String)) : dispatchLog m (enqueue (spend r m' units) us a now).1.toCore =
      dispatchLog m r.1.toCore ++ us.filter (· ∈ m.uopIds) := by
  have hevents : (enqueue (spend r m' units) us a now).1.events =
      r.1.events ++ us.map fun u => ⟨.dispatch, now, u⟩ := by
    simp only [enqueue, spend, dispatchAll_eq]
  rw [dispatchLog, dispatchLog, hevents, List.filter_append, List.map_append, List.filter_map, List.map_map]
  congr 1
  simp [Function.comp_def]

theorem admitOnce_drain (E : Config) (now : ℕ) (s : Sched) (c : DispatchCycle) (m m' : MacroOp) :
    SameDrain m s (admitOnce E s c m' now).1 ∧ (admitOnce E s c m' now).1.unitProgress = s.unitProgress := by
  unfold admitOnce
  split <;> exact ⟨⟨rfl, rfl⟩, rfl⟩

theorem completeEntry_drain (E : Config) (s : Sched) (m : MacroOp) (e : HeapEntry) (rest : List HeapEntry) :
    SameDrain m s (completeEntry E s e rest).2 ∧ (completeEntry E s e rest).2.unitProgress = s.unitProgress := by
  refine ⟨⟨?_, pendingUops_congr fun u _ => (completeEntry_partitions e rest).dispatch u⟩, ?_⟩
  · unfold completeEntry
    dsimp only
    split
    · rfl
    · exact dispatchLog_append [⟨.complete, e.tick, e.id⟩] rfl (by simp)
  · unfold completeEntry
    dsimp only
    split <;> rfl

/-- **A step of a run is a turn of every macro-op.** -/
theorem drained_step (hT : WellFormed E.trace) (hn : ∀ m ∈ E.trace.macros, m.uopIds.Nodup)
    (hm : m ∈ E.trace.macros) (hs : Drained s m k) (h : Step E now s s') : ∃ k' units,
      Charge (dispatchUnitCosts m) units ⟨k, s.unitProgress m.id⟩ ⟨k', s'.unitProgress m.id⟩ ∧ Drained s' m k' := by
  have hsame : ∀ {t : Sched}, SameDrain m s t → t.unitProgress m.id = s.unitProgress m.id → ∃ k' units,
      Charge (dispatchUnitCosts m) units ⟨k, s.unitProgress m.id⟩ ⟨k', t.unitProgress m.id⟩ ∧ Drained t m k' := by
    intro t hsame hunits
    exact ⟨k, 0, hunits ▸ .wait, hsame.log.trans hs.log, hsame.pending.trans hs.pending, hunits ▸ hs.kept⟩
  cases h with
  | @complete e rest _ _ =>
    obtain ⟨hdrain, hunits⟩ := completeEntry_drain E s m e rest
    exact hsame hdrain (by rw [hunits])
  | releaseFlow _ _ | releaseRename _ _ | advance _ _ | stall _ _ _ | poll _ => exact hsame ⟨rfl, rfl⟩ rfl
  | retire _ _ _ => exact hsame ⟨dispatchLog_append [⟨.retire, now, _⟩] rfl (by simp), rfl⟩ rfl
  | @issue x r _ _ _ _ _ _ =>
    refine hsame ⟨dispatchLog_append [⟨.ready, _, x.id⟩, ⟨.issue, now, x.id⟩] rfl (by simp),
      pendingUops_congr fun u _ => ?_⟩ rfl
    simp only [issued, issue_uop]
    split <;> rfl
  | @budget c m' width units head short _ =>
    have hm' := List.mem_of_getElem? head
    obtain ⟨hadm, hprog⟩ := admitOnce_drain E now s c m m'
    have hpend : pendingUops (spend (admitOnce E s c m' now) m' units).1 m = pendingUops s m := hadm.pending
    by_cases hmm : m = m'
    · subst hmm
      have hunits : (spend (admitOnce E s c m now) m units).1.unitProgress m.id = s.unitProgress m.id + units := by
        simp [spend, hprog]
      have hcharge := hs.part (hn m hm) short
      exact ⟨k, units, hunits ▸ hcharge, hadm.log.trans hs.log, hpend.trans hs.pending,
        hunits ▸ hs.kept.charge hcharge⟩
    · refine hsame ⟨hadm.log, hpend⟩ ?_
      have hid : m.id ≠ m'.id := fun he => hmm (macro_ext hT hm hm' he)
      simp [spend, hprog, hid]
  | @take c m' width us a units head taken _ =>
    have hm' := List.mem_of_getElem? head
    obtain ⟨hadm, hprog⟩ := admitOnce_drain E now s c m m'
    have hlog := dispatchLog_enqueue now (admitOnce E s c m' now) m m' units us a
    have hpend : pendingUops (enqueue (spend (admitOnce E s c m' now) m' units) us a now).1 m = _ :=
      pendingUops_enqueue _ _ _ _ _ _
    rw [hadm.log] at hlog
    rw [hadm.pending] at hpend
    obtain ⟨count, hcount, rfl⟩ := taken.listed
    have hsub : ∀ u ∈ (pendingUops s m').take count, u ∈ m'.uopIds := fun u hu =>
      (List.mem_filter.mp (List.mem_of_mem_take hu)).1
    by_cases hmm : m = m'
    · subst hmm
      have hunits : (enqueue (spend (admitOnce E s c m now) m units) ((pendingUops s m).take count) a
          now).1.unitProgress m.id = s.unitProgress m.id + units := by
        simp [enqueue, spend, hprog]
      rw [List.filter_eq_self.mpr (fun u hu => by simpa using hsub u hu), hs.log] at hlog
      generalize hus : (pendingUops s m).take count = us at taken hlog hpend hunits hsub
      -- the chunk is the uops after the first `k`
      have hchunk : us = (m.uopIds.drop k).take us.length := by
        rw [← hs.pending]
        exact List.prefix_iff_eq_take.mp (hus ▸ List.take_prefix count _)
      have hdrained : dispatchLog m (enqueue (spend (admitOnce E s c m now) m units) us a now).1.toCore =
            m.uopIds.take (k + us.length) ∧
          pendingUops (enqueue (spend (admitOnce E s c m now) m units) us a now).1 m =
            m.uopIds.drop (k + us.length) := by
        refine ⟨?_, ?_⟩
        · rw [hlog, List.take_add, ← hchunk]
        · rw [hpend, hs.pending, hchunk, filter_not_mem_take ((hn m hm).sublist (List.drop_sublist _ _)),
            List.drop_drop, ← hchunk]
      have hcharge := hs.take (hn m hm) (hT.macroUops m hm) taken
      exact ⟨k + us.length, units, hunits ▸ hcharge, hdrained.1, hdrained.2, hunits ▸ hs.kept.charge hcharge⟩
    · have hnot : ∀ u ∈ (pendingUops s m').take count, u ∉ m.uopIds := fun u hu hu' =>
        hmm (hT.owner_unique hm hm' hu' (hsub u hu))
      refine hsame ⟨?_, ?_⟩ ?_
      · rw [hlog, List.filter_eq_nil_iff.mpr (fun u hu => by simpa using hnot u hu), List.append_nil]
      · rw [hpend, List.filter_eq_self.mpr]
        intro u hu
        simpa using fun hu' => hnot u hu' (List.mem_filter.mp hu).1
      · have hid : m.id ≠ m'.id := fun he => hmm (macro_ext hT hm hm' he)
        simp [enqueue, spend, hprog, hid]

theorem drained_init : Drained (schedInit E) m 0 where
  log := rfl
  pending := List.filter_eq_self.mpr fun _ _ => rfl
  kept := kept_zero

/-- **Every state of a run accounts for the units of every macro-op.** -/
theorem Reachable.drained (hT : WellFormed E.trace) (hn : ∀ m ∈ E.trace.macros, m.uopIds.Nodup)
    (hm : m ∈ E.trace.macros) (h : Reachable E now s) : ∃ k, Drained s m k := by
  refine h.invariant (P := fun _ s => ∃ k, Drained s m k) hT ⟨0, drained_init⟩ ?_ fun _ _ _ hs _ => hs
  rintro now s s' ⟨k, hs⟩ hstep
  obtain ⟨k', -, -, hs'⟩ := drained_step hT hn hm hs hstep
  exact ⟨k', hs'⟩

/-- The units spent are those of the first `k` uops and a remainder: none, or less than the next uop costs. -/
def PaidFor (m : MacroOp) (k spent : ℕ) : Prop :=
  ∃ remainder, spent = ((dispatchUnitCosts m).take k).sum + remainder ∧
    (remainder = 0 ∨ ∃ cost, (dispatchUnitCosts m)[k]? = some cost ∧ remainder < cost)

/-- The account of the dispatch units of an engine. -/
structure UnitsAccounted (E : Config) : Prop where
  costs : ∀ m ∈ E.trace.macros, (dispatchUnitCosts m).sum = m.dispatchWidthUnits
  /-- Any number of cycles with any budgets. -/
  budgets : ∀ m ∈ E.trace.macros, ∀ budgets charges p, Drains E m budgets charges {} p →
    PaidFor m p.finished p.spent ∧ charges.sum = p.spent ∧ List.Forall₂ (· ≤ ·) charges budgets ∧
      (p.finished = m.uopIds.length → charges.sum = m.dispatchWidthUnits)
  /-- Every state of a run: the first `k` uops are dispatched, once and in order. -/
  runs : ∀ now s, Reachable E now s → ∀ m ∈ E.trace.macros, ∃ k ≤ m.uopIds.length,
    dispatchLog m s.toCore = m.uopIds.take k ∧ pendingUops s m = m.uopIds.drop k ∧
      PaidFor m k (s.unitProgress m.id) ∧
      (k = m.uopIds.length → s.unitProgress m.id = m.dispatchWidthUnits)
  within : UnitsWithin E
  ends : ∀ s t, run E = .ok (s, t) → ∀ m ∈ E.trace.macros,
    dispatchLog m s.toCore = m.uopIds ∧ s.unitProgress m.id = m.dispatchWidthUnits

/-- **The dispatch units of every macro-op add up**, over every run and any budgets. -/
theorem units_accounted (T : BoundTrace) (hB : Bound T) (P : EngineProfile) (inOrder : Bool)
    (mode : CacheMode) (limit : Option Bool) (expand : Bool) (E : Config)
    (hE : init T P inOrder mode limit expand = .ok E) : UnitsAccounted E := by
  have hA := init_ok hE
  have hT := hA.wellFormed
  have hn : ∀ m ∈ E.trace.macros, m.uopIds.Nodup := fun m hm => (schedulerTrace_bound hB hA.scheduled m hm).1
  have hwhole : ∀ {p : Progress} {m}, m ∈ E.trace.macros → Kept (dispatchUnitCosts m) p →
      p.finished = m.uopIds.length → p.spent = m.dispatchWidthUnits := fun hm hp hk => by
    rw [hp.whole (by rw [hk, costs_length]), costs_sum (hT.macroUops _ hm)]
  refine ⟨fun m hm => costs_sum (hT.macroUops m hm), ?_, ?_, ?_, ?_⟩
  · intro m hm budgets charges p h
    obtain ⟨hturns, hfit⟩ := h.charges (hn m hm) kept_zero
    obtain ⟨hkept, hspent⟩ := hturns.kept kept_zero
    have hsum : charges.sum = p.spent := by rw [hspent, Nat.zero_add]
    exact ⟨hkept.remainder_lt, hsum, hfit, fun hk => hsum.trans (hwhole hm hkept hk)⟩
  · intro now s h m hm
    obtain ⟨k, hs⟩ := h.drained hT hn hm
    exact ⟨k, costs_length m ▸ hs.kept.within, hs.log, hs.pending, hs.kept.remainder_lt, hwhole hm hs.kept⟩
  · exact ((run_accounted T hB P inOrder mode limit).2 expand E hE).2
  · intro s t h m hm
    obtain ⟨k, hs⟩ := (run_reachable h).drained hT hn hm
    have hpend : pendingUops s m = [] := by
      refine List.filter_eq_nil_iff.mpr fun u hu => ?_
      obtain ⟨x, hx, -⟩ := hT.owned m hm u hu
      obtain ⟨hmem, rfl⟩ := E.trace.uop?_mem hx
      obtain ⟨d, -, hd⟩ := (run_ordered hT h).2.2 hn x hmem
      simp [hd]
    have hk : m.uopIds.length ≤ k := List.drop_eq_nil_iff.mp (hs.pending.symm.trans hpend)
    refine ⟨by rw [hs.log, List.take_of_length_le hk], ?_⟩
    rw [hs.whole hpend, costs_sum (hT.macroUops m hm)]

/-! ### Uops that cost no unit -/

namespace Sample

/-- A partition that one uop enters in a cycle. -/
def narrowProfile : EngineProfile := { VectorSim.Sample.profile with
  partitions := [{ id := "iq", kind := .scalar, entries := some 4, enqueueWidth := some 1 }]
  units := [("pipe", { schedulerPartition := "iq", functionalUnits := ["alu"] })] }

/-- A macro-op of one dispatch unit that is three uops of the partition. -/
def fusedTrace : BoundTrace where
  profileId := "sample"
  ticksPerCycle := 1
  macros := [{ id := 0, sequence := 0, uopIds := [0, 1, 2], decodedMacroOps := 1, retireMacroOps := 1,
               usesVectorScheduler := false, usesLoadQueue := false, usesStoreQueue := false }]
  uops := (List.range 3).map fun u => { VectorSim.Sample.uop with
    id := u, sequence := u, schedulerPartitionChoices := ["iq"], executionUnitChoices := ["pipe"] }
  resources := [("alu", 2)]

theorem fusedTrace_bound : Bound fusedTrace := ⟨by decide, by decide, by decide, by decide, by decide⟩

end Sample

theorem units_accounted_sample : ∃ E s t,
    init Sample.fusedTrace Sample.narrowProfile false .cold none false = .ok E ∧ run E = .ok (s, t) ∧
      UnitsAccounted E := by
  obtain ⟨E, hE⟩ := exists_ok (x := init Sample.fusedTrace Sample.narrowProfile false .cold none false)
    (by decide +kernel)
  have hrun : ((init Sample.fusedTrace Sample.narrowProfile false .cold none false).bind run).toOption.isSome := by
    decide +kernel
  rw [hE] at hrun
  obtain ⟨⟨s, t⟩, h⟩ := exists_ok hrun
  exact ⟨E, s, t, hE, h, units_accounted _ Sample.fusedTrace_bound _ _ _ _ _ E hE⟩

/-- After the first cycle the second uop waits. It costs nothing, and no remainder is less. -/
theorem free_uop_waits : Bound Sample.fusedTrace ∧ ∃ E s,
    init Sample.fusedTrace Sample.narrowProfile false .cold none false = .ok E ∧ Reachable E 0 s ∧
      ∃ m ∈ E.trace.macros, dispatchLog m s.toCore = m.uopIds.take 1 ∧ ∃ cost,
        (dispatchUnitCosts m)[1]? = some cost ∧
          ¬ ∃ remainder, s.unitProgress m.id = ((dispatchUnitCosts m).take 1).sum + remainder ∧ remainder < cost := by
  refine ⟨Sample.fusedTrace_bound, ?_⟩
  obtain ⟨E, hE⟩ := exists_ok (x := init Sample.fusedTrace Sample.narrowProfile false .cold none false)
    (by decide +kernel)
  have hvisit : ((init Sample.fusedTrace Sample.narrowProfile false .cold none false).bind fun E =>
      (visitOf (phases E 0) (schedInit E)).map fun s => E.trace.macros.any fun m =>
        decide (dispatchLog m s.toCore = m.uopIds.take 1) && decide ((dispatchUnitCosts m)[1]? = some 0)).toOption =
          some true := by
    decide +kernel
  rw [hE] at hvisit
  obtain ⟨s, hs, hm⟩ := ok_map.mp (toOption_ok.mp hvisit)
  obtain ⟨m, hm, hboth⟩ := List.any_eq_true.mp hm
  obtain ⟨hlog, hcost⟩ := Bool.and_eq_true_iff.mp hboth
  refine ⟨E, s, hE, ⟨schedInit E, phases E 0, [], ⟨0, .zero⟩, (List.append_nil _).symm, hs⟩, m, hm,
    of_decide_eq_true hlog, 0, of_decide_eq_true hcost, ?_⟩
  rintro ⟨remainder, -, hlt⟩
  exact Nat.not_lt_zero _ hlt

end Xsai
end VectorSim
