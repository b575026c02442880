/-
# The XSAI engine gets ahead

What the engine has still to do (`work`): the dispatch of each macro-op, of each uop and
of the units of each, the issue of what waits, the completions and the flows under way,
the retirement of the reorder buffer and the return of its rename entries. Each procedure
of the event loop takes from it, or leaves the machine as it is but for polls of the
memory hierarchy and what it notes of a blocked dispatch (`Proceeds`).
-/
import VectorSim.Backend.XsaiErrors
import VectorSim.Backend.XsaiRename
import VectorSim.Backend.Progress
import VectorSim.Backend.Provided

namespace VectorSim
namespace Xsai

open Checked Setup Core

variable {E : Config} {now : ℕ} {s s' : Sched} {x : ExecutionUop} {m : MacroOp}

/-! ### The work that is left -/

/-- The work of a macro-op until its uops are dispatched, its admission included. -/
def macroWork (s : Sched) (m : MacroOp) : ℕ :=
  4 * (pendingUops s m).length + (m.dispatchWidthUnits - s.unitProgress m.id) +
    if isAdmitted s m then 0 else 3 + allocationTotal m

/-- The work of a macro-op in the reorder buffer until its rename entries are on their way back. -/
def robWork (E : Config) (id : Id) : ℕ := 2 + ((E.trace.macro? id).map allocationTotal).getD 0

def batchWork (b : Release) : ℕ := 1 + Entries.total b.allocations

def work (E : Config) (s : Sched) : ℕ :=
  (E.trace.macros.length - s.nextDispatch) + (E.trace.macros.map (macroWork s)).sum +
    (s.rob.map (robWork E)).sum + 3 * s.unissued.length + s.completionHeap.length + s.serviceHeap.length +
    (s.renamePending.map batchWork).sum

/-- A sum of which one summand is less by `k`, and the others are no greater. -/
theorem sum_map_add_le {α : Type} {f g : α → ℕ} {k : ℕ} : ∀ {l : List α} {a : α}, a ∈ l → f a + k ≤ g a →
    (∀ b ∈ l, f b ≤ g b) → (l.map f).sum + k ≤ (l.map g).sum
  | [], _, ha, _, _ => by cases ha
  | b :: l, a, ha, hk, hle => by
    have hhead := hle b List.mem_cons_self
    have hrest : ∀ c ∈ l, f c ≤ g c := fun c hc => hle c (List.mem_cons_of_mem _ hc)
    simp only [List.map_cons, List.sum_cons]
    rcases List.mem_cons.mp ha with rfl | ha
    · have hsum : (l.map f).sum ≤ (l.map g).sum := List.sum_le_sum hrest
      omega
    · have ih := sum_map_add_le ha hk hrest
      omega

theorem macroWork_congr (h : ∀ u ∈ m.uopIds, (s'.uop u).dispatchTick = (s.uop u).dispatchTick)
    (hunits : s'.unitProgress = s.unitProgress)
    (hdispatch : (s'.macro_ m.id).dispatchTick = (s.macro_ m.id).dispatchTick) : macroWork s' m = macroWork s m := by
  have hpending : pendingUops s' m = pendingUops s m := List.filter_congr fun u hu => by rw [h u hu]
  rw [macroWork, macroWork, hpending, hunits, isAdmitted, isAdmitted, hdispatch]

/-- The macro-ops have as much to do as before. -/
theorem macroWorks_congr (h : ∀ u, (s'.uop u).dispatchTick = (s.uop u).dispatchTick)
    (hunits : s'.unitProgress = s.unitProgress)
    (hdispatch : ∀ m, (s'.macro_ m).dispatchTick = (s.macro_ m).dispatchTick) :
    E.trace.macros.map (macroWork s') = E.trace.macros.map (macroWork s) :=
  List.map_congr_left fun _ _ => macroWork_congr (fun u _ => h u) hunits (hdispatch _)

/-! ### Proceeds -/

/-- Nothing has happened but polls of the hierarchy and notes of the dispatcher. -/
structure Polled (s s' : Sched) : Prop where
  same : ∃ memory stalls domains blocked, s' = { s with
    memory := memory, stalls := stalls, blockerDomain := domains, blocked := blocked }
  bandwidth : s'.memory.bandwidthFree = s.memory.bandwidthFree
  outstanding : ∀ l, s'.memory.outstanding l ⊆ s.memory.outstanding l

theorem Polled.refl (s : Sched) : Polled s s := ⟨⟨_, _, _, _, rfl⟩, rfl, fun _ => List.Subset.refl _⟩

theorem Polled.trans {a b c : Sched} (h : Polled a b) (h' : Polled b c) : Polled a c := by
  obtain ⟨⟨_, _, _, _, rfl⟩, hb, ho⟩ := h
  obtain ⟨⟨_, _, _, _, rfl⟩, hb', ho'⟩ := h'
  exact ⟨⟨_, _, _, _, rfl⟩, hb'.trans hb, fun l => List.Subset.trans (ho' l) (ho l)⟩

theorem Polled.work (h : Polled s s') : work E s' = work E s := by
  obtain ⟨⟨_, _, _, _, rfl⟩, -, -⟩ := h
  rfl

/-- The work goes down, or nothing happens. -/
def Proceeds (E : Config) (s s' : Sched) : Prop := work E s' < work E s ∨ Polled s s'

theorem Proceeds.refl (s : Sched) : Proceeds E s s := .inr (.refl s)

theorem Proceeds.le (h : Proceeds E s s') : work E s' ≤ work E s := by
  rcases h with h | h
  · exact h.le
  · exact h.work.le

theorem Proceeds.trans {a b c : Sched} (h : Proceeds E a b) (h' : Proceeds E b c) : Proceeds E a c := by
  rcases h with h | h
  · exact .inl (h'.le.trans_lt h)
  · rcases h' with h' | h'
    · exact .inl (by rwa [← h.work (E := E)])
    · exact .inr (h.trans h')

/-- A move that does no work leaves all still. -/
theorem Proceeds.polled (h : Proceeds E s s') (hle : Xsai.work E s ≤ Xsai.work E s') : Polled s s' := by
  rcases h with h | h
  · omega
  · exact h

/-! ### Completion and release -/

theorem completeEntry_work {e : HeapEntry} {rest : List HeapEntry} (head : s.completionHeap = e :: rest) :
    work E (completeEntry E s e rest).2 < work E s := by
  have hheap : s.completionHeap.length = rest.length + 1 := by rw [head, List.length_cons]
  have hmacros : E.trace.macros.map (macroWork (completeEntry E s e rest).2) = E.trace.macros.map (macroWork s) :=
    macroWorks_congr (completeEntry_partitions e rest).dispatch
      (by unfold completeEntry; dsimp only; split <;> rfl) (completeEntry_same e rest).ticks.dispatch
  have hrest : work E (completeEntry E s e rest).2 + 1 = work E s := by
    unfold work
    rw [hmacros, hheap]
    unfold completeEntry
    dsimp only
    split
    · simp only
      omega
    · simp only [Core.completeUop]
      omega
  omega

theorem completeLoop_proceeds : ∀ (fuel : ℕ) (s : Sched), Proceeds E s (completeLoop E now fuel s).2
  | 0, s => .refl s
  | fuel + 1, s => by
    unfold completeLoop
    cases hq : s.completionHeap with
    | nil => exact .refl s
    | cons e rest =>
      dsimp only
      split
      · exact Proceeds.trans (.inl (completeEntry_work hq)) (completeLoop_proceeds fuel _)
      · exact .refl s

theorem complete_proceeds (s : Sched) : Proceeds E s (complete E now s).2 := completeLoop_proceeds _ s

theorem releaseFlow_work {e : HeapEntry} {rest : List HeapEntry} (head : s.serviceHeap = e :: rest) :
    work E (releaseFlow E s e rest) < work E s := by
  have hheap : s.serviceHeap.length = rest.length + 1 := by rw [head, List.length_cons]
  have hmacros : E.trace.macros.map (macroWork (releaseFlow E s e rest)) = E.trace.macros.map (macroWork s) := rfl
  unfold work
  rw [hmacros, hheap]
  simp only [releaseFlow]
  omega

theorem releaseFlowsLoop_proceeds : ∀ (fuel : ℕ) (s : Sched), Proceeds E s (releaseFlowsLoop E now fuel s)
  | 0, s => .refl s
  | fuel + 1, s => by
    unfold releaseFlowsLoop
    cases hq : s.serviceHeap with
    | nil => exact .refl s
    | cons e rest =>
      dsimp only
      split
      · exact Proceeds.trans (.inl (releaseFlow_work hq)) (releaseFlowsLoop_proceeds fuel _)
      · exact .refl s

theorem releaseFlows_proceeds (s : Sched) : Proceeds E s (releaseFlows E now s) := releaseFlowsLoop_proceeds _ s

/-- A batch that goes back, as far as the width goes. -/
theorem returnBatch_work {b : Release} {rest : List Release} {width : ℕ} (head : s.renamePending = b :: rest)
    (hpos : width ≠ 0) : work E (returnBatch s b rest width).2.2 < work E s := by
  have htotal := (returnEntries_total b.allocations width s.renameFree).2
  have hwhole := leftover_eq_nil b.allocations width s.renameFree
  have hbefore : (s.renamePending.map batchWork).sum = batchWork b + (rest.map batchWork).sum := by
    rw [head, List.map_cons, List.sum_cons]
  have hafter : ((returnBatch s b rest width).2.2.renamePending.map batchWork).sum <
      (s.renamePending.map batchWork).sum := by
    rw [hbefore]
    show (List.map batchWork (if _ then _ else _)).sum < _
    split
    · unfold batchWork
      omega
    · next hleft =>
      have hmore : width < Entries.total b.allocations := by
        rw [← not_le, ← hwhole]
        exact hleft
      rw [((Queue.push_perm _ _).map _).sum_eq, List.map_cons, List.sum_cons]
      unfold batchWork
      dsimp only
      omega
  have hmacros : E.trace.macros.map (macroWork (returnBatch s b rest width).2.2) = E.trace.macros.map (macroWork s) :=
    rfl
  unfold work
  rw [hmacros]
  simp only [returnBatch] at hafter ⊢
  omega

theorem releaseRenameLoop_proceeds : ∀ (fuel width : ℕ) (s : Sched), Proceeds E s (releaseRenameLoop now fuel width s)
  | 0, _, s => .refl s
  | fuel + 1, width, s => by
    unfold releaseRenameLoop
    cases hq : s.renamePending with
    | nil => exact .refl s
    | cons b rest =>
      dsimp only
      split
      · exact .refl s
      · next hgo =>
        have hless : work E (returnBatch s b rest width).2.2 < work E s := returnBatch_work hq (by omega)
        split
        · exact Proceeds.trans (.inl hless) (releaseRenameLoop_proceeds fuel _ _)
        · exact .inl hless

theorem releaseRename_proceeds (s : Sched) : Proceeds E s (releaseRename E now s) := by
  unfold releaseRename
  split
  · exact releaseRenameLoop_proceeds _ _ s
  · exact .refl s

/-! ### Dispatch -/

theorem advance_work (h : s.nextDispatch < E.trace.macros.length) :
    work E { s with toCore := s.toCore.advance } < work E s := by
  have hmacros : E.trace.macros.map (macroWork { s with toCore := s.toCore.advance }) =
      E.trace.macros.map (macroWork s) := rfl
  unfold work
  rw [hmacros]
  simp only [Core.advance]
  omega

/-- The admission of a macro-op adds nothing. -/
theorem admitOnce_work (now : ℕ) (s : Sched) (hT : WellFormed E.trace) (hm : m ∈ E.trace.macros) (c : DispatchCycle) :
    work E (admitOnce E s c m now).1 ≤ work E s := by
  unfold admitOnce
  split
  · exact le_rfl
  · next hout =>
    have hadmitted : isAdmitted s m = false := by simpa using hout
    have hless : ∀ m' ∈ E.trace.macros, macroWork (admitMacro E s c m now).1 m' ≤ macroWork s m' := by
      intro m' _
      have hpending : pendingUops (admitMacro E s c m now).1 m' = pendingUops s m' := rfl
      have hstays : isAdmitted s m' = true → isAdmitted (admitMacro E s c m now).1 m' = true := by
        intro h
        by_cases hid : m'.id = m.id
        · simp [isAdmitted, admitMacro, Core.enterRob, hid]
        · simpa [isAdmitted, admitMacro, Core.enterRob, hid] using h
      unfold macroWork
      rw [hpending]
      cases hin : isAdmitted s m' with
      | true => rw [hstays hin]; exact le_rfl
      | false =>
        refine Nat.add_le_add_left ?_ _
        split
        · exact Nat.zero_le _
        · exact le_rfl
    have hown : macroWork (admitMacro E s c m now).1 m + (3 + allocationTotal m) ≤ macroWork s m := by
      have hin : isAdmitted (admitMacro E s c m now).1 m = true := by simp [isAdmitted, admitMacro, Core.enterRob]
      unfold macroWork
      rw [hadmitted, hin]
      exact le_rfl
    have hsum := sum_map_add_le hm hown hless
    have hrob : ((admitMacro E s c m now).1.rob.map (robWork E)).sum =
        (s.rob.map (robWork E)).sum + (2 + allocationTotal m) := by
      show ((s.rob ++ [m.id]).map (robWork E)).sum = _
      simp [robWork, hT.macro?_eq hm]
    unfold work
    rw [hrob]
    simp only [admitMacro, Core.enterRob] at hsum ⊢
    omega

/-- A chunk of uops leaves less to do for each of them. -/
theorem enqueue_work (hm : m ∈ E.trace.macros) (c : DispatchCycle) (count units : ℕ) (a : List (Id × String)) :
    work E (enqueue (spend (s, c) m units) ((pendingUops s m).take count) a now).1 +
      ((pendingUops s m).take count).length ≤ work E s := by
  generalize hus : (pendingUops s m).take count = us
  have hless : ∀ m' ∈ E.trace.macros,
      macroWork (enqueue (spend (s, c) m units) us a now).1 m' ≤ macroWork s m' := by
    intro m' _
    have hpending : pendingUops (enqueue (spend (s, c) m units) us a now).1 m' = _ :=
      pendingUops_enqueue (s, c) m m' units us a
    have hlength := List.length_filter_le (fun u => decide (u ∉ us)) (pendingUops s m')
    have hunits : s.unitProgress m'.id ≤ (enqueue (spend (s, c) m units) us a now).1.unitProgress m'.id := by
      by_cases hid : m'.id = m.id
      · simp [enqueue, spend, hid]
      · simp [enqueue, spend, hid]
    have hin : isAdmitted (enqueue (spend (s, c) m units) us a now).1 m' = isAdmitted s m' := by
      simp [isAdmitted, enqueue, spend]
    unfold macroWork
    rw [hpending, hin]
    dsimp only
    omega
  have hown : macroWork (enqueue (spend (s, c) m units) us a now).1 m + 4 * us.length ≤ macroWork s m := by
    have hpending : pendingUops (enqueue (spend (s, c) m units) us a now).1 m = _ :=
      pendingUops_enqueue (s, c) m m units us a
    -- what is left of the pending uops is behind the chunk
    have hlength : ((pendingUops s m).filter fun u => u ∉ us).length + us.length ≤ (pendingUops s m).length := by
      have hsplit : pendingUops s m = us ++ (pendingUops s m).drop count := by rw [← hus, List.take_append_drop]
      have hnone : us.filter (fun u => decide (u ∉ us)) = [] :=
        List.filter_eq_nil_iff.mpr fun u hu => by simpa using hu
      have hrest := List.length_filter_le (fun u => decide (u ∉ us)) ((pendingUops s m).drop count)
      have htotal := congrArg List.length hsplit
      rw [List.length_append] at htotal
      rw [hsplit, List.filter_append, hnone, List.nil_append, List.length_append]
      rw [hsplit] at htotal
      omega
    have hunits : s.unitProgress m.id ≤ (enqueue (spend (s, c) m units) us a now).1.unitProgress m.id := by
      simp [enqueue, spend]
    have hin : isAdmitted (enqueue (spend (s, c) m units) us a now).1 m = isAdmitted s m := by
      simp [isAdmitted, enqueue, spend]
    unfold macroWork
    rw [hpending, hin]
    dsimp only
    omega
  have hsum := sum_map_add_le hm hown hless
  have hwaiting : (enqueue (spend (s, c) m units) us a now).1.unissued.length ≤ us.length + s.unissued.length := by
    simp only [enqueue, spend, dispatchAll_eq]
    exact length_insertAll us s.unissued
  unfold work
  simp only [enqueue, spend, dispatchAll_next, dispatchAll_rob, dispatchAll_heap] at hsum hwaiting ⊢
  omega

theorem Taken.work (hT : WellFormed E.trace) (hm : m ∈ E.trace.macros) {c : DispatchCycle} {width units : ℕ}
    {us : List Id} {a : List (Id × String)} (h : Taken E s c m width us a units) (hp : pendingUops s m ≠ []) :
    Xsai.work E (enqueue (spend (admitOnce E s c m now) m units) us a now).1 < Xsai.work E s := by
  obtain ⟨count, hcount, rfl⟩ := h.listed
  have hpending : pendingUops (admitOnce E s c m now).1 m = pendingUops s m := by
    rw [pendingUops, pendingUops, admitOnce_uop]
  have hadmit := admitOnce_work now s hT hm c
  have hchunk : Xsai.work E (enqueue (spend (admitOnce E s c m now) m units)
        ((pendingUops (admitOnce E s c m now).1 m).take count) a now).1 +
      ((pendingUops (admitOnce E s c m now).1 m).take count).length ≤ Xsai.work E (admitOnce E s c m now).1 :=
    enqueue_work hm (admitOnce E s c m now).2 count units a
  have hpos : 0 < ((pendingUops s m).take count).length := by
    have := List.length_pos_iff.mpr hp
    rw [List.length_take]
    omega
  rw [hpending] at hchunk
  omega

/-- The units of some of the uops are no more than those of the macro-op. -/
theorem unitsOf_le (hm : m.uopIds ≠ []) (n : ℕ) : unitsOf m n ≤ m.dispatchWidthUnits := by
  rw [← unitsOf_length hm, unitsOf, unitsOf,
    List.take_of_length_le (i := m.uopIds.length) (by simp [dispatchUnitCosts])]
  exact (List.take_sublist _ _).sum_le_sum fun _ _ => Nat.zero_le _

theorem Partial.work (hT : WellFormed E.trace) (hm : m ∈ E.trace.macros) {c : DispatchCycle} {width units : ℕ}
    (h : Partial s c m width units) : Xsai.work E (spend (admitOnce E s c m now) m units).1 < Xsai.work E s := by
  have hadmit := admitOnce_work now s hT hm c
  have hprogress : (admitOnce E s c m now).1.unitProgress = s.unitProgress := by
    unfold admitOnce
    split <;> rfl
  generalize admitOnce E s c m now = r at hadmit hprogress ⊢
  have hunits : ∀ m' : MacroOp, r.1.unitProgress m'.id ≤ (spend r m units).1.unitProgress m'.id := by
    intro m'
    by_cases hid : m'.id = m.id
    · simp [spend, hid]
    · simp [spend, hid]
  have hless : ∀ m' ∈ E.trace.macros, macroWork (spend r m units).1 m' ≤ macroWork r.1 m' := by
    intro m' _
    have hpending : pendingUops (spend r m units).1 m' = pendingUops r.1 m' := rfl
    have hin : isAdmitted (spend r m units).1 m' = isAdmitted r.1 m' := rfl
    have := hunits m'
    unfold macroWork
    rw [hpending, hin]
    omega
  have hown : macroWork (spend r m units).1 m + 1 ≤ macroWork r.1 m := by
    have hpending : pendingUops (spend r m units).1 m = pendingUops r.1 m := rfl
    have hin : isAdmitted (spend r m units).1 m = isAdmitted r.1 m := rfl
    have hspent : (spend r m units).1.unitProgress m.id = r.1.unitProgress m.id + units := by simp [spend]
    have hle := unitsOf_le (hT.macroUops m hm) (m.uopIds.idxOf ((pendingUops s m).headD 0) + 1)
    have hshort := h.short
    have hpos := h.pos
    unfold macroWork
    rw [hpending, hin, hspent, hprogress]
    omega
  have hsum := sum_map_add_le hm hown hless
  have hrest : Xsai.work E (spend r m units).1 < Xsai.work E r.1 := by
    unfold Xsai.work
    simp only [spend] at hsum ⊢
    omega
  omega

theorem stopBlocked_polled {c : DispatchCycle} {reason : DispatchStall} {r : Bool × Sched × DispatchCycle}
    (h : stopBlocked s c m now reason = .ok r) : Polled s r.2.1 := by
  obtain ⟨stalls, domains, rfl⟩ := stopBlocked_ok h
  exact ⟨⟨_, _, _, _, rfl⟩, rfl, fun _ => List.Subset.refl _⟩

theorem closeTurn_proceeds {r : Sched × DispatchCycle} {r' : Bool × Sched × DispatchCycle}
    (head : E.trace.macros[r.1.nextDispatch]? = some m) (h : closeTurn r m = .ok r') : Proceeds E r.1 r'.2.1 := by
  unfold closeTurn at h
  split at h
  · split at h
    · cases h
    · cases h
      exact .inl (advance_work (List.getElem?_eq_some_iff.mp head).1)
  · cases h
    exact .refl _

theorem dispatchTurn_proceeds (hT : WellFormed E.trace) {width : ℕ} {c : DispatchCycle}
    {r : Bool × Sched × DispatchCycle} (head : E.trace.macros[s.nextDispatch]? = some m)
    (h : dispatchTurn E width now s c m = .ok r) : Proceeds E s r.2.1 := by
  have hm := List.mem_of_getElem? head
  unfold dispatchTurn at h
  dsimp only at h
  split at h
  · cases h
    exact .inl (advance_work (List.getElem?_eq_some_iff.mp head).1)
  · next hp =>
    split at h
    · cases h; exact .refl s
    · next chunk hchunk =>
      obtain ⟨b, hb, h⟩ := ok_bind.mp h
      cases b with
      | some reason => exact .inr (stopBlocked_polled h)
      | none =>
        cases chunk with
        | take us a units =>
          have htaken := chooseChunk_take hp hchunk
          exact Proceeds.trans (.inl (htaken.work hT hm hp)) (closeTurn_proceeds (by simpa using head) h)
        | budget units =>
          cases h
          exact .inl ((chooseChunk_budget hchunk).work hT hm)
        | blocked =>
          dsimp only at h
          split at h <;> exact .inr (stopBlocked_polled h)

theorem dispatchLoop_proceeds (hT : WellFormed E.trace) {width : ℕ} : ∀ (fuel : ℕ) (s : Sched) (c : DispatchCycle)
    {s' : Sched}, dispatchLoop E width now fuel s c = .ok s' → Proceeds E s s'
  | 0, s, _, s', h => by cases h; exact .refl s
  | fuel + 1, s, c, s', h => by
    unfold dispatchLoop at h
    split at h
    · cases h; exact .refl s
    · next m hm =>
      split at h
      · cases h; exact .refl s
      · obtain ⟨r, hr, h⟩ := ok_bind.mp h
        have hturn := dispatchTurn_proceeds hT hm hr
        split at h
        · exact hturn.trans (dispatchLoop_proceeds hT fuel _ _ h)
        · cases h; exact hturn

theorem dispatch_proceeds (hT : WellFormed E.trace) (h : dispatch E now s = .ok s') : Proceeds E s s' := by
  obtain ⟨width, -, h⟩ := ok_bind.mp h
  exact dispatchLoop_proceeds hT _ _ _ h

/-! ### Retirement -/

theorem retireMacro_work (hT : WellFormed E.trace) (hm : m ∈ E.trace.macros) {rest : List Id}
    (head : s.rob = m.id :: rest) : work E (retireMacro E s m now) < work E s := by
  have hmacros : E.trace.macros.map (macroWork (retireMacro E s m now)) = E.trace.macros.map (macroWork s) :=
    macroWorks_congr (fun _ => rfl) rfl (retireMacro_dispatch E now s m).macros
  have hbefore : (s.rob.map (robWork E)).sum = 2 + allocationTotal m + (rest.map (robWork E)).sum := by
    rw [head, List.map_cons, List.sum_cons, robWork, hT.macro?_eq hm]
    rfl
  have hafter : (retireMacro E s m now).rob = rest := by
    show s.rob.tail = rest
    rw [head, List.tail_cons]
  have hpending : ((pushRelease E s m now).map batchWork).sum ≤
      1 + allocationTotal m + (s.renamePending.map batchWork).sum := by
    unfold pushRelease
    split
    · rw [((Queue.push_perm _ _).map _).sum_eq, List.map_cons, List.sum_cons]
      exact le_rfl
    · omega
  unfold work
  rw [hmacros, hbefore, hafter]
  simp only [retireMacro, Core.retire] at hpending ⊢
  omega

theorem retireLoop_proceeds (hT : WellFormed E.trace) {width : ℕ} : ∀ (fuel retired : ℕ) (s : Sched),
    Proceeds E s (retireLoop E width now fuel retired s)
  | 0, _, s => .refl s
  | fuel + 1, retired, s => by
    unfold retireLoop
    split
    · exact .refl s
    · next m hm =>
      obtain ⟨id, hid, hm⟩ := Option.bind_eq_some_iff.mp hm
      obtain ⟨hmem, rfl⟩ := E.trace.macro?_mem hm
      obtain ⟨rest, hrest⟩ := List.head?_eq_some_iff.mp hid
      split
      · exact Proceeds.trans (.inl (retireMacro_work hT hmem hrest)) (retireLoop_proceeds hT fuel _ _)
      · exact .refl s

/-! ### Issue -/

/-- The issue check changes the hierarchy alone, and only what it knows of lines and of the past. -/
theorem issueBlocker_polled {r : MemoryState × Option Blocked} (h : issueBlocker E s x now = .ok r) :
    Polled s { s with memory := r.1 } := by
  suffices hmem : r.1.bandwidthFree = s.memory.bandwidthFree ∧ ∀ l, r.1.outstanding l ⊆ s.memory.outstanding l from
    ⟨⟨_, _, _, _, rfl⟩, hmem.1, hmem.2⟩
  have hsame : s.memory.bandwidthFree = s.memory.bandwidthFree ∧ ∀ l, s.memory.outstanding l ⊆ s.memory.outstanding l :=
    ⟨rfl, fun _ => List.Subset.refl _⟩
  unfold issueBlocker at h
  split at h
  · cases h; exact hsame
  · obtain ⟨b, -, h⟩ := ok_bind.mp h
    split at h
    · cases h; exact hsame
    · obtain ⟨q, hq, h⟩ := ok_bind.mp h
      have hr : r.1 = q.1 := by
        split at h
        · cases h; rfl
        · obtain ⟨b', -, h⟩ := ok_bind.mp h
          cases h; rfl
      rw [hr]
      unfold memoryBlocker at hq
      split at hq
      · obtain ⟨b', -, hq⟩ := ok_bind.mp hq
        split at hq
        · cases hq; exact hsame
        · exact hierarchyBlocker_settled hq
      · cases hq; exact hsame

/-- An issue takes three from the work, and a completion and a flow come on their way. -/
theorem issued_work (waiting : x.id ∈ s.unissued) (r : Reserved) : work E (issued E s x now r) < work E s := by
  have hmacros : E.trace.macros.map (macroWork (issued E s x now r)) = E.trace.macros.map (macroWork s) :=
    macroWorks_congr (fun u => by simp only [issued, issue_uop]; split <;> rfl) rfl fun _ => rfl
  have hservice : (pushService E s x now).length ≤ s.serviceHeap.length + 1 := by
    unfold pushService
    split
    · omega
    · split
      · rw [(Queue.push_perm _ _).length_eq, List.length_cons]
      · omega
  have hpos := List.length_pos_of_mem waiting
  have herase := List.length_erase_of_mem waiting
  unfold work
  rw [hmacros]
  simp only [issued, Core.issue, (Queue.push_perm _ _).length_eq, List.length_cons]
  omega

/-- A pass over the waiting uops takes from the work exactly where it issues one. -/
theorem issueList_proceeds : ∀ (xs : List ExecutionUop) (s : Sched) {r : Bool × Sched},
    Candidates E.toSetup s.toCore xs → issueList E now xs s = .ok r →
      Proceeds E s r.2 ∧ (r.1 = true → work E r.2 < work E s)
  | [], s, r, _, h => by cases h; exact ⟨.refl s, by simp⟩
  | x :: xs, s, r, hc, h => by
    obtain ⟨⟨memory, b⟩, hb, h⟩ := ok_bind.mp h
    have hpolled : Polled s { s with memory := memory } := issueBlocker_polled hb
    have hsame : work E { s with memory := memory } = work E s := hpolled.work
    cases b with
    | some b =>
      dsimp only at h
      split at h
      · cases h; exact ⟨.inr hpolled, by simp⟩
      · obtain ⟨hgoes, hless⟩ := issueList_proceeds xs { s with memory := memory } hc.tail h
        exact ⟨Proceeds.trans (.inr hpolled) hgoes, fun hr => (hless hr).trans_eq hsame⟩
    | none =>
      dsimp only at h
      obtain ⟨s₁, h₁, h⟩ := ok_bind.mp h
      obtain ⟨r', h', h⟩ := ok_bind.mp h
      cases h
      obtain ⟨p, -, h₁⟩ := ok_bind.mp h₁
      cases h₁
      have hwaiting : x.id ∈ s.unissued := hc.head.2.1
      have hwork : work E (issued E { s with memory := memory } x now p) < work E { s with memory := memory } :=
        issued_work (s := { s with memory := memory }) hwaiting p
      obtain ⟨hgoes, -⟩ := issueList_proceeds xs _ (hc.issue _) h'
      have hless : work E r'.2 < work E s := by
        have := hgoes.le
        omega
      exact ⟨.inl hless, fun _ => hless⟩

/-- A uop that nothing stands in the way of issues, or another does before it. -/
theorem issueList_issues (hx : ∀ s', Polled s s' → ∃ memory, issueBlocker E s' x now = .ok (memory, none)) :
    ∀ (xs : List ExecutionUop) (s₁ : Sched) {r : Bool × Sched}, Polled s s₁ → x ∈ xs →
      (E.inOrder = true → xs.length ≤ 1) → issueList E now xs s₁ = .ok r → r.1 = true
  | [], _, _, _, hmem, _, _ => by cases hmem
  | y :: ys, s₁, r, hpolled, hmem, hone, h => by
    obtain ⟨⟨memory, b⟩, hb, h⟩ := ok_bind.mp h
    cases b with
    | none =>
      dsimp only at h
      obtain ⟨s₂, -, h⟩ := ok_bind.mp h
      obtain ⟨r', -, h⟩ := ok_bind.mp h
      cases h
      rfl
    | some b =>
      -- the uop is not the one that is blocked
      have hne : x ≠ y := by
        rintro rfl
        obtain ⟨memory', hfree⟩ := hx s₁ hpolled
        rw [hfree] at hb
        cases hb
      have hmem' : x ∈ ys := (List.mem_cons.mp hmem).resolve_left hne
      dsimp only at h
      split at h
      · next hin =>
        have := hone hin
        have hpos := List.length_pos_of_mem hmem'
        simp only [List.length_cons] at this
        omega
      · next hin =>
        exact issueList_issues hx ys _ (hpolled.trans (issueBlocker_polled hb)) hmem' (fun h' => absurd h' hin) h

theorem issueOnce_proceeds (hT : WellFormed E.trace) {r : Bool × Sched} (h : issueOnce E now s = .ok r) :
    Proceeds E s r.2 ∧ (r.1 = true → work E r.2 < work E s) :=
  issueList_proceeds _ s (candidates_issueCandidates hT _) h

theorem issueFixedPoint_proceeds (hT : WellFormed E.trace) (h : issueFixedPoint E now s = .ok s') : Proceeds E s s' :=
  FixedPoint.run_steps (R := Proceeds E) h Proceeds.trans complete_proceeds fun _ _ hr => (issueOnce_proceeds hT hr).1

/-! ### Visits -/

theorem phase_proceeds (hT : WellFormed E.trace) {f : Sched → Except SimError Sched} (hf : f ∈ phases E now)
    (h : f s = .ok s') : Proceeds E s s' := by
  simp only [phases, List.mem_cons, List.not_mem_nil, or_false] at hf
  rcases hf with rfl | rfl | rfl | rfl | rfl | rfl | rfl
  · cases h; exact complete_proceeds s
  · cases h; exact releaseFlows_proceeds s
  · cases h; exact releaseRename_proceeds s
  · dsimp only at h
    split at h
    · exact dispatch_proceeds hT h
    · cases h; exact .refl s
  · exact issueFixedPoint_proceeds hT h
  · cases h; exact complete_proceeds s
  · dsimp only at h
    split at h
    · obtain ⟨width, -, h⟩ := ok_bind.mp h
      cases h
      exact retireLoop_proceeds hT _ _ s
    · cases h; exact .refl s

theorem visit_proceeds (hT : WellFormed E.trace) {fs : List (Sched → Except SimError Sched)}
    (hfs : fs ⊆ phases E now) (h : visitOf fs s = .ok s') : Proceeds E s s' :=
  foldlM_ok (P := fun t => Proceeds E s t) h (.refl s) fun _ hf _ _ ht hs => ht.trans (phase_proceeds hT (hfs hf) hs)

/-- The search for the next tick polls the hierarchy alone. -/
theorem pollAll_polled : ∀ (xs : List ExecutionUop) {r r' : MemoryState × List ℕ}, Polled s { s with memory := r.1 } →
    xs.foldlM (pollWaiting E now s) r = .ok r' → Polled s { s with memory := r'.1 }
  | [], r, r', hs, h => by cases h; exact hs
  | x :: xs, r, r', hs, h => by
    rw [List.foldlM_cons] at h
    obtain ⟨q, hq, h⟩ := ok_bind.mp h
    obtain ⟨b, hb, hq⟩ := ok_bind.mp hq
    obtain ⟨ticks, -, hq⟩ := ok_bind.mp hq
    cases hq
    exact pollAll_polled xs (hs.trans (issueBlocker_polled hb)) h

theorem nextEventTick_polled {t : ℕ} (h : nextEventTick E now s = .ok (s', t)) : Polled s s' := by
  obtain ⟨r, hr, h⟩ := ok_bind.mp h
  split at h
  · cases h
  · cases h
    exact pollAll_polled _ (.refl s) hr

end Xsai
end VectorSim
