/-
# What is due in the XSAI engine

Completions, flows in service and batches of rename entries come due at their ticks, lanes,
units, tokens and the edges of the epochs at theirs. Nothing that is under way reaches beyond
some tick (`exists_calm`), and what is due is done with at the tick at the latest. After a
visit nothing is due, and the next tick is a later one (`nextEventTick_later`).
-/
import VectorSim.Backend.XsaiProgress
import VectorSim.Backend.CycleTokens
import VectorSim.Backend.Calm

namespace VectorSim
namespace Xsai

open Checked Setup Core

variable {E : Config} {now h : ℕ} {s s' : Sched} {x : ExecutionUop}

/-! ### Nothing under way -/

/-- Nothing that is under way reaches beyond tick `h`. -/
structure Calm (E : Config) (h : ℕ) (s : Sched) : Prop extends Setup.Calm E.toSetup h s.toMachine where
  units : ∀ x ∈ E.trace.uops, ∀ u ∈ x.executionUnitChoices, s.executionUnitFree u ≤ h
  split : ∀ k, ∀ t ∈ s.splitIssueFree k, t ≤ h
  reads : ∀ d ∈ E.readCapacity.map (·.1), ∀ c ∈ s.readReservations d, c < h / E.ticksPerCycle
  writes : ∀ d ∈ E.completionCapacity.map (·.1), ∀ c ∈ s.completionReservations d, c < h / E.ticksPerCycle
  service : ∀ e ∈ s.serviceHeap, e.tick ≤ h
  releases : ∀ b ∈ s.renamePending, b.tick ≤ h
  visible : ∀ x ∈ E.trace.uops, ∀ d ∈ x.vectorStateDependencies, ∀ t ∈ (s.uop d).completeTick,
    t + E.epochs.loadOnlyVisibilityTicks ≤ h
  closes : ∀ x ∈ E.trace.uops, ∀ e ∈ epochClose E x.id, ∀ t ∈ (s.uop e.1).completeTick, (t : ℤ) + e.2 ≤ h

theorem exists_calm (htpc : 0 < E.ticksPerCycle) (s : Sched) : ∃ h, ∀ h', h ≤ h' → Calm E h' s := by
  obtain ⟨a, ha⟩ := Setup.exists_calm E.toSetup s.toMachine
  obtain ⟨b, hb⟩ := exists_bound E.trace.uops fun x => x.executionUnitChoices.map s.executionUnitFree
  obtain ⟨c, hc⟩ := exists_bound [AccessKind.load, AccessKind.store] s.splitIssueFree
  obtain ⟨r, hr⟩ := exists_bound (E.readCapacity.map (·.1)) s.readReservations
  obtain ⟨w, hw⟩ := exists_bound (E.completionCapacity.map (·.1)) s.completionReservations
  obtain ⟨f, hf⟩ := exists_bound s.serviceHeap fun e => [e.tick]
  obtain ⟨p, hp⟩ := exists_bound s.renamePending fun b => [b.tick]
  obtain ⟨v, hv⟩ := exists_bound E.trace.uops fun x => x.vectorStateDependencies.flatMap fun d =>
    (s.uop d).completeTick.toList.map (· + E.epochs.loadOnlyVisibilityTicks)
  obtain ⟨q, hq⟩ := exists_bound E.trace.uops fun x => (epochClose E x.id).toList.flatMap fun e =>
    (s.uop e.1).completeTick.toList.map fun t => ((t : ℤ) + e.2).toNat
  have hcycles : ∀ n h', (n + 1) * E.ticksPerCycle ≤ h' → n < h' / E.ticksPerCycle := by
    intro n h' hle
    exact (Nat.le_div_iff_mul_le htpc).mpr hle
  refine ⟨a + b + c + (r + 1) * E.ticksPerCycle + (w + 1) * E.ticksPerCycle + f + p + v + q, fun h' hle =>
    { toCalm := ha h' (by omega), units := fun x hx u hu => ?_, split := fun k t ht => ?_, reads := fun d hd n hn => ?_,
      writes := fun d hd n hn => ?_, service := fun e he => ?_, releases := fun b hb => ?_,
      visible := fun x hx d hd t ht => ?_, closes := fun x hx e he t ht => ?_ }⟩
  · have := hb x hx _ (List.mem_map.mpr ⟨u, hu, rfl⟩)
    omega
  · have := hc k (by cases k <;> simp) t ht
    omega
  · have := hcycles r h' (by omega)
    exact (hr d hd n hn).trans_lt this
  · have := hcycles w h' (by omega)
    exact (hw d hd n hn).trans_lt this
  · have := hf e he e.tick List.mem_cons_self
    omega
  · have := hp b hb b.tick List.mem_cons_self
    omega
  · have := hv x hx (t + E.epochs.loadOnlyVisibilityTicks)
      (List.mem_flatMap.mpr ⟨d, hd, List.mem_map.mpr ⟨t, by simpa using ht, rfl⟩⟩)
    omega
  · have := hq x hx ((t : ℤ) + e.2).toNat
      (List.mem_flatMap.mpr ⟨e, by simpa using he, List.mem_map.mpr ⟨t, by simpa using ht, rfl⟩⟩)
    omega

/-- A machine that is polled stays calm. -/
theorem Polled.calm (hp : Polled s s') (hs : Calm E h s) : Calm E h s' := by
  obtain ⟨⟨_, _, _, _, rfl⟩, hbandwidth, houtstanding⟩ := hp
  exact { toCalm := hs.toCalm.of_eq rfl rfl rfl rfl hbandwidth houtstanding, units := hs.units, split := hs.split,
          reads := hs.reads, writes := hs.writes, service := hs.service, releases := hs.releases,
          visible := hs.visible, closes := hs.closes }

/-! ### What is due -/

theorem complete_works {e : HeapEntry} {rest : List HeapEntry} (head : s.completionHeap = e :: rest) (due : e.tick ≤ now) :
    work E (complete E now s).2 < work E s := by
  have hgoes : Proceeds E (completeEntry E s e rest).2 (completeLoop E now rest.length (completeEntry E s e rest).2).2 :=
    completeLoop_proceeds _ _
  have hentry := completeEntry_work (E := E) head
  have hstep : (complete E now s).2 = (completeLoop E now rest.length (completeEntry E s e rest).2).2 := by
    rw [complete, head, List.length_cons, completeLoop, head]
    dsimp only
    rw [if_pos due]
  rw [hstep]
  exact hgoes.le.trans_lt hentry

theorem releaseFlows_works {e : HeapEntry} {rest : List HeapEntry} (head : s.serviceHeap = e :: rest) (due : e.tick ≤ now) :
    work E (releaseFlows E now s) < work E s := by
  have hgoes : Proceeds E (releaseFlow E s e rest) (releaseFlowsLoop E now rest.length (releaseFlow E s e rest)) :=
    releaseFlowsLoop_proceeds _ _
  have hentry := releaseFlow_work (E := E) head
  have hstep : releaseFlows E now s = releaseFlowsLoop E now rest.length (releaseFlow E s e rest) := by
    rw [releaseFlows, head, List.length_cons, releaseFlowsLoop, head]
    dsimp only
    rw [if_pos due]
  rw [hstep]
  exact hgoes.le.trans_lt hentry

theorem releaseRename_works (henabled : E.rename.enabled = true) (hwidth : 0 < E.rename.releaseWidth) {b : Release}
    {rest : List Release} (head : s.renamePending = b :: rest) (due : b.tick ≤ now) :
    work E (releaseRename E now s) < work E s := by
  have hentry : work E (returnBatch s b rest E.rename.releaseWidth).2.2 < work E s := returnBatch_work head (by omega)
  rw [releaseRename, if_pos henabled, head, List.length_cons, releaseRenameLoop, head]
  dsimp only
  rw [if_neg (by omega)]
  split
  · have hgoes : Proceeds E _ (releaseRenameLoop now rest.length
        (returnBatch s b rest E.rename.releaseWidth).2.1 (returnBatch s b rest E.rename.releaseWidth).2.2) :=
      releaseRenameLoop_proceeds _ _ _
    exact hgoes.le.trans_lt hentry
  · exact hentry

/-! ### After a visit -/

/-- The completions that are due are all taken from the heap. -/
theorem completeLoop_head : ∀ (fuel : ℕ) (s : Sched), s.completionHeap.length ≤ fuel →
    ∀ e ∈ (completeLoop E now fuel s).2.completionHeap.head?, now < e.tick
  | 0, s, hlen, e, he => by
    have hnil : s.completionHeap = [] := List.length_eq_zero_iff.mp (by omega)
    unfold completeLoop at he
    rw [hnil] at he
    cases he
  | fuel + 1, s, hlen, e, he => by
    unfold completeLoop at he
    cases hq : s.completionHeap with
    | nil =>
      rw [hq] at he
      dsimp only at he
      rw [hq] at he
      cases he
    | cons f rest =>
      rw [hq] at he hlen
      dsimp only at he
      by_cases hdue : f.tick ≤ now
      · rw [if_pos hdue] at he
        refine completeLoop_head fuel _ ?_ e he
        have hrest : (completeEntry E s f rest).2.completionHeap = rest := by
          unfold completeEntry
          dsimp only
          split <;> rfl
        rw [hrest]
        simpa using hlen
      · rw [if_neg hdue] at he
        dsimp only at he
        rw [hq] at he
        obtain rfl : f = e := Option.some.inj he
        omega

/-- No flow is due. -/
def FlowsAhead (now : ℕ) (s : Sched) : Prop := ∀ e ∈ s.serviceHeap.head?, now < e.tick

theorem releaseFlowsLoop_ahead : ∀ (fuel : ℕ) (s : Sched), s.serviceHeap.length ≤ fuel →
    FlowsAhead now (releaseFlowsLoop E now fuel s)
  | 0, s, hlen, e, he => by
    have hnil : s.serviceHeap = [] := List.length_eq_zero_iff.mp (by omega)
    unfold releaseFlowsLoop at he
    rw [hnil] at he
    cases he
  | fuel + 1, s, hlen, e, he => by
    unfold releaseFlowsLoop at he
    cases hq : s.serviceHeap with
    | nil =>
      rw [hq] at he
      dsimp only at he
      rw [hq] at he
      cases he
    | cons f rest =>
      rw [hq] at he hlen
      dsimp only at he
      by_cases hdue : f.tick ≤ now
      · rw [if_pos hdue] at he
        exact releaseFlowsLoop_ahead fuel (releaseFlow E s f rest) (by simpa [releaseFlow] using hlen) e he
      · rw [if_neg hdue, hq] at he
        obtain rfl : f = e := Option.some.inj he
        omega

/-- A flow that enters service is not due yet, so that none comes due in the rest of the visit. -/
theorem FlowsAhead.step (hs : FlowsAhead now s) (h : Step E now s s') : FlowsAhead now s' := by
  cases h with
  | complete _ _ =>
    unfold completeEntry
    dsimp only
    split <;> exact hs
  | releaseFlow head due =>
    have := hs _ (by rw [head]; rfl)
    omega
  | releaseRename _ _ | advance _ _ | stall _ _ _ | poll _ | retire _ _ _ => exact hs
  | budget _ _ _ =>
    have hheap : ∀ (c : DispatchCycle) (m : MacroOp), (admitOnce E s c m now).1.serviceHeap = s.serviceHeap := by
      intro c m
      unfold admitOnce
      split <;> rfl
    unfold FlowsAhead
    simp only [spend, hheap]
    exact hs
  | take _ _ _ =>
    have hheap : ∀ (c : DispatchCycle) (m : MacroOp), (admitOnce E s c m now).1.serviceHeap = s.serviceHeap := by
      intro c m
      unfold admitOnce
      split <;> rfl
    unfold FlowsAhead
    simp only [enqueue, spend, hheap]
    exact hs
  | @issue x r _ _ _ _ _ _ =>
    intro e he
    change e ∈ (pushService E s x now).head? at he
    unfold pushService at he
    split at he
    · exact hs e he
    · next n _ =>
      split at he
      · next hpos =>
        simp only [Bool.and_eq_true, decide_eq_true_eq] at hpos
        cases hq : s.serviceHeap with
        | nil =>
          rw [hq] at he
          obtain rfl : (⟨now + n, x.sequence, x.id⟩ : HeapEntry) = e := Option.some.inj he
          dsimp only
          omega
        | cons f rest =>
          rw [hq, Queue.push, List.orderedInsert] at he
          split at he
          · obtain rfl : (⟨now + n, x.sequence, x.id⟩ : HeapEntry) = e := Option.some.inj he
            dsimp only
            omega
          · exact hs e (by rw [hq]; exact he)
      · exact hs e he

/-- After a visit nothing is due. -/
theorem visit_ahead (hT : WellFormed E.trace) (hv : visitOf (phases E now) s = .ok s') :
    (∀ e ∈ s'.completionHeap.head?, now < e.tick) ∧ FlowsAhead now s' := by
  obtain ⟨s₁, h₁, hv⟩ := ok_bind.mp hv
  obtain ⟨s₂, h₂, hv⟩ := ok_bind.mp hv
  have hrest : Steps E now s₂ s' := visit_steps hT (List.drop_subset 2 (phases E now)) hv
  obtain ⟨s₃, -, hv⟩ := ok_bind.mp hv
  obtain ⟨s₄, -, hv⟩ := ok_bind.mp hv
  obtain ⟨s₅, -, hv⟩ := ok_bind.mp hv
  obtain ⟨s₆, h₆, hv⟩ := ok_bind.mp hv
  obtain ⟨s₇, h₇, hv⟩ := ok_bind.mp hv
  cases hv
  cases h₂
  cases h₆
  refine ⟨?_, hrest.invariant (releaseFlowsLoop_ahead _ s₁ le_rfl) fun _ _ hs hstep => hs.step hstep⟩
  have hretire : ∀ (width fuel retired : ℕ) (t : Sched),
      (retireLoop E width now fuel retired t).completionHeap = t.completionHeap := by
    intro width fuel
    induction fuel with
    | zero => exact fun _ _ => rfl
    | succ fuel ih =>
      intro retired t
      unfold retireLoop
      split
      · rfl
      · split
        · rw [ih]; rfl
        · rfl
  have hheap : s'.completionHeap = (complete E now s₅).2.completionHeap := by
    dsimp only at h₇
    split at h₇
    · obtain ⟨width, -, h₇⟩ := ok_bind.mp h₇
      cases h₇
      exact hretire _ _ _ _
    · cases h₇; rfl
  rw [hheap]
  exact completeLoop_head _ s₅ le_rfl

theorem pollAll_later : ∀ (xs : List ExecutionUop) {r r' : MemoryState × List ℕ}, (∀ t ∈ r.2, now < t) →
    xs.foldlM (pollWaiting E now s) r = .ok r' → ∀ t ∈ r'.2, now < t
  | [], r, r', hr, h => by cases h; exact hr
  | x :: xs, r, r', hr, h => by
    rw [List.foldlM_cons] at h
    obtain ⟨q, hq, h⟩ := ok_bind.mp h
    obtain ⟨b, -, hq⟩ := ok_bind.mp hq
    obtain ⟨ticks, hticks, hq⟩ := ok_bind.mp hq
    cases hq
    refine pollAll_later xs (fun t ht => ?_) h
    rcases List.mem_append.mp ht with ht | ht
    · exact hr t ht
    · exact waitingTicks_later hticks t ht

/-- The next tick is a later one. -/
theorem nextEventTick_later (htpc : 0 < E.ticksPerCycle) (hheap : ∀ e ∈ s.completionHeap.head?, now < e.tick)
    (hflows : FlowsAhead now s) {t : ℕ} (hn : nextEventTick E now s = .ok (s', t)) : now < t := by
  have hcycle := lt_nextCycle htpc now
  obtain ⟨r, hr, hn⟩ := ok_bind.mp hn
  split at hn
  · cases hn
  · next t' hmin =>
    cases hn
    rcases List.mem_append.mp (List.min?_eq_some_iff.mp hmin).1 with ht | ht
    · simp only [scheduledTicks, List.mem_append] at ht
      rcases ht with ((ht | ht) | ht) | ht
      · obtain ⟨e, he, rfl⟩ : ∃ e, s.completionHeap.head? = some e ∧ e.tick = t := by simpa using ht
        exact hheap e he
      · obtain ⟨e, he, rfl⟩ : ∃ e, s.serviceHeap.head? = some e ∧ e.tick = t := by simpa using ht
        exact hflows e he
      · unfold releaseEvent at ht
        split at ht
        · cases ht
        · rw [List.mem_singleton.mp ht]
          split
          · assumption
          · exact hcycle
      · split at ht
        · rw [List.mem_singleton.mp ht]
          exact hcycle
        · cases ht
    · exact pollAll_later _ (by simp) hr t ht

end Xsai
end VectorSim
