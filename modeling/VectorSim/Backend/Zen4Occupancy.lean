/-
# The occupancies and widths of the Zen 4 engine

In every state of a run the counters are what they count (`Reachable.counters`),
and what is dispatched or retires in a cycle is within the widths
(`Reachable.widths`). Dispatch and retirement happen at cycle boundaries only,
so that the cycle in which they begin has seen neither.
-/
import VectorSim.Backend.Counters
import VectorSim.Backend.Zen4Steps

namespace VectorSim
namespace Zen4

open Checked Setup Core

variable {E : Setup} {now : ℕ} {s s' : Machine}

/-! ### Counters -/

theorem completeEntry_same (e : HeapEntry) (rest : List HeapEntry) :
    SameCounters s (completeEntry E s e rest).2 := by
  unfold completeEntry
  dsimp only
  split
  · exact ⟨⟨fun _ => rfl, fun _ => rfl⟩, fun _ => rfl, rfl, rfl, rfl, rfl⟩
  · refine ⟨⟨fun m => (completedMacros_ticks _ _ _ m).1, fun m => (completedMacros_ticks _ _ _ m).2⟩,
      fun u => ?_, rfl, rfl, rfl, rfl⟩
    rw [completeUop_uop]
    split <;> rfl

theorem dispatchMacro_same (m : MacroOp) (now : ℕ) :
    SameCounters (entered (·.decodedMacroOps) (·.usesVectorScheduler) s m now) (dispatchMacro s m now) := by
  refine ⟨⟨fun m' => ?_, fun m' => ?_⟩, fun u => ?_, rfl, rfl, rfl, rfl⟩
  · simp [dispatchMacro, Core.advance, entered]
  · simp [dispatchMacro, Core.advance, entered]
  · simp only [dispatchMacro, Core.advance, dispatchAll_uop, entered]
    split <;> rfl

/-- A macro-op that is not blocked has room. -/
theorem dispatchBlocker_room {m : MacroOp} (h : dispatchBlocker E s m = .ok none) :
    Room E (·.decodedMacroOps) (·.usesVectorScheduler) s m := by
  obtain ⟨rob, hrob, h⟩ := ok_bind.mp h
  split at h
  · cases h
  · next hfit =>
  obtain ⟨vector, hvector, h⟩ := ok_bind.mp h
  split at h
  · cases h
  · next hvfit =>
  obtain ⟨loadFull, hload, h⟩ := ok_bind.mp h
  split at h
  · cases h
  · next hlfit =>
  obtain ⟨storeFull, hstore, h⟩ := ok_bind.mp h
  obtain rfl : loadFull = false := by simpa using hlfit
  obtain rfl : storeFull = false := by
    cases storeFull with
    | false => rfl
    | true => cases h
  refine ⟨fun n hn => ?_, fun hu n hn => ?_, queueFull_false hload, queueFull_false hstore⟩
  · rw [pipelineInt_ok.mp hrob] at hn
    cases hn
    exact not_lt.mp hfit
  · rw [pipelineInt_ok.mp hvector] at hn
    cases hn
    rw [hu] at hvfit
    exact not_lt.mp hvfit

/-- A vector-kind uop's macro-op uses the scheduler, as the binder says. -/
theorem usesVector (hT : WellFormed E.trace) (hB : Bound E.trace) {x : ExecutionUop}
    (hx : x ∈ E.trace.uops) (hk : x.kind.isVectorResource = true) {m : MacroOp}
    (hm : E.trace.macro? x.parentId = some m) : m.usesVectorScheduler = true := by
  obtain ⟨m', hm', hp, -, hu⟩ := hT.mem_parent hx
  obtain rfl : m' = m := Option.some.inj (hp.symm.trans hm)
  rw [hB.vector m' hm', BoundTrace.hasKind]
  exact List.any_eq_true.mpr ⟨x.id, hu, by rw [hT.uop?_eq hx]; exact hk⟩

theorem counters_step (hT : WellFormed E.trace) (hB : Bound E.trace) (hi : Inv E now s)
    (hs : Counters E (·.decodedMacroOps) (·.usesVectorScheduler) s) (h : Step E now s s') :
    Counters E (·.decodedMacroOps) (·.usesVectorScheduler) s' := by
  cases h with
  | complete _ _ => exact hs.same (completeEntry_same _ _)
  | dispatch head room =>
    exact (hs.enter hT hi.core head (hi.whole le_rfl head) (dispatchBlocker_room room)).same
      (dispatchMacro_same _ _)
  | stall _ | poll _ => exact hs.same ⟨⟨fun _ => rfl, fun _ => rfl⟩, fun _ => rfl, rfl, rfl, rfl, rfl⟩
  | @issue x r a free issuable _ _ _ _ _ =>
    refine hs.issue hT hi.core issuable (fun m hm hk => (?_ : true = _)) rfl rfl ?_ rfl rfl
    · exact (usesVector hT hB issuable.mem hk hm).symm
    · rw [Bool.and_true]; rfl
  | retire mem head _ => exact hs.retire hT hi.core mem head rfl rfl rfl rfl rfl

/-- **The counters of a run are what they count.** -/
theorem Reachable.counters (hT : WellFormed E.trace) (hB : Bound E.trace) (h : Reachable E now s) :
    Counters E (·.decodedMacroOps) (·.usesVectorScheduler) s :=
  (h.invariant (P := fun now s =>
      Inv E now s ∧ Counters E (·.decodedMacroOps) (·.usesVectorScheduler) s) hT
    ⟨inv_init, counters_init⟩
    (fun _ _ _ hs hstep => ⟨inv_step hT hs.1 hstep, counters_step hT hB hs.1 hs.2 hstep⟩)
    (fun _ _ _ hs hlt => ⟨hs.1.later hlt.le, hs.2⟩)).2

/-! ### Widths -/

/-- What is dispatched and what retires in a cycle is within the widths of the pipeline. -/
structure Widths (E : Setup) (s : Machine) : Prop where
  dispatch : ∀ n ∈ E.pipeline.dispatchMacroOpsPerCycle, ∀ cycle,
    dispatchedIn E.trace E.ticksPerCycle s.toCore (·.decodedMacroOps) cycle ≤ n
  retire : ∀ n ∈ E.pipeline.retireMacroOpsPerCycle, ∀ cycle,
    retiredIn E.trace E.ticksPerCycle s.toCore (·.retireMacroOps) cycle ≤ n

theorem Widths.same (h : Widths E s) (hs : SameTicks s.toCore s'.toCore) : Widths E s' where
  dispatch n hn cycle := by rw [hs.dispatchedIn]; exact h.dispatch n hn cycle
  retire n hn cycle := by rw [hs.retiredIn]; exact h.retire n hn cycle

theorem completeLoop_ticks : ∀ (fuel : ℕ) (s : Machine),
    SameTicks s.toCore (completeLoop E now fuel s).2.toCore
  | 0, s => .refl _
  | fuel + 1, s => by
    unfold completeLoop
    cases s.completionHeap with
    | nil => exact .refl _
    | cons e rest =>
      dsimp only
      split
      · exact (completeEntry_same e rest).ticks.trans (completeLoop_ticks fuel _)
      · exact .refl _

theorem issueList_ticks : ∀ (xs : List ExecutionUop) (s : Machine) {r : Bool × Machine},
    issueList E now xs s = .ok r → SameTicks s.toCore r.2.toCore
  | [], s, r, h => by cases h; exact .refl _
  | x :: xs, s, r, h => by
    obtain ⟨⟨memory, b⟩, -, h⟩ := ok_bind.mp h
    cases b with
    | some b =>
      dsimp only at h
      split at h
      · cases h; exact .refl _
      · exact issueList_ticks xs { s with memory := memory } h
    | none =>
      dsimp only at h
      obtain ⟨s₁, h₁, h⟩ := ok_bind.mp h
      obtain ⟨r', h', h⟩ := ok_bind.mp h
      cases h
      obtain ⟨p, a, free, -, -, -, rfl⟩ := issueUop_ok h₁
      exact ⟨(issueList_ticks xs _ h').dispatch, (issueList_ticks xs _ h').retire⟩

theorem issueFixedPoint_ticks (h : issueFixedPoint E now s = .ok s') :
    SameTicks s.toCore s'.toCore :=
  FixedPoint.run_steps (R := fun s s' : Machine => SameTicks s.toCore s'.toCore) h
    .trans (fun s => completeLoop_ticks _ s) fun _ _ hr => issueList_ticks _ _ hr

/-- The dispatcher counts what it dispatches in the cycle. -/
theorem dispatchLoop_widths (hT : WellFormed E.trace) {width : ℕ} :
    ∀ (fuel dispatched : ℕ) (s : Machine) {s' : Machine},
      dispatchLoop E width now fuel dispatched s = .ok s' → Inv E now s →
      dispatchedIn E.trace E.ticksPerCycle s.toCore (·.decodedMacroOps) (now / E.ticksPerCycle) = dispatched →
      (∀ cycle, dispatchedIn E.trace E.ticksPerCycle s.toCore (·.decodedMacroOps) cycle ≤ width) →
      (∀ cycle, dispatchedIn E.trace E.ticksPerCycle s'.toCore (·.decodedMacroOps) cycle ≤ width) ∧
        ∀ m, (s'.macro_ m).retireTick = (s.macro_ m).retireTick
  | 0, _, s, s', h, _, _, hw => by cases h; exact ⟨hw, fun _ => rfl⟩
  | fuel + 1, dispatched, s, s', h, hs, hd, hw => by
    unfold dispatchLoop at h
    split at h
    · cases h; exact ⟨hw, fun _ => rfl⟩
    · next m hm =>
      split at h
      · cases h; exact ⟨hw, fun _ => rfl⟩
      · next hfit =>
        obtain ⟨b, hb, h⟩ := ok_bind.mp h
        split at h
        · cases h; exact ⟨hw, fun _ => rfl⟩
        · have hsame := (dispatchMacro_same (s := s) m now).ticks
          have hadd : ∀ cycle, dispatchedIn E.trace E.ticksPerCycle (dispatchMacro s m now).toCore
              (·.decodedMacroOps) cycle = dispatchedIn E.trace E.ticksPerCycle s.toCore
                (·.decodedMacroOps) cycle + if now / E.ticksPerCycle = cycle then m.decodedMacroOps else 0 := by
            intro cycle
            rw [hsame.dispatchedIn]
            exact dispatchedIn_enterRob hT (List.mem_of_getElem? hm) (hs.whole le_rfl hm)
          have ih := dispatchLoop_widths hT fuel (dispatched + m.decodedMacroOps) _ h
            (inv_step hT hs (.dispatch hm hb)) (by rw [hadd, if_pos rfl, hd])
            (within_add hw (by rw [hd]; omega) hadd)
          refine ⟨ih.1, fun m' => (ih.2 m').trans ((hsame.retire m').trans ?_)⟩
          simp only [entered, Core.enterRob, Function.update_apply]
          split
          · next he => rw [he]
          · rfl

/-- So does `_retire`. -/
theorem retireLoop_widths (hT : WellFormed E.trace) {width : ℕ} :
    ∀ (fuel retired : ℕ) (s : Machine), Inv E now s →
      retiredIn E.trace E.ticksPerCycle s.toCore (·.retireMacroOps) (now / E.ticksPerCycle) = retired →
      (∀ cycle, retiredIn E.trace E.ticksPerCycle s.toCore (·.retireMacroOps) cycle ≤ width) →
      (∀ cycle, retiredIn E.trace E.ticksPerCycle (retireLoop E width now fuel retired s).toCore
          (·.retireMacroOps) cycle ≤ width) ∧
        ∀ m, ((retireLoop E width now fuel retired s).macro_ m).dispatchTick = (s.macro_ m).dispatchTick
  | 0, _, s, _, _, hw => ⟨hw, fun _ => rfl⟩
  | fuel + 1, retired, s, hs, hr, hw => by
    unfold retireLoop
    split
    · exact ⟨hw, fun _ => rfl⟩
    · next m hm =>
      split
      · next hc =>
        obtain ⟨id, hid, hm⟩ := Option.bind_eq_some_iff.mp hm
        obtain ⟨hmem, rfl⟩ := E.trace.macro?_mem hm
        obtain ⟨rest, hrest⟩ := List.head?_eq_some_iff.mp hid
        obtain ⟨_, _, hrob⟩ := hs.core.rob
        have hadd : ∀ cycle, retiredIn E.trace E.ticksPerCycle (retireMacro s m now).toCore
            (·.retireMacroOps) cycle = retiredIn E.trace E.ticksPerCycle s.toCore
              (·.retireMacroOps) cycle + if now / E.ticksPerCycle = cycle then m.retireMacroOps else 0 :=
          fun cycle => retiredIn_retire hT hmem (hrob.head_unretired hT hmem hrest)
        have ih := retireLoop_widths hT fuel (retired + m.retireMacroOps) (retireMacro s m now)
          (inv_step hT hs (.retire hmem hrest hc.2.1)) (by rw [hadd, if_pos rfl, hr])
          (within_add hw (by rw [hr]; exact hc.2.2) hadd)
        refine ⟨ih.1, fun m' => (ih.2 m').trans ?_⟩
        simp only [retireMacro, Core.retire, Function.update_apply]
        split
        · next he => rw [he]
        · rfl
      · exact ⟨hw, fun _ => rfl⟩

/-- The assertion before the `k`-th procedure of a visit. -/
structure Phase (E : Setup) (k now : ℕ) (s : Machine) : Prop where
  inv : Inv E now s
  widths : Widths E s
  fresh : Fresh 1 4 k now s.toCore

theorem Phase.same {k : ℕ} (hs : Phase E k now s) (hi : Inv E now s') (h : SameTicks s.toCore s'.toCore) :
    Phase E (k + 1) now s' :=
  ⟨hi, hs.widths.same h, hs.fresh.same h (Nat.le_succ k)⟩

theorem Phase.dispatch (hT : WellFormed E.trace) (hs : Phase E 1 now s) (hi : Inv E now s')
    (hb : now % E.ticksPerCycle = 0) (h : Zen4.dispatch E now s = .ok s') : Phase E 2 now s' := by
  obtain ⟨width, hwidth, h⟩ := ok_bind.mp h
  have hwidth := pipelineInt_ok.mp hwidth
  obtain ⟨hd, hr⟩ := dispatchLoop_widths hT _ 0 s h hs.inv (hs.fresh.dispatchedIn le_rfl hb)
    (hs.widths.dispatch width hwidth)
  have hticks : ∀ cycle, retiredIn E.trace E.ticksPerCycle s'.toCore (·.retireMacroOps) cycle =
      retiredIn E.trace E.ticksPerCycle s.toCore (·.retireMacroOps) cycle := by
    intro cycle
    rw [retiredIn, retiredIn]
    congr 1
    exact funext hr
  refine ⟨hi, ⟨fun n hn => ?_, fun n hn cycle => ?_⟩, ⟨fun hk => absurd hk (by omega), ?_⟩⟩
  · obtain rfl : width = n := Option.some.inj (hwidth.symm.trans hn)
    exact hd
  · rw [hticks]; exact hs.widths.retire n hn cycle
  · exact fun hk m t ht => hs.fresh.retire (by omega) m t (hr m ▸ ht)

theorem Phase.retire (hT : WellFormed E.trace) (hs : Phase E 4 now s) (hi : Inv E now s')
    (hb : now % E.ticksPerCycle = 0) (h : Zen4.retire E now s = .ok s') : Phase E 5 now s' := by
  obtain ⟨width, hwidth, h⟩ := ok_bind.mp h
  cases h
  have hwidth := pipelineInt_ok.mp hwidth
  obtain ⟨hr, hd⟩ := retireLoop_widths hT s.rob.length 0 s hs.inv (hs.fresh.retiredIn le_rfl hb)
    (hs.widths.retire width hwidth)
  refine ⟨hi, ⟨fun n hn cycle => ?_, fun n hn => ?_⟩, ⟨fun hk => absurd hk (by omega),
    fun hk => absurd hk (by omega)⟩⟩
  · have : dispatchedIn E.trace E.ticksPerCycle (retireLoop E width now s.rob.length 0 s).toCore
        (·.decodedMacroOps) cycle = dispatchedIn E.trace E.ticksPerCycle s.toCore (·.decodedMacroOps) cycle := by
      rw [dispatchedIn, dispatchedIn]
      congr 1
      exact funext hd
    rw [this]; exact hs.widths.dispatch n hn cycle
  · obtain rfl : width = n := Option.some.inj (hwidth.symm.trans hn)
    exact hr

/-- Each procedure keeps the assertions. -/
theorem phase_step (hT : WellFormed E.trace) {k : ℕ} {f : Machine → Except SimError Machine}
    (hf : (phases E now)[k]? = some f) (hs : Phase E k now s) (h : f s = .ok s') :
    Phase E (k + 1) now s' := by
  have hi : Inv E now s' := (phase_steps hT (List.mem_of_getElem? hf) h).invariant hs.inv
    fun _ _ => inv_step hT
  have htpc : ∀ {b : Bool}, E.boundary now = b → b = true → now % E.ticksPerCycle = 0 := by
    rintro _ rfl hb
    simpa [boundary] using hb
  rcases k with _ | _ | _ | _ | _ | k
  · cases hf; cases h
    exact hs.same hi (completeLoop_ticks _ s)
  · cases hf
    dsimp only at h
    split at h
    · next hb => exact hs.dispatch hT hi (htpc rfl hb) h
    · cases h; exact hs.same hi (.refl _)
  · cases hf
    exact hs.same hi (issueFixedPoint_ticks h)
  · cases hf; cases h
    exact hs.same hi (completeLoop_ticks _ s)
  · cases hf
    dsimp only at h
    split at h
    · next hb => exact hs.retire hT hi (htpc rfl hb) h
    · cases h; exact hs.same hi (.refl _)
  · cases hf

theorem prefix_phase (hT : WellFormed E.trace) {fs gs : List (Machine → Except SimError Machine)}
    (hfs : phases E now = fs ++ gs) (h : visitOf fs s = .ok s') (hs : Phase E 0 now s) :
    Phase E fs.length now s' := by
  have hlen : fs.length ≤ (phases E now).length := by rw [hfs]; simp
  have hfs : fs = (phases E now).take fs.length := by rw [hfs]; simp
  rw [visitOf, hfs] at h
  exact foldlM_take (P := fun k => Phase E k now) hlen h hs fun _ _ _ _ hf hs => phase_step hT hf hs

theorem AtTick.phase (hT : WellFormed E.trace) (h : AtTick E now s) : Phase E 0 now s := by
  obtain ⟨n, h⟩ := h
  refine h.alternate (P := Phase E 0) (Q := Phase E 5) ⟨inv_init, ⟨?_, ?_⟩, fresh_init⟩ ?_ ?_
  · exact fun n _ cycle => (sumIn_zero fun m t ht => by cases ht).trans_le (Nat.zero_le n)
  · exact fun n _ cycle => (sumIn_zero fun m t ht => by cases ht).trans_le (Nat.zero_le n)
  · exact fun now s s' hs _ hv => prefix_phase hT (List.append_nil _).symm hv hs
  · intro now s s' t hs hn hlt
    obtain ⟨memory, rfl⟩ := nextEventTick_ok hn
    exact ⟨(inv_step hT hs.inv (.poll memory)).later hlt.le, ⟨hs.widths.dispatch, hs.widths.retire⟩, hs.inv.core.fresh hlt⟩

/-- **What is dispatched and what retires in a cycle of a run is within the widths.** -/
theorem Reachable.widths (hT : WellFormed E.trace) (h : Reachable E now s) : Widths E s := by
  obtain ⟨s₀, fs, gs, h₀, hfs, hv⟩ := h
  exact (prefix_phase hT hfs hv (h₀.phase hT)).widths

end Zen4
end VectorSim
