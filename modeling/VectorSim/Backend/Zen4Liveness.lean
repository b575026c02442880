/-
# No visit at a cycle boundary is in vain

Where nothing under way reaches beyond `now` (`Calm`), a visit at a cycle boundary does
some of the work (`visit_works`): a completion that is due leaves the heap, or else the
heap is empty; an empty machine dispatches its next macro-op; the oldest macro-op retires
if it is complete; and if it is not, the first uop of the trace that has not issued was
dispatched with it or before it, all it depends on has completed, and it issues.
-/
import VectorSim.Backend.Zen4Progress
import VectorSim.Backend.Zen4Equipped
import VectorSim.Backend.Calm

namespace VectorSim

open Checked Setup Core

namespace Zen4

variable {E : Setup} {now h : ℕ} {s s' : Machine} {x : ExecutionUop} {m : MacroOp}

/-- An idle machine stays calm. -/
theorem Idle.calm (hi : Idle s s') (hs : Calm E h s) : Calm E h s' :=
  hs.of_eq hi.core hi.resourceFree hi.lastClassIssue hi.issueDomainFree hi.bandwidth hi.outstanding

/-! ### The procedures at a boundary -/

theorem complete_works {e : HeapEntry} {rest : List HeapEntry} (head : s.completionHeap = e :: rest) (due : e.tick ≤ now) :
    work E.trace (complete E now s).2.toCore < work E.trace s.toCore := by
  have hmoves : Moves E (completeEntry E s e rest).2 (completeLoop E now rest.length (completeEntry E s e rest).2).2 :=
    completeLoop_moves _ _
  have hentry := completeEntry_work (E := E) head
  have hstep : complete E now s = ((completeEntry E s e rest).1 || (completeLoop E now rest.length
      (completeEntry E s e rest).2).1, (completeLoop E now rest.length (completeEntry E s e rest).2).2) := by
    rw [complete, head, List.length_cons, completeLoop, head]
    dsimp only
    rw [if_pos due]
  rw [hstep]
  exact hmoves.le.trans_lt hentry

/-- In an empty machine every macro-op has room. -/
theorem dispatchBlocker_empty (hm : Roomy E.pipeline m) (hrob : s.robOccupancy = 0)
    (hvector : s.vectorSchedulerOccupancy = 0) (hload : s.loadQueueOccupancy = 0) (hstore : s.storeQueueOccupancy = 0) :
    dispatchBlocker E s m = .ok none := by
  obtain ⟨rob, hr, hrle⟩ := hm.rob
  obtain ⟨vector, hv, hvle⟩ := hm.vector
  obtain ⟨load, hl, hlle⟩ := hm.load
  obtain ⟨store, hs, hsle⟩ := hm.store
  have hqueue : ∀ (uses : Bool) (v : Option ℕ) (n : ℕ) (name : String) (occupancy : ℤ), v = some n → 1 ≤ n →
      occupancy = 0 → queueFull uses v name occupancy = .ok false := by
    rintro uses v n name occupancy rfl hn rfl
    unfold queueFull
    split
    · have hnot : ¬ (n : ℤ) ≤ 0 := by omega
      show Except.ok (decide ((n : ℤ) ≤ 0)) = .ok false
      rw [decide_eq_false hnot]
    · rfl
  have huse := Bool.toNat_le m.usesVectorScheduler
  unfold dispatchBlocker
  rw [hqueue _ _ load "load_queue_entries" _ hl hlle hload, hqueue _ _ store "store_queue_entries" _ hs hsle hstore,
    Option.mem_def.mp hr, Option.mem_def.mp hv, hrob, hvector]
  simp only [pipelineInt, Bind.bind, Except.bind]
  rw [if_neg (by omega), if_neg (by omega)]
  rfl

theorem dispatch_works (hm : Roomy E.pipeline m) (head : E.trace.macros[s.nextDispatch]? = some m)
    (hroom : dispatchBlocker E s m = .ok none) (hpos : 0 < m.decodedMacroOps) (hd : dispatch E now s = .ok s') :
    work E.trace s'.toCore < work E.trace s.toCore := by
  obtain ⟨n, hn, hle⟩ := hm.dispatch
  obtain ⟨width, hwidth, hd⟩ := ok_bind.mp hd
  obtain rfl : n = width := Option.some.inj ((Option.mem_def.mp hn).symm.trans (pipelineInt_ok.mp hwidth))
  have hlt : s.nextDispatch < E.trace.macros.length := (List.getElem?_eq_some_iff.mp head).1
  obtain ⟨fuel, hfuel⟩ : ∃ fuel, E.trace.macros.length - s.nextDispatch = fuel + 1 := ⟨_, (Nat.succ_pred_eq_of_pos (by omega)).symm⟩
  rw [hfuel, dispatchLoop, head] at hd
  dsimp only at hd
  rw [if_neg (by omega), hroom] at hd
  exact (dispatchLoop_moves fuel _ _ hd).le.trans_lt (work_dispatchMacro head)

theorem retire_works (hm : Roomy E.pipeline m) (head : s.rob.head?.bind E.trace.macro? = some m)
    (hdone : (s.macro_ m.id).completeTick.any (· ≤ now) = true) (hpos : 0 < m.retireMacroOps)
    (hr : retire E now s = .ok s') : work E.trace s'.toCore < work E.trace s.toCore := by
  obtain ⟨n, hn, hle⟩ := hm.retire
  obtain ⟨width, hwidth, hr⟩ := ok_bind.mp hr
  obtain rfl : n = width := Option.some.inj ((Option.mem_def.mp hn).symm.trans (pipelineInt_ok.mp hwidth))
  obtain ⟨id, hid, -⟩ := Option.bind_eq_some_iff.mp head
  obtain ⟨rest, hrest⟩ := List.head?_eq_some_iff.mp hid
  cases hr
  rw [hrest, List.length_cons, retireLoop, head]
  dsimp only
  rw [if_pos ⟨by omega, hdone, by omega⟩]
  exact (retireLoop_moves rest.length _ _).le.trans_lt (retireMacro_work hid)

/-! ### The oldest uop that waits -/

/-- What holds of the state when the loop looks at its condition. -/
structure AtHead (E : Setup) (now : ℕ) (s : Machine) : Prop where
  inv : Inv E now s
  counters : Counters E (·.decodedMacroOps) (·.usesVectorScheduler) s
  tracked : Tracked E.trace s.toCore
  sized : Sized E s

/-- The macro-ops in the reorder buffer are dispatched whole. -/
theorem Inv.entered_whole (h : Inv E now s) {r a : ℕ} (hr : RobInv E.trace now s.toCore r a) : a ≤ s.nextDispatch := by
  rcases hr.next with ha | ha
  · exact ha.le
  · have hlt : s.nextDispatch < E.trace.macros.length := by
      have := hr.length
      omega
    have hget := List.getElem?_eq_getElem hlt
    have hin := (hr.dispatched hget).mpr (by omega)
    rw [h.whole le_rfl hget] at hin
    cases hin

/-- **Where the oldest macro-op is not complete and nothing runs, a uop is clear.** -/
theorem exists_clear (hT : WellFormed E.trace) (hP : InProgramOrder E.trace) (h : AtHead E now s)
    (hheap : s.completionHeap = []) (mem : m ∈ E.trace.macros) {rest : List Id} (head : s.rob = m.id :: rest)
    (hopen : (s.macro_ m.id).completeTick = none) : ∃ x, Clear E s.toCore x := by
  obtain ⟨k, x, r, a, q, m', hx, hnone, hbefore, hr, hra, -, hq, hqr, hxm⟩ :=
    h.inv.core.exists_first hT hP h.tracked hheap mem head hopen
  -- the macro-ops in the reorder buffer are dispatched whole
  have hnext := h.inv.entered_whole hr
  have hdispatched := h.inv.core.macros.whole (k := q) (by omega) hq x.id hxm
  exact ⟨x, clear_of_first h.inv.core hP h.tracked hheap hx hnone hdispatched hbefore⟩

/-! ### Nothing stands in its way -/

theorem early_of_clear (h : AtHead E now s) (hx : Clear E s.toCore x) (hc : Calm E now s)
    (hover : E.overlap.enabled = false) : earlyBlocker E s x now = none := by
  have hdeps : dependencyBlocker (fun _ => .dependency) s.toCore x now = none := hx.dependency h.inv.core _
  have hpart : partBlocker s.toCore x now = none := hx.part hc
  have hoverlap : E.overlapBlocker s x = none := overlapBlocker_off hover
  have hinterval : intervalBlocker s x now = none := hc.interval hx.mem
  simp [earlyBlocker, hdeps, hpart, hoverlap, hinterval]

/-- **A clear uop is let through in a calm machine.** -/
theorem passes_of_clear (h : AtHead E now s) (hx : Clear E s.toCore x) (hc : Calm E now s) (hE : Equipped E)
    (hover : E.overlap.enabled = false) : ∃ memory, issueBlocker E s x now = .ok (memory, none) := by
  obtain ⟨memory, hmemory⟩ : ∃ memory, memoryBlocker E s x now = .ok (memory, none) := by
    unfold memoryBlocker
    split
    · next hk => exact hc.hierarchy hE.toProvided hx.mem hk
    · exact ⟨_, rfl⟩
  refine ⟨memory, ?_⟩
  simp [issueBlocker, early_of_clear h hx hc hover, hc.resource h.sized hE.toProvided hx.mem, hmemory,
    hc.domain h.sized hE.toProvided hx.mem, Bind.bind, Except.bind]

/-! ### A visit -/

theorem Inv.idle (h : Inv E now s) (hi : Idle s s') : Inv E now s' :=
  ⟨by rw [hi.core]; exact h.core, by rw [hi.core]; exact h.whole⟩

theorem AtHead.idle (h : AtHead E now s) (hi : Idle s s') : AtHead E now s' where
  inv := h.inv.idle hi
  counters := by
    obtain ⟨h1, h2, h3, h4, h5, h6, h7, h8⟩ := h.counters
    exact ⟨by rw [hi.rob, hi.core, h1], by rw [hi.vector, hi.core, h2], by rw [hi.load, hi.core, h3],
      by rw [hi.store, hi.core, h4], by rwa [hi.rob], by rwa [hi.vector], by rwa [hi.load], by rwa [hi.store]⟩
  tracked := by rw [hi.core]; exact h.tracked
  sized := h.sized.of_eq hi.resourceFree hi.issueDomainFree

theorem Idle.clear (hi : Idle s s') (hx : Clear E s.toCore x) : Clear E s'.toCore x := by
  rw [hi.core]
  exact hx

/-- The fixed point issues where a uop is clear. -/
theorem issueFixedPoint_works (hT : WellFormed E.trace) (hE : Equipped E) (hover : E.overlap.enabled = false)
    (h : AtHead E now s) (hc : Calm E now s) (hx : Clear E s.toCore x) (hs : issueFixedPoint E now s = .ok s') :
    work E.trace s'.toCore < work E.trace s.toCore := by
  obtain ⟨s₀, s₁, h₀, h₁, h₂⟩ := FixedPoint.run_last (R := Moves E) hs Moves.refl Moves.trans complete_moves
    fun _ _ hr => (issueOnce_moves hT hr).1
  have h₀₁ : Moves E s₀ s₁ := by
    have hcomplete : Moves E s₀ (complete E now s₀).2 := complete_moves s₀
    rwa [h₁] at hcomplete
  have h₁₂ : Moves E s₁ s' := (issueOnce_moves hT h₂).1
  by_contra hnot
  -- nothing has happened by the last turn, in which the uop is let through
  have hidle : Idle s s₁ := (h₀.trans h₀₁).idle (by have := h₁₂.le; omega)
  have hissued := issueList_issues (fun t ht =>
    passes_of_clear ((h.idle hidle).idle ht) (ht.clear (hidle.clear hx)) (ht.calm (hidle.calm hc)) hE hover)
    (E.issueCandidates s₁.toCore) s₁ (.refl s₁) (hidle.clear hx).candidate
    (fun hin => ((candidates_issueCandidates hT _).order hin).1) h₂
  cases hissued

/-- **A visit at a cycle boundary does some of the work**, where nothing under way reaches
beyond it. -/
theorem visit_works (hT : WellFormed E.trace) (hB : Bound E.trace) (hP : InProgramOrder E.trace)
    (hcounts : ∀ m ∈ E.trace.macros, 0 < m.decodedMacroOps ∧ 0 < m.retireMacroOps) (hE : Equipped E)
    (hover : E.overlap.enabled = false) (hb : E.boundary now = true) (h : AtHead E now s) (hc : Calm E now s)
    (hu : E.unfinished s.toCore = true) (hv : visitOf (phases E now) s = .ok s') :
    work E.trace s'.toCore < work E.trace s.toCore := by
  by_contra hnot
  -- the states between the procedures, all idle
  obtain ⟨s₁, h₁, hv⟩ := ok_bind.mp hv
  obtain ⟨s₂, h₂, hv⟩ := ok_bind.mp hv
  obtain ⟨s₃, h₃, hv⟩ := ok_bind.mp hv
  obtain ⟨s₄, h₄, hv⟩ := ok_bind.mp hv
  obtain ⟨s₅, h₅, hv⟩ := ok_bind.mp hv
  cases hv
  have hmoves : ∀ {f : Machine → Except SimError Machine} {t t' : Machine}, f ∈ phases E now → f t = .ok t' → Moves E t t' :=
    fun hf hft => phase_moves hT hf hft
  have m₁ := hmoves (by simp [phases]) h₁
  have m₂ := hmoves (by simp [phases]) h₂
  have m₃ := hmoves (by simp [phases]) h₃
  have m₄ := hmoves (by simp [phases]) h₄
  have m₅ := hmoves (by simp [phases]) h₅
  have l₁ := m₁.le
  have l₂ := m₂.le
  have l₃ := m₃.le
  have l₄ := m₄.le
  have l₅ := m₅.le
  have i₁ : Idle s s₁ := m₁.idle (by omega)
  have i₂ : Idle s s₂ := i₁.trans (m₂.idle (by omega))
  have i₄ : Idle s s₄ := (i₂.trans (m₃.idle (by omega))).trans (m₄.idle (by omega))
  replace h₂ : dispatch E now s₁ = .ok s₂ := (if_pos hb).symm.trans h₂
  replace h₅ : retire E now s₄ = .ok s' := (if_pos hb).symm.trans h₅
  -- nothing is due, so that nothing runs
  have hheap : s.completionHeap = [] := by
    cases hq : s.completionHeap with
    | nil => rfl
    | cons e rest =>
      have hless := complete_works (E := E) hq (hc.heap e (by rw [hq]; exact List.mem_cons_self))
      cases h₁
      omega
  cases hrob : s.rob with
  | nil =>
    -- an empty machine dispatches
    have hlt : s.nextDispatch < E.trace.macros.length := by simpa [unfinished, hrob] using hu
    have hget := List.getElem?_eq_getElem hlt
    have hm := List.mem_of_getElem? hget
    have hcore : s₁.toCore = s.toCore := i₁.core
    have hvector : ∀ m ∈ E.trace.macros, m.usesVectorScheduler = true →
        ∃ u ∈ m.uopIds, (E.uop u).kind.isVectorResource = true := by
      intro m hm huses
      rw [hB.vector m hm] at huses
      obtain ⟨u, hu, hkind⟩ := List.any_eq_true.mp huses
      obtain ⟨x, hx, hk⟩ : ∃ x, E.trace.uop? u = some x ∧ x.kind.isVectorResource = true := by
        simpa [Option.any_eq_true] using hkind
      exact ⟨u, hu, by simpa [Setup.uop, hx] using hk⟩
    obtain ⟨hr, hvec, hload, hstore⟩ := counters_empty hvector (h.idle i₁).inv.core (h.idle i₁).counters
      (by rw [hcore]; exact hrob)
    have hless := dispatch_works (hE.room _ hm) (by rw [hcore]; exact hget)
      (dispatchBlocker_empty (hE.room _ hm) hr hvec hload hstore) (hcounts _ hm).1 h₂
    omega
  | cons id rest =>
    obtain ⟨m, hm, rfl⟩ := h.inv.core.head_macro hrob
    cases hdone : (s.macro_ m.id).completeTick with
    | some t =>
      -- the oldest macro-op retires
      have hle : t ≤ now := h.inv.core.complete_le hm hdone
      have hcore : s₄.toCore = s.toCore := i₄.core
      have hhead : s₄.rob.head?.bind E.trace.macro? = some m := by
        rw [hcore, hrob]
        exact hT.macro?_eq hm
      have hless := retire_works (hE.room m hm) hhead (by rw [hcore, hdone]; simpa using hle) (hcounts m hm).2 h₅
      omega
    | none =>
      obtain ⟨x, hx⟩ := exists_clear hT hP h hheap hm hrob hdone
      have hless := issueFixedPoint_works hT hE hover (h.idle i₂) (i₂.calm hc) (i₂.clear hx) h₃
      omega

end Zen4
end VectorSim
