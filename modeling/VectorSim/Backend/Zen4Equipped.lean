/-
# The Zen 4 engine finds what it needs

An engine whose profile is measured, and whose trace asks for no more than there is
(`Equipped`), raises nothing that a missing parameter, resource or token would raise: every
error left is an internal one (`Furnished`), and of those there are none. So its visits
return, and so does its search for the next tick.
-/
import VectorSim.Backend.Zen4Errors
import VectorSim.Backend.Zen4Hazards
import VectorSim.Backend.Provided

namespace VectorSim

open Checked Setup Core

namespace Zen4

variable {E : Setup} {now : ℕ} {s s' : Machine} {x : ExecutionUop}

/-- What the pipeline has for a macro-op when nothing else is there. -/
structure Roomy (p : Pipeline) (m : MacroOp) : Prop where
  dispatch : ∃ n ∈ p.dispatchMacroOpsPerCycle, m.decodedMacroOps ≤ n
  rob : ∃ n ∈ p.robEntries, m.decodedMacroOps ≤ n
  retire : ∃ n ∈ p.retireMacroOpsPerCycle, m.retireMacroOps ≤ n
  vector : ∃ n ∈ p.vectorSchedulerEntries, 1 ≤ n
  load : ∃ n ∈ p.loadQueueEntries, 1 ≤ n
  store : ∃ n ∈ p.storeQueueEntries, 1 ≤ n

/-- The machine has what its trace asks for. -/
structure Equipped (E : Setup) : Prop extends Provided E where
  room : ∀ m ∈ E.trace.macros, Roomy E.pipeline m

theorem sized_init : Sized E E.machineInit := ⟨laneInv_init.capacity, tokenInv_init.capacity⟩

theorem sized_issued {r : String × ℕ} {a : MemoryState × Option ℕ × ℕ} {free : String → List ℕ} (hE : Provided E)
    (h : Sized E s) (hx : x ∈ E.trace.uops) (reserved : reserveIssueDomains x now x.issueDomains s.issueDomainFree = .ok free) :
    Sized E (issued E s x now r a free) where
  lanes q := by
    rw [← h.lanes q]
    by_cases hq : q = r.1
    · subst hq
      simp [Zen4.issued]
    · simp [Zen4.issued, hq]
  domains d := by
    rw [← h.domains d]
    exact (reserveIssueDomains_ok _ reserved fun e he => (h.domains e).symm ▸ hE.domains x hx e he).1 d

/-- Every step keeps the lanes and tokens. -/
theorem sized_step (hE : Provided E) (h : Sized E s) (hstep : Step E now s s') : Sized E s' := by
  cases hstep with
  | complete _ _ =>
    unfold completeEntry
    dsimp only
    split
    · exact h.of_eq rfl rfl
    · exact h.of_eq rfl rfl
  | dispatch _ _ => exact h.of_eq rfl rfl
  | stall _ => exact h.of_eq rfl rfl
  | poll _ => exact h.of_eq rfl rfl
  | issue issuable _ _ _ _ reserved => exact sized_issued hE h issuable.mem reserved
  | retire _ _ _ => exact h.of_eq rfl rfl

theorem AtTick.sized (hT : WellFormed E.trace) (hE : Provided E) (h : AtTick E now s) : Sized E s :=
  h.invariant (P := fun _ s => Sized E s) hT sized_init (fun _ _ _ hs hstep => sized_step hE hs hstep) fun _ _ _ hs _ => hs

theorem steps_sized (hE : Provided E) (h : Sized E s) (hsteps : Steps E now s s') : Sized E s' :=
  hsteps.invariant h fun _ _ hs hstep => sized_step hE hs hstep

/-! ### Checks -/

theorem memoryBlocker_furnished (hE : Provided E) (hx : x ∈ E.trace.uops) : Furnished (memoryBlocker E s x now) := by
  unfold memoryBlocker
  split
  · next hk => exact hierarchyBlocker_furnished hE hx hk s.memory
  · exact raises_ok

theorem issueBlocker_furnished (hE : Provided E) (h : Sized E s) (hx : x ∈ E.trace.uops) :
    Furnished (issueBlocker E s x now) := by
  unfold issueBlocker
  split
  · exact raises_ok
  · refine (resourceBlocker_furnished hE h hx).bind fun b _ => ?_
    split
    · exact raises_ok
    · refine (memoryBlocker_furnished hE hx).bind fun r _ => ?_
      split
      · exact raises_ok
      · exact (domainBlocker_furnished hE h hx).bind fun _ _ => raises_ok

/-! ### Actions -/

theorem selectResource_furnished (hE : Provided E) (h : Sized E s) (hx : x ∈ E.trace.uops) :
    Furnished (selectResource s x now) := by
  refine (raises_mapM fun r hr => (firstFree_furnished hE h hx hr).bind fun _ _ => raises_ok).bind
    fun choices hchoices => ?_
  split
  · next hmin =>
    have hlen := (mapM_ok.mp hchoices).length_eq
    rw [Slots.minBy?_eq_none.mp hmin, List.length_nil] at hlen
    exact absurd (List.length_eq_zero_iff.mp hlen) (hE.lanes x hx).1
  · split
    · exact raises_error rfl
    · exact raises_ok

theorem accessMemory_furnished (hE : Provided E) {memory : MemoryState}
    (h : memoryBlocker E s x now = .ok (memory, none)) : Furnished (accessMemory E { s with memory := memory } x now) := by
  unfold accessMemory
  split
  · next hk =>
    rw [memoryBlocker, if_pos hk] at h
    exact (access_furnished hE h).bind fun _ _ => raises_ok
  · exact raises_ok

theorem issueUop_furnished (hE : Provided E) (h : Sized E s) (hx : x ∈ E.trace.uops) {memory : MemoryState}
    (hb : issueBlocker E s x now = .ok (memory, none)) : Furnished (issueUop E { s with memory := memory } x now) := by
  obtain ⟨-, -, hmem, -⟩ := issueBlocker_none hb
  exact (selectResource_furnished hE (h.of_eq rfl rfl) hx).bind fun _ _ =>
    (accessMemory_furnished hE hmem).bind fun _ _ => (reserveIssueDomains_furnished _ _).bind fun _ _ => raises_ok

theorem issueList_furnished (hE : Provided E) : ∀ (xs : List ExecutionUop) (s : Machine), Sized E s →
    (∀ x ∈ xs, x ∈ E.trace.uops) → Furnished (issueList E now xs s)
  | [], _, _, _ => raises_ok
  | x :: xs, s, h, hxs => by
    have hx := hxs x List.mem_cons_self
    have hrest := fun y hy => hxs y (List.mem_cons_of_mem x hy)
    refine (issueBlocker_furnished hE h hx).bind fun b hb => ?_
    obtain ⟨memory, b⟩ := b
    cases b with
    | some b =>
      dsimp only
      split
      · exact raises_ok
      · exact issueList_furnished hE xs { s with memory := memory } (h.of_eq rfl rfl) hrest
    | none =>
      refine (issueUop_furnished hE h hx hb).bind fun s₁ h₁ => ?_
      obtain ⟨r, a, free, -, -, hreserved, rfl⟩ := issueUop_ok h₁
      have hsized : Sized E { s with memory := memory } := h.of_eq rfl rfl
      exact (issueList_furnished hE xs _ (sized_issued hE hsized hx hreserved) hrest).bind fun _ _ => raises_ok

theorem issueFixedPoint_furnished (hT : WellFormed E.trace) (hE : Provided E) (h : Sized E s) :
    Furnished (issueFixedPoint E now s) := by
  have hcandidates : ∀ s : Machine, Candidates E s.toCore (E.issueCandidates s.toCore) := fun s =>
    candidates_issueCandidates hT _
  refine FixedPoint.run_raises (P := Sized E) (μ := remaining) h (Nat.lt_succ_self _) (fun s hs => ?_)
    (fun s r hs hr => ?_) fun s hs => ?_
  · exact ⟨steps_sized hE hs (complete_steps s), completeLoop_remaining _ s⟩
  · exact ⟨steps_sized hE hs (issueOnce_steps hT hr), issueList_remaining _ s (hcandidates s) hr⟩
  · exact issueList_furnished hE _ s hs fun x hx => ((hcandidates s).mem x hx).1

/-! ### Visits and jumps -/

theorem dispatchBlocker_furnished {m : MacroOp} (hm : Roomy E.pipeline m) : Furnished (dispatchBlocker E s m) := by
  have hsome : ∀ {v : Option ℕ} {k : ℕ}, (∃ n ∈ v, k ≤ n) → v.isSome := by
    rintro v k ⟨n, hn, -⟩
    simp [Option.mem_def.mp hn]
  have hqueue : ∀ (uses : Bool) (v : Option ℕ) (name : String) (occupancy : ℤ), v.isSome →
      Furnished (queueFull uses v name occupancy) := by
    intro uses v name occupancy hv
    unfold queueFull
    split
    · exact (pipelineInt_furnished hv).bind fun _ _ => raises_ok
    · exact raises_ok
  refine (pipelineInt_furnished (hsome hm.rob)).bind fun _ _ => ?_
  split
  · exact raises_ok
  · refine (pipelineInt_furnished (hsome hm.vector)).bind fun _ _ => ?_
    split
    · exact raises_ok
    · refine (hqueue _ _ _ _ (hsome hm.load)).bind fun _ _ => ?_
      split
      · exact raises_ok
      · exact (hqueue _ _ _ _ (hsome hm.store)).bind fun _ _ => raises_ok

theorem dispatchLoop_furnished (hE : Equipped E) {width : ℕ} : ∀ (fuel dispatched : ℕ) (s : Machine),
    Furnished (dispatchLoop E width now fuel dispatched s)
  | 0, _, _ => raises_ok
  | fuel + 1, dispatched, s => by
    unfold dispatchLoop
    split
    · exact raises_ok
    · next m hm =>
      split
      · exact raises_ok
      · refine (dispatchBlocker_furnished (hE.room m (List.mem_of_getElem? hm))).bind fun b _ => ?_
        split
        · exact raises_ok
        · exact dispatchLoop_furnished hE fuel _ _

/-- The widths of a machine that has something to run. -/
theorem Equipped.widths (hE : Equipped E) {m : MacroOp} (hm : m ∈ E.trace.macros) :
    E.pipeline.dispatchMacroOpsPerCycle.isSome ∧ E.pipeline.retireMacroOpsPerCycle.isSome := by
  obtain ⟨d, hd, -⟩ := (hE.room m hm).dispatch
  obtain ⟨r, hr, -⟩ := (hE.room m hm).retire
  simp [Option.mem_def.mp hd, Option.mem_def.mp hr]

theorem phase_furnished (hT : WellFormed E.trace) (hE : Equipped E) (hm : E.trace.macros ≠ []) (h : Sized E s)
    {f : Machine → Except SimError Machine} (hf : f ∈ phases E now) : Furnished (f s) := by
  obtain ⟨m, hm⟩ := List.exists_mem_of_ne_nil _ hm
  obtain ⟨hdispatch, hretire⟩ := hE.widths hm
  simp only [phases, List.mem_cons, List.not_mem_nil, or_false] at hf
  rcases hf with rfl | rfl | rfl | rfl | rfl
  · exact raises_ok
  · dsimp only
    split
    · exact (pipelineInt_furnished hdispatch).bind fun _ _ => dispatchLoop_furnished hE _ _ _
    · exact raises_ok
  · exact issueFixedPoint_furnished hT hE.toProvided h
  · exact raises_ok
  · dsimp only
    split
    · exact (pipelineInt_furnished hretire).bind fun _ _ => raises_ok
    · exact raises_ok

/-- **A visit returns.** -/
theorem visit_returns (hT : WellFormed E.trace) (hE : Equipped E) (hm : E.trace.macros ≠ []) (h : Sized E s) :
    ∃ s', visitOf (phases E now) s = .ok s' := by
  refine Furnished.returns ?_ (visit_clean hT hE.distinct s)
  exact raises_foldlM (I := Sized E) h (fun _ hf s hs => phase_furnished hT hE hm hs hf)
    fun _ hf _ _ hs hs' => steps_sized hE.toProvided hs (phase_steps hT hf hs')

/-- **So does the search for the next tick, while there is work.** -/
theorem nextEventTick_returns (hT : WellFormed E.trace) (hE : Equipped E) (h : Sized E s)
    (hu : E.unfinished s.toCore = true) : ∃ r, nextEventTick E now s = .ok r := by
  have hmem : ∀ x ∈ E.issueCandidates s.toCore, x ∈ E.trace.uops := fun x hx =>
    ((candidates_issueCandidates hT _).mem x hx).1
  refine Furnished.returns ?_ (nextEventTick_clean s)
  refine Raises.bind ?_ fun r _ => ?_
  · refine raises_foldlM (I := fun _ => True) trivial (fun x hx r _ => ?_) fun _ _ _ _ _ _ => trivial
    have hsized : Sized E { s with memory := r.1 } := h.of_eq rfl rfl
    exact (issueBlocker_furnished hE.toProvided hsized (hmem x hx)).bind fun _ _ =>
      (waitingTicks_furnished hE.toProvided h (hmem x hx) _).bind fun _ _ => raises_ok
  · split
    · next hmin =>
      have := List.min?_eq_none_iff.mp hmin
      simp [scheduledTicks, hu] at this
    · exact raises_ok

end Zen4
end VectorSim
