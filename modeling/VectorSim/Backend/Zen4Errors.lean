/-
# The Zen 4 engine raises no internal error

In any state, a visit of the event loop and the choice of the next tick are
clean, where no uop lists an issue domain twice: what a check of `issueBlocker`
has found free is still free when the issue takes it. The fixed point ends
before the model's bound on its turns, as every turn but the last shortens the
list of waiting uops or the heap.
-/
import VectorSim.Backend.Errors
import VectorSim.Backend.Zen4Steps

namespace VectorSim
namespace Zen4

open Checked Setup Core

variable {E : Setup} {now : ℕ} {s s' : Machine} {x : ExecutionUop}

/-! ### Checks -/

theorem memoryBlocker_clean : Clean (memoryBlocker E s x now) := by
  unfold memoryBlocker
  split
  · exact hierarchyBlocker_clean _
  · exact raises_ok

theorem issueBlocker_clean : Clean (issueBlocker E s x now) := by
  unfold issueBlocker
  split
  · exact raises_ok
  · refine resourceBlocker_clean.bind fun b _ => ?_
    split
    · exact raises_ok
    · refine memoryBlocker_clean.bind fun r _ => ?_
      split
      · exact raises_ok
      · exact domainBlocker_clean.bind fun _ _ => raises_ok

theorem dispatchBlocker_clean (m : MacroOp) : Clean (dispatchBlocker E s m) := by
  refine (pipelineInt_clean _ _).bind fun _ _ => ?_
  split
  · exact raises_ok
  · refine (pipelineInt_clean _ _).bind fun _ _ => ?_
    split
    · exact raises_ok
    · refine (queueFull_clean _ _ _ _).bind fun _ _ => ?_
      split
      · exact raises_ok
      · exact (queueFull_clean _ _ _ _).bind fun _ _ => raises_ok

/-! ### Issue -/

theorem laneOf_clean (r : String) : Clean (laneOf s r) :=
  (firstFree_clean r).bind fun _ _ => raises_ok

theorem choiceLe_le (a b : ℕ × String × ℕ) (h : choiceLe a b = true) : a.1 ≤ b.1 := by
  simp only [choiceLe, Bool.or_eq_true, Bool.and_eq_true, decide_eq_true_eq] at h
  omega

theorem choiceLe_gt (a b : ℕ × String × ℕ) (h : choiceLe a b = false) : b.1 ≤ a.1 := by
  simp only [choiceLe, Bool.or_eq_false_iff, decide_eq_false_iff_not] at h
  omega

/-- **The resource that the check found free is selected.** -/
theorem selectResource_clean (h : resourceBlocker s x now = .ok none) : Clean (selectResource s x now) := by
  refine (raises_mapM fun r _ => laneOf_clean r).bind fun choices hchoices => ?_
  split
  · exact raises_error rfl
  · next c hc =>
    obtain ⟨r, hr, t, ht, hle⟩ := resourceBlocker_none h
    obtain ⟨b, hb, hlane⟩ := forall₂_left (mapM_ok.mp hchoices) hr
    rw [laneOf, ht] at hlane
    cases hlane
    have hmin := Slots.minBy?_key_le hc choiceLe_le choiceLe_gt _ hb
    rw [if_neg (not_lt.mpr (le_trans hmin hle))]
    exact raises_ok

theorem accessMemory_clean {memory : MemoryState} (h : memoryBlocker E s x now = .ok (memory, none)) :
    Clean (accessMemory E { s with memory := memory } x now) := by
  unfold accessMemory
  split
  · next hx =>
    rw [memoryBlocker, if_pos hx] at h
    exact (access_clean h).bind fun _ _ => raises_ok
  · exact raises_ok

/-- An issue that is not blocked succeeds. -/
theorem issueUop_clean (hT : WellFormed E.trace) (hx : x ∈ E.trace.uops) (hn : x.issueDomains.Nodup)
    {memory : MemoryState} (h : issueBlocker E s x now = .ok (memory, none)) :
    Clean (issueUop E { s with memory := memory } x now) := by
  obtain ⟨-, hres, hmem, hdom⟩ := issueBlocker_none h
  exact (selectResource_clean ((resourceBlocker_memory s memory x).trans hres)).bind fun _ _ =>
    (accessMemory_clean hmem).bind fun _ _ => (reserve_clean hT hx hn hdom).bind fun _ _ => raises_ok

theorem issueList_clean (hT : WellFormed E.trace) (hn : ∀ x ∈ E.trace.uops, x.issueDomains.Nodup) :
    ∀ (xs : List ExecutionUop) (s : Machine), Candidates E s.toCore xs → Clean (issueList E now xs s)
  | [], _, _ => raises_ok
  | x :: xs, s, hc => by
    refine issueBlocker_clean.bind fun b hb => ?_
    obtain ⟨memory, b⟩ := b
    cases b with
    | some b =>
      dsimp only
      split
      · exact raises_ok
      · exact issueList_clean hT hn xs { s with memory := memory } hc.tail
    | none =>
      refine (issueUop_clean hT hc.head.1 (hn x hc.head.1) hb).bind fun s₁ h₁ => ?_
      obtain ⟨r, a, free, -, -, -, rfl⟩ := issueUop_ok h₁
      exact (issueList_clean hT hn xs _ (hc.issue _)).bind fun _ _ => raises_ok

/-! ### The fixed point ends -/

/-- The completions to come, of the uops that wait and of those that run. -/
def remaining (s : Machine) : ℕ := 2 * s.unissued.length + s.completionHeap.length

theorem completeLoop_remaining : ∀ (fuel : ℕ) (s : Machine),
    remaining (completeLoop E now fuel s).2 + (completeLoop E now fuel s).1.toNat ≤ remaining s
  | 0, s => le_rfl
  | fuel + 1, s => by
    unfold completeLoop
    cases hq : s.completionHeap with
    | nil => exact le_rfl
    | cons e rest =>
      dsimp only
      split
      · have ih := completeLoop_remaining fuel (completeEntry E s e rest).2
        have hless : remaining (completeEntry E s e rest).2 + 1 = remaining s := by
          unfold completeEntry remaining
          dsimp only
          split <;> simp [hq, Core.completeUop] <;> omega
        have hone : ∀ a b : Bool, (a || b).toNat ≤ b.toNat + 1 := by decide
        have := hone (completeEntry E s e rest).1 (completeLoop E now fuel (completeEntry E s e rest).2).1
        dsimp only
        omega
      · exact le_rfl

theorem issueList_remaining : ∀ (xs : List ExecutionUop) (s : Machine) {r : Bool × Machine},
    Candidates E s.toCore xs → issueList E now xs s = .ok r → remaining r.2 + r.1.toNat ≤ remaining s
  | [], s, r, _, h => by cases h; exact le_rfl
  | x :: xs, s, r, hc, h => by
    obtain ⟨⟨memory, b⟩, -, h⟩ := ok_bind.mp h
    cases b with
    | some b =>
      dsimp only at h
      split at h
      · cases h; exact le_rfl
      · exact issueList_remaining xs { s with memory := memory } hc.tail h
    | none =>
      dsimp only at h
      obtain ⟨s₁, h₁, h⟩ := ok_bind.mp h
      obtain ⟨r', h', h⟩ := ok_bind.mp h
      cases h
      obtain ⟨p, a, free, -, -, -, rfl⟩ := issueUop_ok h₁
      have ih := issueList_remaining xs _ (hc.issue a.2.2) h'
      have hwait : (s.unissued.erase x.id).length + 1 = s.unissued.length := by
        rw [List.length_erase_of_mem hc.head.2.1]
        have := List.length_pos_of_mem hc.head.2.1
        omega
      have hless : remaining (issued E { s with memory := memory } x now p a free) + 1 = remaining s := by
        simp only [remaining, issued, Core.issue, (Queue.push_perm _ _).length_eq, List.length_cons]
        omega
      have hone : r'.1.toNat ≤ 1 := Bool.toNat_le r'.1
      show remaining r'.2 + 1 ≤ _
      omega

theorem issueFixedPoint_clean (hT : WellFormed E.trace) (hn : ∀ x ∈ E.trace.uops, x.issueDomains.Nodup)
    (s : Machine) : Clean (issueFixedPoint E now s) :=
  FixedPoint.run_raises (P := fun _ => True) (μ := remaining) trivial (Nat.lt_succ_self _)
    (fun s _ => ⟨trivial, completeLoop_remaining _ s⟩)
    (fun s _ _ hr => ⟨trivial, issueList_remaining _ s (candidates_issueCandidates hT _) hr⟩)
    fun s _ => issueList_clean hT hn _ s (candidates_issueCandidates hT _)

/-! ### Visits and jumps -/

theorem dispatchLoop_clean {width : ℕ} : ∀ (fuel dispatched : ℕ) (s : Machine),
    Clean (dispatchLoop E width now fuel dispatched s)
  | 0, _, _ => raises_ok
  | fuel + 1, dispatched, s => by
    unfold dispatchLoop
    split
    · exact raises_ok
    · next m _ =>
      split
      · exact raises_ok
      · refine (dispatchBlocker_clean m).bind fun b _ => ?_
        split
        · exact raises_ok
        · exact dispatchLoop_clean fuel _ _

theorem phase_clean (hT : WellFormed E.trace) (hn : ∀ x ∈ E.trace.uops, x.issueDomains.Nodup)
    {f : Machine → Except SimError Machine} (hf : f ∈ phases E now) (s : Machine) : Clean (f s) := by
  simp only [phases, List.mem_cons, List.not_mem_nil, or_false] at hf
  rcases hf with rfl | rfl | rfl | rfl | rfl
  · exact raises_ok
  · dsimp only
    split
    · exact (pipelineInt_clean _ _).bind fun _ _ => dispatchLoop_clean _ _ _
    · exact raises_ok
  · exact issueFixedPoint_clean hT hn s
  · exact raises_ok
  · dsimp only
    split
    · exact (pipelineInt_clean _ _).bind fun _ _ => raises_ok
    · exact raises_ok

/-- **A visit raises no internal error.** -/
theorem visit_clean (hT : WellFormed E.trace) (hn : ∀ x ∈ E.trace.uops, x.issueDomains.Nodup)
    (s : Machine) : Clean (visitOf (phases E now) s) :=
  raises_foldlM (I := fun _ => True) trivial (fun _ hf s _ => phase_clean hT hn hf s)
    fun _ _ _ _ _ _ => trivial

/-- Nor does the choice of the next tick. -/
theorem nextEventTick_clean (s : Machine) : Clean (nextEventTick E now s) := by
  refine Raises.bind ?_ fun r _ => ?_
  · refine raises_foldlM (I := fun _ => True) trivial (fun x _ r _ => ?_) fun _ _ _ _ _ _ => trivial
    exact issueBlocker_clean.bind fun _ _ => (waitingTicks_clean _).bind fun _ _ => raises_ok
  · split
    · exact raises_error rfl
    · exact raises_ok

theorem run_clean (hT : WellFormed E.trace) (hn : ∀ x ∈ E.trace.uops, x.issueDomains.Nodup) :
    Clean (run E) :=
  EventLoop.raises_run (fun _ _ s _ => visit_clean hT hn s) (fun _ _ _ s _ _ => nextEventTick_clean s)
    (fun _ => rfl) rfl

end Zen4
end VectorSim
