/-
# A config uop that waits for a token for ever

Where the only token of the mixed epochs is taken for a terminal that has completed before,
or that cannot complete before the config uop of another epoch issues, that config uop never
issues (`Stranded`), and the loop of the XSAI engine does not end (`stranded_never`).
-/
import VectorSim.EpochSafety
import VectorSim.Lib.Observer

namespace VectorSim.Xsai

open Checked Setup Core EventLoop

variable {E : Config} {now : ℕ} {s s' : Sched} {u t : Id}

/-- The uop `u` waits for the token of `t`, which `t` does not give back before `u` issues. -/
structure Stranded (E : Config) (u t : Id) (s : Sched) : Prop where
  waiting : (s.uop u).issueTick = none
  taken : t ∈ s.mixedActive
  kept : (s.uop t).completeTick.isSome ∨ DependsOn E t u

/-- No completion gives the token back. -/
theorem Stranded.complete (hT : WellFormed E.trace) (hi : CoreInv E now s) (hs : Stranded E u t s) {e : HeapEntry}
    {rest : List HeapEntry} (head : s.completionHeap = e :: rest) : Stranded E u t (completeEntry E s e rest).2 := by
  obtain ⟨i, hissued, -⟩ := hi.uops.due e (by rw [head]; exact List.mem_cons_self)
  unfold completeEntry
  dsimp only
  split
  · exact ⟨hs.waiting, hs.taken, hs.kept⟩
  · next hrunning =>
    have hissue : ((completeUop { s.toCore with completionHeap := rest } E.trace e.tick e.id).uop u).issueTick =
        (s.uop u).issueTick := by rw [completeUop_uop]; split <;> rfl
    have hcomplete : ((completeUop { s.toCore with completionHeap := rest } E.trace e.tick e.id).uop t).completeTick =
        if t = e.id then some e.tick else (s.uop t).completeTick := by rw [completeUop_uop]; split <;> rfl
    have hne : t ≠ e.id := by
      rintro rfl
      rcases hs.kept with hdone | hdep
      · exact hrunning hdone
      · -- `t` has issued after `u` has completed
        obtain ⟨c, hc⟩ := Option.isSome_iff_exists.mp (hdep.completed hT hi (by rw [hissued]; rfl))
        obtain ⟨i', hi', -⟩ := hi.uops.completed hc
        rw [hs.waiting] at hi'
        cases hi'
    exact ⟨hissue.trans hs.waiting, (List.mem_erase_of_ne hne).mpr hs.taken, by rw [hcomplete, if_neg hne]; exact hs.kept⟩

/-- An issue is of another uop. -/
theorem Stranded.issue (hT : WellFormed E.trace) (hmixed : (mixedTerminal E u).isSome)
    (hone : E.epochs.mixedStoreReductionCapacity ≤ 1) (hs : Stranded E u t s) {x : ExecutionUop} {r : Reserved}
    (early : earlyBlocker E s x now = none) : Stranded E u t (issued E s x now r) := by
  have hne : u ≠ x.id := by
    rintro rfl
    have hroom := early_capacity hT early hmixed
    have hfull : 0 < s.mixedActive.length := List.length_pos_of_mem hs.taken
    have hcapacity : (E.epochs.mixedStoreReductionCapacity : ℕ) ≤ 1 := hone
    omega
  have hissue : ((issued E s x now r).uop u).issueTick = (s.uop u).issueTick := by
    simp only [issued, issue_uop, if_neg hne]
  have hcomplete : ((issued E s x now r).uop t).completeTick = (s.uop t).completeTick := by
    simp only [issued, issue_uop]
    split <;> rfl
  have htaken : t ∈ (issued E s x now r).mixedActive := by
    show t ∈ openEpoch E s x
    unfold openEpoch
    split
    · exact hs.taken
    · exact List.mem_insert_of_mem hs.taken
  exact ⟨hissue.trans hs.waiting, htaken, by rw [hcomplete]; exact hs.kept⟩

theorem Stranded.step (hT : WellFormed E.trace) (hmixed : (mixedTerminal E u).isSome)
    (hone : E.epochs.mixedStoreReductionCapacity ≤ 1) (hi : CoreInv E now s) (hs : Stranded E u t s)
    (h : Step E now s s') : Stranded E u t s' := by
  rcases step_epochs h with ⟨e, rest, head, rfl⟩ | ⟨x, r, -, early, rfl⟩ | ⟨hissue, hcomplete, hactive⟩
  · exact hs.complete hT hi head
  · exact hs.issue hT hmixed hone early
  · exact ⟨(hissue u).trans hs.waiting, hactive ▸ hs.taken, by rw [hcomplete]; exact hs.kept⟩

/-- **A loop that gets there does not end.** -/
theorem stranded_never {k n stop : ℕ} {s₀ e : Sched} {x : ExecutionUop} (hT : WellFormed E.trace) (hx : x ∈ E.trace.uops)
    (hmixed : (mixedTerminal E x.id).isSome) (hone : E.epochs.mixedStoreReductionCapacity ≤ 1)
    (hr : Reaches (loop E) k 0 (schedInit E) now s₀) (hu : E.unfinished s₀.toCore = true)
    (hv : visitOf (phases E now) s₀ = .ok s) (hs : Stranded E x.id t s) :
    ¬ Ends (loop E) n 0 (schedInit E) e stop := by
  intro hends
  have hend : Stranded E x.id t e := by
    refine hends.later hr hu hv hs (fun now k s s' _ hr _ hv hs => ?_) fun _ _ _ _ hn hs => ?_
    · have hat : AtTick E now s := ⟨k, hr⟩
      have hi : CoreInv E now s := hat.invariant (P := CoreInv E) hT inv_init (fun _ _ _ hs h => inv_step hT hs h)
        fun _ _ _ hs hlt => hs.later hlt.le
      have hsteps : Steps E now s s' := visit_steps hT (List.Subset.refl _) hv
      exact (hsteps.invariant (P := fun s => CoreInv E now s ∧ Stranded E x.id t s) ⟨hi, hs⟩
        fun _ _ hs h => ⟨inv_step hT hs.1 h, hs.2.step hT hmixed hone hs.1 h⟩).2
    · obtain ⟨memory, rfl⟩ := nextEventTick_ok hn
      exact ⟨hs.waiting, hs.taken, hs.kept⟩
  have hrun := (run_ok_iff fun now s s' t hu hn => by
    obtain ⟨memory, rfl⟩ := nextEventTick_ok hn
    exact hu).mpr ⟨n, le_rfl, hends⟩
  -- at the end of a run every uop has issued
  obtain ⟨_, _, i, _, _, _, hi, _⟩ := (run_ordered hT hrun).2.1.uop x hx
  rw [hend.waiting] at hi
  cases hi

end VectorSim.Xsai
