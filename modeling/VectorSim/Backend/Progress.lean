/-
# The work of a run

What an engine has still to do, counted on the bookkeeping (`work`): each macro-op that
waits for its dispatch, each uop that waits for its issue, each completion to come and
each macro-op in the reorder buffer. Every step but a poll takes from it. And what is
under way stays in sight (`Tracked`): a uop that has issued and not completed is in the
heap, and a macro-op whose uops have all completed is complete.
-/
import VectorSim.Backend.RunOrder

namespace VectorSim
namespace Core

variable {T : BoundTrace} {inOrder : Bool} {now : ℕ} {c c' : Core}

/-- The work that a macro-op brings when it is dispatched, and its dispatch. -/
def macroWork (m : MacroOp) : ℕ := 2 * m.uopIds.length + 2

/-- The work that is left. -/
def work (T : BoundTrace) (c : Core) : ℕ :=
  ((T.macros.drop c.nextDispatch).map macroWork).sum + 2 * c.unissued.length + c.completionHeap.length + c.rob.length

theorem work_pop {e : HeapEntry} {rest : List HeapEntry} (head : c.completionHeap = e :: rest) :
    work T { c with completionHeap := rest } + 1 = work T c := by
  simp only [work, head, List.length_cons]
  omega

theorem length_insertAll : ∀ us l : List Id, (us.foldl (fun l u => l.insert u) l).length ≤ us.length + l.length
  | [], l => by simp
  | u :: us, l => by
    have ih := length_insertAll us (l.insert u)
    have hone : (l.insert u).length ≤ l.length + 1 := by
      by_cases hu : u ∈ l
      · simp [hu]
      · simp [hu]
    simp only [List.foldl_cons, List.length_cons]
    omega

/-- The dispatch of a whole macro-op. -/
theorem work_dispatchMacro {m : MacroOp} (head : T.macros[c.nextDispatch]? = some m) :
    work T ((c.enterRob m.id now).dispatchAll now m.uopIds).advance < work T c := by
  obtain ⟨hlt, hget⟩ := List.getElem?_eq_some_iff.mp head
  have hdrop : T.macros.drop c.nextDispatch = m :: T.macros.drop (c.nextDispatch + 1) := by
    rw [List.drop_eq_getElem_cons hlt, hget]
  have hlen := length_insertAll m.uopIds c.unissued
  simp only [work, Core.advance, dispatchAll_eq, Core.enterRob, hdrop, List.map_cons, List.sum_cons, macroWork,
    List.length_append, List.length_cons, List.length_nil]
  omega

theorem work_issue {x : ExecutionUop} (waiting : x.id ∈ c.unissued) (latency : ℕ) :
    work T (c.issue x now latency inOrder) < work T c := by
  have hpos := List.length_pos_of_mem waiting
  have herase := List.length_erase_of_mem waiting
  simp only [work, Core.issue, (Queue.push_perm _ _).length_eq, List.length_cons]
  omega

theorem work_retire {m m' : Id} {rest : List Id} (head : c.rob = m' :: rest) : work T (c.retire m now) < work T c := by
  simp only [work, Core.retire, head, List.tail_cons, List.length_cons]
  omega

/-! ### What is under way -/

structure Tracked (T : BoundTrace) (c : Core) : Prop where
  /-- What runs is in the heap. -/
  running : ∀ u, (c.uop u).issueTick.isSome → (c.uop u).completeTick = none → ∃ e ∈ c.completionHeap, e.id = u
  /-- A macro-op is complete with the last of its uops. -/
  closed : ∀ m ∈ T.macros, (∀ u ∈ m.uopIds, (c.uop u).completeTick.isSome) → (c.macro_ m.id).completeTick.isSome

theorem tracked_init (hT : WellFormed T) : Tracked T (init T) where
  running u h := by cases h
  closed m hm h := by
    obtain ⟨u, hu⟩ := List.exists_mem_of_ne_nil _ (hT.macroUops m hm)
    have := h u hu
    simp [init] at this

/-- A step that completes nothing and keeps the heap. -/
theorem Tracked.of_same (h : Tracked T c) (heap : c'.completionHeap = c.completionHeap)
    (issue : ∀ u, (c'.uop u).issueTick = (c.uop u).issueTick)
    (complete : ∀ u, (c'.uop u).completeTick = (c.uop u).completeTick)
    (macros : ∀ m, (c'.macro_ m).completeTick = (c.macro_ m).completeTick) : Tracked T c' where
  running u hi hc := by
    rw [heap]
    rw [issue] at hi
    rw [complete] at hc
    exact h.running u hi hc
  closed m hm hu := by
    rw [macros]
    refine h.closed m hm fun u hu' => ?_
    rw [← complete]
    exact hu u hu'

theorem tracked_complete {e : HeapEntry} {rest : List HeapEntry} (hT : WellFormed T) (h : Tracked T c)
    (head : c.completionHeap = e :: rest) :
    Tracked T (completeUop { c with completionHeap := rest } T e.tick e.id) where
  running u hi hc := by
    rw [completeUop_uop] at hi hc
    split at hc
    · cases hc
    · next hne =>
      rw [if_neg hne] at hi
      obtain ⟨f, hf, hfu⟩ := h.running u hi hc
      rw [head] at hf
      rcases List.mem_cons.mp hf with rfl | hf
      · exact absurd hfu.symm hne
      · exact ⟨f, hf, hfu⟩
  closed m hm hu := by
    have happly := completedMacros_apply hT (completeUop { c with completionHeap := rest } T e.tick e.id).uop c.macro_
      e.id hm
    show (completedMacros T (completeUop { c with completionHeap := rest } T e.tick e.id).uop c.macro_ e.id
      m.id).completeTick.isSome
    rw [happly]
    split
    · rfl
    · next hnot =>
      -- the uop is none of the macro-op's
      have hout : e.id ∉ m.uopIds := fun he => hnot ⟨he, hu⟩
      refine h.closed m hm fun u hu' => ?_
      have hne : u ≠ e.id := by
        rintro rfl
        exact hout hu'
      have := hu u hu'
      rw [completeUop_uop, if_neg hne] at this
      exact this

theorem tracked_issue {x : ExecutionUop} {latency : ℕ} (h : Tracked T c) :
    Tracked T (c.issue x now latency inOrder) where
  running u hi hc := by
    rw [issue_uop] at hi hc
    by_cases hu : u = x.id
    · exact ⟨_, Queue.mem_push.mpr (.inl rfl), hu.symm⟩
    · rw [if_neg hu] at hi hc
      obtain ⟨e, he, heu⟩ := h.running u hi hc
      exact ⟨e, Queue.mem_push.mpr (.inr he), heu⟩
  closed m hm hu := by
    refine h.closed m hm fun u hu' => ?_
    have := hu u hu'
    rw [issue_uop] at this
    split at this <;> exact this

theorem tracked_step (hT : WellFormed T) (h : Tracked T c) (hstep : Step T inOrder now c c') : Tracked T c' := by
  cases hstep with
  | @drop e rest head stale =>
    refine ⟨fun u hi hc => ?_, h.closed⟩
    obtain ⟨f, hf, hfu⟩ := h.running u hi hc
    rw [head] at hf
    rcases List.mem_cons.mp hf with rfl | hf
    · simp [hfu, show (c.uop u).completeTick = none from hc] at stale
    · exact ⟨f, hf, hfu⟩
  | complete head _ _ => exact tracked_complete hT h head
  | @enterRob m _ _ =>
    refine h.of_same rfl (fun _ => rfl) (fun _ => rfl) fun m' => ?_
    simp only [Core.enterRob, Function.update_apply]
    split
    · next he => rw [he]
    · rfl
  | @dispatch m us _ _ _ _ =>
    refine h.of_same (by simp) (fun u => ?_) (fun u => ?_) fun m' => by simp
    · rw [dispatchAll_uop]
      split <;> rfl
    · rw [dispatchAll_uop]
      split <;> rfl
  | advance _ _ => exact h.of_same rfl (fun _ => rfl) (fun _ => rfl) fun _ => rfl
  | issue _ => exact tracked_issue h
  | @retire m rest t _ _ _ _ =>
    refine h.of_same rfl (fun _ => rfl) (fun _ => rfl) fun m' => ?_
    simp only [Core.retire, Function.update_apply]
    split
    · next he => rw [he]
    · rfl

end Core
end VectorSim
