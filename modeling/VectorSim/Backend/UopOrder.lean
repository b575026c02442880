/-
# The order of a uop's own events

A uop is dispatched, becomes ready, issues and completes in that order; it
issues once its dependencies have completed and the gap to its predecessor has
passed, and it completes its latency after that. `UopInv` says so of every
state, together with what makes it inductive: the waiting set holds the uops
dispatched and not issued, and the heap holds each running uop with the tick
its completion is due.
-/
import VectorSim.Backend.Steps

namespace VectorSim
namespace Core

variable {T : BoundTrace} {inOrder : Bool} {now : ℕ} {c c' : Core}

/-! ### What is set stays set -/

/-- Ticks that are set are not changed. -/
structure Extends (c c' : Core) : Prop where
  dispatch : ∀ {u t}, (c.uop u).dispatchTick = some t → (c'.uop u).dispatchTick = some t
  ready : ∀ {u t}, (c.uop u).readyTick = some t → (c'.uop u).readyTick = some t
  issue : ∀ {u t}, (c.uop u).issueTick = some t →
    (c'.uop u).issueTick = some t ∧ (c'.uop u).latencyTicks = (c.uop u).latencyTicks
  complete : ∀ {u t}, (c.uop u).completeTick = some t → (c'.uop u).completeTick = some t

theorem Extends.of_uop_eq (h : c'.uop = c.uop) : Extends c c' := by
  constructor <;> intro u t <;> rw [h]
  · exact id
  · exact id
  · exact fun h => ⟨h, rfl⟩
  · exact id

/-- What is known of a uop that issued at tick `i`. -/
structure Issued (T : BoundTrace) (c : Core) (u : Id) (i : ℕ) : Prop where
  times : ∃ d r, (c.uop u).dispatchTick = some d ∧ (c.uop u).readyTick = some r ∧ d ≤ r ∧ r ≤ i
  dependencies : ∀ {x}, T.uop? u = some x → ∀ d ∈ x.dependencies,
    ∃ t, (c.uop d).completeTick = some t ∧ t ≤ i
  gap : ∀ {x}, T.uop? u = some x → ∀ p ∈ x.issueAfterUop,
    ∃ t, (c.uop p).issueTick = some t ∧ t + x.issueGapTicks ≤ i

theorem Issued.mono {u : Id} {i : ℕ} (h : Issued T c u i) (hc : Extends c c') :
    Issued T c' u i where
  times := by
    obtain ⟨d, r, h1, h2, h3⟩ := h.times
    exact ⟨d, r, hc.dispatch h1, hc.ready h2, h3⟩
  dependencies hx d hd := by
    obtain ⟨t, h1, h2⟩ := h.dependencies hx d hd
    exact ⟨t, hc.complete h1, h2⟩
  gap hx p hp := by
    obtain ⟨t, h1, h2⟩ := h.gap hx p hp
    exact ⟨t, (hc.issue h1).1, h2⟩

structure UopInv (T : BoundTrace) (now : ℕ) (c : Core) : Prop where
  waiting : ∀ u, u ∈ c.unissued ↔ (c.uop u).dispatchTick.isSome ∧ (c.uop u).issueTick = none
  nodup : c.unissued.Nodup
  dispatched : ∀ {u t}, (c.uop u).dispatchTick = some t → t ≤ now
  unready : ∀ {u}, (c.uop u).issueTick = none → (c.uop u).readyTick = none
  issued : ∀ {u i}, (c.uop u).issueTick = some i → i ≤ now ∧ Issued T c u i
  completed : ∀ {u t}, (c.uop u).completeTick = some t →
    ∃ i, (c.uop u).issueTick = some i ∧ t = i + (c.uop u).latencyTicks ∧ t ≤ now
  due : ∀ e ∈ c.completionHeap,
    ∃ i, (c.uop e.id).issueTick = some i ∧ e.tick = i + (c.uop e.id).latencyTicks

theorem uopInv_init : UopInv T now (init T) where
  waiting u := by simp [init]
  nodup := List.nodup_nil
  dispatched h := by cases h
  unready _ := rfl
  issued h := by cases h
  completed h := by cases h
  due e he := by cases he

/-- Time passes. -/
theorem UopInv.later {next : ℕ} (h : UopInv T now c) (hn : now ≤ next) : UopInv T next c where
  waiting := h.waiting
  nodup := h.nodup
  dispatched hd := (h.dispatched hd).trans hn
  unready := h.unready
  issued hi := ⟨(h.issued hi).1.trans hn, (h.issued hi).2⟩
  completed hc := by
    obtain ⟨i, h1, h2, h3⟩ := h.completed hc
    exact ⟨i, h1, h2, h3.trans hn⟩
  due := h.due

/-! ### One step -/

theorem dispatchTick_le_ready (x : ExecutionUop) {d : ℕ} (h : (c.uop x.id).dispatchTick = some d) :
    d ≤ c.dependencyReadyTick x := by
  have key : ∀ (l : List ℕ) (a : ℕ), a ≤ l.foldl max a := by
    intro l
    induction l with
    | nil => exact fun a => le_rfl
    | cons b l ih => exact fun a => (le_max_left a b).trans (ih _)
  simpa [dependencyReadyTick, h] using key _ d

theorem completeTick_le_ready {x : ExecutionUop} {d : Id} {t : ℕ} (hd : d ∈ x.dependencies)
    (h : (c.uop d).completeTick = some t) : t ≤ c.dependencyReadyTick x := by
  have key : ∀ (l : List ℕ) (a b : ℕ), b ∈ l ∨ b ≤ a → b ≤ l.foldl max a := by
    intro l
    induction l with
    | nil => intro a b h; simpa using h
    | cons e l ih =>
      intro a b h
      refine ih _ b ?_
      rcases h with h | h
      · rcases List.mem_cons.mp h with rfl | h
        · exact .inr (le_max_right a b)
        · exact .inl h
      · exact .inr (h.trans (le_max_left a e))
  refine key _ _ t (.inl (List.mem_map.mpr ⟨d, hd, ?_⟩))
  rw [h]; rfl

/-- No step changes a tick that is set. -/
theorem Step.extends (h : Step T inOrder now c c') (hc : UopInv T now c) : Extends c c' := by
  cases h with
  | drop _ _ => exact .of_uop_eq rfl
  | enterRob _ _ => exact .of_uop_eq rfl
  | advance _ _ => exact .of_uop_eq rfl
  | retire _ _ _ _ => exact .of_uop_eq rfl
  | @complete e rest _ _ running =>
    constructor <;> intro u t hu <;> by_cases he : u = e.id
    all_goals first | subst he | skip
    all_goals simp_all [completeUop, Function.update_self, Function.update_of_ne]
  | @dispatch _ us _ _ _ pending =>
    constructor <;> intro u t hu <;> rw [dispatchAll_uop] <;> split
    · simp [pending u ‹_›] at hu
    · exact hu
    · exact hu
    · exact hu
    · exact ⟨hu, rfl⟩
    · exact ⟨hu, rfl⟩
    · exact hu
    · exact hu
  | @issue x latency issuable =>
    have hx := (hc.waiting x.id).mp issuable.waiting
    constructor <;> intro u t hu <;> by_cases he : u = x.id
    all_goals first | subst he | skip
    all_goals simp_all [Core.issue, Function.update_self, Function.update_of_ne, hc.unready hx.2]

theorem uopInv_complete {e : HeapEntry} {rest : List HeapEntry} (hc : UopInv T now c)
    (head : c.completionHeap = e :: rest) (due : e.tick ≤ now)
    (hext : Extends c (completeUop { c with completionHeap := rest } T e.tick e.id)) :
    UopInv T now (completeUop { c with completionHeap := rest } T e.tick e.id) := by
  obtain ⟨i, hi, ht⟩ := hc.due e (head ▸ List.mem_cons_self)
  have hissue : ∀ u, ((completeUop { c with completionHeap := rest } T e.tick e.id).uop u).issueTick =
      (c.uop u).issueTick := by
    intro u; rw [completeUop_uop]; split <;> rfl
  have hdispatch : ∀ u, ((completeUop { c with completionHeap := rest } T e.tick e.id).uop u).dispatchTick =
      (c.uop u).dispatchTick := by
    intro u; rw [completeUop_uop]; split <;> rfl
  have hlatency : ∀ u, ((completeUop { c with completionHeap := rest } T e.tick e.id).uop u).latencyTicks =
      (c.uop u).latencyTicks := by
    intro u; rw [completeUop_uop]; split <;> rfl
  refine { waiting := ?_, nodup := hc.nodup, dispatched := ?_, unready := ?_, issued := ?_,
           completed := ?_, due := ?_ }
  · intro u; rw [hdispatch, hissue]; exact hc.waiting u
  · intro u t h; rw [hdispatch] at h; exact hc.dispatched h
  · intro u h
    rw [hissue] at h
    rw [completeUop_uop]
    split <;> exact hc.unready h
  · intro u i h
    rw [hissue] at h
    exact ⟨(hc.issued h).1, (hc.issued h).2.mono hext⟩
  · intro u t h
    rw [hissue, hlatency]
    rw [completeUop_uop] at h
    split at h
    · next he =>
      subst he
      cases h
      exact ⟨i, hi, ht, due⟩
    · exact hc.completed h
  · intro e' he'
    rw [hissue, hlatency]
    exact hc.due e' (head ▸ List.mem_cons_of_mem _ he')

theorem uopInv_dispatch {us : List Id} (hc : UopInv T now c)
    (pending : ∀ u ∈ us, (c.uop u).dispatchTick = none)
    (hext : Extends c (c.dispatchAll now us)) : UopInv T now (c.dispatchAll now us) := by
  have hissue : ∀ u, ((c.dispatchAll now us).uop u).issueTick = (c.uop u).issueTick := by
    intro u; rw [dispatchAll_uop]; split <;> rfl
  have hlatency : ∀ u, ((c.dispatchAll now us).uop u).latencyTicks = (c.uop u).latencyTicks := by
    intro u; rw [dispatchAll_uop]; split <;> rfl
  -- a uop that has issued was dispatched before
  have hnew : ∀ u ∈ us, (c.uop u).issueTick = none := by
    intro u hu
    by_contra hne
    obtain ⟨i, hi⟩ := Option.ne_none_iff_exists'.mp hne
    obtain ⟨d, _, hd, _⟩ := (hc.issued hi).2.times
    rw [pending u hu] at hd
    cases hd
  refine { waiting := ?_, nodup := ?_, dispatched := ?_, unready := ?_, issued := ?_,
           completed := ?_, due := ?_ }
  · intro u
    rw [hissue, dispatchAll_uop, dispatchAll_eq, mem_insertAll, hc.waiting]
    by_cases hu : u ∈ us
    · simp [hu, hnew u hu]
    · simp [hu]
  · rw [dispatchAll_eq]; exact nodup_insertAll us hc.nodup
  · intro u t h
    rw [dispatchAll_uop] at h
    split at h
    · cases h; exact le_rfl
    · exact hc.dispatched h
  · intro u h
    rw [hissue] at h
    rw [dispatchAll_uop]
    split <;> exact hc.unready h
  · intro u i h
    rw [hissue] at h
    exact ⟨(hc.issued h).1, (hc.issued h).2.mono hext⟩
  · intro u t h
    rw [hissue, hlatency]
    rw [dispatchAll_uop] at h
    split at h <;> exact hc.completed h
  · intro e he
    rw [hissue, hlatency]
    rw [dispatchAll_heap] at he
    exact hc.due e he

theorem uopInv_issue {x : ExecutionUop} {latency : ℕ} (hT : WellFormed T) (hc : UopInv T now c)
    (issuable : Issuable T inOrder now c x)
    (hext : Extends c (c.issue x now latency inOrder)) :
    UopInv T now (c.issue x now latency inOrder) := by
  obtain ⟨hd, hi⟩ := (hc.waiting x.id).mp issuable.waiting
  obtain ⟨d, hd⟩ := Option.isSome_iff_exists.mp hd
  have hold : ∀ {u}, u ≠ x.id → (c.issue x now latency inOrder).uop u = c.uop u := by
    intro u hu; rw [issue_uop, if_neg hu]
  have hself : (c.issue x now latency inOrder).uop x.id = { c.uop x.id with
      readyTick := some (c.dependencyReadyTick x), issueTick := some now, latencyTicks := latency } := by
    rw [issue_uop, if_pos rfl]
  refine { waiting := ?_, nodup := hc.nodup.erase _, dispatched := ?_, unready := ?_, issued := ?_,
           completed := ?_, due := ?_ }
  · intro u
    have hm : u ∈ (c.issue x now latency inOrder).unissued ↔ u ≠ x.id ∧ u ∈ c.unissued :=
      hc.nodup.mem_erase_iff
    rw [hm]
    by_cases hu : u = x.id
    · subst hu; simp [hself]
    · rw [hold hu, hc.waiting]; simp [hu]
  · intro u t h
    by_cases hu : u = x.id
    · subst hu; rw [hself] at h; exact hc.dispatched h
    · rw [hold hu] at h; exact hc.dispatched h
  · intro u h
    by_cases hu : u = x.id
    · subst hu; rw [hself] at h; cases h
    · rw [hold hu] at h ⊢; exact hc.unready h
  · intro u i h
    by_cases hu : u = x.id
    · subst hu
      rw [hself] at h
      cases h
      refine ⟨le_rfl, ⟨d, c.dependencyReadyTick x, ?_, ?_, dispatchTick_le_ready x hd,
        issuable.ready⟩, ?_, ?_⟩
      · rw [hself]; exact hd
      · rw [hself]
      · intro y hy e he
        obtain rfl : x = y := Option.some.inj ((hT.uop?_eq issuable.mem).symm.trans hy)
        obtain ⟨t, ht⟩ := Option.isSome_iff_exists.mp (issuable.complete e he)
        exact ⟨t, hext.complete ht, (completeTick_le_ready he ht).trans issuable.ready⟩
      · intro y hy p hp
        obtain rfl : x = y := Option.some.inj ((hT.uop?_eq issuable.mem).symm.trans hy)
        obtain ⟨t, ht, hle⟩ := issuable.gap p hp
        exact ⟨t, (hext.issue ht).1, hle⟩
    · rw [hold hu] at h
      exact ⟨(hc.issued h).1, (hc.issued h).2.mono hext⟩
  · intro u t h
    by_cases hu : u = x.id
    · subst hu
      rw [hself] at h
      obtain ⟨i, hi', _⟩ := hc.completed h
      rw [hi] at hi'
      cases hi'
    · rw [hold hu] at h ⊢; exact hc.completed h
  · intro e he
    rcases Queue.mem_push.mp he with rfl | he
    · exact ⟨now, by rw [hself], by rw [hself]⟩
    · obtain ⟨i, hi', ht⟩ := hc.due e he
      have hne : e.id ≠ x.id := by
        intro heq; rw [heq, hi] at hi'; cases hi'
      rw [hold hne]
      exact ⟨i, hi', ht⟩

/-- The order of a uop's events is kept by every step. -/
theorem uopInv_step (hT : WellFormed T) (hc : UopInv T now c) (h : Step T inOrder now c c') :
    UopInv T now c' := by
  have hext := h.extends hc
  cases h with
  | drop head _ =>
    exact { hc with
      issued := fun hi => ⟨(hc.issued hi).1, (hc.issued hi).2.mono hext⟩
      due := fun e he => hc.due e (head ▸ List.mem_cons_of_mem _ he) }
  | enterRob _ _ | advance _ _ | retire _ _ _ _ =>
    exact { hc with issued := fun hi => ⟨(hc.issued hi).1, (hc.issued hi).2.mono hext⟩ }
  | complete head due _ => exact uopInv_complete hc head due hext
  | dispatch _ _ _ pending => exact uopInv_dispatch hc pending hext
  | issue issuable => exact uopInv_issue hT hc issuable hext

end Core
end VectorSim
