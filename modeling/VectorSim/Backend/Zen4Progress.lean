/-
# The Zen 4 engine gets ahead

Each procedure of the event loop takes from the work that is left, or leaves the machine
as it is but for polls of the memory hierarchy and counted stalls (`Moves`). Where nothing
under way is left over from later than `now` (`Calm`), a visit at a cycle boundary is not
idle: it completes what is due, dispatches into an empty machine, issues the oldest uop
that waits or retires the oldest macro-op.
-/
import VectorSim.Backend.Progress
import VectorSim.Backend.Zen4Errors
import VectorSim.Backend.Zen4Occupancy
import VectorSim.Backend.Provided

namespace VectorSim
namespace Zen4

open Checked Setup Core

variable {E : Setup} {now : ℕ} {s s' : Machine} {x : ExecutionUop}

/-! ### Moves -/

/-- Nothing has happened but polls of the hierarchy and stalls of the dispatcher. -/
structure Idle (s s' : Machine) : Prop where
  core : s'.toCore = s.toCore
  resourceFree : s'.resourceFree = s.resourceFree
  lastClassIssue : s'.lastClassIssue = s.lastClassIssue
  issueDomainFree : s'.issueDomainFree = s.issueDomainFree
  rob : s'.robOccupancy = s.robOccupancy
  vector : s'.vectorSchedulerOccupancy = s.vectorSchedulerOccupancy
  load : s'.loadQueueOccupancy = s.loadQueueOccupancy
  store : s'.storeQueueOccupancy = s.storeQueueOccupancy
  bandwidth : s'.memory.bandwidthFree = s.memory.bandwidthFree
  outstanding : ∀ l, s'.memory.outstanding l ⊆ s.memory.outstanding l

theorem Idle.refl (s : Machine) : Idle s s :=
  ⟨rfl, rfl, rfl, rfl, rfl, rfl, rfl, rfl, rfl, fun _ => List.Subset.refl _⟩

theorem Idle.trans {a b c : Machine} (h : Idle a b) (h' : Idle b c) : Idle a c :=
  ⟨h'.core.trans h.core, h'.resourceFree.trans h.resourceFree, h'.lastClassIssue.trans h.lastClassIssue,
    h'.issueDomainFree.trans h.issueDomainFree, h'.rob.trans h.rob, h'.vector.trans h.vector, h'.load.trans h.load,
    h'.store.trans h.store, h'.bandwidth.trans h.bandwidth,
    fun l => List.Subset.trans (h'.outstanding l) (h.outstanding l)⟩

/-- The work goes down, or nothing happens. -/
def Moves (E : Setup) (s s' : Machine) : Prop := work E.trace s'.toCore < work E.trace s.toCore ∨ Idle s s'

theorem Moves.refl (s : Machine) : Moves E s s := .inr (.refl s)

theorem Moves.le (h : Moves E s s') : work E.trace s'.toCore ≤ work E.trace s.toCore := by
  rcases h with h | h
  · exact h.le
  · rw [h.core]

theorem Moves.trans {a b c : Machine} (h : Moves E a b) (h' : Moves E b c) : Moves E a c := by
  rcases h with h | h
  · exact .inl (h'.le.trans_lt h)
  · rcases h' with h' | h'
    · exact .inl (by rwa [← h.core])
    · exact .inr (h.trans h')

/-- A move that does no work is idle. -/
theorem Moves.idle (h : Moves E s s') (hle : work E.trace s.toCore ≤ work E.trace s'.toCore) : Idle s s' := by
  rcases h with h | h
  · omega
  · exact h

theorem completeEntry_work {e : HeapEntry} {rest : List HeapEntry} (head : s.completionHeap = e :: rest) :
    work E.trace (completeEntry E s e rest).2.toCore < work E.trace s.toCore := by
  have hpop := work_pop (T := E.trace) head
  unfold completeEntry
  dsimp only
  split
  · exact Nat.lt_of_succ_le hpop.le
  · exact Nat.lt_of_succ_le hpop.le

theorem completeLoop_moves : ∀ (fuel : ℕ) (s : Machine), Moves E s (completeLoop E now fuel s).2
  | 0, s => .refl s
  | fuel + 1, s => by
    unfold completeLoop
    cases hq : s.completionHeap with
    | nil => exact .refl s
    | cons e rest =>
      dsimp only
      split
      · exact Moves.trans (.inl (completeEntry_work hq)) (completeLoop_moves fuel _)
      · exact .refl s

/-- The completions that are due are all taken from the heap. -/
theorem completeLoop_head : ∀ (fuel : ℕ) (s : Machine), s.completionHeap.length ≤ fuel →
    ∀ e ∈ (completeLoop E now fuel s).2.completionHeap.head?, now < e.tick
  | 0, s, hlen, e, he => by
    have hnil : s.completionHeap = [] := List.length_eq_zero_iff.mp (by omega)
    unfold completeLoop at he
    rw [hnil] at he
    cases he
  | fuel + 1, s, hlen, e, he => by
    unfold completeLoop at he
    cases hq : s.completionHeap with
    | nil =>
      rw [hq] at he
      dsimp only at he
      rw [hq] at he
      cases he
    | cons f rest =>
      rw [hq] at he hlen
      dsimp only at he
      by_cases hdue : f.tick ≤ now
      · rw [if_pos hdue] at he
        refine completeLoop_head fuel _ ?_ e he
        have hrest : (completeEntry E s f rest).2.completionHeap = rest := by
          unfold completeEntry
          dsimp only
          split <;> rfl
        rw [hrest]
        simpa using hlen
      · rw [if_neg hdue] at he
        dsimp only at he
        rw [hq] at he
        obtain rfl : f = e := Option.some.inj he
        omega

theorem dispatchLoop_moves {width : ℕ} : ∀ (fuel dispatched : ℕ) (s : Machine) {s' : Machine},
    dispatchLoop E width now fuel dispatched s = .ok s' → Moves E s s'
  | 0, _, s, s', h => by cases h; exact .refl s
  | fuel + 1, dispatched, s, s', h => by
    unfold dispatchLoop at h
    split at h
    · cases h; exact .refl s
    · next m hm =>
      split at h
      · cases h; exact .refl s
      · obtain ⟨b, -, h⟩ := ok_bind.mp h
        split at h
        · cases h
          exact .inr ⟨rfl, rfl, rfl, rfl, rfl, rfl, rfl, rfl, rfl, fun _ => List.Subset.refl _⟩
        · exact Moves.trans (.inl (work_dispatchMacro hm)) (dispatchLoop_moves fuel _ _ h)

theorem retireMacro_work {m : MacroOp} {id : Id} (head : s.rob.head? = some id) :
    work E.trace (retireMacro s m now).toCore < work E.trace s.toCore := by
  obtain ⟨rest, hrest⟩ := List.head?_eq_some_iff.mp head
  exact work_retire hrest

theorem retireLoop_moves {width : ℕ} : ∀ (fuel retired : ℕ) (s : Machine),
    Moves E s (retireLoop E width now fuel retired s)
  | 0, _, s => .refl s
  | fuel + 1, retired, s => by
    unfold retireLoop
    split
    · exact .refl s
    · next m hm =>
      obtain ⟨id, hid, -⟩ := Option.bind_eq_some_iff.mp hm
      split
      · exact Moves.trans (.inl (retireMacro_work hid)) (retireLoop_moves fuel _ _)
      · exact .refl s

/-- The issue check changes the hierarchy alone, and only what it knows of lines and of the past. -/
theorem issueBlocker_idle {r : MemoryState × Option Blocked} (h : issueBlocker E s x now = .ok r) :
    Idle s { s with memory := r.1 } := by
  suffices hmem : r.1.bandwidthFree = s.memory.bandwidthFree ∧ ∀ l, r.1.outstanding l ⊆ s.memory.outstanding l from
    ⟨rfl, rfl, rfl, rfl, rfl, rfl, rfl, rfl, hmem.1, hmem.2⟩
  have hsame : s.memory.bandwidthFree = s.memory.bandwidthFree ∧ ∀ l, s.memory.outstanding l ⊆ s.memory.outstanding l :=
    ⟨rfl, fun _ => List.Subset.refl _⟩
  unfold issueBlocker at h
  split at h
  · cases h; exact hsame
  · obtain ⟨b, -, h⟩ := ok_bind.mp h
    split at h
    · cases h; exact hsame
    · obtain ⟨q, hq, h⟩ := ok_bind.mp h
      have hr : r.1 = q.1 := by
        split at h
        · cases h; rfl
        · obtain ⟨b', -, h⟩ := ok_bind.mp h
          cases h; rfl
      rw [hr]
      unfold memoryBlocker at hq
      split at hq
      · exact hierarchyBlocker_settled hq
      · cases hq; exact hsame

theorem issueUop_work {memory : MemoryState} (waiting : x.id ∈ s.unissued)
    (h : issueUop E { s with memory := memory } x now = .ok s') :
    work E.trace s'.toCore < work E.trace s.toCore := by
  obtain ⟨p, a, free, -, -, -, rfl⟩ := issueUop_ok h
  exact work_issue (T := E.trace) (c := s.toCore) waiting a.2.2

/-- A pass over the waiting uops takes from the work exactly where it issues one. -/
theorem issueList_moves : ∀ (xs : List ExecutionUop) (s : Machine) {r : Bool × Machine},
    Candidates E s.toCore xs → issueList E now xs s = .ok r →
      Moves E s r.2 ∧ (r.1 = true → work E.trace r.2.toCore < work E.trace s.toCore)
  | [], s, r, _, h => by cases h; exact ⟨.refl s, by simp⟩
  | x :: xs, s, r, hc, h => by
    obtain ⟨⟨memory, b⟩, hb, h⟩ := ok_bind.mp h
    have hidle : Idle s { s with memory := memory } := issueBlocker_idle hb
    cases b with
    | some b =>
      dsimp only at h
      split at h
      · cases h; exact ⟨.inr hidle, by simp⟩
      · obtain ⟨hmoves, hless⟩ := issueList_moves xs { s with memory := memory } hc.tail h
        exact ⟨Moves.trans (.inr hidle) hmoves, hless⟩
    | none =>
      dsimp only at h
      obtain ⟨s₁, h₁, h⟩ := ok_bind.mp h
      obtain ⟨r', h', h⟩ := ok_bind.mp h
      cases h
      have hwork := issueUop_work hc.head.2.1 h₁
      obtain ⟨p, a, free, -, -, -, rfl⟩ := issueUop_ok h₁
      obtain ⟨hmoves, -⟩ := issueList_moves xs _ (hc.issue a.2.2) h'
      have hless := hmoves.le.trans_lt hwork
      exact ⟨.inl hless, fun _ => hless⟩

/-- A uop that nothing stands in the way of issues, or another does before it. -/
theorem issueList_issues (hx : ∀ s', Idle s s' → ∃ memory, issueBlocker E s' x now = .ok (memory, none)) :
    ∀ (xs : List ExecutionUop) (s₁ : Machine) {r : Bool × Machine}, Idle s s₁ → x ∈ xs →
      (E.inOrder = true → xs.length ≤ 1) → issueList E now xs s₁ = .ok r → r.1 = true
  | [], _, _, _, hmem, _, _ => by cases hmem
  | y :: ys, s₁, r, hidle, hmem, hone, h => by
    obtain ⟨⟨memory, b⟩, hb, h⟩ := ok_bind.mp h
    cases b with
    | none =>
      dsimp only at h
      obtain ⟨s₂, -, h⟩ := ok_bind.mp h
      obtain ⟨r', -, h⟩ := ok_bind.mp h
      cases h
      rfl
    | some b =>
      -- the uop is not the one that is blocked
      have hne : x ≠ y := by
        rintro rfl
        obtain ⟨memory', hfree⟩ := hx s₁ hidle
        rw [hfree] at hb
        cases hb
      have hmem' : x ∈ ys := (List.mem_cons.mp hmem).resolve_left hne
      dsimp only at h
      split at h
      · next hin =>
        have := hone hin
        have hpos := List.length_pos_of_mem hmem'
        simp only [List.length_cons] at this
        omega
      · next hin =>
        exact issueList_issues hx ys _ (hidle.trans (issueBlocker_idle hb)) hmem' (fun h' => absurd h' hin) h

theorem complete_moves (s : Machine) : Moves E s (complete E now s).2 := completeLoop_moves _ s

theorem issueOnce_moves (hT : WellFormed E.trace) {r : Bool × Machine} (h : issueOnce E now s = .ok r) :
    Moves E s r.2 ∧ (r.1 = true → work E.trace r.2.toCore < work E.trace s.toCore) :=
  issueList_moves _ s (candidates_issueCandidates hT _) h

theorem issueFixedPoint_moves (hT : WellFormed E.trace) (h : issueFixedPoint E now s = .ok s') : Moves E s s' :=
  FixedPoint.run_steps (R := Moves E) h Moves.trans complete_moves fun _ _ hr => (issueOnce_moves hT hr).1

theorem phase_moves (hT : WellFormed E.trace) {f : Machine → Except SimError Machine} (hf : f ∈ phases E now)
    (h : f s = .ok s') : Moves E s s' := by
  simp only [phases, List.mem_cons, List.not_mem_nil, or_false] at hf
  rcases hf with rfl | rfl | rfl | rfl | rfl
  · cases h; exact complete_moves s
  · dsimp only at h
    split at h
    · obtain ⟨width, -, h⟩ := ok_bind.mp h
      exact dispatchLoop_moves _ _ _ h
    · cases h; exact .refl s
  · exact issueFixedPoint_moves hT h
  · cases h; exact complete_moves s
  · dsimp only at h
    split at h
    · obtain ⟨width, -, h⟩ := ok_bind.mp h
      cases h
      exact retireLoop_moves _ _ s
    · cases h; exact .refl s

theorem visit_moves (hT : WellFormed E.trace) {fs : List (Machine → Except SimError Machine)}
    (hfs : fs ⊆ phases E now) (h : visitOf fs s = .ok s') : Moves E s s' :=
  foldlM_ok (P := fun t => Moves E s t) h (.refl s) fun _ hf _ _ ht hs => ht.trans (phase_moves hT (hfs hf) hs)

/-- The search for the next tick is idle. -/
theorem pollAll_idle : ∀ (xs : List ExecutionUop) {r r' : MemoryState × List ℕ}, Idle s { s with memory := r.1 } →
    xs.foldlM (pollWaiting E now s) r = .ok r' → Idle s { s with memory := r'.1 }
  | [], r, r', hs, h => by cases h; exact hs
  | x :: xs, r, r', hs, h => by
    rw [List.foldlM_cons] at h
    obtain ⟨q, hq, h⟩ := ok_bind.mp h
    obtain ⟨b, hb, hq⟩ := ok_bind.mp hq
    obtain ⟨ticks, -, hq⟩ := ok_bind.mp hq
    cases hq
    exact pollAll_idle xs (hs.trans (issueBlocker_idle hb)) h

theorem nextEventTick_idle {t : ℕ} (h : nextEventTick E now s = .ok (s', t)) : Idle s s' := by
  obtain ⟨r, hr, h⟩ := ok_bind.mp h
  split at h
  · cases h
  · cases h
    exact pollAll_idle _ (.refl s) hr

end Zen4
end VectorSim
