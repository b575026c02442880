/-
# What the shared checks establish

The facts an engine has about a uop once the checks of `Machine` let it pass:
it is one of the waiting uops, its dependencies have completed, a lane of one
of its resources is free, and its issue domains have tokens.
-/
import VectorSim.Backend.Machine
import VectorSim.Backend.RunOrder

namespace VectorSim

/-- The occupancies are no greater than before. -/
structure Falls (s s' : Machine) : Prop where
  rob : s'.robOccupancy ≤ s.robOccupancy
  vectorScheduler : s'.vectorSchedulerOccupancy ≤ s.vectorSchedulerOccupancy
  loadQueue : s'.loadQueueOccupancy ≤ s.loadQueueOccupancy
  storeQueue : s'.storeQueueOccupancy ≤ s.storeQueueOccupancy

theorem Falls.refl (s : Machine) : Falls s s := ⟨le_rfl, le_rfl, le_rfl, le_rfl⟩

theorem Falls.trans {a b c : Machine} (h : Falls a b) (h' : Falls b c) : Falls a c :=
  ⟨h'.rob.trans h.rob, h'.vectorScheduler.trans h.vectorScheduler, h'.loadQueue.trans h.loadQueue,
    h'.storeQueue.trans h.storeQueue⟩

namespace Setup

open Checked Core

variable {E : Setup} {c : Core} {s : Machine} {x : ExecutionUop} {now : ℕ}

/-! ### Candidates -/

/-- A list of uops of the trace that are all waiting; of an in-order issue, the next one
at most. -/
structure Candidates (E : Setup) (c : Core) (xs : List ExecutionUop) : Prop where
  mem : ∀ x ∈ xs, x ∈ E.trace.uops ∧ x.id ∈ c.unissued
  nodup : (xs.map (·.id)).Nodup
  order : E.inOrder = true → xs.length ≤ 1 ∧ ∀ x ∈ xs, E.trace.uops[c.inOrderIssueIndex]? = some x

theorem candidates_issueCandidates (hT : WellFormed E.trace) (c : Core) :
    Candidates E c (E.issueCandidates c) := by
  unfold issueCandidates
  split
  · next hin =>
    split
    · next x hx =>
      split
      · next hw =>
        refine ⟨?_, by simp, fun _ => ⟨by simp, ?_⟩⟩
        · intro y hy
          obtain rfl := List.mem_singleton.mp hy
          exact ⟨List.mem_of_getElem? hx, hw⟩
        · intro y hy
          obtain rfl := List.mem_singleton.mp hy
          exact hx
      · exact ⟨by simp, by simp, fun _ => ⟨by simp, by simp⟩⟩
    · exact ⟨by simp, by simp, fun _ => ⟨by simp, by simp⟩⟩
  · next hin =>
    have hperm := List.perm_insertionSort (fun a b : ExecutionUop => a.sequence ≤ b.sequence)
      (E.trace.uops.filter fun x => x.id ∈ c.unissued)
    refine ⟨fun x hx => ?_, ?_, fun h => absurd h hin⟩
    · simpa using hperm.mem_iff.mp hx
    · refine (hperm.map _).nodup_iff.mpr (List.Nodup.sublist ?_ hT.uopIds)
      exact List.filter_sublist.map _

theorem Candidates.head {xs : List ExecutionUop} (h : Candidates E c (x :: xs)) :
    x ∈ E.trace.uops ∧ x.id ∈ c.unissued ∧
      (E.inOrder = true → E.trace.uops[c.inOrderIssueIndex]? = some x) :=
  ⟨(h.mem x List.mem_cons_self).1, (h.mem x List.mem_cons_self).2,
    fun hin => (h.order hin).2 x List.mem_cons_self⟩

theorem Candidates.tail {xs : List ExecutionUop} (h : Candidates E c (x :: xs)) :
    Candidates E c xs where
  mem y hy := h.mem y (List.mem_cons_of_mem _ hy)
  nodup := (List.nodup_cons.mp h.nodup).2
  order hin := ⟨(Nat.le_succ _).trans (h.order hin).1,
    fun y hy => (h.order hin).2 y (List.mem_cons_of_mem _ hy)⟩

/-- The rest are still candidates once the first has issued. -/
theorem Candidates.issue {xs : List ExecutionUop} (h : Candidates E c (x :: xs)) (latency : ℕ) :
    Candidates E (c.issue x now latency E.inOrder) xs where
  mem y hy := by
    refine ⟨(h.tail.mem y hy).1, ?_⟩
    have hne : y.id ≠ x.id := by
      rintro he
      exact (List.nodup_cons.mp h.nodup).1 (List.mem_map.mpr ⟨y, hy, he⟩)
    exact (List.mem_erase_of_ne hne).mpr (h.tail.mem y hy).2
  nodup := h.tail.nodup
  order hin := by
    have hlen := (h.order hin).1
    obtain rfl : xs = [] := by
      cases xs with
      | nil => rfl
      | cons _ _ => simp at hlen
    exact ⟨Nat.zero_le _, by simp⟩

/-! ### Checks that pass -/

theorem dependencyBlocker_none {reason : List Id → Stall} :
    dependencyBlocker reason c x now = none ↔
      (∀ d ∈ x.dependencies, (c.uop d).completeTick.isSome) ∧ c.dependencyReadyTick x ≤ now := by
  have hinc : incomplete c x = [] ↔ ∀ d ∈ x.dependencies, (c.uop d).completeTick.isSome := by
    simp [incomplete, List.filter_eq_nil_iff, Option.ne_none_iff_isSome]
  unfold dependencyBlocker
  by_cases h : incomplete c x = []
  · rw [if_neg (by simp [h])]
    by_cases hr : now < c.dependencyReadyTick x
    · simp [hr]
    · simpa [hr, not_lt.mp hr] using hinc.mp h
  · rw [if_pos h]
    simp [mt hinc.mpr h]

theorem partBlocker_none : partBlocker c x now = none ↔
    ∀ p ∈ x.issueAfterUop, ∃ t, (c.uop p).issueTick = some t ∧ t + x.issueGapTicks ≤ now := by
  unfold partBlocker
  cases hp : x.issueAfterUop with
  | none => simp
  | some p =>
    cases ht : (c.uop p).issueTick with
    | none => simp [ht]
    | some t =>
      by_cases h : now < t + x.issueGapTicks
      · simp [ht, h]
      · simp [ht, h, not_lt.mp h]

theorem anyFree_memory (s : Machine) (memory : MemoryState) (now : ℕ) :
    ∀ rs : List String, anyFree { s with memory := memory } now rs = anyFree s now rs
  | [] => rfl
  | r :: rs => by
    unfold anyFree
    rw [anyFree_memory s memory now rs]
    rfl

/-- The resource check does not look at the memory hierarchy. -/
theorem resourceBlocker_memory (s : Machine) (memory : MemoryState) (x : ExecutionUop) :
    resourceBlocker { s with memory := memory } x now = resourceBlocker s x now := by
  unfold resourceBlocker
  rw [anyFree_memory]
  rfl

theorem issueDomainReadyTick_ok {d : String} {t : ℕ} (h : issueDomainReadyTick s x d = .ok t) :
    issueDomainDemand x d ≤ (s.issueDomainFree d).length ∧
      t = Slots.readyTick (s.issueDomainFree d) (issueDomainDemand x d) := by
  unfold issueDomainReadyTick at h
  split at h
  · cases h
  · next hlen => cases h; exact ⟨not_lt.mp hlen, rfl⟩

/-- Where the issue-domain check returns, no demand exceeds a domain's capacity. -/
theorem domainBlocker_demand {b : Option Blocked} (h : domainBlocker s x now = .ok b) :
    ∀ d ∈ x.issueDomains, issueDomainDemand x d ≤ (s.issueDomainFree d).length := by
  obtain ⟨ticks, ht, -⟩ := ok_bind.mp h
  intro d hd
  obtain ⟨t, -, ht⟩ := forall₂_left (mapM_ok.mp ht) hd
  exact (issueDomainReadyTick_ok ht).1

/-- Where it passes, each domain has its tokens free. -/
theorem domainBlocker_none (h : domainBlocker s x now = .ok none) :
    ∀ d ∈ x.issueDomains, Slots.readyTick (s.issueDomainFree d) (issueDomainDemand x d) ≤ now := by
  obtain ⟨ticks, ht, h⟩ := ok_bind.mp h
  have hany : ¬ ticks.any (now < ·) = true := by
    intro hany
    rw [if_pos hany] at h
    cases h
  intro d hd
  obtain ⟨t, hmem, ht⟩ := forall₂_left (mapM_ok.mp ht) hd
  have hle : t ≤ now := by
    by_contra hlt
    exact hany (List.any_eq_true.mpr ⟨t, hmem, by simpa using hlt⟩)
  exact (issueDomainReadyTick_ok ht).2 ▸ hle

theorem intervalBlocker_none : intervalBlocker s x now = none ↔
    ∀ t ∈ s.lastClassIssue x.schedulingClass, t + x.issueIntervalTicks ≤ now := by
  unfold intervalBlocker
  cases h : s.lastClassIssue x.schedulingClass with
  | none => simp
  | some t =>
    by_cases ht : now < t + x.issueIntervalTicks <;> simp [ht]; omega

/-! ### Reservations -/

/-- The tokens of the issue domains after a reservation: at any tick from now on, as many
more are held as the uop asks for, until it leaves them. -/
theorem reserveIssueDomains_ok : ∀ (ds : List String) {free free' : String → List ℕ},
    reserveIssueDomains x now ds free = .ok free' →
    (∀ d ∈ ds, issueDomainDemand x d ≤ (free d).length) →
    (∀ d, (free' d).length = (free d).length) ∧ ∀ d t, now ≤ t →
      Slots.held (free' d) t = Slots.held (free d) t +
        ds.count d * if t < now + x.occupancyTicks then issueDomainDemand x d else 0
  | [], free, free', h, _ => by
    cases h
    simp
  | e :: ds, free, free', h, hd => by
    unfold reserveIssueDomains at h
    dsimp only at h
    split at h
    · cases h
    · next hany =>
      have hpick : ∀ i ∈ Slots.pick (free e) (issueDomainDemand x e), (free e).getD i 0 ≤ now := by
        intro i hi
        by_contra hlt
        exact hany (List.any_eq_true.mpr ⟨i, hi, by simpa using hlt⟩)
      have hlen : ∀ d, (Function.update free e (Slots.occupy (free e)
          (Slots.pick (free e) (issueDomainDemand x e)) (now + x.occupancyTicks)) d).length =
            (free d).length := by
        intro d
        by_cases hde : d = e
        · subst hde; simp
        · simp [hde]
      obtain ⟨h1, h2⟩ := reserveIssueDomains_ok ds h fun d hd' =>
        (hlen d).symm ▸ hd d (List.mem_cons_of_mem _ hd')
      refine ⟨fun d => (h1 d).trans (hlen d), fun d t ht => ?_⟩
      rw [h2 d t ht]
      by_cases hde : d = e
      · subst hde
        rw [Function.update_self, Slots.held_occupy (hd d List.mem_cons_self) hpick ht,
          List.count_cons_self]
        ring
      · rw [Function.update_of_ne hde, List.count_cons_of_ne (Ne.symm hde)]

/-- A candidate whose dependencies and predecessor let it pass may issue. -/
theorem Candidates.issuable {xs : List ExecutionUop} {reason : List Id → Stall}
    (h : Candidates E c (x :: xs)) (hd : dependencyBlocker reason c x now = none)
    (hp : partBlocker c x now = none) : Issuable E.trace E.inOrder now c x where
  mem := h.head.1
  waiting := h.head.2.1
  complete := (dependencyBlocker_none.mp hd).1
  ready := (dependencyBlocker_none.mp hd).2
  gap := partBlocker_none.mp hp
  order := h.head.2.2

end Setup
end VectorSim
