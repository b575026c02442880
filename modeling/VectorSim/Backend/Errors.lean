/-
# Internal errors

The errors that an engine raises when an action finds its precondition
violated although a check has just passed (`SimError.isInternal`): a resource,
a path or a token is gone, a counter would become negative, the accounting does
not add up. `Clean` computations raise none of them. Here are the checks and
actions that both engines share: the checks raise nothing internal themselves,
and an action after its checks is clean.
-/
import VectorSim.Backend.Checks
import VectorSim.Backend.Counters

namespace VectorSim

open Checked Core

/-- The error of an action whose check has passed. -/
def SimError.isInternal : SimError → Bool
  | .selectedUnavailableResource | .selectedUnavailablePath _ | .reservedUnavailableDomain _
  | .reservedUnavailableRead _ | .negativeSchedulerOccupancy _ | .memory .accessWhileBlocked
  | .dispatchAccounting _ | .missingDispatchDomain | .outOfSteps => true
  | .emptyMin site => site = "split_issue_free" || site = "release_ticks"
  | _ => false

/-- The computation raises no internal error. -/
abbrev Clean {α : Type} (x : Except SimError α) : Prop := Raises (fun e => e.isInternal = false) x

theorem pipelineInt_clean (value : Option ℕ) (name : String) : Clean (pipelineInt value name) := by
  cases value with
  | none => exact raises_error rfl
  | some n => exact raises_ok

/-! ### The memory hierarchy -/

namespace MemoryConfig

variable {C : MemoryConfig} {s s' : MemoryState} {now : ℕ}

/-- Every error but the one of an access that is blocked. -/
abbrev Plain {α : Type} (x : Except MemoryError α) : Prop := Raises (· ≠ .accessWhileBlocked) x

theorem outstandingBlocker_plain : ∀ (ls : List ℕ) (s : MemoryState), Plain (C.outstandingBlocker now ls s)
  | [], s => raises_ok
  | l :: ls, s => by
    rw [outstandingBlocker]
    refine Raises.bind ?_ fun limit _ => ?_
    · unfold outstandingLimit
      split
      · exact raises_ok
      · exact raises_error (by decide)
    · split
      · split
        · exact raises_ok
        · exact raises_error (by decide)
      · exact outstandingBlocker_plain ls _

theorem peekLevel_plain (m : Option MemoryAccess) : Plain (C.peekLevel s m now) := by
  unfold peekLevel
  split
  · exact raises_error (by decide)
  · exact raises_ok

theorem blocker_plain (m : Option MemoryAccess) : Plain (C.blocker s m now) := by
  refine (peekLevel_plain m).bind fun r _ => ?_
  cases m with
  | none => exact raises_error (by decide)
  | some a =>
    dsimp only
    split
    · exact raises_ok
    · split
      · exact raises_ok
      · exact outstandingBlocker_plain _ _

theorem charge_plain (a : MemoryAccess) (level : ℕ) : Plain (C.charge s a level now) := by
  unfold charge
  dsimp only
  split
  · refine Raises.bind ?_ fun bandwidth _ => raises_ok
    unfold bandwidthTicks
    split
    · exact raises_error (by decide)
    · exact raises_ok
  · exact raises_error (by decide)

/-- An access that is not blocked raises no such error. -/
theorem access_plain {m : Option MemoryAccess} (h : C.blocker s m now = .ok (s', none)) :
    Plain (C.access s m now) := by
  unfold access
  rw [h]
  refine Raises.bind raises_ok fun r hr => ?_
  cases hr
  refine (peekLevel_plain m).bind fun r _ => ?_
  cases m with
  | none => exact raises_error (by decide)
  | some a =>
    dsimp only
    split
    · exact raises_ok
    · exact charge_plain a _

end MemoryConfig

theorem liftMemory_clean {α : Type} {x : Except MemoryError α} (h : MemoryConfig.Plain x) :
    Clean (liftMemory x) := by
  cases x with
  | ok a => exact raises_ok
  | error e =>
    refine raises_error ?_
    have := h e rfl
    cases e <;> first | rfl | exact absurd rfl this

namespace Setup

variable {E : Setup} {s : Machine} {x : ExecutionUop} {now : ℕ}

theorem hierarchyBlocker_clean (memory : MemoryState) : Clean (E.hierarchyBlocker memory x now) :=
  (liftMemory_clean (MemoryConfig.blocker_plain _)).bind fun _ _ => raises_ok

/-- An access that the hierarchy has let through is not blocked. -/
theorem access_clean {memory memory' : MemoryState} (h : E.hierarchyBlocker memory x now = .ok (memory', none)) :
    Clean (liftMemory (E.memory.access memory' x.memory now)) := by
  obtain ⟨⟨t, b⟩, hb, h⟩ := ok_bind.mp h
  cases hm : E.memory.blocker memory x.memory now with
  | error e => rw [hm] at hb; cases hb
  | ok r =>
    rw [hm] at hb
    cases hb
    cases b with
    | some b => simp at h
    | none =>
      cases h
      exact liftMemory_clean (MemoryConfig.access_plain (MemoryConfig.blocker_again hm))

/-! ### Checks -/

theorem firstFree_clean (r : String) : Clean (firstFree s r) := by
  unfold firstFree
  split
  · exact raises_ok
  · exact raises_error rfl

theorem anyFree_clean : ∀ rs : List String, Clean (anyFree s now rs)
  | [] => raises_ok
  | r :: rs => (firstFree_clean r).bind fun t _ => by
    split
    · exact raises_ok
    · exact anyFree_clean rs

theorem resourceBlocker_clean : Clean (resourceBlocker s x now) :=
  (anyFree_clean _).bind fun free _ => by
    split
    · exact raises_ok
    · refine (raises_mapM fun r _ => firstFree_clean r).bind fun ticks _ => ?_
      split
      · exact raises_ok
      · exact raises_error rfl

theorem issueDomainReadyTick_clean (d : String) : Clean (issueDomainReadyTick s x d) := by
  unfold issueDomainReadyTick
  split
  · exact raises_error rfl
  · exact raises_ok

theorem domainBlocker_clean : Clean (domainBlocker s x now) :=
  (raises_mapM fun d _ => issueDomainReadyTick_clean d).bind fun _ _ => raises_ok

theorem waitingTicks_clean (earliest : Option ℕ) : Clean (waitingTicks s x now earliest) :=
  (raises_mapM fun r _ => firstFree_clean r).bind fun _ _ =>
    (raises_mapM fun d _ => issueDomainReadyTick_clean d).bind fun _ _ => raises_ok

theorem queueFull_clean (uses : Bool) (capacity : Option ℕ) (name : String) (occupancy : ℤ) :
    Clean (queueFull uses capacity name occupancy) := by
  unfold queueFull
  split
  · exact (pipelineInt_clean _ _).bind fun _ _ => raises_ok
  · exact raises_ok

/-! ### Actions -/

theorem issueDomainDemand_pos (h : ∀ d ∈ x.issueDomainDemands, 1 ≤ d.2) (d : String) :
    0 < issueDomainDemand x d := by
  unfold issueDomainDemand lookupD
  cases hl : x.issueDomainDemands.lookup d with
  | none => exact Nat.one_pos
  | some n =>
    have hmem : (d, n) ∈ x.issueDomainDemands := List.lookup_eq_some_iff.mp hl |>.elim fun l h => by
      obtain ⟨l₂, he, -⟩ := h
      rw [he]
      simp
    exact h _ hmem

/-- **The domains that the check found ready can be reserved**, where none is listed twice. -/
theorem reserveIssueDomains_clean : ∀ (ds : List String) {free : String → List ℕ}, ds.Nodup →
    (∀ d ∈ ds, 0 < issueDomainDemand x d ∧ issueDomainDemand x d ≤ (free d).length ∧
      Slots.readyTick (free d) (issueDomainDemand x d) ≤ now) →
    Clean (reserveIssueDomains x now ds free)
  | [], _, _, _ => raises_ok
  | d :: ds, free, hn, h => by
    obtain ⟨hnot, hn⟩ := List.nodup_cons.mp hn
    obtain ⟨hpos, hlen, hready⟩ := h d List.mem_cons_self
    have hfree := (Slots.readyTick_le_iff hpos hlen).mp hready
    rw [reserveIssueDomains, if_neg]
    · refine reserveIssueDomains_clean ds hn fun e he => ?_
      have hne : e ≠ d := by rintro rfl; exact hnot he
      rw [Function.update_of_ne hne]
      exact h e (List.mem_cons_of_mem _ he)
    · simpa using hfree

theorem reserve_clean (hT : WellFormed E.trace) (hx : x ∈ E.trace.uops) (hn : x.issueDomains.Nodup)
    (h : domainBlocker s x now = .ok none) :
    Clean (reserveIssueDomains x now x.issueDomains s.issueDomainFree) :=
  reserveIssueDomains_clean _ hn fun d hd =>
    ⟨issueDomainDemand_pos (hT.demands x hx) d, domainBlocker_demand h d hd, domainBlocker_none h d hd⟩

/-- A resource check that passes has found a lane that is free. -/
theorem anyFree_true : ∀ {rs : List String}, anyFree s now rs = .ok true →
    ∃ r ∈ rs, ∃ t, firstFree s r = .ok t ∧ t ≤ now
  | [], h => by cases h
  | r :: rs, h => by
    obtain ⟨t, ht, h⟩ := ok_bind.mp h
    split at h
    · next hle => exact ⟨r, List.mem_cons_self, t, ht, hle⟩
    · obtain ⟨r', hr', hfree⟩ := anyFree_true h
      exact ⟨r', List.mem_cons_of_mem _ hr', hfree⟩

theorem resourceBlocker_none (h : resourceBlocker s x now = .ok none) :
    ∃ r ∈ x.resourceChoices, ∃ t, firstFree s r = .ok t ∧ t ≤ now := by
  obtain ⟨free, hfree, h⟩ := ok_bind.mp h
  cases free with
  | true => exact anyFree_true hfree
  | false =>
    obtain ⟨ticks, -, h⟩ := ok_bind.mp h
    split at h <;> cases h

end Setup

end VectorSim
