/-
# Structural hazards of the Zen 4 engine

The Zen 4 engine reserves a lane of a resource, the interval of a scheduling
class and the tokens of the issue domains. Each has the invariant that it has in
the XSAI engine: the lanes are held by one uop at a time (`LaneInv`), the issues
of a class keep their distance (`ClassInv`), and the tokens that are held stay
within a domain's capacity (`TokenInv`).
-/
import VectorSim.Backend.Zen4Steps
import VectorSim.Backend.Hazards

namespace VectorSim
namespace Zen4

open Checked Setup Core
open Serial (Uses Exclusive)

variable {E : Setup} {now : ℕ} {s s' : Machine} {x : ExecutionUop} {r : String × ℕ}

/-! ### What an issue takes -/

/-- The lane that `_select_resource` returns is free. -/
structure LaneOk (s : Machine) (x : ExecutionUop) (now : ℕ) (r : String × ℕ) : Prop where
  resource : r.1 ∈ x.resourceChoices
  lane : r.2 < (s.resourceFree r.1).length
  free : (s.resourceFree r.1).getD r.2 0 ≤ now

theorem selectResource_ok (h : selectResource s x now = .ok r) : LaneOk s x now r := by
  obtain ⟨choices, hchoices, h⟩ := ok_bind.mp h
  split at h
  · cases h
  · next c hmin =>
    split at h
    · cases h
    · next hfree =>
      cases h
      obtain ⟨q, hq, hlane⟩ := forall₂_right (mapM_ok.mp hchoices) (Slots.minBy?_mem hmin)
      obtain ⟨t, ht, hlane⟩ := ok_bind.mp hlane
      cases hlane
      unfold firstFree at ht
      split at ht
      · next hmin =>
        cases ht
        have hlt : (s.resourceFree q).idxOf t < (s.resourceFree q).length :=
          List.idxOf_lt_length_of_mem (List.min?_mem hmin)
        refine ⟨hq, hlt, ?_⟩
        rw [List.getD_eq_getElem?_getD, List.getElem?_eq_getElem hlt, Option.getD_some, List.getElem_idxOf]
        exact not_lt.mp hfree
      · cases ht

/-- What is known of a uop when it issues. -/
structure Issues (E : Setup) (now : ℕ) (s : Machine) (x : ExecutionUop) (r : String × ℕ)
    (free : String → List ℕ) : Prop where
  issuable : Issuable E.trace E.inOrder now s.toCore x
  interval : intervalBlocker s x now = none
  lane : LaneOk s x now r
  fits : ∀ d ∈ x.issueDomains, issueDomainDemand x d ≤ (s.issueDomainFree d).length
  reserved : reserveIssueDomains x now x.issueDomains s.issueDomainFree = .ok free

theorem Issues.unissued {free : String → List ℕ} (hs : Inv E now s) (h : Issues E now s x r free) :
    (s.uop x.id).issueTick = none :=
  ((hs.core.uops.waiting x.id).mp h.issuable.waiting).2

/-- A step that issues nothing. -/
structure Quiet (s s' : Machine) : Prop where
  issue : ∀ u, (s'.uop u).issueTick = (s.uop u).issueTick
  placement : s'.placement = s.placement
  resourceFree : s'.resourceFree = s.resourceFree
  lastClassIssue : s'.lastClassIssue = s.lastClassIssue
  issueDomainFree : s'.issueDomainFree = s.issueDomainFree

/-- **A step issues a uop or is quiet.** -/
theorem step_cases (h : Step E now s s') :
    Quiet s s' ∨ ∃ x r a free, Issues E now s x r free ∧ s' = issued E s x now r a free := by
  cases h with
  | @complete e rest head due =>
    left
    unfold completeEntry
    dsimp only
    split
    · exact ⟨fun _ => rfl, rfl, rfl, rfl, rfl⟩
    · refine ⟨fun u => ?_, rfl, rfl, rfl, rfl⟩
      rw [completeUop_uop]; split <;> rfl
  | dispatch head _ =>
    left
    refine ⟨fun u => ?_, rfl, rfl, rfl, rfl⟩
    simp only [dispatchMacro, Core.advance, dispatchAll_uop]
    split <;> rfl
  | stall _ | poll _ | retire _ _ _ => exact .inl ⟨fun _ => rfl, rfl, rfl, rfl, rfl⟩
  | issue issuable early selected _ fits reserved =>
    exact .inr ⟨_, _, _, _, ⟨issuable, (earlyBlocker_none early).2.2.2, selectResource_ok selected, fits, reserved⟩, rfl⟩

section Issued

variable {a : MemoryState × Option ℕ × ℕ} {free : String → List ℕ}

theorem issued_issueTick (u : Id) : ((issued E s x now r a free).uop u).issueTick =
    if u = x.id then some now else (s.uop u).issueTick := by
  simp only [issued, issue_uop]
  split <;> rfl

theorem issued_placement (u : Id) : (issued E s x now r a free).placement u =
    if u = x.id then { resource := some r.1, lane := r.2, memoryLevel := a.2.1 } else s.placement u := by
  simp only [issued, Function.update_apply]

end Issued

/-! ### Lanes -/

/-- The uops on the lanes of the resources. -/
def laneUses (E : Setup) (s : Machine) : Uses Id (String × ℕ) where
  start u := (s.uop u).issueTick
  length u := (E.uop u).occupancyTicks
  key u := (s.placement u).resource.map fun r => (r, (s.placement u).lane)

structure LaneInv (E : Setup) (s : Machine) : Prop where
  capacity : ∀ r, (s.resourceFree r).length = lookupD E.trace.resources r 0
  placed : ∀ {u i}, (s.uop u).issueTick = some i → ∃ r ∈ (E.uop u).resourceChoices,
    (s.placement u).resource = some r ∧ (s.placement u).lane < lookupD E.trace.resources r 0
  exclusive : Exclusive (laneUses E s) fun k => (s.resourceFree k.1).getD k.2 0

theorem laneInv_init : LaneInv E E.machineInit where
  capacity r := by simp [machineInit, freeSlots]
  placed h := by cases h
  exclusive := .init fun _ => rfl

theorem LaneInv.quiet (hs : LaneInv E s) (h : Quiet s s') : LaneInv E s' where
  capacity r := by rw [h.resourceFree]; exact hs.capacity r
  placed {u i} hi := by
    rw [h.issue] at hi
    rw [h.placement]
    exact hs.placed hi
  exclusive := hs.exclusive.congr (by simp [laneUses, h.issue, h.placement]) (by rw [h.resourceFree])

/-- The free ticks after a lane is taken. -/
theorem issued_laneFree {a : MemoryState × Option ℕ × ℕ} {free : String → List ℕ} (h : LaneOk s x now r) :
    (fun k : String × ℕ => ((issued E s x now r a free).resourceFree k.1).getD k.2 0) =
      Function.update (fun k : String × ℕ => (s.resourceFree k.1).getD k.2 0) r (now + x.occupancyTicks) := by
  funext ⟨q, l⟩
  have hlane := h.lane
  obtain ⟨r, lane⟩ := r
  by_cases hq : q = r
  · subst hq
    by_cases hl : l = lane
    · subst hl
      simp [issued, List.getD_eq_getElem?_getD, hlane]
    · simp [issued, List.getD_eq_getElem?_getD, hl, Ne.symm hl]
  · simp [issued, hq]

theorem LaneInv.issue {a : MemoryState × Option ℕ × ℕ} {free : String → List ℕ} (hT : WellFormed E.trace)
    (hs : LaneInv E s) (h : Issues E now s x r free) : LaneInv E (issued E s x now r a free) := by
  have hx : E.uop x.id = x := Setup.uop_eq hT h.issuable.mem
  have hlength : ∀ q, ((issued E s x now r a free).resourceFree q).length = (s.resourceFree q).length := by
    intro q
    by_cases hq : q = r.1
    · subst hq; simp [issued]
    · simp [issued, hq]
  refine ⟨fun q => (hlength q).trans (hs.capacity q), fun {u i} hi => ?_, ?_⟩
  · rw [issued_placement]
    rw [issued_issueTick] at hi
    split
    · next hu => exact ⟨r.1, hu ▸ hx.symm ▸ h.lane.resource, rfl, hs.capacity r.1 ▸ h.lane.lane⟩
    · next hu => rw [if_neg hu] at hi; exact hs.placed hi
  · have hocc : x.occupancyTicks = (laneUses E s).length x.id := by simp only [laneUses, hx]
    rw [issued_laneFree h.lane, hocc]
    refine hs.exclusive.take h.lane.free rfl (fun u hu => ?_) (fun u hu => ?_) ?_ ?_
    · simp only [laneUses, issued_issueTick, if_neg hu]
    · simp only [laneUses, issued_placement, if_neg hu]
    · simp only [laneUses, issued_issueTick, if_pos]
    · simp only [laneUses, issued_placement, if_pos]; rfl

/-! ### Scheduling classes -/

/-- The last issue of each class is recorded, and the issues of a class keep their distance. -/
structure ClassInv (E : Setup) (s : Machine) : Prop where
  last : ∀ {u i}, (s.uop u).issueTick = some i →
    ∃ t, s.lastClassIssue (E.uop u).schedulingClass = some t ∧ i ≤ t
  apart : ∀ {u v i j}, u ≠ v → (s.uop u).issueTick = some i → (s.uop v).issueTick = some j →
    (E.uop u).schedulingClass = (E.uop v).schedulingClass →
      i + (E.uop v).issueIntervalTicks ≤ j ∨ j + (E.uop u).issueIntervalTicks ≤ i

theorem classInv_init : ClassInv E E.machineInit where
  last h := by cases h
  apart _ h := by cases h

theorem ClassInv.quiet (hs : ClassInv E s) (h : Quiet s s') : ClassInv E s' where
  last {u i} hi := by
    rw [h.issue] at hi
    rw [h.lastClassIssue]
    exact hs.last hi
  apart {u v i j} huv hi hj hc := by
    rw [h.issue] at hi hj
    exact hs.apart huv hi hj hc

theorem ClassInv.issue {a : MemoryState × Option ℕ × ℕ} {free : String → List ℕ} (hT : WellFormed E.trace)
    (hc : Inv E now s) (hs : ClassInv E s) (h : Issues E now s x r free) :
    ClassInv E (issued E s x now r a free) := by
  have hx : E.uop x.id = x := Setup.uop_eq hT h.issuable.mem
  -- the new issue is its interval after the last of its class
  have hnew : ∀ {v j}, (s.uop v).issueTick = some j →
      (E.uop v).schedulingClass = x.schedulingClass → j + x.issueIntervalTicks ≤ now := by
    intro v j hj he
    obtain ⟨t, ht, hle⟩ := hs.last hj
    have := intervalBlocker_none.mp h.interval t (he ▸ ht)
    omega
  have hlast : (issued E s x now r a free).lastClassIssue =
      Function.update s.lastClassIssue x.schedulingClass (some now) := rfl
  constructor
  · intro u i hi
    rw [issued_issueTick] at hi
    rw [hlast]
    by_cases hcls : (E.uop u).schedulingClass = x.schedulingClass
    · rw [hcls, Function.update_self]
      refine ⟨now, rfl, ?_⟩
      split at hi
      · cases hi; exact le_rfl
      · exact (hc.core.uops.issued hi).1
    · rw [Function.update_of_ne hcls]
      split at hi
      · next hu => exact absurd (by rw [hu, hx]) hcls
      · exact hs.last hi
  · intro u v i j huv hi hj he
    rw [issued_issueTick] at hi hj
    by_cases hu : u = x.id
    · subst hu
      rw [if_pos rfl] at hi
      rw [if_neg huv.symm] at hj
      cases hi
      rw [hx] at he ⊢
      exact .inr (hnew hj he.symm)
    · rw [if_neg hu] at hi
      by_cases hv : v = x.id
      · subst hv
        rw [if_pos rfl] at hj
        cases hj
        rw [hx] at he ⊢
        exact .inl (hnew hi he)
      · rw [if_neg hv] at hj
        exact hs.apart huv hi hj he

/-! ### Tokens of the issue domains -/

/-- The tokens of a domain that a uop takes when it issues. -/
def demandOn (d : String) (x : ExecutionUop) : ℕ := x.issueDomains.count d * issueDomainDemand x d

/-- The tokens of a domain that a uop holds at a tick. -/
def tokens (E : Setup) (s : Machine) (d : String) (t : ℕ) (x : ExecutionUop) : ℕ :=
  if (laneUses E s).holds x.id t then demandOn d x else 0

/-- The capacity of an issue domain. -/
def domainCapacity (E : Setup) (d : String) : ℕ := Xsai.capacityOf E.issueDomains d

structure TokenInv (E : Setup) (now : ℕ) (s : Machine) : Prop where
  capacity : ∀ d, (s.issueDomainFree d).length = domainCapacity E d
  /-- From now on, the tokens that are held are not free. -/
  held : ∀ d t, now ≤ t → (E.trace.uops.map (tokens E s d t)).sum ≤ Slots.held (s.issueDomainFree d) t
  bounded : ∀ d t, (E.trace.uops.map (tokens E s d t)).sum ≤ domainCapacity E d

theorem tokenInv_init : TokenInv E 0 E.machineInit := by
  have hzero : ∀ d t, (E.trace.uops.map (tokens E E.machineInit d t)).sum = 0 := by
    intro d t
    refine List.sum_eq_zero fun n hn => ?_
    obtain ⟨x, -, rfl⟩ := List.mem_map.mp hn
    rfl
  refine ⟨fun d => ?_, fun d t _ => ?_, fun d t => ?_⟩
  · rw [domainCapacity, ← Xsai.lookupD_map]
    simp [machineInit, freeSlots]
  · rw [hzero]; exact Nat.zero_le _
  · rw [hzero]; exact Nat.zero_le _

theorem TokenInv.quiet (hs : TokenInv E now s) (h : Quiet s s') : TokenInv E now s' := by
  have htokens : ∀ d t, tokens E s' d t = tokens E s d t := by
    intro d t
    funext x
    have : (laneUses E s').holds x.id t = (laneUses E s).holds x.id t := Uses.holds_congr (h.issue x.id) rfl
    rw [tokens, tokens, this]
  refine ⟨fun d => ?_, fun d t ht => ?_, fun d t => ?_⟩
  · rw [h.issueDomainFree]; exact hs.capacity d
  · rw [htokens, h.issueDomainFree]; exact hs.held d t ht
  · rw [htokens]; exact hs.bounded d t

theorem TokenInv.later {next : ℕ} (hs : TokenInv E now s) (h : now ≤ next) : TokenInv E next s :=
  ⟨hs.capacity, fun d t ht => hs.held d t (h.trans ht), hs.bounded⟩

theorem TokenInv.issue {a : MemoryState × Option ℕ × ℕ} {free : String → List ℕ} (hT : WellFormed E.trace)
    (hc : Inv E now s) (hs : TokenInv E now s) (h : Issues E now s x r free) :
    TokenInv E now (issued E s x now r a free) := by
  have hx : E.uop x.id = x := Setup.uop_eq hT h.issuable.mem
  have hnodup : E.trace.uops.Nodup := hT.uopIds.of_map _
  obtain ⟨hlength, hheld⟩ := reserveIssueDomains_ok _ h.reserved h.fits
  -- the sum changes by the tokens of the new issue
  have hstep : ∀ d t, (E.trace.uops.map (tokens E (issued E s x now r a free) d t)).sum =
      (E.trace.uops.map (tokens E s d t)).sum + tokens E (issued E s x now r a free) d t x := by
    intro d t
    have hold : tokens E s d t x = 0 := by
      simp only [tokens, laneUses, Uses.holds, h.unissued hc, Option.any_none]
      rfl
    have hsum := Serial.sum_of_step hnodup h.issuable.mem (f := tokens E s d t)
      (g := tokens E (issued E s x now r a free) d t) fun y hy hyx => by
        have hid : y.id ≠ x.id := fun he => hyx (Option.some.inj ((hT.uop?_eq hy).symm.trans (he ▸ hT.uop?_eq h.issuable.mem)))
        have : (laneUses E (issued E s x now r a free)).holds y.id t = (laneUses E s).holds y.id t := by
          refine Uses.holds_congr ?_ rfl
          simp only [laneUses, issued_issueTick, if_neg hid]
        rw [tokens, tokens, this]
    omega
  have hself : ∀ d t, tokens E (issued E s x now r a free) d t x =
      if now ≤ t ∧ t < now + x.occupancyTicks then demandOn d x else 0 := by
    intro d t
    simp [tokens, laneUses, Uses.holds, issued_issueTick, hx]
  have hfuture : ∀ d t, now ≤ t →
      (E.trace.uops.map (tokens E (issued E s x now r a free) d t)).sum ≤ Slots.held (free d) t := by
    intro d t ht
    have hbefore := hs.held d t ht
    rw [hstep, hself, hheld d t ht]
    by_cases hlt : t < now + x.occupancyTicks
    · simpa [ht, hlt, demandOn] using hbefore
    · simpa [hlt] using hbefore
  refine ⟨fun d => (hlength d).trans (hs.capacity d), hfuture, fun d t => ?_⟩
  rcases le_or_gt now t with ht | ht
  · exact (hfuture d t ht).trans ((Slots.held_le _ t).trans_eq ((hlength d).trans (hs.capacity d)))
  · -- the past is as it was
    rw [hstep, hself, if_neg (by omega)]
    exact hs.bounded d t

/-! ### All of them -/

/-- The invariants of all the reservations. -/
structure Held (E : Setup) (now : ℕ) (s : Machine) : Prop where
  inv : Inv E now s
  lanes : LaneInv E s
  classes : ClassInv E s
  tokens : TokenInv E now s

theorem Held.init : Held E 0 E.machineInit := ⟨inv_init, laneInv_init, classInv_init, tokenInv_init⟩

theorem Held.step (hT : WellFormed E.trace) (hs : Held E now s) (h : Step E now s s') : Held E now s' := by
  have hinv := inv_step hT hs.inv h
  rcases step_cases h with hq | ⟨x, r, a, free, hi, rfl⟩
  · exact ⟨hinv, hs.lanes.quiet hq, hs.classes.quiet hq, hs.tokens.quiet hq⟩
  · exact ⟨hinv, hs.lanes.issue hT hi, hs.classes.issue hT hs.inv hi, hs.tokens.issue hT hs.inv hi⟩

theorem Held.later {next : ℕ} (hs : Held E now s) (h : now ≤ next) : Held E next s :=
  ⟨hs.inv.later h, hs.lanes, hs.classes, hs.tokens.later h⟩

/-- The reservations of a state of a run. -/
theorem Reachable.held (hT : WellFormed E.trace) (h : Reachable E now s) : Held E now s :=
  h.invariant hT .init (fun _ _ _ hs => hs.step hT) fun _ _ _ hs hlt => hs.later hlt.le

end Zen4
end VectorSim
