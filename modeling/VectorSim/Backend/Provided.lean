/-
# What both engines find

Where a profile is measured, and a trace asks for no more than there is (`Provided`), the
checks and actions that the engines share raise nothing that a missing parameter, resource
or token would raise: every error left is an internal one (`Furnished`).
-/
import VectorSim.Backend.Errors
import VectorSim.Backend.Xsai
import VectorSim.Memory.Service

namespace VectorSim

open Checked Setup Core

/-- The computation finds what it reads: it raises internal errors at most. -/
abbrev Furnished {α : Type} (x : Except SimError α) : Prop := Raises (fun e => e.isInternal = true) x

theorem Furnished.returns {α : Type} {x : Except SimError α} (hf : Furnished x) (hc : Clean x) : ∃ a, x = .ok a := by
  cases x with
  | ok a => exact ⟨a, rfl⟩
  | error e =>
    have hyes := hf e rfl
    have hno := hc e rfl
    simp [hyes] at hno

theorem furnished_ok {α : Type} {x : Except SimError α} {a : α} (h : x = .ok a) : Furnished x := h ▸ raises_ok

theorem pipelineInt_furnished {value : Option ℕ} {name : String} (h : value.isSome) : Furnished (pipelineInt value name) := by
  obtain ⟨n, rfl⟩ := Option.isSome_iff_exists.mp h
  exact raises_ok

namespace Setup

variable {E : Setup} {now : ℕ} {s s' : Machine} {x : ExecutionUop}

/-- The lanes, tokens and memory that the uops of the trace ask for. -/
structure Provided (E : Setup) : Prop where
  lanes : ∀ x ∈ E.trace.uops, x.resourceChoices ≠ [] ∧ ∀ r ∈ x.resourceChoices, 0 < lookupD E.trace.resources r 0
  distinct : ∀ x ∈ E.trace.uops, x.issueDomains.Nodup
  domains : ∀ x ∈ E.trace.uops, ∀ d ∈ x.issueDomains, issueDomainDemand x d ≤ Xsai.capacityOf E.issueDomains d
  accesses : ∀ x ∈ E.trace.uops, x.kind.isMemory = true → x.memory.isSome
  memory : E.memory.Measured

/-- The lanes and tokens are all there. -/
structure Sized (E : Setup) (s : Machine) : Prop where
  lanes : ∀ r, (s.resourceFree r).length = lookupD E.trace.resources r 0
  domains : ∀ d, (s.issueDomainFree d).length = Xsai.capacityOf E.issueDomains d

theorem Sized.of_eq (h : Sized E s) (hr : s'.resourceFree = s.resourceFree) (hd : s'.issueDomainFree = s.issueDomainFree) :
    Sized E s' :=
  ⟨fun r => by rw [hr]; exact h.lanes r, fun d => by rw [hd]; exact h.domains d⟩

/-! ### Checks -/

theorem Sized.firstFree (hE : Provided E) (h : Sized E s) (hx : x ∈ E.trace.uops) {r : String}
    (hr : r ∈ x.resourceChoices) : ∃ t, Setup.firstFree s r = .ok t := by
  unfold Setup.firstFree
  cases hmin : (s.resourceFree r).min? with
  | none =>
    have hlen := h.lanes r
    have hpos := (hE.lanes x hx).2 r hr
    rw [List.min?_eq_none_iff.mp hmin] at hlen
    simp only [List.length_nil] at hlen
    omega
  | some t => exact ⟨t, rfl⟩

theorem firstFree_furnished (hE : Provided E) (h : Sized E s) (hx : x ∈ E.trace.uops) {r : String}
    (hr : r ∈ x.resourceChoices) : Furnished (firstFree s r) := by
  obtain ⟨t, ht⟩ := h.firstFree hE hx hr
  exact furnished_ok ht

theorem anyFree_furnished (hE : Provided E) (h : Sized E s) (hx : x ∈ E.trace.uops) :
    ∀ rs : List String, rs ⊆ x.resourceChoices → Furnished (anyFree s now rs)
  | [], _ => raises_ok
  | r :: rs, hrs => (firstFree_furnished hE h hx (hrs List.mem_cons_self)).bind fun t _ => by
    split
    · exact raises_ok
    · exact anyFree_furnished hE h hx rs fun q hq => hrs (List.mem_cons_of_mem _ hq)

theorem resourceBlocker_furnished (hE : Provided E) (h : Sized E s) (hx : x ∈ E.trace.uops) :
    Furnished (resourceBlocker s x now) := by
  refine (anyFree_furnished hE h hx _ (List.Subset.refl _)).bind fun free _ => ?_
  split
  · exact raises_ok
  · refine (raises_mapM fun r hr => firstFree_furnished hE h hx hr).bind fun ticks hticks => ?_
    split
    · exact raises_ok
    · next hmin =>
      -- there is a resource to choose
      have hlen := (mapM_ok.mp hticks).length_eq
      rw [List.min?_eq_none_iff.mp hmin, List.length_nil] at hlen
      exact absurd (List.length_eq_zero_iff.mp hlen) (hE.lanes x hx).1

theorem issueDomainReadyTick_furnished (hE : Provided E) (h : Sized E s) (hx : x ∈ E.trace.uops) {d : String}
    (hd : d ∈ x.issueDomains) : Furnished (issueDomainReadyTick s x d) := by
  unfold issueDomainReadyTick
  rw [if_neg]
  · exact raises_ok
  · rw [h.domains d]
    exact not_lt.mpr (hE.domains x hx d hd)

theorem domainBlocker_furnished (hE : Provided E) (h : Sized E s) (hx : x ∈ E.trace.uops) :
    Furnished (domainBlocker s x now) :=
  (raises_mapM fun _ hd => issueDomainReadyTick_furnished hE h hx hd).bind fun _ _ => raises_ok

theorem waitingTicks_furnished (hE : Provided E) (h : Sized E s) (hx : x ∈ E.trace.uops) (earliest : Option ℕ) :
    Furnished (waitingTicks s x now earliest) :=
  (raises_mapM fun _ hr => firstFree_furnished hE h hx hr).bind fun _ _ =>
    (raises_mapM fun _ hd => issueDomainReadyTick_furnished hE h hx hd).bind fun _ _ => raises_ok

/-- The events of a uop that waits are later ones. -/
theorem waitingTicks_later {earliest : Option ℕ} {ticks : List ℕ} (h : waitingTicks s x now earliest = .ok ticks) :
    ∀ t ∈ ticks, now < t := by
  obtain ⟨resources, -, h⟩ := ok_bind.mp h
  obtain ⟨domains, -, h⟩ := ok_bind.mp h
  cases h
  intro t ht
  simpa using (List.mem_filter.mp ht).2

theorem hierarchyBlocker_furnished (hE : Provided E) (hx : x ∈ E.trace.uops) (hk : x.kind.isMemory = true)
    (memory : MemoryState) : Furnished (E.hierarchyBlocker memory x now) := by
  obtain ⟨a, ha⟩ := Option.isSome_iff_exists.mp (hE.accesses x hx hk)
  obtain ⟨r, hr⟩ := MemoryConfig.blocker_answers hE.memory memory a now
  rw [hierarchyBlocker, ha, hr]
  exact raises_ok

/-- An access that the check has let through is served. -/
theorem access_furnished (hE : Provided E) {memory memory' : MemoryState}
    (h : E.hierarchyBlocker memory x now = .ok (memory', none)) :
    Furnished (liftMemory (E.memory.access memory' x.memory now)) := by
  obtain ⟨⟨t, b⟩, hb, h⟩ := ok_bind.mp h
  cases hm : E.memory.blocker memory x.memory now with
  | error e => rw [hm] at hb; cases hb
  | ok r =>
    rw [hm] at hb
    cases hb
    cases b with
    | some b => cases h
    | none =>
      cases h
      cases hx : x.memory with
      | none => rw [hx] at hm; cases hm
      | some a =>
        rw [hx] at hm
        obtain ⟨q, hq⟩ := MemoryConfig.access_answers hE.memory (MemoryConfig.blocker_again hm)
        simp only [hq]
        exact raises_ok

/-- The check of the hierarchy forgets at most. -/
theorem hierarchyBlocker_settled {memory : MemoryState} {r : MemoryState × Option Blocked}
    (h : E.hierarchyBlocker memory x now = .ok r) :
    r.1.bandwidthFree = memory.bandwidthFree ∧ ∀ l, r.1.outstanding l ⊆ memory.outstanding l := by
  obtain ⟨p, hp, h⟩ := ok_bind.mp h
  cases h
  cases hb : E.memory.blocker memory x.memory now with
  | error e => rw [hb] at hp; cases hp
  | ok p' =>
    rw [hb] at hp
    cases hp
    exact MemoryConfig.blocker_settled hb

/-! ### Actions -/

theorem reserveIssueDomains_furnished : ∀ (ds : List String) (free : String → List ℕ),
    Furnished (reserveIssueDomains x now ds free)
  | [], _ => raises_ok
  | d :: ds, free => by
    unfold reserveIssueDomains
    dsimp only
    split
    · exact raises_error rfl
    · exact reserveIssueDomains_furnished ds _

end Setup
end VectorSim
