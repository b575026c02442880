/-
# A machine that has nothing under way

The uops of a trace stand in program order (`InProgramOrder`). Where nothing that is under
way reaches beyond a tick (`Calm`), a uop whose edges are done (`Clear`) passes the checks
that the engines share; and the first uop of the trace that has not issued is such a uop,
once it is dispatched (`clear_of_first`).
-/
import VectorSim.Backend.Provided
import VectorSim.Backend.Progress
import VectorSim.Backend.Counters

namespace VectorSim

open Checked Setup Core

/-! ### Program order -/

/-- The uops stand in the order of their macro-ops, and the edges of the trace point back. -/
structure InProgramOrder (T : BoundTrace) : Prop where
  listed : T.uops.map (·.id) = T.macros.flatMap (·.uopIds)
  back : ∀ {k : ℕ} {x : ExecutionUop}, T.uops[k]? = some x → ∀ d ∈ x.dependencies ++ x.issueAfterUop.toList,
    ∃ j < k, ∃ y, T.uops[j]? = some y ∧ y.id = d

/-- Of uops whose sequence numbers rise, one with a smaller number stands earlier. -/
theorem place_lt {uops : List ExecutionUop} (h : uops.Pairwise fun x y => x.sequence < y.sequence) {j k : ℕ}
    {x y : ExecutionUop} (hj : uops[j]? = some y) (hk : uops[k]? = some x) (hlt : y.sequence < x.sequence) : j < k := by
  obtain ⟨hjl, hjy⟩ := List.getElem?_eq_some_iff.mp hj
  obtain ⟨hkl, hkx⟩ := List.getElem?_eq_some_iff.mp hk
  by_contra hge
  rcases Nat.lt_or_ge k j with hkj | hjk
  · have hrise := List.pairwise_iff_getElem.mp h k j hkl hjl hkj
    rw [hkx, hjy] at hrise
    omega
  · obtain rfl : j = k := by omega
    rw [hk, Option.some.injEq] at hj
    rw [hj] at hlt
    omega

/-- What comes from a later part of a list without repetitions stands later in it. -/
theorem lt_of_append {α : Type} {l₁ l₂ : List α} (hn : (l₁ ++ l₂).Nodup) {i k : ℕ} {a b : α}
    (ha : (l₁ ++ l₂)[i]? = some a) (hb : (l₁ ++ l₂)[k]? = some b) (ha' : a ∈ l₁) (hb' : b ∈ l₂) : i < k := by
  have hdisjoint := List.disjoint_of_nodup_append hn
  have hi : i < l₁.length := by
    by_contra hge
    rw [List.getElem?_append_right (by omega)] at ha
    exact hdisjoint ha' (List.mem_of_getElem? ha)
  have hk : l₁.length ≤ k := by
    by_contra hlt
    rw [List.getElem?_append_left (by omega)] at hb
    exact hdisjoint (List.mem_of_getElem? hb) hb'
  omega

/-- The uops of an earlier macro-op come earlier. -/
theorem InProgramOrder.earlier {T : BoundTrace} (hT : WellFormed T) (h : InProgramOrder T) {p q i k : ℕ} {m m' : MacroOp}
    {x y : ExecutionUop} (hm : T.macros[p]? = some m) (hm' : T.macros[q]? = some m') (hpq : p < q)
    (hi : T.uops[i]? = some x) (hk : T.uops[k]? = some y) (hx : x.id ∈ m.uopIds) (hy : y.id ∈ m'.uopIds) : i < k := by
  have hn := hT.uopIds
  have hi' : (T.uops.map (·.id))[i]? = some x.id := by rw [List.getElem?_map, hi]; rfl
  have hk' : (T.uops.map (·.id))[k]? = some y.id := by rw [List.getElem?_map, hk]; rfl
  have hsplit : T.macros.flatMap (·.uopIds) = (T.macros.take q).flatMap (·.uopIds) ++ (T.macros.drop q).flatMap (·.uopIds) := by
    rw [← List.flatMap_append, List.take_append_drop]
  rw [h.listed, hsplit] at hn hi' hk'
  refine lt_of_append hn hi' hk' (List.mem_flatMap.mpr ⟨m, ?_, hx⟩) (List.mem_flatMap.mpr ⟨m', ?_, hy⟩)
  · refine List.mem_of_getElem? (i := p) ?_
    rw [List.getElem?_take_of_lt hpq, hm]
  · refine List.mem_of_getElem? (i := 0) ?_
    rw [List.getElem?_drop, Nat.add_zero, hm']

/-- Within a macro-op, the first uops come earlier. -/
theorem InProgramOrder.within {T : BoundTrace} (hT : WellFormed T) (h : InProgramOrder T) {p i k n : ℕ} {m : MacroOp}
    {x y : ExecutionUop} (hm : T.macros[p]? = some m) (hi : T.uops[i]? = some x) (hk : T.uops[k]? = some y)
    (hx : x.id ∈ m.uopIds.take n) (hy : y.id ∈ m.uopIds.drop n) : i < k := by
  have hn := hT.uopIds
  have hi' : (T.uops.map (·.id))[i]? = some x.id := by rw [List.getElem?_map, hi]; rfl
  have hk' : (T.uops.map (·.id))[k]? = some y.id := by rw [List.getElem?_map, hk]; rfl
  obtain ⟨hp, rfl⟩ := List.getElem?_eq_some_iff.mp hm
  have hsplit : T.macros.flatMap (·.uopIds) = ((T.macros.take p).flatMap (·.uopIds) ++ T.macros[p].uopIds.take n) ++
      (T.macros[p].uopIds.drop n ++ (T.macros.drop (p + 1)).flatMap (·.uopIds)) := by
    rw [List.append_assoc, ← List.append_assoc (T.macros[p].uopIds.take n), List.take_append_drop, ← List.flatMap_cons,
      ← List.drop_eq_getElem_cons hp, ← List.flatMap_append, List.take_append_drop]
  rw [h.listed, hsplit] at hn hi' hk'
  exact lt_of_append hn hi' hk' (List.mem_append_right _ hx) (List.mem_append_left _ hy)

namespace Core

variable {T : BoundTrace} {inOrder : Bool} {now : ℕ} {c : Core} {m : MacroOp}

/-! ### The oldest uop that waits -/

theorem foldl_max_le : ∀ (l : List ℕ) (a n : ℕ), a ≤ n → (∀ t ∈ l, t ≤ n) → l.foldl max a ≤ n
  | [], _, _, ha, _ => ha
  | t :: l, _, n, ha, hl =>
    foldl_max_le l _ n (max_le ha (hl t List.mem_cons_self)) fun u hu => hl u (List.mem_cons_of_mem _ hu)

/-- Where the reorder buffer is empty, what has been dispatched has retired. -/
theorem retired_of_empty (hc : Core.Inv T inOrder now c) (hrob : c.rob = [])
    (hm : m ∈ T.macros) (hd : (c.macro_ m.id).dispatchTick.isSome) : (c.macro_ m.id).retireTick.isSome := by
  obtain ⟨r, a, hinv⟩ := hc.rob
  obtain ⟨k, hk, rfl⟩ := List.getElem_of_mem hm
  have hget := List.getElem?_eq_getElem hk
  have hempty := hinv.rob
  rw [hrob, eq_comm, List.map_eq_nil_iff, List.drop_eq_nil_iff, List.length_take] at hempty
  have hka := (hinv.dispatched hget).mp hd
  have hlen := hinv.length
  exact (hinv.retired hget).mpr (by omega)

/-- An empty reorder buffer holds nothing of what macro-ops take. -/
theorem occupancy_empty (hc : Core.Inv T inOrder now c) (hrob : c.rob = []) (entries : MacroOp → ℕ) :
    occupancy T c entries = 0 := by
  have hfilter : T.macros.filter (live c) = [] := by
    refine List.filter_eq_nil_iff.mpr fun m hm hlive => ?_
    obtain ⟨hd, hr⟩ := Bool.and_eq_true_iff.mp hlive
    have := retired_of_empty hc hrob hm hd
    rw [Option.isNone_iff_eq_none.mp hr] at this
    cases this
  rw [occupancy, hfilter]
  rfl

/-- The uops of a macro-op that has retired have issued. -/
theorem Inv.issued_of_retired (hc : Core.Inv T inOrder now c) (hm : m ∈ T.macros)
    (hr : (c.macro_ m.id).retireTick.isSome) {u : Id} (hu : u ∈ m.uopIds) : (c.uop u).issueTick.isSome := by
  obtain ⟨t, ht⟩ := Option.isSome_iff_exists.mp hr
  obtain ⟨t', hcomplete, -⟩ := hc.macros.retire hm ht
  obtain ⟨d, hdone⟩ := Option.isSome_iff_exists.mp ((hc.macros.complete hm hcomplete).1 u hu)
  obtain ⟨i, hi, -⟩ := hc.uops.completed hdone
  simp [hi]

theorem first_unissued (h : ∃ x ∈ T.uops, (c.uop x.id).issueTick = none) :
    ∃ (k : ℕ) (x : ExecutionUop), T.uops[k]? = some x ∧ (c.uop x.id).issueTick = none ∧
      ∀ j < k, ∀ y : ExecutionUop, T.uops[j]? = some y → (c.uop y.id).issueTick.isSome := by
  classical
  have hex : ∃ (k : ℕ) (x : ExecutionUop), T.uops[k]? = some x ∧ (c.uop x.id).issueTick = none := by
    obtain ⟨x, hx, hnone⟩ := h
    obtain ⟨k, hk⟩ := List.mem_iff_getElem?.mp hx
    exact ⟨k, x, hk, hnone⟩
  obtain ⟨x, hx, hnone⟩ := Nat.find_spec hex
  refine ⟨Nat.find hex, x, hx, hnone, fun j hj y hy => ?_⟩
  by_contra hyn
  exact Nat.find_min hex hj ⟨y, hy, by simpa using hyn⟩

/-- The head of the reorder buffer is a macro-op of the trace. -/
theorem Inv.head_macro (h : Inv T inOrder now c) {id : Id} {rest : List Id} (head : c.rob = id :: rest) :
    ∃ m ∈ T.macros, m.id = id := by
  obtain ⟨r, a, hinv⟩ := h.rob
  have hid : id ∈ c.rob := by rw [head]; exact List.mem_cons_self
  rw [hinv.rob] at hid
  obtain ⟨m, hm, rfl⟩ := List.mem_map.mp hid
  exact ⟨m, List.mem_of_mem_take (List.mem_of_mem_drop hm), rfl⟩

/-- What is complete has been so by now. -/
theorem Inv.complete_le (h : Inv T inOrder now c) (hm : m ∈ T.macros) {t : ℕ}
    (hdone : (c.macro_ m.id).completeTick = some t) : t ≤ now := by
  obtain ⟨hall, rfl⟩ := h.macros.complete hm hdone
  refine foldl_max_le _ _ _ (Nat.zero_le _) fun t ht => ?_
  obtain ⟨u, hu, rfl⟩ := List.mem_map.mp ht
  obtain ⟨d, hd⟩ := Option.isSome_iff_exists.mp (hall u hu)
  obtain ⟨i, -, -, hle⟩ := h.uops.completed hd
  rw [hd]
  exact hle

/-- What has issued has completed, where the heap is empty. -/
theorem Tracked.completed (h : Tracked T c) (hheap : c.completionHeap = []) {u : Id} (hu : (c.uop u).issueTick.isSome) :
    (c.uop u).completeTick.isSome := by
  by_contra hnone
  obtain ⟨e, he, -⟩ := h.running u hu (by simpa using hnone)
  rw [hheap] at he
  cases he

/-- **Where the oldest macro-op is not complete and nothing runs**, the first uop of the trace
that has not issued is one of it, or of an earlier one. -/
theorem Inv.exists_first (hT : WellFormed T) (hP : InProgramOrder T) (hc : Inv T inOrder now c) (htracked : Tracked T c)
    (hheap : c.completionHeap = []) (mem : m ∈ T.macros) {rest : List Id} (head : c.rob = m.id :: rest)
    (hopen : (c.macro_ m.id).completeTick = none) : ∃ (k : ℕ) (x : ExecutionUop) (r a q : ℕ) (m' : MacroOp),
      T.uops[k]? = some x ∧ (c.uop x.id).issueTick = none ∧
      (∀ j < k, ∀ y : ExecutionUop, T.uops[j]? = some y → (c.uop y.id).issueTick.isSome) ∧
      RobInv T now c r a ∧ r < a ∧ T.macros[r]? = some m ∧ T.macros[q]? = some m' ∧ q ≤ r ∧ x.id ∈ m'.uopIds := by
  -- a uop of the oldest macro-op has not issued
  obtain ⟨u, hu, hunissued⟩ : ∃ u ∈ m.uopIds, (c.uop u).issueTick = none := by
    by_contra hall
    push Not at hall
    have := htracked.closed m mem fun u hu => htracked.completed hheap (Option.isSome_iff_ne_none.mpr (hall u hu))
    rw [hopen] at this
    cases this
  obtain ⟨y, hy, -⟩ := hT.owned m mem u hu
  obtain ⟨hym, rfl⟩ := T.uop?_mem hy
  obtain ⟨k, x, hx, hnone, hbefore⟩ := first_unissued ⟨y, hym, hunissued⟩
  obtain ⟨i, hi⟩ := List.mem_iff_getElem?.mp hym
  obtain ⟨r, a, hr⟩ := hc.rob
  obtain ⟨hra, hget, -⟩ := hr.head hT mem head
  obtain ⟨m', hm', -, -, hxm⟩ := hT.mem_parent (List.mem_of_getElem? hx)
  obtain ⟨q, hq⟩ := List.mem_iff_getElem?.mp hm'
  refine ⟨k, x, r, a, q, m', hx, hnone, hbefore, hr, hra, hget, hq, ?_, hxm⟩
  by_contra hlt
  have hik := hP.earlier hT hget hq (by omega) hi hx hu hxm
  have := hbefore i hik y hi
  rw [hunissued] at this
  cases this

end Core

namespace Setup

variable {E : Setup} {now h : ℕ} {s s' : Machine} {x : ExecutionUop}

/-! ### Nothing under way -/

/-- Nothing that is under way reaches beyond tick `h`. -/
structure Calm (E : Setup) (h : ℕ) (s : Machine) : Prop where
  heap : ∀ e ∈ s.completionHeap, e.tick ≤ h
  lanes : ∀ x ∈ E.trace.uops, ∀ r ∈ x.resourceChoices, ∀ t ∈ s.resourceFree r, t ≤ h
  tokens : ∀ x ∈ E.trace.uops, ∀ d ∈ x.issueDomains, ∀ t ∈ s.issueDomainFree d, t ≤ h
  classes : ∀ x ∈ E.trace.uops, ∀ t ∈ s.lastClassIssue x.schedulingClass, t + x.issueIntervalTicks ≤ h
  parts : ∀ x ∈ E.trace.uops, ∀ p ∈ x.issueAfterUop, ∀ t ∈ (s.uop p).issueTick, t + x.issueGapTicks ≤ h
  memory : MemoryConfig.Past E.memory s.memory h

theorem exists_bound {α : Type} (l : List α) (f : α → List ℕ) : ∃ h, ∀ x ∈ l, ∀ t ∈ f x, t ≤ h := by
  induction l with
  | nil => exact ⟨0, by simp⟩
  | cons a l ih =>
    obtain ⟨h, hh⟩ := ih
    refine ⟨h + (f a).sum, fun x hx t ht => ?_⟩
    rcases List.mem_cons.mp hx with rfl | hx
    · have := List.le_sum_of_mem ht
      omega
    · have := hh x hx t ht
      omega

/-- What is under way reaches some tick, and no further. -/
theorem exists_calm (E : Setup) (s : Machine) : ∃ h, ∀ h', h ≤ h' → Calm E h' s := by
  obtain ⟨a, ha⟩ := exists_bound s.completionHeap fun e => [e.tick]
  obtain ⟨b, hb⟩ := exists_bound E.trace.uops fun x => x.resourceChoices.flatMap s.resourceFree
  obtain ⟨c, hc⟩ := exists_bound E.trace.uops fun x => x.issueDomains.flatMap s.issueDomainFree
  obtain ⟨d, hd⟩ := exists_bound E.trace.uops fun x =>
    (s.lastClassIssue x.schedulingClass).toList.map (· + x.issueIntervalTicks)
  obtain ⟨p, hp⟩ := exists_bound E.trace.uops fun x =>
    x.issueAfterUop.toList.flatMap fun u => (s.uop u).issueTick.toList.map (· + x.issueGapTicks)
  obtain ⟨q, hq⟩ := exists_bound (List.range (E.memory.dramLevel + 1)) fun l =>
    s.memory.bandwidthFree l .load :: s.memory.bandwidthFree l .store :: s.memory.outstanding l
  refine ⟨a + b + c + d + p + q, fun h' hle => ⟨fun e he => ?_, fun x hx r hr t ht => ?_, fun x hx e he t ht => ?_,
    fun x hx t ht => ?_, fun x hx u hu t ht => ?_, ⟨fun l hl k => ?_, fun l hl t ht => ?_⟩⟩⟩
  · have := ha e he e.tick List.mem_cons_self
    omega
  · have := hb x hx t (List.mem_flatMap.mpr ⟨r, hr, ht⟩)
    omega
  · have := hc x hx t (List.mem_flatMap.mpr ⟨e, he, ht⟩)
    omega
  · have := hd x hx (t + x.issueIntervalTicks) (List.mem_map.mpr ⟨t, by simpa using ht, rfl⟩)
    omega
  · have := hp x hx (t + x.issueGapTicks)
      (List.mem_flatMap.mpr ⟨u, by simpa using hu, List.mem_map.mpr ⟨t, by simpa using ht, rfl⟩⟩)
    omega
  · have hl' : l ∈ List.range (E.memory.dramLevel + 1) := List.mem_range.mpr (by omega)
    have hload := hq l hl' (s.memory.bandwidthFree l .load) (by simp)
    have hstore := hq l hl' (s.memory.bandwidthFree l .store) (by simp)
    cases k with
    | load => omega
    | store => omega
  · have := hq l (List.mem_range.mpr (by omega)) t (by simp [ht])
    omega

/-- A machine of which nothing more is under way stays calm. -/
theorem Calm.of_eq (hs : Calm E h s) (core : s'.toCore = s.toCore) (resourceFree : s'.resourceFree = s.resourceFree)
    (lastClassIssue : s'.lastClassIssue = s.lastClassIssue) (issueDomainFree : s'.issueDomainFree = s.issueDomainFree)
    (bandwidth : s'.memory.bandwidthFree = s.memory.bandwidthFree)
    (outstanding : ∀ l, s'.memory.outstanding l ⊆ s.memory.outstanding l) : Calm E h s' where
  heap e he := by
    rw [show s'.completionHeap = s.completionHeap from congrArg Core.completionHeap core] at he
    exact hs.heap e he
  lanes x hx r hr t ht := by
    rw [resourceFree] at ht
    exact hs.lanes x hx r hr t ht
  tokens x hx d hd t ht := by
    rw [issueDomainFree] at ht
    exact hs.tokens x hx d hd t ht
  classes x hx t ht := by
    rw [lastClassIssue] at ht
    exact hs.classes x hx t ht
  parts x hx p hp t ht := by
    rw [show s'.uop = s.uop from congrArg Core.uop core] at ht
    exact hs.parts x hx p hp t ht
  memory := ⟨fun l hl k => by rw [bandwidth]; exact hs.memory.bandwidth l hl k,
    fun l hl t ht => hs.memory.outstanding l hl t (outstanding l ht)⟩

/-- The counters of a machine with an empty reorder buffer are at zero. -/
theorem counters_empty {entries : MacroOp → ℕ} {uses : MacroOp → Bool}
    (huses : ∀ m ∈ E.trace.macros, uses m = true → ∃ u ∈ m.uopIds, (E.uop u).kind.isVectorResource = true)
    (hc : Core.Inv E.trace E.inOrder now s.toCore) (h : Counters E entries uses s) (hrob : s.rob = []) :
    s.robOccupancy = 0 ∧ s.vectorSchedulerOccupancy = 0 ∧ s.loadQueueOccupancy = 0 ∧ s.storeQueueOccupancy = 0 := by
  have hvector : waitingVector E uses s.toCore = 0 := by
    refine List.countP_eq_zero.mpr fun m hm hwaits => ?_
    simp only [waitsVector, Bool.and_eq_true, Bool.not_eq_true'] at hwaits
    obtain ⟨⟨hd, hu⟩, hany⟩ := hwaits
    -- one of its uops is a vector uop, and has issued
    obtain ⟨u, hmem, hkind⟩ := huses m hm hu
    have hissued := hc.issued_of_retired hm (retired_of_empty hc hrob hm hd) hmem
    have hsome : m.uopIds.any (vectorIssued E s.toCore) = true :=
      List.any_eq_true.mpr ⟨u, hmem, by simp [vectorIssued, hkind, hissued]⟩
    rw [hany] at hsome
    cases hsome
  refine ⟨?_, ?_, ?_, ?_⟩
  · rw [h.rob, occupancy_empty hc hrob]
    rfl
  · rw [h.vector, hvector]
    rfl
  · rw [h.load, occupancy_empty hc hrob]
    rfl
  · rw [h.store, occupancy_empty hc hrob]
    rfl

/-! ### A uop that may issue -/

/-- A uop that may issue as far as the bookkeeping goes. -/
structure Clear (E : Setup) (c : Core) (x : ExecutionUop) : Prop where
  candidate : x ∈ E.issueCandidates c
  mem : x ∈ E.trace.uops
  complete : ∀ d ∈ x.dependencies, (c.uop d).completeTick.isSome
  issued : ∀ p ∈ x.issueAfterUop, (c.uop p).issueTick.isSome

/-- A uop that waits is a candidate, where all before it have issued. -/
theorem candidate_of_first {c : Core} (h : Core.Inv E.trace E.inOrder now c) {k : ℕ} (hx : E.trace.uops[k]? = some x)
    (hnone : (c.uop x.id).issueTick = none) (hd : (c.uop x.id).dispatchTick.isSome)
    (hbefore : ∀ j < k, ∀ y, E.trace.uops[j]? = some y → (c.uop y.id).issueTick.isSome) :
    x ∈ E.issueCandidates c := by
  have hwaiting : x.id ∈ c.unissued := (h.uops.waiting _).mpr ⟨hd, hnone⟩
  unfold issueCandidates
  split
  · next hin =>
    have horder := h.order hin
    -- the index is at the first uop that has not issued
    have hge : c.inOrderIssueIndex ≤ k := by
      by_contra hlt
      have := (horder.issued hx).mpr (by omega)
      rw [hnone] at this
      cases this
    have hle : k ≤ c.inOrderIssueIndex := by
      by_contra hlt
      have hk := (List.getElem?_eq_some_iff.mp hx).1
      have hlt : c.inOrderIssueIndex < E.trace.uops.length := by omega
      have hget := List.getElem?_eq_getElem hlt
      have := (horder.issued hget).mp (hbefore _ (by omega) _ hget)
      omega
    obtain rfl : k = c.inOrderIssueIndex := by omega
    rw [hx]
    simp [hwaiting]
  · rw [List.mem_insertionSort]
    exact List.mem_filter.mpr ⟨List.mem_of_getElem? hx, by simpa using hwaiting⟩

/-- The first uop that has not issued is clear, once it is dispatched. -/
theorem clear_of_first {c : Core} (h : Core.Inv E.trace E.inOrder now c) (hP : InProgramOrder E.trace)
    (htracked : Tracked E.trace c) (hheap : c.completionHeap = []) {k : ℕ} (hx : E.trace.uops[k]? = some x)
    (hnone : (c.uop x.id).issueTick = none) (hd : (c.uop x.id).dispatchTick.isSome)
    (hbefore : ∀ j < k, ∀ y : ExecutionUop, E.trace.uops[j]? = some y → (c.uop y.id).issueTick.isSome) :
    Clear E c x := by
  have hedges : ∀ d ∈ x.dependencies ++ x.issueAfterUop.toList, (c.uop d).issueTick.isSome := by
    intro d hd
    obtain ⟨j, hj, z, hz, rfl⟩ := hP.back hx d hd
    exact hbefore j hj z hz
  exact ⟨candidate_of_first h hx hnone hd hbefore, List.mem_of_getElem? hx,
    fun d hd => htracked.completed hheap (hedges d (List.mem_append_left _ hd)),
    fun p hp => hedges p (List.mem_append_right _ (by simpa using hp))⟩

theorem Clear.dependency (h : Core.Inv E.trace E.inOrder now s.toCore) (hx : Clear E s.toCore x)
    (reason : List Id → Stall) : dependencyBlocker reason s.toCore x now = none := by
  have hready : s.toCore.dependencyReadyTick x ≤ now := by
    refine foldl_max_le _ _ _ ?_ fun t ht => ?_
    · cases hd : (s.uop x.id).dispatchTick with
      | none => exact Nat.zero_le _
      | some d => exact h.uops.dispatched hd
    · obtain ⟨d, -, rfl⟩ := List.mem_map.mp ht
      cases hd : (s.uop d).completeTick with
      | none => exact Nat.zero_le _
      | some t =>
        obtain ⟨i, -, -, hle⟩ := h.uops.completed hd
        exact hle
  exact dependencyBlocker_none.mpr ⟨hx.complete, hready⟩

theorem Clear.part (hx : Clear E s.toCore x) (hc : Calm E now s) : partBlocker s.toCore x now = none := by
  refine partBlocker_none.mpr fun p hp => ?_
  obtain ⟨t, ht⟩ := Option.isSome_iff_exists.mp (hx.issued p hp)
  exact ⟨t, ht, hc.parts x hx.mem p hp t ht⟩

theorem overlapBlocker_off (hover : E.overlap.enabled = false) : E.overlapBlocker s x = none := by
  unfold overlapBlocker overlapBlocked
  simp [hover]

theorem Calm.interval (hc : Calm E now s) (hx : x ∈ E.trace.uops) : intervalBlocker s x now = none :=
  intervalBlocker_none.mpr (hc.classes x hx)

theorem Calm.resource (hc : Calm E now s) (hs : Sized E s) (hE : Provided E) (hx : x ∈ E.trace.uops) :
    resourceBlocker s x now = .ok none := by
  have hfree : anyFree s now x.resourceChoices = .ok true := by
    have hne := (hE.lanes x hx).1
    cases hrs : x.resourceChoices with
    | nil => exact absurd hrs hne
    | cons r rs =>
      have hr : r ∈ x.resourceChoices := by rw [hrs]; exact List.mem_cons_self
      obtain ⟨t, ht⟩ := hs.firstFree hE hx hr
      have hle : t ≤ now := by
        unfold firstFree at ht
        split at ht
        · next t' hmin =>
          cases ht
          exact hc.lanes x hx r hr t (List.min?_eq_some_iff.mp hmin).1
        · cases ht
      rw [anyFree, ht]
      show (if t ≤ now then _ else _) = _
      rw [if_pos hle]
  rw [resourceBlocker, hfree]
  rfl

theorem Calm.domain (hc : Calm E now s) (hs : Sized E s) (hE : Provided E) (hx : x ∈ E.trace.uops) :
    domainBlocker s x now = .ok none := by
  have hfurnished : Furnished (domainBlocker s x now) := domainBlocker_furnished hE hs hx
  obtain ⟨b, hb⟩ := hfurnished.returns domainBlocker_clean
  obtain ⟨ticks, hticks, hb'⟩ := ok_bind.mp hb
  have hle : ∀ t ∈ ticks, t ≤ now := by
    intro t ht
    obtain ⟨d, hd, hready⟩ := forall₂_right (mapM_ok.mp hticks) ht
    obtain ⟨-, rfl⟩ := issueDomainReadyTick_ok hready
    unfold Slots.readyTick
    rw [List.getD_eq_getElem?_getD]
    cases hget : ((s.issueDomainFree d).insertionSort (· ≤ ·))[issueDomainDemand x d - 1]? with
    | none => exact Nat.zero_le _
    | some t' =>
      have := List.mem_of_getElem? hget
      rw [List.mem_insertionSort] at this
      exact hc.tokens x hx d hd t' this
  have hany : ¬ ticks.any (now < ·) = true := by
    intro hany
    obtain ⟨t, ht, hlt⟩ := List.any_eq_true.mp hany
    have := hle t ht
    simp at hlt
    omega
  rw [domainBlocker, hticks]
  show Except.ok (if ticks.any (now < ·) then _ else _) = _
  rw [if_neg hany]

theorem Calm.hierarchy (hc : Calm E now s) (hE : Provided E) (hx : x ∈ E.trace.uops) (hk : x.kind.isMemory = true) :
    ∃ memory, E.hierarchyBlocker s.memory x now = .ok (memory, none) := by
  obtain ⟨a, ha⟩ := Option.isSome_iff_exists.mp (hE.accesses x hx hk)
  obtain ⟨t, ht⟩ := MemoryConfig.blocker_past hE.memory hc.memory a
  refine ⟨t, ?_⟩
  rw [hierarchyBlocker, ha, ht]
  rfl

/-! ### Cycles -/

/-- No visit is skipped that begins a cycle. -/
theorem nextCycle_le (htpc : 0 < E.ticksPerCycle) (hb : E.boundary h = true) (hlt : now < h) : E.nextCycle now ≤ h := by
  have hmod : h % E.ticksPerCycle = 0 := by simpa [boundary] using hb
  have hdvd : E.ticksPerCycle * (h / E.ticksPerCycle) = h := Nat.mul_div_cancel' (Nat.dvd_of_mod_eq_zero hmod)
  have hdiv : now / E.ticksPerCycle < h / E.ticksPerCycle := (Nat.div_lt_iff_lt_mul htpc).mpr (by rwa [Nat.mul_comm, hdvd])
  calc E.nextCycle now = (now / E.ticksPerCycle + 1) * E.ticksPerCycle := rfl
    _ ≤ h / E.ticksPerCycle * E.ticksPerCycle := Nat.mul_le_mul_right _ hdiv
    _ = h := by rw [Nat.mul_comm, hdvd]

end Setup
end VectorSim
