/-
# Tokens of a cycle and flows in service

The vector reads are counted in the cycle of the issue, the completions in the
cycle in which the uop completes; both are instances of `CycleInv`. A
completion is moved to the first cycle that has a token left
(`completionTickFrom_available`). A vector memory flow is in service from its
issue until its service ticks have passed or, without any, until it completes;
`ServiceInv` bounds how many there are.
-/
import VectorSim.Backend.Hazards

namespace VectorSim
namespace Xsai

open Checked Setup Core

variable {E : Config} {now : ℕ} {s s' : Sched} {x : ExecutionUop}

/-! ### Tokens of a cycle -/

/-- Every use of a domain in a cycle has a reservation, and the reservations of a cycle are
within the capacity. -/
structure CycleInv (uops : List ExecutionUop) (capacity : String → ℕ) (reserved : String → List ℕ)
    (uses : String → ℕ → ExecutionUop → Bool) : Prop where
  counted : ∀ d c, uops.countP (uses d c) ≤ (reserved d).count c
  bounded : ∀ d c, (reserved d).count c ≤ capacity d

section CycleInv

variable {uops : List ExecutionUop} {capacity : String → ℕ} {reserved : String → List ℕ}
  {uses uses' : String → ℕ → ExecutionUop → Bool}

theorem CycleInv.reserve (h : CycleInv uops capacity reserved uses) (hn : uops.Nodup)
    (hmem : x ∈ uops) {d₀ : String}
    {c₀ : ℕ} (room : (reserved d₀).count c₀ < capacity d₀)
    (hother : ∀ d c, ∀ y ∈ uops, y ≠ x → uses' d c y = uses d c y)
    (hself : ∀ d c, uses' d c x = true → d = d₀ ∧ c = c₀) :
    CycleInv uops capacity (Function.update reserved d₀ (c₀ :: reserved d₀)) uses' where
  counted d c := by
    have hstep := Serial.countP_of_step hn hmem (hother d c)
    have hc := h.counted d c
    refine (show uops.countP (uses' d c) ≤ uops.countP (uses d c) + (uses' d c x).toNat by omega).trans ?_
    by_cases hx : uses' d c x = true
    · obtain ⟨rfl, rfl⟩ := hself d c hx
      rw [hx, Function.update_self, List.count_cons_self]
      exact Nat.add_le_add_right hc 1
    · simp only [Bool.not_eq_true] at hx
      rw [hx]
      by_cases hd : d = d₀
      · subst hd
        rw [Function.update_self]
        exact hc.trans List.count_le_count_cons
      · rw [Function.update_of_ne hd]; exact hc
  bounded d c := by
    have hb := h.bounded d c
    by_cases hd : d = d₀
    · subst hd
      rw [Function.update_self, List.count_cons]
      split
      · next hc => obtain rfl : c₀ = c := by simpa using hc
                   exact room
      · exact hb
    · rw [Function.update_of_ne hd]; exact hb

theorem CycleInv.skip (h : CycleInv uops capacity reserved uses) (hn : uops.Nodup) (hmem : x ∈ uops)
    (hother : ∀ d c, ∀ y ∈ uops, y ≠ x → uses' d c y = uses d c y)
    (hself : ∀ d c, uses' d c x = false) : CycleInv uops capacity reserved uses' where
  counted d c := by
    have hstep := Serial.countP_of_step hn hmem (hother d c)
    have hc := h.counted d c
    rw [hself, Bool.toNat_false] at hstep
    omega
  bounded := h.bounded

end CycleInv

/-- The uop reads vectors through the domain in the cycle. -/
def reads (E : Config) (s : Sched) (d : String) (c : ℕ) (x : ExecutionUop) : Bool :=
  (pathOf (s.placement x.id)).readDomain = some d &&
    (s.uop x.id).issueTick.any fun i => i / E.ticksPerCycle = c

/-- The tick at which a uop that has issued is complete. -/
def dueTick (s : Sched) (u : Id) : Option ℕ :=
  (s.uop u).issueTick.map (· + (s.uop u).latencyTicks)

/-- The uop writes back through the domain in the cycle. -/
def writes (E : Config) (s : Sched) (d : String) (c : ℕ) (x : ExecutionUop) : Bool :=
  (pathOf (s.placement x.id)).completionDomain = some d &&
    (dueTick s x.id).any fun t => t / E.ticksPerCycle = c

abbrev ReadInv (E : Config) (s : Sched) : Prop :=
  CycleInv E.trace.uops (capacityOf E.readCapacity) s.readReservations (reads E s)

abbrev WriteInv (E : Config) (s : Sched) : Prop :=
  CycleInv E.trace.uops (capacityOf E.completionCapacity) s.completionReservations (writes E s)

theorem readInv_init : ReadInv E (schedInit E) := by
  refine ⟨fun d c => ?_, fun d c => Nat.zero_le _⟩
  rw [List.countP_eq_zero.mpr fun x _ => by simp [reads, schedInit, machineInit, Core.init]]
  exact Nat.zero_le _

theorem writeInv_init : WriteInv E (schedInit E) := by
  refine ⟨fun d c => ?_, fun d c => Nat.zero_le _⟩
  rw [List.countP_eq_zero.mpr fun x _ => by simp [writes, dueTick, schedInit, machineInit, Core.init]]
  exact Nat.zero_le _

theorem readInv_quiet (hs : ReadInv E s) (h : Quiet s s') : ReadInv E s' := by
  have : reads E s' = reads E s := by
    funext d c x
    rw [reads, reads, h.issue, h.placement]
  rw [ReadInv, this, h.readReservations]
  exact hs

theorem Quiet.dueTick (h : Quiet s s') (u : Id) : dueTick s' u = Xsai.dueTick s u := by
  rw [Xsai.dueTick, Xsai.dueTick, h.issue, h.latency]

theorem writeInv_quiet (hs : WriteInv E s) (h : Quiet s s') : WriteInv E s' := by
  have : writes E s' = writes E s := by
    funext d c x
    rw [writes, writes, h.dueTick, h.placement]
  rw [WriteInv, this, h.completionReservations]
  exact hs

section Issue

variable {r : Reserved}

theorem issued_dueTick (u : Id) : dueTick (issued E s x now r) u = if u = x.id then
    some (now + ((reserveCompletion E s r.path.completionDomain (now + r.latency)).2 - now))
    else dueTick s u := by
  simp only [dueTick, issued, issue_uop]
  split <;> rfl

/-- A uop of the trace that is not the one that issues has another id. -/
theorem Issues.id_ne (hT : WellFormed E.trace) (h : Issues E now s x r) {y : ExecutionUop}
    (hy : y ∈ E.trace.uops) (hyx : y ≠ x) : y.id ≠ x.id :=
  fun he => hyx (uop_ext hT h.issuable.mem hy he)

theorem readInv_issue (hT : WellFormed E.trace) (hs : ReadInv E s) (h : Issues E now s x r) :
    ReadInv E (issued E s x now r) := by
  have hother : ∀ d c, ∀ y ∈ E.trace.uops, y ≠ x →
      reads E (issued E s x now r) d c y = reads E s d c y := by
    intro d c y hy hyx
    have hid := h.id_ne hT hy hyx
    rw [reads, reads, issued_issueTick, if_neg hid, issued_placement, if_neg hid]
  have hself : ∀ d c, reads E (issued E s x now r) d c x = true ↔
      r.path.readDomain = some d ∧ now / E.ticksPerCycle = c := by
    intro d c
    simp [reads, issued_issueTick, issued_placement]
  have hres := h.reserved.reads
  have hfield : (issued E s x now r).readReservations = r.readReservations := rfl
  unfold ReadInv
  rw [hfield]
  cases hd : r.path.readDomain with
  | none =>
    rw [hd] at hres
    have : r.readReservations = s.readReservations := (Except.ok.inj hres).symm
    rw [this]
    refine hs.skip (uops_nodup hT) h.issuable.mem hother fun d c => ?_
    rw [Bool.eq_false_iff, ne_eq, hself, hd]
    simp
  | some d₀ =>
    rw [hd] at hres
    unfold reserveRead at hres
    dsimp only at hres
    split at hres
    · cases hres
    · next hav =>
      simp only [Bool.not_eq_true, Bool.not_eq_false', readAvailable, decide_eq_true_eq] at hav
      have : r.readReservations =
          Function.update s.readReservations d₀ (now / E.ticksPerCycle :: s.readReservations d₀) :=
        (Except.ok.inj hres).symm
      rw [this]
      refine hs.reserve (uops_nodup hT) h.issuable.mem hav hother fun d c hx => ?_
      obtain ⟨h1, h2⟩ := (hself d c).mp hx
      rw [hd] at h1
      exact ⟨(Option.some.inj h1).symm, h2.symm⟩

/-! ### The tick of a completion -/

theorem nextCycle_div (htpc : 0 < E.ticksPerCycle) (t : ℕ) :
    E.nextCycle t / E.ticksPerCycle = t / E.ticksPerCycle + 1 := by
  rw [nextCycle, Nat.mul_div_cancel _ htpc]

theorem lt_nextCycle (htpc : 0 < E.ticksPerCycle) (t : ℕ) : t < E.nextCycle t := by
  have := Nat.lt_div_mul_add htpc (a := t)
  rw [nextCycle, Nat.add_mul, Nat.one_mul]
  exact this

/-- The entries from `n` on are those after it and those at it. -/
theorem countP_succ_add_count (n : ℕ) (l : List ℕ) :
    l.countP (n + 1 ≤ ·) + l.count n = l.countP (n ≤ ·) := by
  induction l with
  | nil => rfl
  | cons a l ih =>
    have hone : (if decide (n + 1 ≤ a) = true then 1 else 0) + (if (a == n) = true then 1 else 0) =
        if decide (n ≤ a) = true then 1 else 0 := by
      rcases lt_trichotomy a n with h | rfl | h
      · simp [show ¬ n + 1 ≤ a by omega, show ¬ n ≤ a by omega, h.ne]
      · simp
      · simp [show n + 1 ≤ a by omega, show n ≤ a by omega, h.ne']
    rw [List.countP_cons, List.countP_cons, List.count_cons, ← ih, ← hone]
    omega

/-- The loop ends at a cycle with a token: each cycle before has a reservation of its own. -/
theorem completionTickFrom_available (htpc : 0 < E.ticksPerCycle) {d : String}
    (hcap : 0 < capacityOf E.completionCapacity d) : ∀ (fuel tick : ℕ),
    (s.completionReservations d).countP (tick / E.ticksPerCycle ≤ ·) ≤ fuel →
    completionAvailable E s d (completionTickFrom E s d fuel tick) = true
  | 0, tick, h => by
    have hnone : (s.completionReservations d).count (tick / E.ticksPerCycle) = 0 := by
      rw [List.count_eq_zero]
      intro hm
      have := List.countP_eq_zero.mp (Nat.le_zero.mp h) _ hm
      simp at this
    simpa [completionTickFrom, completionAvailable, hnone] using hcap
  | fuel + 1, tick, h => by
    unfold completionTickFrom
    split
    · assumption
    · next hfull =>
      refine completionTickFrom_available htpc hcap fuel _ ?_
      -- the cycle is full, so it has a reservation, and later cycles have one less
      have hpos : 0 < (s.completionReservations d).count (tick / E.ticksPerCycle) := by
        simp only [completionAvailable, decide_eq_true_eq, not_lt] at hfull
        omega
      have hsplit := countP_succ_add_count (tick / E.ticksPerCycle) (s.completionReservations d)
      rw [nextCycle_div htpc]
      omega

theorem le_completionTickFrom (htpc : 0 < E.ticksPerCycle) (d : String) : ∀ (fuel tick : ℕ),
    tick ≤ completionTickFrom E s d fuel tick
  | 0, tick => le_rfl
  | fuel + 1, tick => by
    unfold completionTickFrom
    split
    · exact le_rfl
    · exact (lt_nextCycle htpc tick).le.trans (le_completionTickFrom htpc d fuel _)

/-- A reserved completion is not before the tick that was asked for. -/
theorem le_reserveCompletion (htpc : 0 < E.ticksPerCycle) (d : Option String) (tick : ℕ) :
    tick ≤ (reserveCompletion E s d tick).2 := by
  unfold reserveCompletion
  cases d with
  | none => exact le_rfl
  | some d => exact le_completionTickFrom htpc d _ _

theorem writeInv_issue (hT : WellFormed E.trace) (htpc : 0 < E.ticksPerCycle) (hs : WriteInv E s)
    (h : Issues E now s x r) : WriteInv E (issued E s x now r) := by
  have hother : ∀ d c, ∀ y ∈ E.trace.uops, y ≠ x →
      writes E (issued E s x now r) d c y = writes E s d c y := by
    intro d c y hy hyx
    have hid := h.id_ne hT hy hyx
    rw [writes, writes, issued_dueTick, if_neg hid, issued_placement, if_neg hid]
  have hdue : now + ((reserveCompletion E s r.path.completionDomain (now + r.latency)).2 - now) =
      (reserveCompletion E s r.path.completionDomain (now + r.latency)).2 := by
    have := le_reserveCompletion (s := s) htpc r.path.completionDomain (now + r.latency)
    omega
  have hself : ∀ d c, writes E (issued E s x now r) d c x = true ↔
      r.path.completionDomain = some d ∧
        (reserveCompletion E s r.path.completionDomain (now + r.latency)).2 / E.ticksPerCycle = c := by
    intro d c
    rw [writes, issued_dueTick, if_pos rfl, hdue, issued_placement, if_pos rfl]
    simp
  have hfield : (issued E s x now r).completionReservations =
      (reserveCompletion E s r.path.completionDomain (now + r.latency)).1 := rfl
  unfold WriteInv
  rw [hfield]
  cases hd : r.path.completionDomain with
  | none =>
    refine hs.skip (uops_nodup hT) h.issuable.mem hother fun d c => ?_
    rw [Bool.eq_false_iff, ne_eq, hself, hd]
    simp
  | some d₀ =>
    have hcap : 0 < capacityOf E.completionCapacity d₀ := by
      have := h.reserved.path.completion d₀ hd
      simp only [completionAvailable, decide_eq_true_eq] at this
      omega
    have hroom := completionTickFrom_available (s := s) htpc hcap
      (s.completionReservations d₀).length (now + r.latency) List.countP_le_length
    simp only [completionAvailable, decide_eq_true_eq] at hroom
    refine hs.reserve (uops_nodup hT) h.issuable.mem hroom hother fun d c hx => ?_
    obtain ⟨h1, h2⟩ := (hself d c).mp hx
    rw [hd] at h1 h2
    exact ⟨(Option.some.inj h1).symm, h2.symm⟩

end Issue

/-! ### Flows in service -/

/-- How long a flow is in service once it has issued. -/
def serviceLength (E : Config) (s : Sched) (x : ExecutionUop) : ℕ :=
  (serviceTicks E x).getD (s.uop x.id).latencyTicks

/-- A vector memory uop of the kind is in service at the tick. -/
def inService (E : Config) (s : Sched) (k : AccessKind) (t : ℕ) (x : ExecutionUop) : Bool :=
  isVectorMemory E x && accessKind x = k &&
    (s.uop x.id).issueTick.any fun i => i ≤ t ∧ t < i + serviceLength E s x

theorem inService_iff {k : AccessKind} {t : ℕ} : inService E s k t x = true ↔
    isVectorMemory E x = true ∧ accessKind x = k ∧
      ∃ i, (s.uop x.id).issueTick = some i ∧ i ≤ t ∧ t < i + serviceLength E s x := by
  simp [inService, Option.any_eq_true, and_assoc]

structure ServiceInv (E : Config) (now : ℕ) (s : Sched) : Prop where
  /-- A flow in service has not been released. -/
  inflight : ∀ {k x}, x ∈ E.trace.uops → inService E s k now x = true → x.id ∈ s.inflight k
  due : ∀ e ∈ s.serviceHeap, ∃ i n, (s.uop e.id).issueTick = some i ∧
    serviceTicks E (E.uop e.id) = some n ∧ e.tick = i + n
  released : ∀ {k capacity}, E.vectorMemory.serviceCapacity.lookup k = some capacity →
    (s.inflight k).length ≤ capacity
  bounded : ∀ {k capacity} (t : ℕ), E.vectorMemory.serviceCapacity.lookup k = some capacity →
    E.trace.uops.countP (inService E s k t) ≤ capacity

theorem serviceInv_init : ServiceInv E 0 (schedInit E) where
  inflight _ h := by
    obtain ⟨-, -, i, hi, -⟩ := inService_iff.mp h
    cases hi
  due e he := by cases he
  released _ := Nat.zero_le _
  bounded t _ := by
    rw [List.countP_eq_zero.mpr fun x _ => by simp [inService, schedInit, machineInit, Core.init]]
    exact Nat.zero_le _

theorem inService_congr {k : AccessKind} {t : ℕ}
    (hi : (s'.uop x.id).issueTick = (s.uop x.id).issueTick)
    (hl : (s'.uop x.id).latencyTicks = (s.uop x.id).latencyTicks) :
    inService E s' k t x = inService E s k t x := by
  rw [inService, inService, serviceLength, serviceLength, hi, hl]

/-- Where issue ticks and latencies stay, and only flows that are done are released, the
flows in service stay so. -/
theorem ServiceInv.release (hs : ServiceInv E now s) (h : Quiet s s')
    (keep : ∀ {k x}, x ∈ E.trace.uops → inService E s k now x = true → x.id ∈ s.inflight k →
      x.id ∈ s'.inflight k)
    (less : ∀ k, (s'.inflight k).length ≤ (s.inflight k).length)
    (heap : s'.serviceHeap ⊆ s.serviceHeap) : ServiceInv E now s' where
  inflight {k x} hx hin := by
    rw [inService_congr (h.issue x.id) (h.latency x.id)] at hin
    exact keep hx hin (hs.inflight hx hin)
  due e he := by
    obtain ⟨i, n, h1, h2, h3⟩ := hs.due e (heap he)
    exact ⟨i, n, by rw [h.issue]; exact h1, h2, h3⟩
  released hk := (less _).trans (hs.released hk)
  bounded {k capacity} t hk := by
    have : E.trace.uops.countP (inService E s' k t) = E.trace.uops.countP (inService E s k t) :=
      List.countP_congr fun x _ => by rw [inService_congr (h.issue x.id) (h.latency x.id)]
    rw [this]
    exact hs.bounded t hk

/-- The release of one flow that is not in service any more. -/
theorem ServiceInv.erase (hs : ServiceInv E now s) (h : Quiet s s') (k₀ : AccessKind) (u : Id)
    (done : ∀ {k x}, x ∈ E.trace.uops → x.id = u → inService E s k now x = false)
    (hin : s'.inflight = Function.update s.inflight k₀ ((s.inflight k₀).erase u))
    (heap : s'.serviceHeap ⊆ s.serviceHeap) : ServiceInv E now s' := by
  refine hs.release h (fun {k x} hx hserv hmem => ?_) (fun k => ?_) heap
  · have hne : x.id ≠ u := by
      intro he
      rw [done hx he] at hserv
      cases hserv
    rw [hin]
    by_cases hk : k = k₀
    · subst hk
      rw [Function.update_self]
      exact (List.mem_erase_of_ne hne).mpr hmem
    · rw [Function.update_of_ne hk]; exact hmem
  · rw [hin]
    by_cases hk : k = k₀
    · subst hk
      rw [Function.update_self]
      exact (List.erase_sublist).length_le
    · rw [Function.update_of_ne hk]

theorem ServiceInv.complete (hT : WellFormed E.trace) (hc : CoreInv E now s)
    (hs : ServiceInv E now s) {e : HeapEntry} {rest : List HeapEntry}
    (head : s.completionHeap = e :: rest) (due : e.tick ≤ now)
    (hq : Quiet s (completeEntry E s e rest).2) : ServiceInv E now (completeEntry E s e rest).2 := by
  unfold completeEntry at hq ⊢
  dsimp only at hq ⊢
  split
  · next h =>
    rw [if_pos h] at hq
    exact hs.release hq (fun _ _ hm => hm) (fun _ => le_rfl) (List.Subset.refl _)
  · next h =>
    rw [if_neg h] at hq
    dsimp only at hq ⊢
    cases hn : serviceTicks E (E.uop e.id) with
    | some n =>
      refine hs.release (by simpa [hn] using hq) (fun _ _ hm => by simpa [hn] using hm)
        (fun _ => by simp) (List.Subset.refl _)
    | none =>
      obtain ⟨i, hi, htick⟩ := hc.uops.due e (head ▸ List.mem_cons_self)
      refine hs.erase (by simpa [hn] using hq) (accessKind (E.uop e.id)) e.id (fun {k x} hx he => ?_)
        (by simp) (List.Subset.refl _)
      -- it completes now, which ends its service
      rw [Bool.eq_false_iff]
      intro hin
      obtain ⟨-, -, j, hj, -, hlt⟩ := inService_iff.mp hin
      rw [← he, uop_eq hT hx] at hn
      rw [← he] at hi htick
      rw [hi] at hj
      cases hj
      rw [serviceLength, hn, Option.getD_none] at hlt
      omega

theorem ServiceInv.releaseFlow (hT : WellFormed E.trace) (hs : ServiceInv E now s) {e : HeapEntry}
    {rest : List HeapEntry} (head : s.serviceHeap = e :: rest) (due : e.tick ≤ now)
    (hq : Quiet s (releaseFlow E s e rest)) : ServiceInv E now (releaseFlow E s e rest) := by
  obtain ⟨i, n, hi, hn, htick⟩ := hs.due e (head ▸ List.mem_cons_self)
  refine hs.erase hq (accessKind (E.uop e.id)) e.id (fun {k x} hx he => ?_) rfl ?_
  · rw [Bool.eq_false_iff]
    intro hin
    obtain ⟨-, -, j, hj, -, hlt⟩ := inService_iff.mp hin
    rw [← he, uop_eq hT hx] at hn
    rw [← he, hj] at hi
    cases hi
    rw [serviceLength, hn, Option.getD_some] at hlt
    omega
  · intro e' he'
    rw [head]
    exact List.mem_cons_of_mem _ he'

/-- Where the checks of a vector memory uop pass, there is room for its flow. -/
theorem service_room (hx : isVectorMemory E x = true) (h : vectorMemoryBlocker E s x now = .ok none)
    {capacity : ℕ+} (hk : E.vectorMemory.serviceCapacity.lookup (accessKind x) = some capacity) :
    (s.inflight (accessKind x)).length < capacity := by
  unfold vectorMemoryBlocker at h
  rw [if_pos hx] at h
  obtain ⟨b, -, h⟩ := ok_bind.mp h
  split at h
  · cases h
  · obtain ⟨b', hb', h⟩ := ok_bind.mp h
    split at h
    · cases h
    · unfold serviceBlocker at hb'
      rw [hk] at hb'
      dsimp only at hb'
      split at hb'
      · split at hb' <;> cases hb'
      · omega

theorem isMemory_of_isVectorMemory (h : isVectorMemory E x = true) : x.kind.isMemory = true := by
  simp only [isVectorMemory, Bool.and_eq_true] at h
  exact h.1

theorem length_insert_le (u : Id) (l : List Id) : (l.insert u).length ≤ l.length + 1 := by
  by_cases h : u ∈ l
  · rw [List.insert_of_mem h]; exact Nat.le_succ _
  · rw [List.insert_of_not_mem h]; exact le_rfl

theorem ServiceInv.issue {r : Reserved} (hT : WellFormed E.trace) (hc : CoreInv E now s)
    (hs : ServiceInv E now s) (h : Issues E now s x r) : ServiceInv E now (issued E s x now r) := by
  have hother : ∀ k t, ∀ y ∈ E.trace.uops, y ≠ x →
      inService E (issued E s x now r) k t y = inService E s k t y := by
    intro k t y hy hyx
    have hid := h.id_ne hT hy hyx
    refine inService_congr ?_ ?_
    · rw [issued_issueTick, if_neg hid]
    · simp only [issued, issue_uop, if_neg hid]
  have hroom : isVectorMemory E x = true → ∀ {capacity : ℕ+},
      E.vectorMemory.serviceCapacity.lookup (accessKind x) = some capacity →
      (s.inflight (accessKind x)).length < capacity := fun hx {_} hk =>
    service_room hx (h.vector (isMemory_of_isVectorMemory hx)) hk
  have hfield : (issued E s x now r).inflight = enterService E s x := rfl
  have hinflight : ∀ {k y}, y ∈ E.trace.uops → inService E (issued E s x now r) k now y = true →
      y.id ∈ enterService E s x k := by
    intro k y hy hin
    by_cases hyx : y = x
    · subst hyx
      obtain ⟨hv, rfl, i, hi, -, hlt⟩ := inService_iff.mp hin
      rw [issued_issueTick, if_pos rfl] at hi
      cases hi
      have hne : serviceTicks E y ≠ some 0 := by
        intro hz
        rw [serviceLength, hz, Option.getD_some] at hlt
        omega
      simp [enterService, hv, hne]
    · rw [hother k now y hy hyx] at hin
      have hmem := hs.inflight hy hin
      have hid := h.id_ne hT hy hyx
      unfold enterService
      split
      · by_cases hk : k = accessKind x
        · subst hk; simp [hmem]
        · simpa [hk] using hmem
      · split
        · by_cases hk : k = accessKind x
          · subst hk; simpa using (List.mem_erase_of_ne hid).mpr hmem
          · simpa [hk] using hmem
        · exact hmem
  have hreleased : ∀ {k} {capacity : ℕ+}, E.vectorMemory.serviceCapacity.lookup k = some capacity →
      (enterService E s x k).length ≤ capacity := by
    intro k capacity hk
    have hold := hs.released hk
    unfold enterService
    split
    · next hv =>
      by_cases hkx : k = accessKind x
      · subst hkx
        have := hroom (by simp at hv; exact hv.1) hk
        rw [Function.update_self]
        exact (length_insert_le _ _).trans this
      · rwa [Function.update_of_ne hkx]
    · split
      · by_cases hkx : k = accessKind x
        · subst hkx
          rw [Function.update_self]
          exact (List.erase_sublist).length_le.trans hold
        · rwa [Function.update_of_ne hkx]
      · exact hold
  refine ⟨fun hy hin => hinflight hy hin, fun e he => ?_, hreleased, fun {k capacity} t hk => ?_⟩
  · have hold : ∀ e ∈ s.serviceHeap, ∃ i n, ((issued E s x now r).uop e.id).issueTick = some i ∧
        serviceTicks E (E.uop e.id) = some n ∧ e.tick = i + n := by
      intro e he
      obtain ⟨i, n, h1, h2, h3⟩ := hs.due e he
      refine ⟨i, n, ?_, h2, h3⟩
      rw [issued_issueTick, if_neg, h1]
      intro heq
      rw [heq, h.unissued hc] at h1
      cases h1
    have hmem : e ∈ pushService E s x now := he
    unfold pushService at hmem
    split at hmem
    · exact hold e hmem
    · next n hn =>
      split at hmem
      · rcases Queue.mem_push.mp hmem with rfl | hmem
        · refine ⟨now, n, ?_, ?_, rfl⟩
          · rw [issued_issueTick, if_pos rfl]
          · rw [uop_eq hT h.issuable.mem]; exact hn
        · exact hold e hmem
      · exact hold e hmem
  · rcases le_or_gt now t with ht | ht
    · -- every flow in service at `t` is in flight now
      have hsub : (E.trace.uops.filter (inService E (issued E s x now r) k t)).map (·.id) ⊆
          enterService E s x k := by
        intro u hu
        obtain ⟨y, hy, rfl⟩ := List.mem_map.mp hu
        obtain ⟨hy, hin⟩ := List.mem_filter.mp hy
        refine hinflight hy (inService_iff.mpr ?_)
        obtain ⟨h1, h2, i, hi, hit, hlt⟩ := inService_iff.mp hin
        refine ⟨h1, h2, i, hi, ?_, by omega⟩
        rw [issued_issueTick] at hi
        split at hi
        · cases hi; exact le_rfl
        · exact (hc.uops.issued hi).1
      have hnodup : ((E.trace.uops.filter (inService E (issued E s x now r) k t)).map (·.id)).Nodup :=
        hT.uopIds.sublist (List.filter_sublist.map _)
      have hle := (hnodup.subperm hsub).length_le
      rw [List.length_map] at hle
      rw [List.countP_eq_length_filter]
      exact hle.trans (hreleased hk)
    · have hpast : inService E (issued E s x now r) k t x = false := by
        rw [Bool.eq_false_iff]
        intro hin
        obtain ⟨-, -, i, hi, hit, -⟩ := inService_iff.mp hin
        rw [issued_issueTick, if_pos rfl] at hi
        cases hi
        omega
      have hstep := Serial.countP_of_step (uops_nodup hT) h.issuable.mem (hother k t)
      have hold := hs.bounded t hk
      rw [hpast, Bool.toNat_false] at hstep
      omega

theorem ServiceInv.later {next : ℕ} (hs : ServiceInv E now s) (hc : CoreInv E now s)
    (h : now ≤ next) : ServiceInv E next s where
  inflight {k x} hx hin := by
    refine hs.inflight hx (inService_iff.mpr ?_)
    obtain ⟨h1, h2, i, hi, -, hlt⟩ := inService_iff.mp hin
    exact ⟨h1, h2, i, hi, (hc.uops.issued hi).1, by omega⟩
  due := hs.due
  released := hs.released
  bounded := hs.bounded

theorem ServiceInv.step (hT : WellFormed E.trace) (hc : CoreInv E now s) (hs : ServiceInv E now s)
    (h : Step E now s s') : ServiceInv E now s' := by
  rcases step_cases h with hq | ⟨x, r, hi, rfl⟩
  · cases h with
    | complete head due => exact hs.complete hT hc head due hq
    | releaseFlow head due => exact hs.releaseFlow hT head due hq
    | @take c m width us a units _ _ _ =>
      have : (enqueue (spend (admitOnce E s c m now) m units) us a now).1.inflight = s.inflight ∧
          (enqueue (spend (admitOnce E s c m now) m units) us a now).1.serviceHeap = s.serviceHeap := by
        simp only [enqueue, spend, admitOnce]
        split <;> exact ⟨rfl, rfl⟩
      exact hs.release hq (fun _ _ hm => by rw [this.1]; exact hm) (fun _ => by rw [this.1])
        (by rw [this.2]; exact List.Subset.refl _)
    | @budget c m width units _ _ _ =>
      have : (spend (admitOnce E s c m now) m units).1.inflight = s.inflight ∧
          (spend (admitOnce E s c m now) m units).1.serviceHeap = s.serviceHeap := by
        simp only [spend, admitOnce]
        split <;> exact ⟨rfl, rfl⟩
      exact hs.release hq (fun _ _ hm => by rw [this.1]; exact hm) (fun _ => by rw [this.1])
        (by rw [this.2]; exact List.Subset.refl _)
    | releaseRename _ _ | advance _ _ | stall _ _ _ | poll _ | retire _ _ _ =>
      exact hs.release hq (fun _ _ hm => hm) (fun _ => le_rfl) (List.Subset.refl _)
    | issue issuable early _ vector tokens reserved =>
      exact hs.issue hT hc ⟨issuable, early, vector, tokenChecks_demand tokens, reserve_ok reserved⟩
  · exact hs.issue hT hc hi

end Xsai
end VectorSim
