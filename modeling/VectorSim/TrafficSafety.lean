/-
# The memory traffic of a run

In every state of a run of either engine, the hierarchy has served the loads and stores
that have issued and nothing else (`Tallied`). Each is counted once, with all its lines,
at the level its uop records. Each is charged as a transfer, with the latency and the
bandwidth of that level, or waits for the fill that an earlier one was charged for
(`Account`); and the transfers are within the outstanding limits of the levels and
disjoint in their bandwidth.
-/
import VectorSim.Memory.Hits
import VectorSim.Backend.Traffic
import VectorSim.AgreementSafety
import VectorSim.ThroughputSafety

namespace VectorSim

open Checked Setup MemoryConfig

/-- The cache lines of a uop's memory operand. -/
def lineCount (x : ExecutionUop) : ℕ := (x.memory.map (·.cacheLines.length)).getD 0

/-- The uop has issued, and the hierarchy has served it at the level. -/
def servedAt (s : Machine) (level : ℕ) (x : ExecutionUop) : Bool :=
  (s.uop x.id).issueTick.isSome && (s.placement x.id).memoryLevel = some level

/-- The uop is a load or store that has issued. -/
def accessed (s : Machine) (x : ExecutionUop) : Bool := (s.uop x.id).issueTick.isSome && x.kind.isMemory

/-- A transfer is the access of a uop. -/
structure IsTransfer (C : MemoryConfig) (s : Machine) (x : ExecutionUop) (transfer : Transfer) : Prop where
  accessed : accessed s x
  start : (s.uop x.id).issueTick = some transfer.start
  level : (s.placement x.id).memoryLevel = some transfer.level
  charges : ∃ a ∈ x.memory, Charges C a transfer
  /-- A load takes as long as its transfer at least. -/
  completion : x.kind = .loadData → transfer.completion ≤ transfer.start + (s.uop x.id).latencyTicks

/-- A uop waits for a line that an earlier one was charged for. -/
structure WaitsFor (s : Machine) (x y : ExecutionUop) (transfer : Transfer) : Prop where
  line : ∃ a ∈ x.memory, ∃ b ∈ y.memory, ∃ line ∈ a.cacheLines, line ∈ b.cacheLines
  onTheWay : ∃ i ∈ (s.uop x.id).issueTick, transfer.start ≤ i ∧ i < transfer.completion ∧
    (x.kind = .loadData → transfer.completion ≤ i + (s.uop x.id).latencyTicks)

/-- The uops that were charged, each with its transfer. -/
structure Account (E : Setup) (s : Machine) (charged : List (ExecutionUop × Transfer)) : Prop where
  distinct : (charged.map (·.1.id)).Nodup
  transfer : ∀ e ∈ charged, e.1 ∈ E.trace.uops ∧ IsTransfer E.memory s e.1 e.2
  /-- Each load and store that has issued is charged, or waits for one that is. -/
  all : ∀ x ∈ E.trace.uops, accessed s x → (∃ transfer, (x, transfer) ∈ charged) ∨
    ∃ e ∈ charged, WaitsFor s x e.1 e.2

/-- What the hierarchy of a state has counted and carried. -/
structure Tallied (E : Setup) (s : Machine) : Prop where
  /-- The hits of a level are the lines of the uops it served. -/
  hits : ∀ level, s.memory.hits level = ((E.trace.uops.filter (servedAt s level)).map lineCount).sum
  /-- Each load and store that has issued is counted. -/
  total : ∑ level ∈ Finset.range (E.memory.levels.length + 1), s.memory.hits level =
    ((E.trace.uops.filter (accessed s)).map lineCount).sum
  /-- The transfers that have led to the state, within the limits. -/
  transfers : ∃ charged : List (ExecutionUop × Transfer), Account E s charged ∧
    (∃ last, Serves E.memory E.memoryInit (charged.map (·.2)) last s.memory) ∧
    (∀ level limit, E.memory.outstandingLimit level = .ok limit →
      ∀ tick, E.memory.inFlight level tick (charged.map (·.2)) ≤ limit) ∧
    (charged.map (·.2)).Pairwise fun t u => t.level = u.level → t.access = u.access → Disjoint t.occupies u.occupies

/-! ### The invariant -/

/-- The hierarchy has served the uops that have issued. -/
structure Served (E : Setup) (now : ℕ) (s : Machine) : Prop where
  leveled : Leveled E.memory s.memory
  placed : ∀ x ∈ E.trace.uops, ∀ level, servedAt s level x → x.kind.isMemory ∧ level ≤ E.memory.dramLevel
  placed' : ∀ x ∈ E.trace.uops, accessed s x → ∃ level, servedAt s level x
  hits : ∀ level, s.memory.hits level = (E.trace.uops.map fun x => if servedAt s level x then lineCount x else 0).sum
  transfers : ∃ charged : List (ExecutionUop × Transfer), Account E s charged ∧
    (∃ last ≤ now, Serves E.memory E.memoryInit (charged.map (·.2)) last s.memory) ∧
    ∀ f ∈ s.memory.pendingFills, ∃ e ∈ charged, (∃ a ∈ e.1.memory, f.1 ∈ a.cacheLines) ∧ e.2.completion = f.2.1

variable {E : Setup} {now : ℕ} {s s' : Machine} {x : ExecutionUop}

theorem Still.servedAt (h : Still s s') (level : ℕ) (x : ExecutionUop) : servedAt s' level x = servedAt s level x := by
  simp only [VectorSim.servedAt, h.issue, h.level]

theorem Still.accessed (h : Still s s') (x : ExecutionUop) : accessed s' x = accessed s x := by
  simp only [VectorSim.accessed, h.issue]

theorem Still.account (h : Still s s') {charged : List (ExecutionUop × Transfer)} (ha : Account E s charged) :
    Account E s' charged := by
  refine ⟨ha.distinct, fun e he => ?_, fun x hx hacc => ?_⟩
  · obtain ⟨hmem, hc⟩ := ha.transfer e he
    exact ⟨hmem, (h.accessed _).trans hc.accessed, (h.issue _).trans hc.start, (h.level _).trans hc.level, hc.charges,
      fun hload => by rw [h.latency]; exact hc.completion hload⟩
  · rw [h.accessed] at hacc
    refine (ha.all x hx hacc).imp_right fun ⟨e, he, hw⟩ => ⟨e, he, hw.line, ?_⟩
    rw [h.issue, h.latency]
    exact hw.onTheWay

/-- A move in which nothing issues, and the hierarchy counts nothing. -/
theorem Served.still (hs : Served E now s) (h : Still s s') (hleveled : Leveled E.memory s'.memory)
    (hhits : s'.memory.hits = s.memory.hits) (hfills : s'.memory.pendingFills ⊆ s.memory.pendingFills)
    (hserves : ∀ transfers last, last ≤ now → Serves E.memory E.memoryInit transfers last s.memory →
      ∃ last ≤ now, Serves E.memory E.memoryInit transfers last s'.memory) : Served E now s' := by
  obtain ⟨charged, haccount, ⟨last, hlast, ht⟩, hpending⟩ := hs.transfers
  refine ⟨hleveled, fun x hx level hl => ?_, fun x hx ha => ?_, fun level => ?_, charged, h.account haccount,
    hserves _ _ hlast ht, fun f hf => hpending f (hfills hf)⟩
  · rw [h.servedAt] at hl
    exact hs.placed x hx level hl
  · rw [h.accessed] at ha
    obtain ⟨level, hl⟩ := hs.placed' x hx ha
    exact ⟨level, (h.servedAt level x).trans hl⟩
  · rw [hhits, hs.hits]
    simp only [h.servedAt]

/-- The other uops, once one has issued. -/
structure Elsewhere (x : ExecutionUop) (s s' : Machine) : Prop where
  issue : ∀ u, u ≠ x.id → (s'.uop u).issueTick = (s.uop u).issueTick
  latency : ∀ u, u ≠ x.id → (s'.uop u).latencyTicks = (s.uop u).latencyTicks
  level : ∀ u, u ≠ x.id → (s'.placement u).memoryLevel = (s.placement u).memoryLevel

theorem Elsewhere.servedAt (h : Elsewhere x s s') {y : ExecutionUop} (hy : y.id ≠ x.id) (level : ℕ) :
    servedAt s' level y = servedAt s level y := by
  simp only [VectorSim.servedAt, h.issue _ hy, h.level _ hy]

theorem Elsewhere.accessed (h : Elsewhere x s s') {y : ExecutionUop} (hy : y.id ≠ x.id) :
    accessed s' y = accessed s y := by
  simp only [VectorSim.accessed, h.issue _ hy]

theorem Elsewhere.isTransfer {C : MemoryConfig} (h : Elsewhere x s s') {y : ExecutionUop} (hy : y.id ≠ x.id)
    {t : Transfer} (hc : IsTransfer C s y t) : IsTransfer C s' y t :=
  ⟨(h.accessed hy).trans hc.accessed, (h.issue _ hy).trans hc.start, (h.level _ hy).trans hc.level, hc.charges,
    fun hload => by rw [h.latency _ hy]; exact hc.completion hload⟩

theorem Elsewhere.waitsFor (h : Elsewhere x s s') {y z : ExecutionUop} (hy : y.id ≠ x.id) {t : Transfer}
    (hw : WaitsFor s y z t) : WaitsFor s' y z t := by
  refine ⟨hw.line, ?_⟩
  rw [h.issue _ hy, h.latency _ hy]
  exact hw.onTheWay

/-- What was charged before is charged, and the uop that issues is accounted for as it is served. -/
theorem Account.issue (hT : WellFormed E.trace) {charged : List (ExecutionUop × Transfer)}
    (ha : Account E s charged) (more : List (ExecutionUop × Transfer)) (hx : x ∈ E.trace.uops) (hwait : (s.uop x.id).issueTick = none) (h : Elsewhere x s s')
    (hmore : ∀ e ∈ more, e.1 = x ∧ IsTransfer E.memory s' x e.2) (hone : (more.map (·.1.id)).Nodup)
    (hself : accessed s' x → (∃ transfer, (x, transfer) ∈ charged ++ more) ∨
      ∃ e ∈ charged ++ more, WaitsFor s' x e.1 e.2) : Account E s' (charged ++ more) := by
  -- the transfers so far are those of other uops
  have hother : ∀ e ∈ charged, e.1.id ≠ x.id := by
    intro e he heq
    have hstart := (ha.transfer e he).2.start
    rw [heq, hwait] at hstart
    cases hstart
  refine ⟨?_, fun e he => ?_, fun y hy hacc => ?_⟩
  · rw [List.map_append]
    refine List.nodup_append.mpr ⟨ha.distinct, hone, fun a hin b hin' hab => ?_⟩
    obtain ⟨e, he, rfl⟩ := List.mem_map.mp hin
    obtain ⟨e', he', rfl⟩ := List.mem_map.mp hin'
    exact hother e he (hab.trans (congrArg (·.id) (hmore e' he').1))
  · rcases List.mem_append.mp he with he | he
    · obtain ⟨hmem, hc⟩ := ha.transfer e he
      exact ⟨hmem, h.isTransfer (hother e he) hc⟩
    · obtain ⟨heq, hc⟩ := hmore e he
      exact ⟨heq ▸ hx, heq ▸ hc⟩
  · by_cases hid : y.id = x.id
    · obtain rfl : y = x := Option.some.inj ((hT.uop?_eq hy).symm.trans (hid ▸ hT.uop?_eq hx))
      exact hself hacc
    · rw [h.accessed hid] at hacc
      rcases ha.all y hy hacc with ⟨t, ht⟩ | ⟨e, he, hw⟩
      · exact .inl ⟨t, List.mem_append_left _ ht⟩
      · exact .inr ⟨e, List.mem_append_left _ he, h.waitsFor hid hw⟩

/-- A uop that issues is counted with its lines, where it has any. -/
theorem sum_servedAt (hT : WellFormed E.trace) (hx : x ∈ E.trace.uops) (hwait : (s.uop x.id).issueTick = none)
    (h : Elsewhere x s s') (level : ℕ) :
    (E.trace.uops.map fun y => if servedAt s' level y then lineCount y else 0).sum =
      (E.trace.uops.map fun y => if servedAt s level y then lineCount y else 0).sum +
        if servedAt s' level x then lineCount x else 0 := by
  have hold : (if servedAt s level x then lineCount x else 0) = 0 := by simp [servedAt, hwait]
  have hsum := Serial.sum_of_step (hT.uopIds.of_map _) hx (f := fun y => if servedAt s level y then lineCount y else 0)
    (g := fun y => if servedAt s' level y then lineCount y else 0) fun y hy hyx => by
      have hid : y.id ≠ x.id := fun he =>
        hyx (Option.some.inj ((hT.uop?_eq hy).symm.trans (he ▸ hT.uop?_eq hx)))
      rw [h.servedAt hid]
  omega

/-- A uop that issues. -/
theorem Served.issue (hT : WellFormed E.trace) (hs : Served E now s) (hx : x ∈ E.trace.uops)
    (hwait : (s.uop x.id).issueTick = none) (hissue : (s'.uop x.id).issueTick = some now) (h : Elsewhere x s s')
    (ha : Accessed E now x s s') : Served E now s' := by
  have hid : ∀ y ∈ E.trace.uops, y.id = x.id → y = x := fun y hy he =>
    Option.some.inj ((hT.uop?_eq hy).symm.trans (he ▸ hT.uop?_eq hx))
  obtain ⟨charged, haccount, ⟨last, hlast, hserves⟩, hpending⟩ := hs.transfers
  unfold Accessed at ha
  split at ha
  · next hkind =>
    obtain ⟨r, haccess, hlevel, hlatency⟩ := ha
    cases hmemory : x.memory with
    | none => rw [hmemory] at haccess; cases haccess
    | some a =>
      rw [hmemory] at haccess
      obtain ⟨hleveled, hle⟩ := hs.leveled.access haccess
      have hself : ∀ level, servedAt s' level x = decide (r.level = level) := by
        intro level
        simp [servedAt, hissue, hlevel]
      refine ⟨hleveled, fun y hy level hl => ?_, fun y hy hacc => ?_, fun level => ?_, ?_⟩
      · by_cases he : y.id = x.id
        · obtain rfl := hid y hy he
          rw [hself, decide_eq_true_eq] at hl
          exact ⟨hkind, hl ▸ hle⟩
        · rw [h.servedAt he] at hl
          exact hs.placed y hy level hl
      · by_cases he : y.id = x.id
        · obtain rfl := hid y hy he
          exact ⟨r.level, by rw [hself]; simp⟩
        · rw [h.accessed he] at hacc
          obtain ⟨level, hl⟩ := hs.placed' y hy hacc
          exact ⟨level, (h.servedAt he level).trans hl⟩
      · rw [access_hits haccess, sum_servedAt hT hx hwait h, hself, ← hs.hits]
        have hcount : lineCount x = a.cacheLines.length := by simp [lineCount, hmemory]
        by_cases hl : r.level = level
        · simp [hl, hcount]
        · simp [hl, Function.update_of_ne (Ne.symm hl)]
      · have hover : x.kind = .loadData → r.completionTick ≤ now + (s'.uop x.id).latencyTicks := by
          intro hload
          have hcompletion := access_completion haccess
          have hbound := hlatency hload
          omega
        have hnext := hserves.access hlast haccess
        cases access_settles haccess with
        | @merged f fill line later waits transfers fills =>
          rw [transfers, List.append_nil] at hnext
          obtain ⟨e, he, ⟨b, hb, hline⟩, hcompletion⟩ := hpending f fill
          have hstart := hserves.started _ (List.mem_map_of_mem he)
          have hmerged : WaitsFor s' x e.1 e.2 := by
            refine ⟨⟨a, hmemory, b, hb, f.1, line, hline⟩, now, hissue, hstart.trans hlast, by omega, fun hload => ?_⟩
            have := hover hload
            omega
          have haccount' := haccount.issue hT [] hx hwait h (by simp) List.nodup_nil
            fun _ => .inr ⟨e, by simpa using he, hmerged⟩
          rw [List.append_nil] at haccount'
          exact ⟨charged, haccount', ⟨now, le_rfl, hnext⟩, fun f hf => hpending f (fills hf)⟩
        | @charged t transfers start level completion charges fills =>
          have htransfer : IsTransfer E.memory s' x t := by
            refine ⟨by simp [accessed, hissue, hkind], by rw [hissue, start], by rw [hlevel, level], ⟨a, hmemory, charges⟩,
              fun hload => ?_⟩
            rw [start, completion]
            exact hover hload
          refine ⟨charged ++ [(x, t)], haccount.issue hT [(x, t)] hx hwait h (by simpa using htransfer) (List.nodup_singleton _)
            fun _ => .inl ⟨t, by simp⟩, ⟨now, le_rfl, ?_⟩, fun f hf => ?_⟩
          · rw [transfers] at hnext
            rwa [List.map_append]
          · rcases fills f hf with hf | ⟨hin, he⟩
            · obtain ⟨e, he, hrest⟩ := hpending f hf
              exact ⟨e, List.mem_append_left _ he, hrest⟩
            · exact ⟨(x, t), by simp, ⟨a, hmemory, hin⟩, he.symm⟩
  · next hkind =>
    obtain ⟨hmemory, hlevel⟩ := ha
    have hself : ∀ level, servedAt s' level x = false := by
      intro level
      simp [servedAt, hlevel]
    have haccount' := haccount.issue hT [] hx hwait h (by simp) List.nodup_nil
      fun hacc => by simp [accessed, hkind] at hacc
    rw [List.append_nil] at haccount'
    refine ⟨hmemory ▸ hs.leveled, fun y hy level hl => ?_, fun y hy hacc => ?_, fun level => ?_, charged, haccount',
      ⟨last, hlast, hmemory ▸ hserves⟩, hmemory ▸ hpending⟩
    · by_cases he : y.id = x.id
      · obtain rfl := hid y hy he
        rw [hself] at hl
        cases hl
      · rw [h.servedAt he] at hl
        exact hs.placed y hy level hl
    · by_cases he : y.id = x.id
      · obtain rfl := hid y hy he
        simp [accessed, hkind] at hacc
      · rw [h.accessed he] at hacc
        obtain ⟨level, hl⟩ := hs.placed' y hy hacc
        exact ⟨level, (h.servedAt he level).trans hl⟩
    · rw [hmemory, sum_servedAt hT hx hwait h, hself, ← hs.hits]
      simp

/-- **What an engine does to the hierarchy keeps the account.** -/
theorem keeps_served (hT : WellFormed E.trace) : Keeps E (Served E) where
  traffic now s s' hs h := by
    cases h with
    | still still memory =>
      exact hs.still still (memory ▸ hs.leveled) (by rw [memory]) (by rw [memory]; exact fun _ h => h) fun transfers last hlast h =>
        ⟨last, hlast, memory ▸ h⟩
    | @poll x b still mem kind asked =>
      obtain ⟨r, hr, he⟩ := ok_bind.mp asked
      have hblocker : E.memory.blocker s.memory x.memory now = .ok r := by
        cases hb : E.memory.blocker s.memory x.memory now with
        | error e => rw [hb] at hr; cases hr
        | ok q => rw [hb] at hr; cases hr; rfl
      have hmemory : r.1 = s'.memory := (Prod.mk.inj (Except.ok.inj he)).1
      refine hs.still still (hmemory ▸ hs.leveled.blocker hblocker) (hmemory ▸ blocker_hits hblocker)
        (hmemory ▸ blocker_fills hblocker) ?_
      intro transfers last hlast hserves
      exact ⟨now, le_rfl, hserves.poll hlast (.inr (ok_map.mpr ⟨r, hblocker, hmemory⟩))⟩
    | @issue x mem waiting issue latency level accessed =>
      exact hs.issue hT mem waiting (by rw [issue, if_pos rfl])
        ⟨fun u hu => by rw [issue, if_neg hu], latency, level⟩ accessed
  later now next s hs hlt := by
    obtain ⟨charged, haccount, ⟨last, hlast, hserves⟩, hpending⟩ := hs.transfers
    exact ⟨hs.leveled, hs.placed, hs.placed', hs.hits, charged, haccount, ⟨last, hlast.trans hlt.le, hserves⟩, hpending⟩

/-! ### The account of a run -/

theorem served_init {mode : CacheMode} {lines : List ℤ} (h : E.memory.initialState mode lines = .ok E.memoryInit) :
    Served E 0 E.machineInit := by
  have hpending : E.machineInit.memory.pendingFills = [] := initialState_pendingFills h
  have hnone : ∀ x, accessed E.machineInit x = false := fun x => by simp [accessed, machineInit, Core.init]
  refine ⟨fun f hf => ?_, fun x _ level hl => ?_, fun x _ ha => ?_, fun level => ?_, [],
    ⟨List.nodup_nil, by simp, fun x _ ha => ?_⟩, ⟨0, le_rfl, .start⟩, fun f hf => ?_⟩
  · rw [hpending] at hf
    cases hf
  · simp [servedAt, machineInit, Core.init] at hl
  · rw [hnone] at ha
    cases ha
  · have hzero : E.machineInit.memory.hits level = 0 := congrFun (initialState_hits h) level
    rw [hzero]
    simp [servedAt, machineInit, Core.init]
  · rw [hnone] at ha
    cases ha
  · rw [hpending] at hf
    cases hf

/-- A uop that was served is counted at one level. -/
theorem Served.sum_levels (hs : Served E now s) (hx : x ∈ E.trace.uops) :
    (∑ level ∈ Finset.range (E.memory.levels.length + 1), if servedAt s level x then lineCount x else 0) =
      if accessed s x then lineCount x else 0 := by
  by_cases ha : accessed s x = true
  · obtain ⟨level, hl⟩ := hs.placed' x hx ha
    have hle := (hs.placed x hx level hl).2
    have hone : ∀ k, servedAt s k x = decide (level = k) := by
      intro k
      have hserved : (s.uop x.id).issueTick.isSome = true ∧ (s.placement x.id).memoryLevel = some level := by
        simpa [servedAt] using hl
      simp [servedAt, hserved.1, hserved.2]
    have hin : level ∈ Finset.range (E.memory.levels.length + 1) := Finset.mem_range.mpr (Nat.lt_succ_of_le hle)
    simp only [hone, decide_eq_true_eq, ha, if_true]
    rw [Finset.sum_ite_eq, if_pos hin]
  · have hnone : ∀ k, servedAt s k x = false := by
      intro k
      rw [Bool.eq_false_iff]
      intro hk
      have hkind := (hs.placed x hx k hk).1
      simp only [servedAt, Bool.and_eq_true] at hk
      exact ha (by simp [accessed, hk.1, hkind])
    simp [hnone, ha]

theorem Served.tallied {mode : CacheMode} {lines : List ℤ} (hs : Served E now s)
    (h : E.memory.initialState mode lines = .ok E.memoryInit) : Tallied E s := by
  obtain ⟨charged, haccount, ⟨last, -, hserves⟩, -⟩ := hs.transfers
  have hkept := hserves.kept (initialState_outstanding h)
  refine ⟨fun level => ?_, ?_, charged, haccount, ⟨last, hserves⟩, hkept.limited, hkept.disjoint⟩
  · rw [hs.hits, Xsai.sum_filter_map]
  · have hall : ∀ xs : List ExecutionUop, (∀ x ∈ xs, x ∈ E.trace.uops) →
        (∑ level ∈ Finset.range (E.memory.levels.length + 1),
          (xs.map fun x => if servedAt s level x then lineCount x else 0).sum) =
          (xs.map fun x => if accessed s x then lineCount x else 0).sum := by
      intro xs hxs
      induction xs with
      | nil => simp
      | cons x xs ih =>
        have hrest := ih fun y hy => hxs y (List.mem_cons_of_mem _ hy)
        simp only [List.map_cons, List.sum_cons, Finset.sum_add_distrib]
        rw [hrest, hs.sum_levels (hxs x List.mem_cons_self)]
    rw [Xsai.sum_filter_map, ← hall _ fun _ hx => hx]
    exact Finset.sum_congr rfl fun level _ => hs.hits level

theorem Zen4.init_hierarchy {T : BoundTrace} {P : EngineProfile} {inOrder : Bool} {mode : CacheMode}
    {limit : Option Bool} (h : Zen4.init T P inOrder mode limit = .ok E) :
    E.memory.initialState mode E.trace.sourceLines = .ok E.memoryInit := by
  unfold Zen4.init at h
  split at h
  · cases h
  · obtain ⟨htrace, -, hmemory, hstart⟩ := setup_ok h
    rwa [hmemory, htrace]

theorem Zen4.init_memory {T : BoundTrace} {P : EngineProfile} {inOrder : Bool} {mode : CacheMode}
    {limit : Option Bool} (h : Zen4.init T P inOrder mode limit = .ok E) : E.memory = P.memory := by
  unfold Zen4.init at h
  split at h
  · cases h
  · exact (setup_ok h).2.2.1

theorem Xsai.init_hierarchy {T : BoundTrace} {P : EngineProfile} {inOrder : Bool} {mode : CacheMode}
    {limit : Option Bool} {expand : Bool} {C : Config} (h : Xsai.init T P inOrder mode limit expand = .ok C) :
    C.memory.initialState mode C.trace.sourceLines = .ok C.memoryInit := by
  obtain ⟨T', -, h⟩ := ok_bind.mp h
  obtain ⟨read, -, h⟩ := ok_bind.mp h
  obtain ⟨completion, -, h⟩ := ok_bind.mp h
  obtain ⟨domains, -, h⟩ := ok_bind.mp h
  obtain ⟨rename, -, h⟩ := ok_bind.mp h
  obtain ⟨S, hS, h⟩ := ok_bind.mp h
  obtain ⟨vector, -, h⟩ := ok_bind.mp h
  obtain ⟨epochs, -, h⟩ := ok_bind.mp h
  obtain ⟨_, -, h⟩ := ok_bind.mp h
  obtain ⟨_, -, h⟩ := ok_bind.mp h
  cases h
  obtain ⟨htrace, -, hmemory, hstart⟩ := setup_ok hS
  show S.memory.initialState mode S.trace.sourceLines = .ok S.memoryInit
  rwa [hmemory, htrace]

/-- Every load and store of the trace is counted once, with all its lines. -/
def Counted (E : Setup) (s : Machine) : Prop :=
  ∑ level ∈ Finset.range (E.memory.levels.length + 1), s.memory.hits level =
    ((E.trace.uops.filter (·.kind.isMemory)).map lineCount).sum

theorem Tallied.counted (h : Tallied E s) (hissued : ∀ x ∈ E.trace.uops, ∃ i ≤ now, (s.uop x.id).issueTick = some i) :
    Counted E s := by
  have hsame : E.trace.uops.filter (accessed s) = E.trace.uops.filter (·.kind.isMemory) := by
    refine List.filter_congr fun x hx => ?_
    obtain ⟨i, -, hi⟩ := hissued x hx
    simp [accessed, hi]
  rw [Counted, h.total, hsame]

/-- **The hierarchy has served what has issued**, in every state of a run of either engine, and at
its end all of the trace. -/
theorem traffic_tallied (T : BoundTrace) (P : EngineProfile) (inOrder : Bool) (mode : CacheMode)
    (limit : Option Bool) :
    (∀ E, Zen4.init T P inOrder mode limit = .ok E →
      (∀ now s, Zen4.Reachable E now s → Tallied E s) ∧ ∀ s t, Zen4.run E = .ok (s, t) → Counted E s) ∧
    ∀ expand E, Xsai.init T P inOrder mode limit expand = .ok E →
      (∀ now s, Xsai.Reachable E now s → Tallied E.toSetup s.toMachine) ∧
        ∀ s t, Xsai.run E = .ok (s, t) → Counted E.toSetup s.toMachine := by
  constructor
  · intro E hE
    have hT := (Zen4.init_ok hE).1
    have hinit := Zen4.init_hierarchy hE
    have hall : ∀ now s, Zen4.Reachable E now s → Tallied E s := fun now s h =>
      (h.traffic hT (keeps_served hT) (served_init hinit)).tallied hinit
    refine ⟨hall, fun s t h => ?_⟩
    obtain ⟨hs, hordered, -⟩ := Zen4.run_ordered hT h
    exact (hall t s (Zen4.run_reachable h)).counted (hs.core.issuedBy hordered)
  · intro expand E hE
    have hA := Xsai.init_ok hE
    have hT := hA.wellFormed
    have hinit := Xsai.init_hierarchy hE
    have hall : ∀ now s, Xsai.Reachable E now s → Tallied E.toSetup s.toMachine := fun now s h =>
      (h.traffic hT hA.setup.tpc_pos (keeps_served hT) (served_init hinit)).tallied hinit
    refine ⟨hall, fun s t h => ?_⟩
    obtain ⟨hs, hordered, -⟩ := Xsai.run_ordered hT h
    exact (hall t s (Xsai.run_reachable h)).counted (hs.issuedBy hordered)

/-- A load and a store that go to DRAM, and a load that finds its line in the cache. -/
theorem traffic_tallied_sample :
    (∃ E s t, Zen4.init Sample.kernelTrace Sample.kernelProfile false .cold none = .ok E ∧ Zen4.run E = .ok (s, t) ∧
      Tallied E s ∧ Counted E s ∧ s.memory.hits 0 = 1 ∧ s.memory.hits 1 = 2) ∧
    ∃ E s t, Xsai.init Sample.kernelTrace Sample.kernelProfile false .cold none false = .ok E ∧
      Xsai.run E = .ok (s, t) ∧ Tallied E.toSetup s.toMachine ∧ Counted E.toSetup s.toMachine ∧
      s.memory.hits 0 = 1 ∧ s.memory.hits 1 = 2 := by
  constructor
  · obtain ⟨E, hE⟩ := exists_ok
      (x := Zen4.init Sample.kernelTrace Sample.kernelProfile false .cold none) (by decide +kernel)
    have hrun : ((Zen4.init Sample.kernelTrace Sample.kernelProfile false .cold none).bind fun E =>
        (Zen4.run E).map fun r => (r.1.memory.hits 0, r.1.memory.hits 1)).toOption = some (1, 2) := by decide +kernel
    rw [hE] at hrun
    obtain ⟨⟨s, t⟩, h, hhits⟩ := ok_map.mp (toOption_ok.mp hrun)
    obtain ⟨hall, hend⟩ := (traffic_tallied Sample.kernelTrace Sample.kernelProfile false .cold none).1 E hE
    exact ⟨E, s, t, hE, h, hall t s (Zen4.run_reachable h), hend s t h, Prod.mk.inj hhits⟩
  · obtain ⟨E, hE⟩ := exists_ok
      (x := Xsai.init Sample.kernelTrace Sample.kernelProfile false .cold none false) (by decide +kernel)
    have hrun : ((Xsai.init Sample.kernelTrace Sample.kernelProfile false .cold none false).bind fun E =>
        (Xsai.run E).map fun r => (r.1.memory.hits 0, r.1.memory.hits 1)).toOption = some (1, 2) := by decide +kernel
    rw [hE] at hrun
    obtain ⟨⟨s, t⟩, h, hhits⟩ := ok_map.mp (toOption_ok.mp hrun)
    obtain ⟨hall, hend⟩ := (traffic_tallied Sample.kernelTrace Sample.kernelProfile false .cold none).2 false E hE
    exact ⟨E, s, t, hE, h, hall t s (Xsai.run_reachable h), hend s t h, Prod.mk.inj hhits⟩

end VectorSim
