/-
# No visit of the XSAI engine at a cycle boundary is in vain

The same of the XSAI engine: where nothing under way reaches beyond `now` (`Calm`), a visit
at a cycle boundary does some of the work (`visit_works`). What is due completes, leaves
service or returns its rename entries. With nothing on its way, an empty machine takes a
chunk of its next macro-op, or spends units on it; the oldest macro-op retires if it is
complete; and if it is not, the first uop of the trace that has not issued is one of it,
and issues, or has not been dispatched, and is next in partitions that are empty. It waits
for no epoch: the uops that close the epochs before it have completed.
-/
import VectorSim.Backend.XsaiDue
import VectorSim.Backend.XsaiEquipped
import VectorSim.DispatchSafety
import VectorSim.EpochSafety

namespace VectorSim
namespace Xsai

open Checked Setup Core

variable {E : Config} {now h : ℕ} {s s' : Sched} {x : ExecutionUop} {m : MacroOp}

/-! ### A chunk for empty partitions -/

/-- A uop has a partition to go to where they are empty. -/
theorem plan_single (hw : ∀ x ∈ E.trace.uops, Wired E x) (hempty : ∀ p, s.partitionOccupancy p = 0) {u : Id}
    (hu : E.uop u ∈ E.trace.uops) : ∃ a, planAssignment E s true (fun _ => 0) [u] = some a := by
  cases hchoices : (E.uop u).schedulerPartitionChoices with
  | nil =>
    have hnone : partitioned E [u] = [] := by simp [partitioned, hchoices]
    exact ⟨[], by rw [planAssignment, hnone, assign]⟩
  | cons p ps =>
    have hone : partitioned E [u] = [E.uop u] := by simp [partitioned, hchoices]
    have hp : p ∈ (E.uop u).schedulerPartitionChoices := by rw [hchoices]; exact List.mem_cons_self
    obtain ⟨hentries, hwidth, -⟩ := (hw _ hu).partitions p hp
    have hroom : hasRoom E true s.partitionOccupancy (fun _ => 0) p = true := by
      simp [hasRoom, hempty p, hentries, hwidth]
    have hmem : p ∈ choicesOf E true s.partitionOccupancy (fun _ => 0) (E.uop u) := by
      rw [choicesOf, List.mem_insertionSort]
      exact List.mem_filter.mpr ⟨hp, hroom⟩
    rw [planAssignment, hone, assign]
    cases hq : choicesOf E true s.partitionOccupancy (fun _ => 0) (E.uop u) with
    | nil => rw [hq] at hmem; cases hmem
    | cons q qs => exact ⟨[((E.uop u).id, q)], by simp [assign]⟩

/-- There is a chunk to take, or units to spend on the first uop. -/
theorem selectChunk_free {pending : List Id} {budget progress : ℕ} (hp : pending ≠ [])
    (hplan : ∃ a, planAssignment E s true (fun _ => 0) (pending.take 1) = some a) (hbudget : 0 < budget)
    (hprogress : progress ≤ unitsOf m (m.uopIds.idxOf (pending.headD 0) + 1)) :
    selectChunk E s m pending (fun _ => 0) budget progress ≠ .blocked := by
  obtain ⟨a, ha⟩ := hplan
  intro hblocked
  unfold selectChunk at hblocked
  dsimp only at hblocked
  split at hblocked
  · next chunk hf =>
    subst hblocked
    obtain ⟨count, -, hs⟩ := List.exists_of_findSome?_eq_some hf
    split at hs
    · cases hs
    · obtain ⟨a', -, he⟩ := Option.map_eq_some_iff.mp hs
      cases he
  · next hnone =>
    split at hblocked
    · cases hblocked
    · next hfits =>
      -- a chunk of one uop would do
      have hpos := List.length_pos_iff.mpr hp
      have hone := List.findSome?_eq_none_iff.mp hnone 1 (by simpa using hpos)
      have hcost : ∀ l : List ℕ, (l.take 1).sum = l.headD 0 := by
        intro l; cases l <;> simp
      rw [unitsOf_add, unitsOf, hcost] at hprogress
      rw [ha] at hone
      split at hone
      · next hd =>
        rw [hcost] at hd
        omega
      · cases hone

theorem chooseChunk_free {width : ℕ} (hw : ∀ x ∈ E.trace.uops, Wired E x) (hT : WellFormed E.trace)
    (hn : m.uopIds.Nodup) (hm : m ∈ E.trace.macros) (hempty : ∀ p, s.partitionOccupancy p = 0) (hp : pendingUops s m ≠ [])
    (hwidth : 0 < width) {k : ℕ} (hd : Drained s m k) :
    ∃ chunk, chooseChunk E s {} m (pendingUops s m) width = some chunk ∧ chunk ≠ .blocked := by
  have hselect : selectChunk E s m (pendingUops s m) (fun _ => 0) width (s.unitProgress m.id) ≠ .blocked := by
    refine selectChunk_free hp ?_ hwidth ?_
    · cases hq : pendingUops s m with
      | nil => exact absurd hq hp
      | cons u us =>
        have hu : u ∈ m.uopIds := (List.mem_filter.mp (hq ▸ List.mem_cons_self : u ∈ pendingUops s m)).1
        obtain ⟨y, hy, -⟩ := hT.owned m hm u hu
        obtain ⟨hym, rfl⟩ := E.trace.uop?_mem hy
        exact plan_single hw hempty (by rw [Setup.uop_eq hT hym]; exact hym)
    · rw [idxOf_pending hn hd.pending hp]
      have hmore := unitsOf_add m k 1
      have hkept : s.unitProgress m.id = unitsOf m k ∨ s.unitProgress m.id < unitsOf m (k + 1) := hd.kept.remainder
      omega
  unfold chooseChunk
  dsimp only
  rw [if_neg (by omega)]
  split
  · split
    · exact ⟨_, rfl, by simp⟩
    · exact ⟨_, rfl, hselect⟩
  · exact ⟨_, rfl, hselect⟩

/-- A macro-op that is let in, with a chunk to take, gets ahead. -/
theorem dispatch_works (hT : WellFormed E.trace) (hroomy : Roomy E m) (head : E.trace.macros[s.nextDispatch]? = some m)
    (hroom : dispatchBlocker E s {} m = .ok none)
    (hchunk : pendingUops s m ≠ [] → ∀ width, 0 < width →
      ∃ chunk, chooseChunk E s {} m (pendingUops s m) width = some chunk ∧ chunk ≠ .blocked)
    (hd : dispatch E now s = .ok s') : work E s' < work E s := by
  have hm := List.mem_of_getElem? head
  have hlt : s.nextDispatch < E.trace.macros.length := (List.getElem?_eq_some_iff.mp head).1
  obtain ⟨n, hn, hpos⟩ := hroomy.dispatch
  obtain ⟨width, hwidth, hd⟩ := ok_bind.mp hd
  obtain rfl : n = width := Option.some.inj ((Option.mem_def.mp hn).symm.trans (pipelineInt_ok.mp hwidth))
  obtain ⟨fuel, hfuel⟩ : ∃ fuel, E.trace.macros.length - s.nextDispatch = fuel + 1 :=
    ⟨_, (Nat.succ_pred_eq_of_pos (by omega)).symm⟩
  rw [hfuel, dispatchLoop, head] at hd
  dsimp only at hd
  rw [if_neg (by omega)] at hd
  obtain ⟨r, hr, hd⟩ := ok_bind.mp hd
  -- the first turn takes from the work, and the others give nothing back
  have hturn : work E r.2.1 < work E s := by
    unfold dispatchTurn at hr
    dsimp only at hr
    split at hr
    · cases hr
      exact advance_work hlt
    · next hp =>
      obtain ⟨chunk, hc, hfree⟩ := hchunk hp n hpos
      rw [hc] at hr
      dsimp only at hr
      rw [hroom] at hr
      cases chunk with
      | take us a units =>
        have htaken : work E (enqueue (spend (admitOnce E s {} m now) m units) us a now).1 < work E s :=
          (chooseChunk_take hp hc).work hT hm hp
        exact (closeTurn_proceeds (by simpa using head) hr).le.trans_lt htaken
      | budget units =>
        cases hr
        exact (chooseChunk_budget hc).work hT hm
      | blocked => exact absurd rfl hfree
  split at hd
  · exact (dispatchLoop_proceeds hT fuel _ _ hd).le.trans_lt hturn
  · cases hd
    exact hturn

theorem retire_works (hT : WellFormed E.trace) (hroomy : Roomy E m) (hm : m ∈ E.trace.macros) {rest : List Id}
    (head : s.rob = m.id :: rest) (hdone : (s.macro_ m.id).completeTick.any (· ≤ now) = true)
    (hpos : 0 < m.retireMacroOps) (hr : retire E now s = .ok s') : work E s' < work E s := by
  obtain ⟨n, hn, hle⟩ := hroomy.retire
  obtain ⟨width, hwidth, hr⟩ := ok_bind.mp hr
  obtain rfl : n = width := Option.some.inj ((Option.mem_def.mp hn).symm.trans (pipelineInt_ok.mp hwidth))
  cases hr
  have hhead : s.rob.head?.bind E.trace.macro? = some m := by
    rw [head]
    exact hT.macro?_eq hm
  rw [head, List.length_cons, retireLoop, hhead]
  dsimp only
  rw [if_pos ⟨by omega, hdone, by omega⟩]
  exact (retireLoop_proceeds hT rest.length _ _).le.trans_lt (retireMacro_work hT hm head)

/-! ### Flows in service -/

/-- A flow without service ticks is in service while its uop runs. -/
def Serving (E : Config) (s : Sched) : Prop :=
  ∀ k, ∀ u ∈ s.inflight k, serviceTicks E (E.uop u) = none → (s.uop u).issueTick.isSome ∧ (s.uop u).completeTick = none

theorem serving_init : Serving E (schedInit E) := fun _ _ hu => by cases hu

theorem Serving.less (hs : Serving E s) (sub : ∀ k, s'.inflight k ⊆ s.inflight k)
    (hissue : ∀ u, (s'.uop u).issueTick = (s.uop u).issueTick)
    (hcomplete : ∀ u, (s'.uop u).completeTick = (s.uop u).completeTick) : Serving E s' := by
  intro k u hu hnone
  rw [hissue, hcomplete]
  exact hs k u (sub k hu) hnone

theorem serving_complete (hf : FlowInv E s) (hs : Serving E s) (e : HeapEntry) (rest : List HeapEntry) :
    Serving E (completeEntry E s e rest).2 := by
  unfold completeEntry
  dsimp only
  split
  · exact hs
  · intro k u hu hnone
    have hissue : ((completeUop { s.toCore with completionHeap := rest } E.trace e.tick e.id).uop u).issueTick =
        (s.uop u).issueTick := by rw [completeUop_uop]; split <;> rfl
    have hcomplete : ((completeUop { s.toCore with completionHeap := rest } E.trace e.tick e.id).uop u).completeTick =
        if u = e.id then some e.tick else (s.uop u).completeTick := by rw [completeUop_uop]; split <;> rfl
    dsimp only at hu ⊢
    have hbefore : u ∈ s.inflight k := by
      split at hu
      · exact (sublist_update_erase _ _ _ k).subset hu
      · exact hu
    have hne : u ≠ e.id := by
      -- the flow of the uop that completes has left
      rintro rfl
      rw [if_pos (by simpa using hnone)] at hu
      obtain rfl : accessKind (E.uop e.id) = k := hf.kind hbefore
      rw [Function.update_self] at hu
      exact (hf.nodup _).not_mem_erase hu
    rw [hissue, hcomplete, if_neg hne]
    exact hs k u hbefore hnone

theorem serving_issue (hi : CoreInv E now s) (hs : Serving E s) {r : Reserved}
    (issuable : Issuable E.trace E.inOrder now s.toCore x) : Serving E (issued E s x now r) := by
  intro k u hu hnone
  have hunissued : (s.uop x.id).issueTick = none := ((hi.uops.waiting _).mp issuable.waiting).2
  have hissue : ((issued E s x now r).uop u).issueTick = if u = x.id then some now else (s.uop u).issueTick :=
    issued_issueTick u
  have hcomplete : ((issued E s x now r).uop u).completeTick = (s.uop u).completeTick := by
    simp only [issued, issue_uop]
    split <;> rfl
  rw [hissue, hcomplete]
  by_cases hux : u = x.id
  · subst hux
    rw [if_pos rfl]
    refine ⟨rfl, ?_⟩
    by_contra hdone
    obtain ⟨d, hd⟩ := Option.ne_none_iff_exists'.mp hdone
    obtain ⟨i, hi', -⟩ := hi.uops.completed hd
    rw [hunissued] at hi'
    cases hi'
  · rw [if_neg hux]
    rcases mem_enterService hu with hu | ⟨rfl, -⟩
    · exact hs k u hu hnone
    · exact absurd rfl hux

theorem serving_step (hi : CoreInv E now s) (hf : FlowInv E s) (hs : Serving E s) (h : Step E now s s') : Serving E s' := by
  cases h with
  | complete _ _ => exact serving_complete hf hs _ _
  | releaseFlow _ _ => exact hs.less (fun k => (sublist_update_erase _ _ _ k).subset) (fun _ => rfl) fun _ => rfl
  | releaseRename _ _ | advance _ _ | stall _ _ _ | poll _ | retire _ _ _ =>
    exact hs.less (fun _ => List.Subset.refl _) (fun _ => rfl) fun _ => rfl
  | @budget c m width units _ _ _ =>
    have hinflight : (admitOnce E s c m now).1.inflight = s.inflight := by unfold admitOnce; split <;> rfl
    exact hs.less (fun k => by simp only [spend, hinflight]; exact List.Subset.refl _)
      (fun u => by simp only [spend, admitOnce_uop]) fun u => by simp only [spend, admitOnce_uop]
  | @take c m width us a units _ _ _ =>
    have hinflight : (admitOnce E s c m now).1.inflight = s.inflight := by unfold admitOnce; split <;> rfl
    refine hs.less (fun k => ?_) (fun u => ?_) fun u => ?_
    · simp only [enqueue, spend, hinflight]
      exact List.Subset.refl _
    · simp only [enqueue, spend, dispatchAll_uop, admitOnce_uop]
      split <;> rfl
    · simp only [enqueue, spend, dispatchAll_uop, admitOnce_uop]
      split <;> rfl
  | issue issuable _ _ _ _ _ => exact serving_issue hi hs issuable

/-! ### When the loop looks at its condition -/

/-- What holds of the state then, and at every step of a visit. -/
structure AtHead (E : Config) (now : ℕ) (s : Sched) : Prop where
  sound : Sound E now s
  counters : PipelineCounters E s
  tracked : Tracked E.trace s.toCore
  stocked : Stocked E s
  serving : Serving E s
  epochs : EpochInv E s
  drained : ∀ m ∈ E.trace.macros, ∃ k, Drained s m k
  conserved : E.rename.enabled = true → Conserved E s
  kept : E.rename.enabled = false → s.renamePending = []

theorem atHead_init (hT : WellFormed E.trace) : AtHead E 0 (schedInit E) where
  sound := sound_init
  counters := counters_init
  tracked := tracked_init hT
  stocked := stocked_init
  serving := serving_init
  epochs := epochInv_init
  drained _ _ := ⟨0, drained_init⟩
  conserved _ := conserved_init
  kept _ := rfl

theorem kept_step (hoff : E.rename.enabled = false) (hs : s.renamePending = []) (h : Step E now s s') :
    s'.renamePending = [] := by
  have hadmission : ∀ (c : DispatchCycle) (m : MacroOp), (admitOnce E s c m now).1.renamePending = s.renamePending := by
    intro c m
    unfold admitOnce
    split <;> rfl
  cases h with
  | complete _ _ =>
    unfold completeEntry
    dsimp only
    split <;> exact hs
  | releaseRename head _ => rw [hs] at head; cases head
  | releaseFlow _ _ | advance _ _ | stall _ _ _ | poll _ | issue _ _ _ _ _ _ => exact hs
  | budget _ _ _ => exact (hadmission _ _).trans hs
  | take _ _ _ => exact (hadmission _ _).trans hs
  | retire _ _ _ =>
    show pushRelease E s _ now = []
    simp [pushRelease, hoff, hs]

/-- Every step keeps it. -/
theorem AtHead.step (hT : WellFormed E.trace) (hn : ∀ m ∈ E.trace.macros, m.uopIds.Nodup) (hE : Provided E.toSetup)
    (hdep : TerminalsDepend E) (hs : AtHead E now s) (h : Step E now s s') : AtHead E now s' where
  sound := hs.sound.step hT hn h
  counters := counters_step hT hs.sound.core hs.counters h
  tracked := (step_core h).invariant _ _ _ hs.tracked fun _ _ hc hstep => tracked_step hT hc hstep
  stocked := stocked_step hT hE hs.stocked h
  serving := serving_step hs.sound.core hs.sound.flows hs.serving h
  epochs := epochInv_step hT hdep hs.sound.core hs.epochs h
  drained m hm := by
    obtain ⟨k, hk⟩ := hs.drained m hm
    obtain ⟨k', _, -, hk'⟩ := drained_step hT hn hm hk h
    exact ⟨k', hk'⟩
  conserved hon := conserved_step hT hon hs.sound.core (hs.conserved hon) h
  kept hoff := kept_step hoff (hs.kept hoff) h

theorem AtTick.atHead (hT : WellFormed E.trace) (hn : ∀ m ∈ E.trace.macros, m.uopIds.Nodup) (hE : Provided E.toSetup)
    (hdep : TerminalsDepend E) (h : AtTick E now s) : AtHead E now s :=
  h.invariant hT (atHead_init hT) (fun _ _ _ hs hstep => hs.step hT hn hE hdep hstep) fun _ _ _ hs hlt =>
    { hs with sound := ⟨hs.sound.core.later hlt.le, hs.sound.partitions, hs.sound.flows, hs.sound.ordered⟩ }

/-- To poll is to take steps. -/
theorem Polled.steps (h : Polled s s') : Steps E now s s' := by
  obtain ⟨⟨memory, stalls, domains, blocked, rfl⟩, -, -⟩ := h
  exact .tail (.single (.stall stalls domains blocked)) (.poll memory)

theorem AtHead.polled (hT : WellFormed E.trace) (hn : ∀ m ∈ E.trace.macros, m.uopIds.Nodup) (hE : Provided E.toSetup)
    (hdep : TerminalsDepend E) (hs : AtHead E now s) (h : Polled s s') : AtHead E now s' := by
  have hsteps : Steps E now s s' := h.steps
  exact hsteps.invariant hs fun _ _ hs hstep => hs.step hT hn hE hdep hstep

/-! ### An empty machine -/

/-- Partitions of which all uops have issued are empty. -/
theorem partitions_empty (hs : PartitionInv E s)
    (h : ∀ x ∈ E.trace.uops, (s.uop x.id).dispatchTick.isSome → (s.uop x.id).issueTick.isSome) (p : String) :
    s.partitionOccupancy p = 0 := by
  have hnone : E.trace.uops.countP (waitsIn s p) = 0 := by
    refine List.countP_eq_zero.mpr fun x hx hwaits => ?_
    simp only [waitsIn, Bool.and_eq_true] at hwaits
    have := h x hx hwaits.1.2
    rw [Option.isNone_iff_eq_none.mp hwaits.2] at this
    cases this
  rw [hs.counted, hnone]
  rfl

/-- All rename entries are free. -/
theorem AtHead.free (h : AtHead E now s) (henabled : E.rename.enabled = true) (hrob : s.rob = [])
    (hpending : s.renamePending = []) (f : String) : s.renameFree f = initialFree E f := by
  have hheld : heldEntries E s f = 0 := occupancy_empty h.sound.core hrob _
  have hback : pendingEntries s f = 0 := by simp [pendingEntries, pendingOf, hpending]
  have := h.conserved henabled f
  omega

/-- In an empty machine every macro-op has room. -/
theorem AtHead.room (h : AtHead E now s) (hroomy : Roomy E m) (hrob : s.rob = []) (hpending : s.renamePending = []) :
    dispatchBlocker E s {} m = .ok none := by
  obtain ⟨hr, hv, hl, hs⟩ := counters_empty (fun m _ huses => by
    obtain ⟨-, hany⟩ := Bool.and_eq_true_iff.mp huses
    obtain ⟨u, hu, hkind⟩ := List.any_eq_true.mp hany
    exact ⟨u, hu, (Bool.and_eq_true_iff.mp hkind).1⟩) h.sound.core h.counters hrob
  obtain ⟨rob, hrobEntries, hle⟩ := hroomy.rob
  have hdomains : ∀ ds : List String, (∀ d ∈ ds, ∃ n : ℕ+, E.dispatchDomainCapacity.lookup d = some n ∧ domainDemand m d ≤ n) →
      domainFull E {} m ds = .ok none := by
    intro ds
    induction ds with
    | nil => exact fun _ => rfl
    | cons d ds ih =>
      intro hds
      obtain ⟨n, hn, hfits⟩ := hds d List.mem_cons_self
      rw [domainFull, hn]
      dsimp only
      rw [if_neg (by omega)]
      exact ih fun e he => hds e (List.mem_cons_of_mem _ he)
  have hrename : renameBlocker E s {} m = .ok none := by
    unfold renameBlocker
    split
    · rfl
    · next hon =>
      have henabled : E.rename.enabled = true := by
        simp only [Bool.or_eq_true, Bool.not_eq_true', not_or, Bool.not_eq_false] at hon
        exact hon.1
      have hwidth := hroomy.width henabled
      have hknown : ¬ (m.renameAllocations.any fun e => decide (e.1 ∉ E.rename.freeLists.map (·.1))) = true := by
        intro hunknown
        obtain ⟨e, he, hnot⟩ := List.any_eq_true.mp hunknown
        exact of_decide_eq_true hnot (hroomy.entries henabled e he).1
      have hfree : (m.renameAllocations.find? fun e => decide (s.renameFree e.1 - e.2 < E.rename.guardEntries)) = none := by
        refine List.find?_eq_none.mpr fun e he => ?_
        have hentries := (hroomy.entries henabled e he).2
        have hall := h.free henabled hrob hpending e.1
        rw [initialFree] at hall
        simp only [decide_eq_true_eq, not_lt]
        omega
      rw [if_neg hknown, if_neg (by simpa using hwidth), hfree]
      rfl
  have hqueue : ∀ (uses : Bool) (v : Option ℕ) (name : String) (occupancy : ℤ), (uses = true → ∃ n ∈ v, 1 ≤ n) →
      occupancy = 0 → queueFull uses v name occupancy = .ok false := by
    rintro uses v name occupancy hv rfl
    unfold queueFull
    split
    · next huses =>
      obtain ⟨n, hn, hpos⟩ := hv huses
      rw [Option.mem_def.mp hn]
      have hnot : ¬ (n : ℤ) ≤ 0 := by omega
      show Except.ok (decide ((n : ℤ) ≤ 0)) = .ok false
      rw [decide_eq_false hnot]
    · rfl
  have hvector : vectorFull E s m = .ok false := by
    unfold vectorFull
    split
    · next huses =>
      obtain ⟨n, hn, hpos⟩ := hroomy.vector huses
      rw [Option.mem_def.mp hn, hv]
      have huse := Bool.toNat_le m.usesVectorScheduler
      have hnot : ¬ (n : ℤ) < 0 + m.usesVectorScheduler.toNat := by omega
      show Except.ok (decide ((n : ℤ) < 0 + m.usesVectorScheduler.toNat)) = .ok false
      rw [decide_eq_false hnot]
    · rfl
  unfold dispatchBlocker admissionBlocker queueBlocker
  rw [Option.mem_def.mp hrobEntries, hr, hdomains _ hroomy.domains, hrename, hvector,
    hqueue _ _ _ _ hroomy.load hl, hqueue _ _ _ _ hroomy.store hs]
  split
  · rfl
  · simp only [pipelineInt, Bind.bind, Except.bind]
    rw [if_neg (by omega)]
    rfl

/-! ### The oldest uop that waits -/

/-- A uop that may issue as far as the bookkeeping goes, and that no older one comes before. -/
structure Foremost (E : Config) (c : Core) (x : ExecutionUop) : Prop extends Clear E.toSetup c x where
  waiting : (c.uop x.id).issueTick = none
  older : ∀ y ∈ E.trace.uops, y.sequence < x.sequence → (c.uop y.id).issueTick.isSome

/-- What is older than the uop has completed. -/
theorem Foremost.completed (hT : WellFormed E.trace) (hx : Foremost E s.toCore x) (h : AtHead E now s)
    (hheap : s.completionHeap = []) {y : ExecutionUop} (hy : y ∈ E.trace.uops)
    (hlt : sequenceOf E y.id < sequenceOf E x.id) : (s.uop y.id).completeTick.isSome := by
  rw [sequenceOf_eq hT hy, sequenceOf_eq hT hx.mem] at hlt
  exact h.tracked.completed hheap (hx.older y hy hlt)

theorem Calm.visibility (hc : Calm E now s) (hx : x ∈ E.trace.uops) : visibilityBlocker E s x now = none := by
  unfold visibilityBlocker
  split
  · dsimp only
    split
    · next hall =>
      have hticks : ∀ d ∈ x.vectorStateDependencies, ∃ t, (s.uop d).completeTick = some t ∧
          t + E.epochs.loadOnlyVisibilityTicks ≤ now := by
        intro d hd
        have hsome := List.all_eq_true.mp hall.2 _ (List.mem_map.mpr ⟨d, hd, rfl⟩)
        obtain ⟨t, ht⟩ := Option.isSome_iff_exists.mp hsome
        exact ⟨t, ht, hc.visible x hx d hd t ht⟩
      obtain ⟨d, hd⟩ := List.exists_mem_of_ne_nil x.vectorStateDependencies (by simpa using hall.1)
      obtain ⟨t, -, hle⟩ := hticks d hd
      have hready : ((x.vectorStateDependencies.map fun d => (s.uop d).completeTick).map (·.getD 0)).foldl max 0 ≤
          now - E.epochs.loadOnlyVisibilityTicks := by
        refine foldl_max_le _ _ _ (Nat.zero_le _) fun t ht => ?_
        obtain ⟨_, hmem, rfl⟩ := List.mem_map.mp ht
        obtain ⟨d, hd, rfl⟩ := List.mem_map.mp hmem
        obtain ⟨t, ht, hle⟩ := hticks d hd
        rw [ht, Option.getD_some]
        omega
      rw [if_neg (by omega)]
    · rfl
  · rfl

theorem Foremost.close (hT : WellFormed E.trace) (hS : Sequenced E.trace) (hx : Foremost E s.toCore x) (h : AtHead E now s)
    (hc : Calm E now s) (hheap : s.completionHeap = []) : closeBlocker E s x now = none := by
  unfold closeBlocker
  split
  · rfl
  · next t offset hclose =>
    obtain ⟨i, e, e', he, -, -, y, hy, rfl⟩ := epochClose_next hclose
    have hmem := epoch_mem (List.mem_of_getElem? he) (List.mem_cons_of_mem _ hy)
    have hdone := hx.completed hT h hheap hmem (Waits.sequence_lt hT hS (.close hclose))
    obtain ⟨d, hd⟩ := Option.isSome_iff_exists.mp hdone
    have hle := hc.closes x hx.mem _ hclose d hd
    rw [hd]
    dsimp only [Option.some_or]
    rw [if_neg (by omega)]

theorem Foremost.capacity (hT : WellFormed E.trace) (hS : Sequenced E.trace) (hord : ConfigsOrdered E)
    (hx : Foremost E s.toCore x) (h : AtHead E now s) (hheap : s.completionHeap = []) : capacityBlocker E s x = none := by
  unfold capacityBlocker
  split
  · next hfull =>
    obtain ⟨t', hmixed⟩ := Option.isSome_iff_exists.mp hfull.1
    have hpos := E.epochs.mixedStoreReductionCapacity.pos
    obtain ⟨t, ht⟩ := List.exists_mem_of_ne_nil s.mixedActive (by
      rintro hnil
      simp [hnil] at hfull)
    -- the terminal of an open epoch is older, and has completed
    have hlt := WaitsIn.sequence_lt hT hS hord h.sound.core h.epochs (.token hmixed hx.waiting hfull.2 ht)
    obtain ⟨e, he, hopen⟩ := (h.epochs.tokens t).mp ht
    obtain ⟨y, hy, rfl⟩ := (classify_mem E e.2).1 t hopen.terminal
    have hdone := hx.completed hT h hheap (epoch_mem he (List.mem_cons_of_mem _ hy)) hlt
    rw [hopen.running] at hdone
    cases hdone
  · rfl

/-! ### Nothing stands in its way -/

theorem Foremost.early (hT : WellFormed E.trace) (hS : Sequenced E.trace) (hord : ConfigsOrdered E)
    (hx : Foremost E s.toCore x) (h : AtHead E now s) (hc : Calm E now s) (hheap : s.completionHeap = [])
    (hover : E.overlap.enabled = false) : earlyBlocker E s x now = none := by
  have hdeps : dependencyBlocker (dependencyReason x) s.toCore x now = none := hx.dependency h.sound.core _
  have hepoch : epochBlocker E s x now = none := by
    unfold epochBlocker
    split
    · rw [hc.visibility hx.mem, hx.close hT hS h hc hheap, hx.capacity hT hS hord h hheap]
      rfl
    · rfl
  have hpart : partBlocker s.toCore x now = none := hx.part hc.toCalm
  have hoverlap : E.overlapBlocker s.toMachine x = none := overlapBlocker_off hover
  have hinterval : intervalBlocker s.toMachine x now = none := hc.interval hx.mem
  simp [earlyBlocker, hdeps, hepoch, hpart, hoverlap, hinterval]

theorem Calm.resources (hT : WellFormed E.trace) (hE : Provided E.toSetup) (hw : Wired E x) (hx : x ∈ E.trace.uops)
    (hc : Calm E now s) (hs : Stocked E s) : resourceChecks E s x now = .ok none := by
  have hunit : unitBlocker E s x now = .ok none := by
    unfold unitBlocker
    split
    · rfl
    · next hne =>
      cases hmin : ((eligibleUnits E s x).map s.executionUnitFree).min? with
      | none => exact absurd (List.map_eq_nil_iff.mp (List.min?_eq_none_iff.mp hmin)) (hs.eligible hT hw hx hne)
      | some t =>
        obtain ⟨u, hu, rfl⟩ := List.mem_map.mp (List.min?_eq_some_iff.mp hmin).1
        have hle := hc.units x hx u (eligibleUnits_subset hu)
        dsimp only
        rw [if_neg (by omega)]
  rw [resourceChecks, hc.toCalm.resource hs.sized hE hx]
  exact hunit

/-- With nothing on its way, no flow is in service. -/
theorem AtHead.served (h : AtHead E now s) (hheap : s.completionHeap = []) (hservice : s.serviceHeap = []) (k : AccessKind) :
    s.inflight k = [] := by
  refine List.eq_nil_iff_forall_not_mem.mpr fun u hu => ?_
  rcases h.sound.flows.entry hu with hnone | ⟨e, he, -⟩
  · obtain ⟨hissued, hrunning⟩ := h.serving k u hu hnone
    have := h.tracked.completed hheap hissued
    rw [hrunning] at this
    cases this
  · rw [hservice] at he
    cases he

theorem Foremost.vector (hx : Foremost E s.toCore x) (h : AtHead E now s) (hc : Calm E now s)
    (hheap : s.completionHeap = []) (hservice : s.serviceHeap = []) : vectorMemoryBlocker E s x now = .ok none := by
  have hsplit : splitBlocker E s x now = .ok none := by
    unfold splitBlocker
    split
    · rfl
    · cases hmin : (s.splitIssueFree (accessKind x)).min? with
      | none => exact absurd (List.min?_eq_none_iff.mp hmin) (h.sound.flows.lanes _)
      | some t =>
        have hle := hc.split _ t (List.min?_eq_some_iff.mp hmin).1
        dsimp only
        rw [if_neg (by omega)]
  have hserve : serviceBlocker E s x now = .ok none := by
    unfold serviceBlocker
    rw [h.served hheap hservice]
    split
    · rfl
    · next capacity _ =>
      have := capacity.pos
      rw [if_neg (by simp)]
  have holder : olderWaits E s x = false := by
    by_contra hwaits
    simp only [Bool.not_eq_false, olderWaits, Bool.and_eq_true, List.any_eq_true] at hwaits
    obtain ⟨-, y, hy, ⟨⟨⟨hlt, hwaiting⟩, -⟩, -⟩, -⟩ := hwaits
    have hissued := hx.older y hy (of_decide_eq_true hlt)
    have hnone := ((h.sound.core.uops.waiting _).mp (of_decide_eq_true hwaiting)).2
    rw [hnone] at hissued
    cases hissued
  unfold vectorMemoryBlocker
  split
  · rw [hsplit]
    show (serviceBlocker E s x now >>= _) = _
    rw [hserve, holder]
    rfl
  · rfl

/-- There is a path to execute on. -/
theorem Calm.candidates (hT : WellFormed E.trace) (hE : Provided E.toSetup) (hw : Wired E x) (hx : x ∈ E.trace.uops)
    (hc : Calm E now s) (hs : Stocked E s) (checkCompletion checkRead : Bool) :
    executionCandidates E s x now checkCompletion checkRead ≠ [] := by
  have hlane : ∀ r ∈ x.resourceChoices, ∃ t, (t, 0) ∈ (s.resourceFree r).zipIdx ∧ t ≤ now := by
    intro r hr
    have hlen := hs.sized.lanes r
    have hpos := (hE.lanes x hx).2 r hr
    cases hq : s.resourceFree r with
    | nil =>
      rw [hq, List.length_nil] at hlen
      omega
    | cons t ts => exact ⟨t, by simp, hc.lanes x hx r hr t (by rw [hq]; exact List.mem_cons_self)⟩
  have hpath : ∀ r ∈ x.resourceChoices, ∀ u ∈ unitChoices E s x,
      (∀ t ≤ now, pathOk E s x now checkCompletion checkRead r t u = true) →
      executionCandidates E s x now checkCompletion checkRead ≠ [] := by
    intro r hr u hu hok
    obtain ⟨t, ht, hle⟩ := hlane r hr
    exact List.ne_nil_of_mem (List.mem_flatMap.mpr ⟨r, hr, List.mem_flatMap.mpr ⟨(t, 0), ht,
      List.mem_map.mpr ⟨u, List.mem_filter.mpr ⟨hu, hok t hle⟩, rfl⟩⟩⟩)
  by_cases hne : x.executionUnitChoices = []
  · obtain ⟨r, hr⟩ := List.exists_mem_of_ne_nil _ (hE.lanes x hx).1
    refine hpath r hr none (by simp [unitChoices, hne]) fun t hle => ?_
    simp [pathOk, unitFits, readDomainFor, completionDomainFor, hle]
  · obtain ⟨u, hu⟩ := List.exists_mem_of_ne_nil _ (hs.eligible hT hw hx hne)
    have hchoice := eligibleUnits_subset hu
    obtain ⟨r, hr, hfunctional⟩ := hw.units u hchoice
    refine hpath r hr (some u) (by simp [unitChoices, hne, hu]) fun t hle => ?_
    have hfits : unitFits E s now r (some u) = true := by
      simp only [unitFits, hfunctional, Bool.true_and, decide_eq_true_eq]
      exact hc.units x hx u hchoice
    have hread : ((readDomainFor E x (some u)).all fun d => readAvailable E s d now) = true := by
      cases hd : readDomainFor E x (some u) with
      | none => rfl
      | some d =>
        have hmem := hw.reads u hchoice d hd
        have hcount : (s.readReservations d).count (now / E.ticksPerCycle) = 0 :=
          List.count_eq_zero.mpr fun hin => lt_irrefl _ (hc.reads d hmem _ hin)
        simpa [readAvailable, hcount] using capacityOf_pos hmem
    have hwrite : ((completionDomainFor E x (some u)).all fun d =>
        completionAvailable E s d (now + (s.uop x.id).latencyTicks)) = true := by
      cases hd : completionDomainFor E x (some u) with
      | none => rfl
      | some d =>
        have hmem := hw.writes u hchoice d hd
        have hcount : (s.completionReservations d).count ((now + (s.uop x.id).latencyTicks) / E.ticksPerCycle) = 0 := by
          refine List.count_eq_zero.mpr fun hin => ?_
          have hlt := hc.writes d hmem _ hin
          have hle : now / E.ticksPerCycle ≤ (now + (s.uop x.id).latencyTicks) / E.ticksPerCycle :=
            Nat.div_le_div_right (Nat.le_add_right _ _)
          omega
        simpa [completionAvailable, hcount] using capacityOf_pos hmem
    simp [pathOk, hle, hfits, hread, hwrite]

/-- **The foremost uop is let through in a calm machine.** -/
theorem Foremost.passes (hT : WellFormed E.trace) (hS : Sequenced E.trace) (hord : ConfigsOrdered E)
    (hE : Provided E.toSetup) (hw : Wired E x) (hover : E.overlap.enabled = false) (hx : Foremost E s.toCore x)
    (h : AtHead E now s) (hc : Calm E now s) (hheap : s.completionHeap = []) (hservice : s.serviceHeap = []) :
    ∃ memory, issueBlocker E s x now = .ok (memory, none) := by
  obtain ⟨memory, hmemory⟩ : ∃ memory, memoryBlocker E s x now = .ok (memory, none) := by
    unfold memoryBlocker
    split
    · next hk =>
      obtain ⟨memory, hm⟩ := hc.hierarchy hE hx.mem hk
      exact ⟨memory, by rw [hx.vector h hc hheap hservice]; exact hm⟩
    · exact ⟨_, rfl⟩
  have htokens : tokenChecks E s x now = .ok none := by
    have hexecution : executionBlocker E s x now = .ok none := by
      unfold executionBlocker
      rw [if_neg fun hno => hc.candidates hT hE hw hx.mem h.stocked false true hno.1,
        if_neg (hc.candidates hT hE hw hx.mem h.stocked true true)]
    rw [tokenChecks, hc.domain h.stocked.sized hE hx.mem]
    exact hexecution
  refine ⟨memory, ?_⟩
  simp [issueBlocker, hx.early hT hS hord h hc hheap hover, hc.resources hT hE hw hx.mem h.stocked, hmemory, htokens,
    Bind.bind, Except.bind]

/-! ### A visit -/

/-- **Where the oldest macro-op is not complete and nothing runs**, a uop is foremost, or the
macro-op is the one that the dispatcher is at, and all that is dispatched has issued. -/
theorem exists_foremost (hT : WellFormed E.trace) (hP : InProgramOrder E.trace) (hS : Sequenced E.trace)
    (h : AtHead E now s) (hheap : s.completionHeap = []) (mem : m ∈ E.trace.macros) {rest : List Id}
    (head : s.rob = m.id :: rest) (hopen : (s.macro_ m.id).completeTick = none) : (∃ x, Foremost E s.toCore x) ∨
      E.trace.macros[s.nextDispatch]? = some m ∧ isAdmitted s m = true ∧
        ∀ y ∈ E.trace.uops, (s.uop y.id).dispatchTick.isSome → (s.uop y.id).issueTick.isSome := by
  have hcore := h.sound.core
  obtain ⟨k, x, r, a, q, m', hx, hnone, hbefore, hr, hra, hget, hq, hqr, hxm⟩ :=
    hcore.exists_first hT hP h.tracked hheap mem head hopen
  by_cases hd : (s.uop x.id).dispatchTick.isSome
  · refine .inl ⟨x, { toClear := clear_of_first hcore hP h.tracked hheap hx hnone hd hbefore, waiting := hnone,
                      older := fun y hy hlt => ?_ }⟩
    obtain ⟨j, hj⟩ := List.mem_iff_getElem?.mp hy
    exact hbefore j (place_lt hS.increasing hj hx hlt) y hj
  · have hretired : ∀ {p : ℕ} {mp : MacroOp} {y : ExecutionUop}, E.trace.macros[p]? = some mp → p < r → y.id ∈ mp.uopIds →
        (s.uop y.id).issueTick.isSome := fun hp hlt hy =>
      hcore.issued_of_retired (List.mem_of_getElem? hp) ((hr.retired hp).mpr hlt) hy
    have hqeq : q = r := by
      by_contra hne
      have := hretired hq (by omega) hxm
      rw [hnone] at this
      cases this
    subst hqeq
    obtain rfl : m = m' := by rw [hget, Option.some.injEq] at hq; exact hq
    have hnext : s.nextDispatch = q := by
      have hnot : ¬ q < s.nextDispatch := fun hlt => hd (hcore.macros.whole hlt hget x.id hxm)
      have := hr.next
      omega
    refine .inr ⟨by rw [hnext]; exact hget, (hr.dispatched hget).mpr hra, fun y hy hyd => ?_⟩
    obtain ⟨j, hj⟩ := List.mem_iff_getElem?.mp hy
    by_contra hunissued
    obtain ⟨my, hmy, -, -, hym⟩ := hT.mem_parent hy
    obtain ⟨p, hp⟩ := List.mem_iff_getElem?.mp hmy
    have hpa := (hr.dispatched hp).mp (hcore.macros.owner hmy y.id hym hyd)
    have hpq : p = q := by
      by_contra hne
      have := hr.next
      exact hunissued (hretired hp (by omega) hym)
    subst hpq
    obtain rfl : m = my := by rw [hget, Option.some.injEq] at hp; exact hp
    -- in the macro-op, the uops that are dispatched come first
    obtain ⟨n, hn⟩ := h.sound.ordered m mem
    have hxn : x.id ∈ m.uopIds.drop n := by
      rw [← hn]
      exact List.mem_filter.mpr ⟨hxm, by simpa using hd⟩
    have hyn : y.id ∈ m.uopIds.take n := by
      have hsplit : y.id ∈ m.uopIds.take n ++ m.uopIds.drop n := by rw [List.take_append_drop]; exact hym
      rcases List.mem_append.mp hsplit with hin | hin
      · exact hin
      · rw [← hn] at hin
        have := (List.mem_filter.mp hin).2
        rw [Option.isNone_iff_eq_none.mp this] at hyd
        cases hyd
    exact hunissued (hbefore j (hP.within hT hget hj hx hyn hxn) y hj)

/-- The fixed point issues where a uop is foremost. -/
theorem issueFixedPoint_works (hT : WellFormed E.trace) (hn : ∀ m ∈ E.trace.macros, m.uopIds.Nodup)
    (hS : Sequenced E.trace) (hdep : TerminalsDepend E) (hord : ConfigsOrdered E) (hE : Provided E.toSetup)
    (hw : ∀ x ∈ E.trace.uops, Wired E x) (hover : E.overlap.enabled = false) (h : AtHead E now s) (hc : Calm E now s)
    (hheap : s.completionHeap = []) (hservice : s.serviceHeap = []) (hx : Foremost E s.toCore x)
    (hs : issueFixedPoint E now s = .ok s') : work E s' < work E s := by
  obtain ⟨s₀, s₁, h₀, h₁, h₂⟩ := FixedPoint.run_last (R := Proceeds E) hs Proceeds.refl Proceeds.trans complete_proceeds
    fun _ _ hr => (issueOnce_proceeds hT hr).1
  have h₀₁ : Proceeds E s₀ s₁ := by
    have hcomplete : Proceeds E s₀ (complete E now s₀).2 := complete_proceeds s₀
    rwa [h₁] at hcomplete
  have h₁₂ : Proceeds E s₁ s' := (issueOnce_proceeds hT h₂).1
  by_contra hnot
  -- nothing has happened by the last turn, in which the uop is let through
  have hpolled : Polled s s₁ := (h₀.trans h₀₁).polled (by have := h₁₂.le; omega)
  have hlets : ∀ t, Polled s₁ t → ∃ memory, issueBlocker E t x now = .ok (memory, none) := by
    intro t ht
    have hall := hpolled.trans ht
    have hcalm := hall.calm hc
    have hhead := h.polled hT hn hE hdep hall
    obtain ⟨⟨_, _, _, _, rfl⟩, -, -⟩ := hall
    exact hx.passes hT hS hord hE (hw x hx.mem) hover hhead hcalm hheap hservice
  have hcandidate : x ∈ E.issueCandidates s₁.toCore := by
    obtain ⟨⟨_, _, _, _, rfl⟩, -, -⟩ := hpolled
    exact hx.candidate
  have hissued := issueList_issues hlets (E.issueCandidates s₁.toCore) s₁ (.refl s₁) hcandidate
    (fun hin => ((candidates_issueCandidates hT _).order hin).1) h₂
  cases hissued

/-- What the constructor and the trace promise of a machine that runs to its end. -/
structure Able (E : Config) : Prop extends Equipped E where
  wellFormed : WellFormed E.trace
  onceEach : ∀ m ∈ E.trace.macros, m.uopIds.Nodup
  inProgramOrder : InProgramOrder E.trace
  sequenced : Sequenced E.trace
  terminals : TerminalsDepend E
  configs : ConfigsOrdered E
  counts : ∀ m ∈ E.trace.macros, 0 < m.retireMacroOps
  wired : ∀ x ∈ E.trace.uops, Wired E x
  releases : E.rename.enabled = true → 0 < E.rename.releaseWidth
  unlimited : E.overlap.enabled = false

/-- **A visit at a cycle boundary does some of the work**, where nothing under way reaches
beyond it. -/
theorem visit_works (hE : Able E) (hb : E.boundary now = true) (h : AtHead E now s) (hc : Calm E now s)
    (hu : E.unfinished s.toCore = true) (hv : visitOf (phases E now) s = .ok s') : work E s' < work E s := by
  have hT := hE.wellFormed
  by_contra hnot
  -- the states between the procedures, all of them polled alone
  obtain ⟨s₁, h₁, hv⟩ := ok_bind.mp hv
  obtain ⟨s₂, h₂, hv⟩ := ok_bind.mp hv
  obtain ⟨s₃, h₃, hv⟩ := ok_bind.mp hv
  obtain ⟨s₄, h₄, hv⟩ := ok_bind.mp hv
  obtain ⟨s₅, h₅, hv⟩ := ok_bind.mp hv
  obtain ⟨s₆, h₆, hv⟩ := ok_bind.mp hv
  obtain ⟨s₇, h₇, hv⟩ := ok_bind.mp hv
  cases hv
  have hgoes : ∀ {f : Sched → Except SimError Sched} {t t' : Sched}, f ∈ phases E now → f t = .ok t' → Proceeds E t t' :=
    fun hf hft => phase_proceeds hT hf hft
  have m₁ := hgoes (by simp [phases]) h₁
  have m₂ := hgoes (by simp [phases]) h₂
  have m₃ := hgoes (by simp [phases]) h₃
  have m₄ := hgoes (by simp [phases]) h₄
  have m₅ := hgoes (by simp [phases]) h₅
  have m₆ := hgoes (by simp [phases]) h₆
  have m₇ := hgoes (by simp [phases]) h₇
  have l₁ := m₁.le
  have l₂ := m₂.le
  have l₃ := m₃.le
  have l₄ := m₄.le
  have l₅ := m₅.le
  have l₆ := m₆.le
  have l₇ := m₇.le
  have p₁ : Polled s s₁ := m₁.polled (by omega)
  have p₂ : Polled s s₂ := p₁.trans (m₂.polled (by omega))
  have p₃ : Polled s s₃ := p₂.trans (m₃.polled (by omega))
  have p₄ : Polled s s₄ := p₃.trans (m₄.polled (by omega))
  have p₆ : Polled s s₆ := (p₄.trans (m₅.polled (by omega))).trans (m₆.polled (by omega))
  replace h₄ : dispatch E now s₃ = .ok s₄ := (if_pos hb).symm.trans h₄
  replace h₇ : retire E now s₆ = .ok s' := (if_pos hb).symm.trans h₇
  have hat : ∀ {t}, Polled s t → AtHead E now t := h.polled hT hE.onceEach hE.toProvided hE.terminals
  -- nothing is due, so that nothing is on its way
  have hheap : s.completionHeap = [] := by
    cases hq : s.completionHeap with
    | nil => rfl
    | cons e rest =>
      have hless := complete_works (E := E) hq (hc.heap e (by rw [hq]; exact List.mem_cons_self))
      cases h₁
      omega
  have hservice : s.serviceHeap = [] := by
    have hsame : s₁.serviceHeap = s.serviceHeap := by obtain ⟨⟨_, _, _, _, rfl⟩, -, -⟩ := p₁; rfl
    rw [← hsame]
    cases hq : s₁.serviceHeap with
    | nil => rfl
    | cons e rest =>
      have hless := releaseFlows_works (E := E) hq ((p₁.calm hc).service e (by rw [hq]; exact List.mem_cons_self))
      cases h₂
      omega
  have hpending : s.renamePending = [] := by
    have hsame : s₂.renamePending = s.renamePending := by obtain ⟨⟨_, _, _, _, rfl⟩, -, -⟩ := p₂; rfl
    cases hon : E.rename.enabled with
    | false => exact h.kept hon
    | true =>
      rw [← hsame]
      cases hq : s₂.renamePending with
      | nil => rfl
      | cons b rest =>
        have hless := releaseRename_works hon (hE.releases hon) hq
          ((p₂.calm hc).releases b (by rw [hq]; exact List.mem_cons_self))
        cases h₃
        omega
  have hcore : s₃.toCore = s.toCore := by obtain ⟨⟨_, _, _, _, rfl⟩, -, -⟩ := p₃; rfl
  -- a macro-op at the dispatcher gets ahead, where all that is dispatched has issued
  have hstuck : ∀ {m}, E.trace.macros[s.nextDispatch]? = some m → dispatchBlocker E s₃ {} m = .ok none →
      ¬ ∀ y ∈ E.trace.uops, (s.uop y.id).dispatchTick.isSome → (s.uop y.id).issueTick.isSome := by
    intro m hget hroom hall
    have hm := List.mem_of_getElem? hget
    have hempty := partitions_empty (hat p₃).sound.partitions (by rw [hcore]; exact hall)
    obtain ⟨k, hk⟩ := (hat p₃).drained m hm
    have hless := dispatch_works hT (hE.room m hm) (by rw [hcore]; exact hget) hroom
      (fun hp width hwidth => chooseChunk_free hE.wired hT (hE.onceEach m hm) hm hempty hp hwidth hk) h₄
    omega
  cases hrob : s.rob with
  | nil =>
    -- an empty machine dispatches
    have hlt : s.nextDispatch < E.trace.macros.length := by simpa [unfinished, hrob] using hu
    have hget := List.getElem?_eq_getElem hlt
    have hpending₃ : s₃.renamePending = [] := by obtain ⟨⟨_, _, _, _, rfl⟩, -, -⟩ := p₃; exact hpending
    refine hstuck hget ((hat p₃).room (hE.room _ (List.mem_of_getElem? hget)) (by rw [hcore]; exact hrob) hpending₃)
      fun y hy hyd => ?_
    obtain ⟨my, hmy, -, -, hym⟩ := hT.mem_parent hy
    exact h.sound.core.issued_of_retired hmy
      (retired_of_empty h.sound.core hrob hmy (h.sound.core.macros.owner hmy y.id hym hyd)) hym
  | cons id rest =>
    obtain ⟨m, hm, rfl⟩ := h.sound.core.head_macro hrob
    cases hdone : (s.macro_ m.id).completeTick with
    | some t =>
      -- the oldest macro-op retires
      have hle : t ≤ now := h.sound.core.complete_le hm hdone
      have hcore₆ : s₆.toCore = s.toCore := by obtain ⟨⟨_, _, _, _, rfl⟩, -, -⟩ := p₆; rfl
      have hless := retire_works hT (hE.room m hm) hm (by rw [hcore₆]; exact hrob)
        (by rw [hcore₆, hdone]; simpa using hle) (hE.counts m hm) h₇
      omega
    | none =>
      rcases exists_foremost hT hE.inProgramOrder hE.sequenced h hheap hm hrob hdone with ⟨x, hx⟩ | ⟨hget, hadmitted, hall⟩
      · obtain ⟨⟨_, _, _, _, rfl⟩, hbandwidth, houtstanding⟩ := p₄
        have hpolled : Polled s _ := ⟨⟨_, _, _, _, rfl⟩, hbandwidth, houtstanding⟩
        have hless := issueFixedPoint_works hT hE.onceEach hE.sequenced hE.terminals hE.configs hE.toProvided hE.wired
          hE.unlimited (hat hpolled) (hpolled.calm hc) hheap hservice hx h₅
        omega
      · refine hstuck hget ?_ hall
        have hin : isAdmitted s₃ m = true := by rw [isAdmitted, hcore]; exact hadmitted
        rw [dispatchBlocker, if_pos hin]

end Xsai
end VectorSim
