/-
# The order of the rename allocations

The binder lists the rename allocations of a macro-op in an order that is not
fixed. Two places of the engine look at it: the free list that is blamed when
several are short, and the free lists that are served first when the release
width cuts a batch in two. A run that never comes to either (`Settled`) is the
same for every order (`run_reordered`).
-/
import VectorSim.Backend.XsaiReorder
import VectorSim.RenameSafety

namespace VectorSim
namespace Xsai

open Checked Setup Core

variable {ρ : Id → List (String × ℕ)} {E : Config} {now : ℕ} {s : Sched} {c : DispatchCycle} {m : MacroOp}

/-! ### What a run must not come to -/

/-- The free list of an allocation is short of it. -/
def short (E : Config) (s : Sched) (e : String × ℕ) : Bool := s.renameFree e.1 - e.2 < E.rename.guardEntries

/-- At most one free list is short of what the macro-op takes. -/
def oneShort (E : Config) (s : Sched) (m : MacroOp) : Bool :=
  decide (∀ e ∈ m.renameAllocations, ∀ e' ∈ m.renameAllocations,
    short E s e = true → short E s e' = true → e.1 = e'.1)

/-- If the dispatcher blames a free list in this turn, no other one is short. -/
def settledTurn (E : Config) (width : ℕ) (s : Sched) (c : DispatchCycle) (m : MacroOp) : Bool :=
  if pendingUops s m ≠ [] ∧ (chooseChunk E s c m (pendingUops s m) width).isSome then
    match dispatchBlocker E s c m with
    | .ok (some (.renameFreeList _)) => oneShort E s m
    | _ => true
  else true

/-- The same for every turn of the dispatcher. -/
def settledDispatch (E : Config) (width now : ℕ) : ℕ → Sched → DispatchCycle → Bool
  | 0, _, _ => true
  | fuel + 1, s, c =>
    match E.trace.macros[s.nextDispatch]? with
    | none => true
    | some m =>
      if width ≤ c.dispatched then true
      else settledTurn E width s c m &&
        match dispatchTurn E width now s c m with
        | .error _ => true
        | .ok r => !r.1 || settledDispatch E width now fuel r.2.1 r.2.2

/-- The release width cuts no batch of several free lists in two. -/
def uncut (now : ℕ) : List Release → ℕ → Bool
  | [], _ => true
  | b :: rest, width =>
    if now < b.tick ∨ width = 0 then true
    else if Entries.total b.allocations ≤ width then uncut now rest (width - Entries.total b.allocations)
    else b.allocations.length ≤ 1

/-- A visit comes to neither. -/
def settled (E : Config) (now : ℕ) (s : Sched) : Bool :=
  let released := releaseRename E now (atRelease E (now, s))
  uncut now (atRelease E (now, s)).renamePending E.rename.releaseWidth &&
    (!E.boundary now ||
      settledDispatch E (dispatchWidth E) now (E.trace.macros.length - released.nextDispatch) released {})

/-- Nor does any visit of the run. -/
def Settled (E : Config) : Prop :=
  ∀ n now s, n < E.iterationBound → EventLoop.Reaches (loop E) n 0 (schedInit E) now s →
    E.unfinished s.toCore = true → settled E now s = true

/-! ### Dispatch -/

theorem find?_eq_of_perm {α β : Type} {p : α → Bool} {f : α → β} {l l' : List α} (h : l.Perm l')
    (hone : ∀ a ∈ l, ∀ b ∈ l, p a = true → p b = true → f a = f b) :
    (l'.find? p).map f = (l.find? p).map f := by
  cases hl : l.find? p with
  | none =>
    have hnone : l'.find? p = none :=
      List.find?_eq_none.mpr fun a ha => List.find?_eq_none.mp hl a (h.mem_iff.mpr ha)
    rw [hnone]
  | some a =>
    have ha := List.mem_of_find?_eq_some hl
    have hpa := List.find?_some hl
    cases hl' : l'.find? p with
    | none => exact absurd hpa (by simpa using List.find?_eq_none.mp hl' a (h.mem_iff.mp ha))
    | some b =>
      have hb := h.mem_iff.mpr (List.mem_of_find?_eq_some hl')
      exact congrArg some (hone b hb a ha (List.find?_some hl') hpa)

theorem renameBlocker_reordered (q : List Release) (hρ : (ρ m.id).Perm m.renameAllocations)
    (hone : ∀ f, renameBlocker E s c m = .ok (some (.renameFreeList f)) → oneShort E s m = true) :
    renameBlocker (E.reorder ρ) (s.withPending q) c (m.relist ρ) = renameBlocker E s c m := by
  have hempty : (ρ m.id).isEmpty = m.renameAllocations.isEmpty := by
    rw [Bool.eq_iff_iff, List.isEmpty_iff, List.isEmpty_iff]
    exact ⟨fun h => (h ▸ hρ).nil_eq.symm, fun h => (h ▸ hρ).eq_nil⟩
  have hany : ((ρ m.id).any fun e => e.1 ∉ E.rename.freeLists.map (·.1)) =
      m.renameAllocations.any fun e => e.1 ∉ E.rename.freeLists.map (·.1) := hρ.any_eq
  have htotal : allocationTotal (m.relist ρ) = allocationTotal m := Entries.total_perm hρ
  unfold renameBlocker at hone ⊢
  rw [htotal]
  show (if !E.rename.enabled || (ρ m.id).isEmpty then _
    else if (ρ m.id).any fun e => e.1 ∉ E.rename.freeLists.map (·.1) then _
    else if E.rename.allocationWidth < _ then _
    else Except.ok (((ρ m.id).find? (short E s)).map fun e => DispatchStall.renameFreeList e.1)) = _
  rw [hempty, hany]
  split
  · rfl
  · next h₁ =>
    split
    · rfl
    · next h₂ =>
      split
      · rfl
      · next h₃ =>
        rw [if_neg h₁, if_neg h₂, if_neg h₃] at hone
        refine congrArg Except.ok ?_
        show ((ρ m.id).find? (short E s)).map _ = (m.renameAllocations.find? (short E s)).map _
        cases hf : m.renameAllocations.find? (short E s) with
        | none =>
          rw [← hf]
          exact find?_eq_of_perm hρ.symm fun a ha b _ hp _ =>
            absurd hp (by simpa using List.find?_eq_none.mp hf a ha)
        | some e =>
          rw [← hf]
          have hshort := of_decide_eq_true (hone e.1 (congrArg (fun o => Except.ok (o.map fun e : String × ℕ =>
            DispatchStall.renameFreeList e.1)) hf))
          exact find?_eq_of_perm hρ.symm fun a ha b hb hp hp' =>
            congrArg DispatchStall.renameFreeList (hshort a ha b hb hp hp')

theorem domainFull_reordered : ∀ ds : List String,
    domainFull (E.reorder ρ) c (m.relist ρ) ds = domainFull E c m ds
  | [] => rfl
  | d :: ds => by
    unfold domainFull
    rw [domainFull_reordered ds]
    rfl

theorem dispatchBlocker_reordered (q : List Release) (hρ : (ρ m.id).Perm m.renameAllocations)
    (hone : ∀ f, dispatchBlocker E s c m = .ok (some (.renameFreeList f)) → oneShort E s m = true) :
    dispatchBlocker (E.reorder ρ) (s.withPending q) c (m.relist ρ) = dispatchBlocker E s c m := by
  unfold dispatchBlocker at hone ⊢
  show (if isAdmitted s m then _ else admissionBlocker (E.reorder ρ) (s.withPending q) c (m.relist ρ)) = _
  split
  · rfl
  · next hout =>
    rw [if_neg hout] at hone
    unfold admissionBlocker at hone ⊢
    rw [show (m.relist ρ).dispatchDomains = m.dispatchDomains from rfl, domainFull_reordered]
    show (pipelineInt E.pipeline.robEntries "rob_entries" >>= _) = _
    cases hrob : pipelineInt E.pipeline.robEntries "rob_entries" with
    | error e => rfl
    | ok n =>
      rw [hrob] at hone
      simp only [Bind.bind, Except.bind] at hone ⊢
      show (if n < s.robOccupancy + m.robEntryCount then _ else _) = _
      split
      · rfl
      · next hfit =>
        rw [if_neg hfit] at hone
        cases hdomains : domainFull E c m m.dispatchDomains with
        | error e => rfl
        | ok b =>
          rw [hdomains] at hone
          cases b with
          | some reason => rfl
          | none =>
            dsimp only at hone ⊢
            rw [renameBlocker_reordered q hρ fun f hf => hone f (by rw [hf])]
            rfl

theorem admitMacro_reordered (q : List Release) (hρ : (ρ m.id).Perm m.renameAllocations) :
    admitMacro (E.reorder ρ) (s.withPending q) c (m.relist ρ) now =
      ((admitMacro E s c m now).1.withPending q, (admitMacro E s c m now).2) := by
  have hfree : (ρ m.id).foldl (fun (free : String → ℤ) e => Function.update free e.1 (free e.1 - (e.2 : ℤ)))
      s.renameFree = m.renameAllocations.foldl
        (fun (free : String → ℤ) e => Function.update free e.1 (free e.1 - (e.2 : ℤ))) s.renameFree := by
    funext f
    rw [Entries.foldl_sub, Entries.foldl_sub, Entries.count_perm hρ]
  have htotal : allocationTotal (m.relist ρ) = allocationTotal m := Entries.total_perm hρ
  unfold admitMacro
  rw [htotal]
  simp only [show (m.relist ρ).renameAllocations = ρ m.id from rfl,
    show (s.withPending q).renameFree = s.renameFree from rfl, hfree]
  rfl

theorem admitOnce_reordered (q : List Release) (hρ : (ρ m.id).Perm m.renameAllocations) :
    admitOnce (E.reorder ρ) (s.withPending q) c (m.relist ρ) now =
      ((admitOnce E s c m now).1.withPending q, (admitOnce E s c m now).2) := by
  unfold admitOnce
  show (if isAdmitted s m then _ else _) = _
  split
  · rfl
  · exact admitMacro_reordered q hρ

theorem recordDispatchBlocker_reordered (s : Sched) (q : List Release) (reason : DispatchStall) :
    recordDispatchBlocker (s.withPending q) (m.relist ρ) now reason =
      (recordDispatchBlocker s m now reason).map (·.withPending q) := by
  unfold recordDispatchBlocker
  cases reason with
  | dispatchDomainFull d =>
    show (if (s.blockerDomain m.id).isNone then .error _ else .ok _) =
      (if (s.blockerDomain m.id).isNone then Except.error _ else .ok _).map _
    split <;> rfl
  | _ => rfl

theorem stopBlocked_reordered (q : List Release) (reason : DispatchStall) :
    stopBlocked (s.withPending q) c (m.relist ρ) now reason =
      (stopBlocked s c m now reason).map fun r => (r.1, r.2.1.withPending q, r.2.2) := by
  have hnote : noteDomain (s.withPending q) (m.relist ρ) reason = (noteDomain s m reason).withPending q := by
    cases reason <;> rfl
  unfold stopBlocked
  rw [hnote, recordDispatchBlocker_reordered]
  cases recordDispatchBlocker (noteDomain s m reason) m now reason <;> rfl

theorem closeTurn_reordered (q : List Release) (r : Sched × DispatchCycle) :
    closeTurn (r.1.withPending q, r.2) (m.relist ρ) =
      (closeTurn r m).map fun r => (r.1, r.2.1.withPending q, r.2.2) := by
  unfold closeTurn
  show (if ∀ u ∈ m.uopIds, (r.1.uop u).dispatchTick.isSome then
    (if r.1.unitProgress m.id ≠ m.dispatchWidthUnits then _ else _) else _) = _
  split
  · split <;> rfl
  · rfl

theorem assign_reordered (enforce : Bool) : ∀ (xs : List ExecutionUop) (occupancy : String → ℤ)
    (enqueues : String → ℕ), assign (E.reorder ρ) enforce xs occupancy enqueues = assign E enforce xs occupancy enqueues
  | [], _, _ => rfl
  | x :: xs, occupancy, enqueues => by
    unfold assign
    simp only [assign_reordered enforce xs]
    rfl

theorem planAssignment_reordered (q : List Release) (enforce : Bool) (enqueues : String → ℕ) (us : List Id) :
    planAssignment (E.reorder ρ) (s.withPending q) enforce enqueues us = planAssignment E s enforce enqueues us :=
  assign_reordered enforce _ _ _

theorem chooseChunk_reordered (q : List Release) (pending : List Id) (width : ℕ) :
    chooseChunk (E.reorder ρ) (s.withPending q) c (m.relist ρ) pending width = chooseChunk E s c m pending width := by
  unfold chooseChunk selectChunk
  simp only [planAssignment_reordered]
  rfl

theorem dispatchTurn_reordered {width : ℕ} (q : List Release) (hρ : (ρ m.id).Perm m.renameAllocations)
    (hsettled : settledTurn E width s c m = true) :
    dispatchTurn (E.reorder ρ) width now (s.withPending q) c (m.relist ρ) =
      (dispatchTurn E width now s c m).map fun r => (r.1, r.2.1.withPending q, r.2.2) := by
  unfold dispatchTurn
  dsimp only
  rw [show pendingUops (s.withPending q) (m.relist ρ) = pendingUops s m from rfl, chooseChunk_reordered]
  split
  · rfl
  · next hpending =>
    cases hc : chooseChunk E s c m (pendingUops s m) width with
    | none => rfl
    | some chunk =>
      dsimp only
      have hone : ∀ f, dispatchBlocker E s c m = .ok (some (.renameFreeList f)) → oneShort E s m = true := by
        intro f hf
        unfold settledTurn at hsettled
        rw [if_pos ⟨hpending, by rw [hc]; rfl⟩, hf] at hsettled
        exact hsettled
      rw [dispatchBlocker_reordered q hρ hone]
      cases dispatchBlocker E s c m with
      | error e => rfl
      | ok b =>
        cases b with
        | some reason => exact stopBlocked_reordered q reason
        | none =>
          cases chunk with
          | take us a units =>
            simp only [Bind.bind, Except.bind]
            rw [admitOnce_reordered q hρ]
            exact closeTurn_reordered q (enqueue (spend (admitOnce E s c m now) m units) us a now)
          | budget units =>
            simp only [Bind.bind, Except.bind]
            rw [admitOnce_reordered q hρ]
            rfl
          | blocked =>
            simp only [Bind.bind, Except.bind]
            rw [planAssignment_reordered]
            cases planAssignment E s false (fun _ => 0) (pendingUops s m) with
            | none => exact stopBlocked_reordered q _
            | some a => exact stopBlocked_reordered q _

theorem dispatchLoop_reordered (hρ : Reorders ρ E.trace) {width : ℕ}
    (q : List Release) : ∀ (fuel : ℕ) (s : Sched) (c : DispatchCycle), settledDispatch E width now fuel s c = true →
      dispatchLoop (E.reorder ρ) width now fuel (s.withPending q) c =
        (dispatchLoop E width now fuel s c).map (·.withPending q)
  | 0, _, _, _ => rfl
  | fuel + 1, s, c, hsettled => by
    unfold dispatchLoop
    have hnext : (E.reorder ρ).trace.macros[(s.withPending q).nextDispatch]? =
        (E.trace.macros[s.nextDispatch]?).map (·.relist ρ) := List.getElem?_map
    rw [hnext]
    cases hm : E.trace.macros[s.nextDispatch]? with
    | none => rfl
    | some m =>
      dsimp only [Option.map_some]
      split
      · rfl
      · next hwidth =>
        unfold settledDispatch at hsettled
        rw [hm] at hsettled
        dsimp only at hsettled
        rw [if_neg hwidth, Bool.and_eq_true] at hsettled
        obtain ⟨hturn, hrest⟩ := hsettled
        rw [dispatchTurn_reordered q (hρ m (List.mem_of_getElem? hm)) hturn]
        cases hr : dispatchTurn E width now s c m with
        | error e => rfl
        | ok r =>
          simp only [Bind.bind, Except.bind, Except.map]
          split
          · next hgo =>
            rw [hr] at hrest
            dsimp only at hrest
            rw [hgo, Bool.not_true, Bool.false_or] at hrest
            exact dispatchLoop_reordered hρ q fuel _ _ hrest
          · rfl

theorem dispatch_reordered (hρ : Reorders ρ E.trace) (q : List Release)
    (hsettled : settledDispatch E (dispatchWidth E) now (E.trace.macros.length - s.nextDispatch) s {} = true) :
    dispatch (E.reorder ρ) now (s.withPending q) = (dispatch E now s).map (·.withPending q) := by
  unfold dispatch
  show (pipelineInt E.pipeline.dispatchMacroOpsPerCycle "dispatch_macro_ops_per_cycle" >>= _) = _
  cases hw : pipelineInt E.pipeline.dispatchMacroOpsPerCycle "dispatch_macro_ops_per_cycle" with
  | error e => rfl
  | ok width =>
    have hwidth : dispatchWidth E = width := by
      rw [dispatchWidth, pipelineInt_ok.mp hw]
      rfl
    rw [hwidth] at hsettled
    have hlength : (E.reorder ρ).trace.macros.length = E.trace.macros.length := List.length_map _
    simp only [Bind.bind, Except.bind]
    rw [hlength]
    exact dispatchLoop_reordered hρ q _ s {} hsettled

/-! ### Retirement and release -/

/-- A batch in another order. -/
structure SameBatch (b b' : Release) : Prop where
  tick : b'.tick = b.tick
  sequence : b'.sequence = b.sequence
  allocations : b'.allocations.Perm b.allocations

abbrev SameBatches : List Release → List Release → Prop := List.Forall₂ SameBatch

theorem SameBatch.key {b b' : Release} (h : SameBatch b b') : b'.key = b.key := by
  rw [Release.key, Release.key, h.tick, h.sequence]

theorem sameBatches_push {b b' : Release} {q q' : List Release} (h : SameBatch b b') (hq : SameBatches q q') :
    SameBatches (Queue.push Release.key b q) (Queue.push Release.key b' q') :=
  Queue.push_forall₂ (fun _ _ hb => hb.key) h hq

theorem sameBatches_head {q q' : List Release} (h : SameBatches q q') :
    q'.head?.map (·.tick) = q.head?.map (·.tick) := by
  cases h with
  | nil => rfl
  | cons hb _ => exact congrArg some hb.tick

theorem pushRelease_reordered (hρ : (ρ m.id).Perm m.renameAllocations) {q : List Release}
    (hq : SameBatches s.renamePending q) :
    SameBatches (pushRelease E s m now) (pushRelease (E.reorder ρ) (s.withPending q) (m.relist ρ) now) := by
  have hempty : (ρ m.id).isEmpty = m.renameAllocations.isEmpty := by
    rw [Bool.eq_iff_iff, List.isEmpty_iff, List.isEmpty_iff]
    exact ⟨fun h => (h ▸ hρ).nil_eq.symm, fun h => (h ▸ hρ).eq_nil⟩
  unfold pushRelease
  show SameBatches _ (if E.rename.enabled && !(ρ m.id).isEmpty then _ else _)
  rw [hempty]
  split
  · exact sameBatches_push ⟨rfl, rfl, hρ⟩ hq
  · exact hq

theorem retireLoop_reordered (hρ : Reorders ρ E.trace) {width : ℕ} : ∀ (fuel retired : ℕ) (s : Sched)
    (q : List Release), SameBatches s.renamePending q →
      ∃ q', retireLoop (E.reorder ρ) width now fuel retired (s.withPending q) =
        (retireLoop E width now fuel retired s).withPending q' ∧
          SameBatches (retireLoop E width now fuel retired s).renamePending q'
  | 0, _, _, q, hq => ⟨q, rfl, hq⟩
  | fuel + 1, retired, s, q, hq => by
    have hhead : (s.withPending q).rob.head?.bind (E.reorder ρ).trace.macro? =
        (s.rob.head?.bind E.trace.macro?).map (·.relist ρ) := by
      show s.rob.head?.bind (E.trace.reorder ρ).macro? = _
      cases s.rob.head? with
      | none => rfl
      | some id => exact BoundTrace.macro?_reorder _ _
    unfold retireLoop
    rw [hhead]
    cases hm : s.rob.head?.bind E.trace.macro? with
    | none => exact ⟨q, rfl, hq⟩
    | some m =>
      obtain ⟨id, -, hid⟩ := Option.bind_eq_some_iff.mp hm
      have hmem := (E.trace.macro?_mem hid).1
      dsimp only [Option.map_some]
      show ∃ q', (if retired < width ∧ (s.macro_ m.id).completeTick.any (· ≤ now) ∧
        retired + m.retireMacroOps ≤ width then _ else _) = _ ∧ _
      split
      · exact retireLoop_reordered hρ fuel _ (retireMacro E s m now) _ (pushRelease_reordered (hρ m hmem) hq)
      · exact ⟨q, rfl, hq⟩

/-- A batch that is not cut goes back whole, in any order. -/
theorem returnBatch_whole {b : Release} {rest : List Release} {width : ℕ}
    (h : Entries.total b.allocations ≤ width) :
    returnBatch s b rest width = (true, width - Entries.total b.allocations,
      { s with renameFree := fun f => s.renameFree f + Entries.count f b.allocations, renamePending := rest }) := by
  have hnil := (leftover_eq_nil b.allocations width s.renameFree).mpr h
  have hwidth := (returnEntries_total b.allocations width s.renameFree).1
  have hfree : (returnEntries b.allocations width s.renameFree).1 =
      fun f => s.renameFree f + Entries.count f b.allocations := by
    funext f
    have hcount := returnEntries_count f b.allocations width s.renameFree
    rw [hnil, Entries.count_nil] at hcount
    omega
  unfold returnBatch
  dsimp only
  rw [hnil, hwidth, hfree]
  rfl

theorem releaseRenameLoop_reordered : ∀ (fuel width : ℕ) (s : Sched) (q : List Release),
    SameBatches s.renamePending q → uncut now s.renamePending width = true →
      ∃ q', releaseRenameLoop now fuel width (s.withPending q) =
        (releaseRenameLoop now fuel width s).withPending q' ∧
          SameBatches (releaseRenameLoop now fuel width s).renamePending q'
  | 0, _, _, q, hq, _ => ⟨q, rfl, hq⟩
  | fuel + 1, width, s, q, hq, huncut => by
    unfold releaseRenameLoop
    rw [show (s.withPending q).renamePending = q from rfl]
    cases hp : s.renamePending with
    | nil =>
      rw [hp] at hq
      cases hq
      refine ⟨[], rfl, ?_⟩
      rw [hp]
      exact .nil
    | cons b rest =>
      rw [hp] at hq huncut
      cases hq with
      | @cons _ b' _ rest' hb hrest =>
        dsimp only
        rw [hb.tick]
        split
        · refine ⟨_, rfl, ?_⟩
          rw [hp]
          exact .cons hb hrest
        · next hgo =>
          have hcut := huncut
          unfold uncut at hcut
          rw [if_neg hgo] at hcut
          have htotal : Entries.total b'.allocations = Entries.total b.allocations :=
            Entries.total_perm hb.allocations
          by_cases hfit : Entries.total b.allocations ≤ width
          · rw [if_pos hfit] at hcut
            have hcount : (fun f => (s.renameFree f + Entries.count f b'.allocations : ℤ)) =
                fun f => (s.renameFree f + Entries.count f b.allocations : ℤ) :=
              funext fun f => by rw [Entries.count_perm hb.allocations]
            rw [returnBatch_whole hfit, returnBatch_whole (by rw [htotal]; exact hfit), htotal,
              show (s.withPending (b' :: rest')).renameFree = s.renameFree from rfl, hcount]
            exact releaseRenameLoop_reordered fuel _ { s with
              renameFree := fun f => s.renameFree f + Entries.count f b.allocations, renamePending := rest }
              rest' hrest hcut
          · -- the batch is of one list, so its order is its own
            rw [if_neg hfit, decide_eq_true_eq] at hcut
            have hsame : b'.allocations = b.allocations := by
              rcases hl : b.allocations with _ | ⟨e, _ | ⟨e', rest⟩⟩
              · exact (hl ▸ hb.allocations).eq_nil
              · exact List.perm_singleton.mp (hl ▸ hb.allocations)
              · rw [hl] at hcut
                simp at hcut
            obtain rfl : b' = b := by
              cases b; cases b'
              simp only [Release.mk.injEq]
              exact ⟨hb.tick, hb.sequence, hsame⟩
            have hpart : ∀ s : Sched, ∀ rest : List Release, (returnBatch s b' rest width).1 = false := by
              intro s rest
              show (returnEntries b'.allocations width s.renameFree).2.2.isEmpty = false
              rw [List.isEmpty_eq_false_iff, ne_eq, leftover_eq_nil]
              exact hfit
            rw [hpart, hpart, if_neg Bool.false_ne_true, if_neg Bool.false_ne_true]
            refine ⟨if (returnEntries b'.allocations width s.renameFree).2.2 = [] then rest'
              else Queue.push Release.key
                { b' with allocations := (returnEntries b'.allocations width s.renameFree).2.2 } rest', rfl, ?_⟩
            show SameBatches (if _ then _ else _) _
            split
            · exact hrest
            · exact sameBatches_push ⟨rfl, rfl, .refl _⟩ hrest

theorem releaseRename_reordered {q : List Release} (hq : SameBatches s.renamePending q)
    (huncut : uncut now s.renamePending E.rename.releaseWidth = true) :
    ∃ q', releaseRename (E.reorder ρ) now (s.withPending q) = (releaseRename E now s).withPending q' ∧
      SameBatches (releaseRename E now s).renamePending q' := by
  unfold releaseRename
  show ∃ q', (if E.rename.enabled then releaseRenameLoop now q.length E.rename.releaseWidth (s.withPending q)
    else s.withPending q) = _ ∧ _
  rw [← hq.length_eq]
  split
  · exact releaseRenameLoop_reordered _ _ s q hq huncut
  · exact ⟨q, rfl, hq⟩

/-! ### Visits -/

/-- The state, but for the order in the batches on their way back. -/
def Alike (s s' : Sched) : Prop := ∃ q, s' = s.withPending q ∧ SameBatches s.renamePending q

/-- The allocations as a trace lists them. -/
def listed (T : BoundTrace) (i : Id) : List (String × ℕ) := ((T.macro? i).map (·.renameAllocations)).getD []

/-- A trace is itself in the order it has. -/
theorem reorder_self (hT : WellFormed E.trace) :
    E.reorder (listed E.trace) = E ∧ Reorders (listed E.trace) E.trace := by
  have hself : ∀ m ∈ E.trace.macros, listed E.trace m.id = m.renameAllocations := fun m hm => by
    rw [listed, hT.macro?_eq hm]
    rfl
  refine ⟨?_, fun m hm => by rw [hself m hm]⟩
  have hmacros : E.trace.macros.map (·.relist (listed E.trace)) = E.trace.macros := by
    conv_rhs => rw [← List.map_id E.trace.macros]
    refine List.map_congr_left fun m hm => ?_
    rw [MacroOp.relist, hself m hm]
    rfl
  unfold Config.reorder BoundTrace.reorder
  rw [hmacros]

theorem complete_pending (hT : WellFormed E.trace) : (complete E now s).2.renamePending = s.renamePending := by
  have h := complete_reordered (E := E) (ρ := listed E.trace) now s s.renamePending
  rw [(reorder_self hT).1] at h
  exact congrArg (fun r => r.2.renamePending) h

theorem atRelease_pending (hT : WellFormed E.trace) : (atRelease E (now, s)).renamePending = s.renamePending := by
  have h := releaseFlowsLoop_reordered (E := E) (ρ := listed E.trace) now s.renamePending (complete E now s).2.serviceHeap.length
    (complete E now s).2
  rw [(reorder_self hT).1, ← complete_pending hT] at h
  exact (congrArg (·.renamePending) h).trans (complete_pending hT)

theorem issueFixedPoint_pending (hT : WellFormed E.trace) {s' : Sched} (h : issueFixedPoint E now s = .ok s') :
    s'.renamePending = s.renamePending := by
  have hr := issueFixedPoint_reordered (E := E) (ρ := listed E.trace) now s s.renamePending
  rw [(reorder_self hT).1, show s.withPending s.renamePending = s from rfl, h] at hr
  exact congrArg (·.renamePending) (Except.ok.inj hr)

theorem dispatch_pending (hT : WellFormed E.trace) {s' : Sched}
    (hsettled : settledDispatch E (dispatchWidth E) now (E.trace.macros.length - s.nextDispatch) s {} = true)
    (h : dispatch E now s = .ok s') : s'.renamePending = s.renamePending := by
  obtain ⟨hself, hρ⟩ := reorder_self hT
  have hr := dispatch_reordered hρ s.renamePending hsettled
  rw [hself, show s.withPending s.renamePending = s from rfl, h] at hr
  exact congrArg (·.renamePending) (Except.ok.inj hr)

/-- A visit from the release on. -/
theorem visit_eq (E : Config) (now : ℕ) (s : Sched) : visitOf (phases E now) s =
    (if E.boundary now then dispatch E now (releaseRename E now (atRelease E (now, s)))
      else .ok (releaseRename E now (atRelease E (now, s)))) >>= fun s =>
    issueFixedPoint E now s >>= fun s =>
    if E.boundary now then retire E now (complete E now s).2 else .ok (complete E now s).2 := by
  unfold visitOf phases
  simp only [List.foldlM_cons, List.foldlM_nil, bind_pure]
  rfl

theorem atRelease_reordered (q : List Release) :
    atRelease (E.reorder ρ) (now, s.withPending q) = (atRelease E (now, s)).withPending q := by
  unfold atRelease releaseFlows
  dsimp only
  rw [complete_reordered]
  exact releaseFlowsLoop_reordered now q _ _

theorem retire_reordered (hρ : Reorders ρ E.trace) {q : List Release} (hq : SameBatches s.renamePending q) :
    Both Alike (retire E now s) (retire (E.reorder ρ) now (s.withPending q)) := by
  unfold retire
  show Both Alike _ (pipelineInt E.pipeline.retireMacroOpsPerCycle "retire_macro_ops_per_cycle" >>= _)
  cases pipelineInt E.pipeline.retireMacroOpsPerCycle "retire_macro_ops_per_cycle" with
  | error e => exact .error e
  | ok width => exact .ok (retireLoop_reordered hρ _ _ s q hq)

/-- **A settled visit is the same for every order.** -/
theorem visit_reordered (hT : WellFormed E.trace) (hρ : Reorders ρ E.trace) {q : List Release}
    (hq : SameBatches s.renamePending q) (hsettled : settled E now s = true) :
    Both Alike (visitOf (phases E now) s) (visitOf (phases (E.reorder ρ) now) (s.withPending q)) := by
  rw [settled, Bool.and_eq_true] at hsettled
  obtain ⟨huncut, hdispatch⟩ := hsettled
  obtain ⟨q₁, hrelease, hq₁⟩ := releaseRename_reordered (ρ := ρ) (by rw [atRelease_pending hT]; exact hq) huncut
  rw [visit_eq, visit_eq, atRelease_reordered, hrelease]
  have hfirst : Both Alike
      (if E.boundary now then dispatch E now (releaseRename E now (atRelease E (now, s)))
        else .ok (releaseRename E now (atRelease E (now, s))))
      (if E.boundary now then
        dispatch (E.reorder ρ) now ((releaseRename E now (atRelease E (now, s))).withPending q₁)
        else .ok ((releaseRename E now (atRelease E (now, s))).withPending q₁)) := by
    split
    · next hb =>
      rw [hb, Bool.not_true, Bool.false_or] at hdispatch
      rw [dispatch_reordered hρ q₁ hdispatch]
      exact both_map fun s' h => ⟨q₁, rfl, by rw [dispatch_pending hT hdispatch h]; exact hq₁⟩
    · exact .ok ⟨q₁, rfl, hq₁⟩
  refine hfirst.bind fun s₁ s₁' _ h₁ => ?_
  obtain ⟨q₂, rfl, hq₂⟩ := h₁
  rw [issueFixedPoint_reordered]
  refine (both_map (R := fun a b => b = a.withPending q₂ ∧ SameBatches a.renamePending q₂)
    fun s' h => ⟨rfl, by rw [issueFixedPoint_pending hT h]; exact hq₂⟩).bind fun s₂ s₂' _ h₂ => ?_
  obtain ⟨rfl, hq₃⟩ := h₂
  rw [complete_reordered]
  show Both Alike _ (if E.boundary now then _ else _)
  split
  · exact retire_reordered hρ (by rw [complete_pending hT]; exact hq₃)
  · exact .ok ⟨q₂, rfl, by rw [complete_pending hT]; exact hq₃⟩

/-! ### Runs -/

/-- The results agree: the same error, or the same last tick and the same state, its uops,
macro-ops, events and stalls among it, but for the batches on their way back. -/
def SameResult : Except SimError (Sched × ℕ) → Except SimError (Sched × ℕ) → Prop :=
  Both fun r r' => r'.2 = r.2 ∧ ∃ q, r'.1 = r.1.withPending q

/-- **A settled run is the same for every order of the rename allocations.** -/
theorem run_reordered (T : BoundTrace) (P : EngineProfile) (inOrder : Bool) (mode : CacheMode)
    (limit : Option Bool) (expand : Bool) (E : Config) (hE : init T P inOrder mode limit expand = .ok E)
    (hsettled : Settled E) (ρ : Id → List (String × ℕ)) (hρ : Reorders ρ T) :
    ∃ E', init (T.reorder ρ) P inOrder mode limit expand = .ok E' ∧ SameResult (run E) (run E') := by
  obtain ⟨hE', hρ'⟩ := init_reorder hρ hE
  have hT := (init_ok hE).wellFormed
  refine ⟨E.reorder ρ, hE', ?_⟩
  have hinit : Alike (schedInit E) (schedInit (E.reorder ρ)) := ⟨[], rfl, .nil⟩
  have hrun : Both (fun r r' : Sched × ℕ => r'.2 = r.2 ∧ Alike r.1 r'.1) (run E) (run (E.reorder ρ)) := by
    refine EventLoop.run_both (R := fun _ => Alike) hinit ?_ ?_ ?_ rfl rfl
    · rintro t s _ ⟨q, rfl, -⟩
      exact unfinished_reordered s.toCore
    · rintro n t s _ hn hr hu ⟨q, rfl, hq⟩
      exact visit_reordered hT hρ' hq (hsettled n t s hn hr hu)
    · rintro n t s s₁ _ - - - ⟨q, rfl, hq⟩
      show Both _ (nextEventTick E t s₁) (nextEventTick (E.reorder ρ) t (s₁.withPending q))
      rw [nextEventTick_reordered s₁ q (sameBatches_head hq)]
      refine both_map fun r h => ⟨rfl, fun _ => ⟨q, rfl, ?_⟩⟩
      obtain ⟨memory, hmemory⟩ := nextEventTick_ok h
      rw [hmemory]
      exact hq
  exact hrun.imp fun r r' _ h => ⟨h.1, h.2.imp fun q hq => hq.1⟩

/-! ### Two free lists that are short at once -/

namespace Sample

/-- Two free lists with one entry each. -/
def twoLists : EngineProfile := { renameProfile with
  rename := { renameProfile.rename with
    freeLists := [("vector", some 1), ("vector_state", some 1)], allocationWidth := some 4,
    releaseWidth := some 2 } }

/-- Macro-ops that take an entry of each list. -/
def twoListTrace (count : ℕ) : BoundTrace where
  profileId := "sample"
  ticksPerCycle := 2
  macros := (List.range count).map fun u => renameMacro u [("vector", 1), ("vector_state", 1)]
  uops := (List.range count).map fun u => renameUop u 2
  resources := [("alu", 2)]

/-- Only the list `vector` is short while one of the macro-ops is in flight. -/
def oneShort : EngineProfile := { twoLists with
  rename := { twoLists.rename with freeLists := [("vector", some 1), ("vector_state", some 2)] } }

/-- The other order. -/
def stateFirst (_ : Id) : List (String × ℕ) := [("vector_state", 1), ("vector", 1)]

theorem stateFirst_reorders (count : ℕ) : Reorders stateFirst (twoListTrace count) := by
  intro m hm
  obtain ⟨u, -, rfl⟩ := List.mem_map.mp hm
  exact .swap _ _ _

end Sample

/-- The second macro-op waits for the entry of `vector` that the first holds. -/
theorem run_reordered_sample : ∃ E E' r, init (Sample.twoListTrace 2) Sample.oneShort false .cold none false = .ok E ∧
    init ((Sample.twoListTrace 2).reorder Sample.stateFirst) Sample.oneShort false .cold none false = .ok E' ∧
      run E = .ok r ∧ .renameFreeList "vector" ∈ r.1.stalls ∧ SameResult (run E) (run E') := by
  obtain ⟨E, hE⟩ := exists_ok (x := init (Sample.twoListTrace 2) Sample.oneShort false .cold none false)
    (by decide +kernel)
  have hcheck : ((init (Sample.twoListTrace 2) Sample.oneShort false .cold none false).map fun E =>
      EventLoop.always (loop E) (settled E) 8 0 (schedInit E)) = .ok true := by
    decide +kernel
  have hrun : ((init (Sample.twoListTrace 2) Sample.oneShort false .cold none false).bind fun E =>
      (run E).map fun r => r.1.stalls.head?).toOption = some (some (.renameFreeList "vector")) := by
    decide +kernel
  rw [hE] at hcheck hrun
  obtain ⟨r, h, hhead⟩ := ok_map.mp (toOption_ok.mp hrun)
  have hsettled : Settled E := fun n now s _ hr hu => EventLoop.always_reaches (Except.ok.inj hcheck) hr hu
  obtain ⟨E', hE', hsame⟩ := run_reordered _ _ _ _ _ _ E hE hsettled _ (Sample.stateFirst_reorders 2)
  exact ⟨E, E', r, hE, hE', h, List.mem_of_head? hhead, hsame⟩

/-- The second macro-op finds both lists short, and the one it lists first is blamed. -/
theorem other_list_blamed : Reorders Sample.stateFirst (Sample.twoListTrace 2) ∧ ∃ E E' r r',
    init (Sample.twoListTrace 2) Sample.twoLists false .cold none false = .ok E ∧
    init ((Sample.twoListTrace 2).reorder Sample.stateFirst) Sample.twoLists false .cold none false = .ok E' ∧
      run E = .ok r ∧ run E' = .ok r' ∧ r.1.stalls ≠ r'.1.stalls := by
  refine ⟨Sample.stateFirst_reorders 2, ?_⟩
  obtain ⟨E, hE⟩ := exists_ok (x := init (Sample.twoListTrace 2) Sample.twoLists false .cold none false)
    (by decide +kernel)
  obtain ⟨E', hE'⟩ := exists_ok (x := init ((Sample.twoListTrace 2).reorder Sample.stateFirst) Sample.twoLists
    false .cold none false) (by decide +kernel)
  have hrun : ((init (Sample.twoListTrace 2) Sample.twoLists false .cold none false).bind fun E =>
      (run E).map fun r => r.1.stalls.head?).toOption = some (some (.renameFreeList "vector")) := by
    decide +kernel
  have hrun' : ((init ((Sample.twoListTrace 2).reorder Sample.stateFirst) Sample.twoLists
      false .cold none false).bind fun E => (run E).map fun r => r.1.stalls.head?).toOption =
        some (some (.renameFreeList "vector_state")) := by
    decide +kernel
  rw [hE] at hrun
  rw [hE'] at hrun'
  obtain ⟨r, h, hhead⟩ := ok_map.mp (toOption_ok.mp hrun)
  obtain ⟨r', h', hhead'⟩ := ok_map.mp (toOption_ok.mp hrun')
  refine ⟨E, E', r, r', hE, hE', h, h', fun heq => ?_⟩
  rw [heq, hhead'] at hhead
  exact absurd hhead (by decide)

end Xsai
end VectorSim
