/-
# The XSAI engine, step by step

`Xsai.Step` lists what the engine does to its state at one tick, each with
what was checked before; `visit_steps` proves that a visit of the event loop
is a sequence of such steps, and `step_core` that each of them is one of the
bookkeeping's. Every invariant of the engine is proved over `Step`.
-/
import VectorSim.Backend.Checks
import VectorSim.Backend.XsaiRun

namespace VectorSim
namespace Xsai

open Checked Setup Core

variable (E : Config) (now : ℕ)

/-! ### Chunks -/

/-- The dispatch units of the first `n` uops of a macro-op. -/
def unitsOf (m : MacroOp) (n : ℕ) : ℕ := ((dispatchUnitCosts m).take n).sum

/-- What a chunk of uops that is taken satisfies. -/
structure Taken (s : Sched) (c : DispatchCycle) (m : MacroOp) (width : ℕ) (us : List Id)
    (assignment : List (Id × String)) (units : ℕ) : Prop where
  listed : ∃ count, 0 < count ∧ us = (pendingUops s m).take count
  planned : planAssignment E s true c.partitionEnqueues us = some assignment
  fits : units ≤ width - c.dispatched
  /-- The units spent on the macro-op are then those of the uops dispatched, of all of them
  when it is taken whole. -/
  accounted : s.unitProgress m.id + units =
      unitsOf m (m.uopIds.idxOf ((pendingUops s m).headD 0) + us.length) ∨
    us = pendingUops s m ∧ isAdmitted s m = false ∧
      s.unitProgress m.id = 0 ∧ units = m.dispatchWidthUnits

/-- What a chunk that is a part of a uop satisfies. -/
structure Partial (s : Sched) (c : DispatchCycle) (m : MacroOp) (width units : ℕ) : Prop where
  pos : 0 < units
  fits : units ≤ width - c.dispatched
  short : s.unitProgress m.id + units <
    unitsOf m (m.uopIds.idxOf ((pendingUops s m).headD 0) + 1)

variable {E now}

theorem unitsOf_add (m : MacroOp) (first count : ℕ) : unitsOf m (first + count) =
    unitsOf m first + (((dispatchUnitCosts m).drop first).take count).sum := by
  rw [unitsOf, unitsOf, List.take_add, List.sum_append]

theorem selectChunk_take {s : Sched} {m : MacroOp} {pending us : List Id} {enqueues : String → ℕ}
    {budget progress units : ℕ} {a : List (Id × String)}
    (h : selectChunk E s m pending enqueues budget progress = .take us a units) :
    (∃ count, 0 < count ∧ count ≤ pending.length ∧ us = pending.take count) ∧
      planAssignment E s true enqueues us = some a ∧ units ≤ budget ∧
      progress + units = unitsOf m (m.uopIds.idxOf (pending.headD 0) + us.length) := by
  unfold selectChunk at h
  dsimp only at h
  split at h
  · next chunk hf =>
    subst h
    obtain ⟨count, hcount, hs⟩ := List.exists_of_findSome?_eq_some hf
    obtain ⟨k, hk, rfl⟩ : ∃ k < pending.length, k + 1 = count := by simpa using hcount
    split at hs
    · cases hs
    · next hd =>
      obtain ⟨a', ha, he⟩ := Option.map_eq_some_iff.mp hs
      cases he
      refine ⟨⟨k + 1, Nat.succ_pos k, hk, rfl⟩, ha, by omega, ?_⟩
      rw [List.length_take, min_eq_left (show k + 1 ≤ pending.length from hk), unitsOf_add, unitsOf]
      omega
  · split at h <;> cases h

theorem selectChunk_budget {s : Sched} {m : MacroOp} {pending : List Id} {enqueues : String → ℕ}
    {budget progress units : ℕ}
    (h : selectChunk E s m pending enqueues budget progress = .budget units) :
    0 < units ∧ units ≤ budget ∧ progress + units < unitsOf m (m.uopIds.idxOf (pending.headD 0) + 1) := by
  unfold selectChunk at h
  dsimp only at h
  split at h
  · next chunk hf =>
    subst h
    obtain ⟨count, -, hs⟩ := List.exists_of_findSome?_eq_some hf
    split at hs
    · cases hs
    · obtain ⟨a', -, he⟩ := Option.map_eq_some_iff.mp hs
      cases he
  · split at h
    · next hc =>
      cases h
      refine ⟨hc.2, le_rfl, ?_⟩
      rw [unitsOf_add, unitsOf]
      have hone : ∀ l : List ℕ, (l.take 1).sum = l.headD 0 := by
        intro l; cases l <;> simp
      rw [hone]
      omega
    · cases h

theorem chooseChunk_take {s : Sched} {c : DispatchCycle} {m : MacroOp} {us : List Id} {width units : ℕ}
    {a : List (Id × String)} (hp : pendingUops s m ≠ [])
    (h : chooseChunk E s c m (pendingUops s m) width = some (.take us a units)) :
    Taken E s c m width us a units := by
  have hselect : selectChunk E s m (pendingUops s m) c.partitionEnqueues (width - c.dispatched)
      (s.unitProgress m.id) = .take us a units → Taken E s c m width us a units := by
    intro h
    obtain ⟨⟨count, h1, -, rfl⟩, h2, h3, h4⟩ := selectChunk_take h
    exact ⟨⟨count, h1, rfl⟩, h2, h3, .inl h4⟩
  unfold chooseChunk at h
  dsimp only at h
  split at h
  · cases h
  · split at h
    · next hfresh =>
      split at h
      · next a' ha =>
        cases h
        obtain ⟨hf, hw⟩ := hfresh
        obtain ⟨hadm, hprog⟩ : isAdmitted s m = false ∧ s.unitProgress m.id = 0 := by
          simpa using hf
        exact ⟨⟨_, List.length_pos_iff.mpr hp, List.take_length.symm⟩, ha, hw,
          .inr ⟨rfl, hadm, hprog, rfl⟩⟩
      · exact hselect (Option.some.inj h)
    · exact hselect (Option.some.inj h)

theorem chooseChunk_budget {s : Sched} {c : DispatchCycle} {m : MacroOp} {width units : ℕ}
    (h : chooseChunk E s c m (pendingUops s m) width = some (.budget units)) :
    Partial s c m width units := by
  have hselect : selectChunk E s m (pendingUops s m) c.partitionEnqueues (width - c.dispatched)
      (s.unitProgress m.id) = .budget units → Partial s c m width units := by
    intro h
    obtain ⟨h1, h2, h3⟩ := selectChunk_budget h
    exact ⟨h1, h2, h3⟩
  unfold chooseChunk at h
  dsimp only at h
  split at h
  · cases h
  · split at h
    · split at h
      · cases h
      · exact hselect (Option.some.inj h)
    · exact hselect (Option.some.inj h)

/-! ### Steps -/

variable (E now)

/-- One step of the engine at a tick. -/
inductive Step : Sched → Sched → Prop
  | complete {s : Sched} {e rest} (head : s.completionHeap = e :: rest) (due : e.tick ≤ now) :
      Step s (completeEntry E s e rest).2
  | releaseFlow {s : Sched} {e rest} (head : s.serviceHeap = e :: rest) (due : e.tick ≤ now) :
      Step s (releaseFlow E s e rest)
  | releaseRename {s : Sched} {b rest width} (head : s.renamePending = b :: rest)
      (due : b.tick ≤ now) : Step s (returnBatch s b rest width).2.2
  | take {s : Sched} {c m width us a units} (head : E.trace.macros[s.nextDispatch]? = some m)
      (taken : Taken E s c m width us a units) (room : dispatchBlocker E s c m = .ok none) :
      Step s (enqueue (spend (admitOnce E s c m now) m units) us a now).1
  | budget {s : Sched} {c m width units} (head : E.trace.macros[s.nextDispatch]? = some m)
      (short : Partial s c m width units) (room : dispatchBlocker E s c m = .ok none) :
      Step s (spend (admitOnce E s c m now) m units).1
  | advance {s : Sched} {m} (head : E.trace.macros[s.nextDispatch]? = some m)
      (done : ∀ u ∈ m.uopIds, (s.uop u).dispatchTick.isSome) :
      Step s { s with toCore := s.toCore.advance }
  | stall {s : Sched} (stalls : List DispatchStall) (domains : Id → Option String) (blocked : List BlockedEvent) :
      Step s { s with stalls := stalls, blockerDomain := domains, blocked := blocked }
  | poll {s : Sched} (memory : MemoryState) : Step s { s with memory := memory }
  | issue {s : Sched} {x r} (issuable : Issuable E.trace E.inOrder now s.toCore x)
      (early : earlyBlocker E s x now = none) (resources : resourceChecks E s x now = .ok none)
      (vector : x.kind.isMemory = true → vectorMemoryBlocker E s x now = .ok none)
      (tokens : tokenChecks E s x now = .ok none) (reserved : reserve E s x now = .ok r) :
      Step s (issued E s x now r)
  | retire {s : Sched} {m rest} (mem : m ∈ E.trace.macros) (head : s.rob = m.id :: rest)
      (due : (s.macro_ m.id).completeTick.any (· ≤ now)) : Step s (retireMacro E s m now)

abbrev Steps : Sched → Sched → Prop := Relation.ReflTransGen (Step E now)

variable {E now} {s s' : Sched}

/-- What every step keeps, any number of steps keep. -/
theorem Steps.invariant {P : Sched → Prop} (h : Steps E now s s') (hs : P s)
    (step : ∀ s s', P s → Step E now s s' → P s') : P s' := by
  induction h with
  | refl => exact hs
  | tail _ hstep ih => exact step _ _ ih hstep

/-- The occupancies are no greater than before, and no rename entry is taken. -/
structure Falls (s s' : Sched) : Prop extends VectorSim.Falls s.toMachine s'.toMachine where
  partition : ∀ p, s'.partitionOccupancy p ≤ s.partitionOccupancy p
  free : ∀ f, s.renameFree f ≤ s'.renameFree f

theorem Falls.refl (s : Sched) : Falls s s := ⟨.refl _, fun _ => le_rfl, fun _ => le_rfl⟩

theorem Falls.trans {a b c : Sched} (h : Falls a b) (h' : Falls b c) : Falls a c :=
  ⟨h.toFalls.trans h'.toFalls, fun p => (h'.partition p).trans (h.partition p),
    fun f => (h.free f).trans (h'.free f)⟩

variable (E now)

/-- A step that takes nothing into a structure, and neither takes nor returns a rename entry. -/
inductive Unload : Sched → Sched → Prop
  | complete {s : Sched} {e rest} (head : s.completionHeap = e :: rest) (due : e.tick ≤ now) :
      Unload s (completeEntry E s e rest).2
  | releaseFlow {s : Sched} {e rest} (head : s.serviceHeap = e :: rest) (due : e.tick ≤ now) :
      Unload s (releaseFlow E s e rest)
  | poll {s : Sched} (memory : MemoryState) : Unload s { s with memory := memory }
  | issue {s : Sched} {x r} (issuable : Issuable E.trace E.inOrder now s.toCore x)
      (reserved : reserve E s x now = .ok r) (step : Step E now s (issued E s x now r)) :
      Unload s (issued E s x now r)
  | retire {s : Sched} {m rest} (mem : m ∈ E.trace.macros) (head : s.rob = m.id :: rest)
      (due : (s.macro_ m.id).completeTick.any (· ≤ now)) : Unload s (retireMacro E s m now)

abbrev Unloads : Sched → Sched → Prop := Relation.ReflTransGen (Unload E now)

variable {E now}

theorem Unload.toStep (h : Unload E now s s') : Step E now s s' := by
  cases h with
  | complete head due => exact .complete head due
  | releaseFlow head due => exact .releaseFlow head due
  | poll memory => exact .poll memory
  | issue _ _ step => exact step
  | retire mem head due => exact .retire mem head due

/-- A uop that issues leaves its partition. -/
theorem leavePartition_ok {x : ExecutionUop} {o : String → ℤ} (h : leavePartition s x = .ok o) (p : String) :
    o p = s.partitionOccupancy p - (decide ((s.placement x.id).partition = some p)).toNat := by
  unfold leavePartition at h
  cases hp : (s.placement x.id).partition with
  | none =>
    rw [hp] at h
    cases h
    simp
  | some q =>
    rw [hp] at h
    dsimp only at h
    split at h
    · cases h
    · cases h
      by_cases hq : p = q
      · subst hq; simp
      · simp [hq, Ne.symm hq]

/-- The occupancies of the partitions after a reservation. -/
theorem reserve_partition {x : ExecutionUop} {r : Reserved} (h : reserve E s x now = .ok r) :
    leavePartition s x = .ok r.partitionOccupancy := by
  obtain ⟨path, -, h⟩ := ok_bind.mp h
  obtain ⟨access, -, h⟩ := ok_bind.mp h
  obtain ⟨occupancy, ho, h⟩ := ok_bind.mp h
  obtain ⟨domains, -, h⟩ := ok_bind.mp h
  obtain ⟨reads, -, h⟩ := ok_bind.mp h
  cases h
  exact ho

theorem Unload.falls (h : Unload E now s s') : Falls s s' := by
  cases h with
  | complete head due =>
    unfold completeEntry
    dsimp only
    split <;> exact ⟨⟨le_rfl, le_rfl, le_rfl, le_rfl⟩, fun _ => le_rfl, fun _ => le_rfl⟩
  | releaseFlow _ _ => exact ⟨⟨le_rfl, le_rfl, le_rfl, le_rfl⟩, fun _ => le_rfl, fun _ => le_rfl⟩
  | poll memory => exact ⟨⟨le_rfl, le_rfl, le_rfl, le_rfl⟩, fun _ => le_rfl, fun _ => le_rfl⟩
  | issue _ reserved _ =>
    refine ⟨⟨le_rfl, Int.sub_le_self _ (Int.natCast_nonneg _), le_rfl, le_rfl⟩, fun p => ?_, fun _ => le_rfl⟩
    exact (leavePartition_ok (reserve_partition reserved) p).trans_le (Int.sub_le_self _ (Int.natCast_nonneg _))
  | retire _ _ _ =>
    exact ⟨⟨Int.sub_le_self _ (Int.natCast_nonneg _), le_rfl, Int.sub_le_self _ (Int.natCast_nonneg _),
      Int.sub_le_self _ (Int.natCast_nonneg _)⟩, fun _ => le_rfl, fun _ => le_rfl⟩

/-- The rename entries stay, and the partitions that the uops entered. -/
theorem Unload.kept (h : Unload E now s s') : s'.renameFree = s.renameFree ∧
    ∀ u, (s'.placement u).partition = (s.placement u).partition := by
  cases h with
  | complete head due =>
    unfold completeEntry
    dsimp only
    split <;> exact ⟨rfl, fun _ => rfl⟩
  | releaseFlow _ _ | poll _ | retire _ _ _ => exact ⟨rfl, fun _ => rfl⟩
  | @issue x r _ _ _ =>
    refine ⟨rfl, fun u => ?_⟩
    show (Function.update s.placement x.id _ u).partition = _
    by_cases hu : u = x.id
    · rw [hu, Function.update_self]
    · rw [Function.update_of_ne hu]

theorem Unloads.steps (h : Unloads E now s s') : Steps E now s s' :=
  Relation.ReflTransGen.mono (fun _ _ hs => hs.toStep) s s' h

theorem Unloads.falls (h : Unloads E now s s') : Falls s s' := by
  induction h with
  | refl => exact .refl s
  | tail _ hstep ih => exact ih.trans hstep.falls

theorem Unloads.kept (h : Unloads E now s s') : s'.renameFree = s.renameFree ∧
    ∀ u, (s'.placement u).partition = (s.placement u).partition := by
  induction h with
  | refl => exact ⟨rfl, fun _ => rfl⟩
  | tail _ hstep ih =>
    obtain ⟨hfree, hplaced⟩ := hstep.kept
    exact ⟨hfree.trans ih.1, fun u => (hplaced u).trans (ih.2 u)⟩

/-! ### The procedures are sequences of steps -/

theorem completeLoop_unloads : ∀ (fuel : ℕ) (s : Sched), Unloads E now s (completeLoop E now fuel s).2
  | 0, s => .refl
  | fuel + 1, s => by
    unfold completeLoop
    cases hq : s.completionHeap with
    | nil => exact .refl
    | cons e rest =>
      dsimp only
      split
      · next hdue => exact .head (.complete hq hdue) (completeLoop_unloads fuel _)
      · exact .refl

theorem complete_unloads (s : Sched) : Unloads E now s (complete E now s).2 :=
  completeLoop_unloads _ s

theorem complete_steps (s : Sched) : Steps E now s (complete E now s).2 := (complete_unloads s).steps

theorem releaseFlowsLoop_unloads : ∀ (fuel : ℕ) (s : Sched),
    Unloads E now s (releaseFlowsLoop E now fuel s)
  | 0, s => .refl
  | fuel + 1, s => by
    unfold releaseFlowsLoop
    cases hq : s.serviceHeap with
    | nil => exact .refl
    | cons e rest =>
      dsimp only
      split
      · next hdue =>
        exact .head (.releaseFlow hq hdue) (releaseFlowsLoop_unloads fuel _)
      · exact .refl

theorem releaseRenameLoop_steps : ∀ (fuel width : ℕ) (s : Sched),
    Steps E now s (releaseRenameLoop now fuel width s)
  | 0, _, s => .refl
  | fuel + 1, width, s => by
    unfold releaseRenameLoop
    cases hq : s.renamePending with
    | nil => exact .refl
    | cons b rest =>
      dsimp only
      split
      · exact .refl
      · next hdue =>
        have hstep : Step E now s (returnBatch s b rest width).2.2 :=
          .releaseRename hq (by omega)
        split
        · exact (Relation.ReflTransGen.single hstep).trans (releaseRenameLoop_steps fuel _ _)
        · exact .single hstep

theorem releaseRename_steps (s : Sched) : Steps E now s (releaseRename E now s) := by
  unfold releaseRename
  split
  · exact releaseRenameLoop_steps _ _ s
  · exact .refl

/-- The domain that a blocked dispatch found full. -/
def fullDomain : DispatchStall → Option String
  | .dispatchDomainFull d => some d
  | _ => none

/-- A blocked dispatch changes what is noted of it and adds its event, and ends the cycle. -/
theorem stopBlocked_ok {c : DispatchCycle} {m : MacroOp} {reason : DispatchStall}
    {r : Bool × Sched × DispatchCycle} (h : stopBlocked s c m now reason = .ok r) :
    ∃ stalls domains, r = (false, { s with
      stalls := stalls, blockerDomain := domains,
      blocked := s.blocked ++ [⟨now, m.id, m.sequence, reason, fullDomain reason⟩] }, c) := by
  obtain ⟨s₁, h₁, h⟩ := ok_bind.mp h
  cases h
  unfold recordDispatchBlocker at h₁
  dsimp only at h₁
  cases reason with
  | dispatchDomainFull d =>
    have hnoted : (noteDomain s m (.dispatchDomainFull d)).blockerDomain m.id = some d := by simp [noteDomain]
    rw [show (noteDomain s m (.dispatchDomainFull d)).blockerDomain m.id = some d from hnoted] at h₁
    cases h₁
    exact ⟨_, _, rfl⟩
  | _ =>
    cases h₁
    exact ⟨_, _, rfl⟩

theorem stopBlocked_steps {c : DispatchCycle} {m : MacroOp} {reason : DispatchStall}
    {r : Bool × Sched × DispatchCycle} (h : stopBlocked s c m now reason = .ok r) :
    Steps E now s r.2.1 := by
  obtain ⟨stalls, domains, rfl⟩ := stopBlocked_ok h
  exact .single (.stall _ _ _)

theorem closeTurn_steps {r : Sched × DispatchCycle} {m : MacroOp} {r' : Bool × Sched × DispatchCycle}
    (head : E.trace.macros[r.1.nextDispatch]? = some m) (h : closeTurn r m = .ok r') :
    Steps E now r.1 r'.2.1 := by
  unfold closeTurn at h
  split at h
  · next hd =>
    split at h
    · cases h
    · cases h; exact .single (.advance head hd)
  · cases h; exact .refl

@[simp] theorem admitOnce_next (s : Sched) (c : DispatchCycle) (m : MacroOp) :
    (admitOnce E s c m now).1.nextDispatch = s.nextDispatch := by
  unfold admitOnce; split <;> rfl

@[simp] theorem enqueue_next (r : Sched × DispatchCycle) (m : MacroOp) (units : ℕ) (us : List Id)
    (a : List (Id × String)) :
    (enqueue (spend r m units) us a now).1.nextDispatch = r.1.nextDispatch := by
  simp [enqueue, spend]

theorem dispatchTurn_steps {width : ℕ} {c : DispatchCycle} {m : MacroOp}
    {r : Bool × Sched × DispatchCycle} (head : E.trace.macros[s.nextDispatch]? = some m)
    (h : dispatchTurn E width now s c m = .ok r) : Steps E now s r.2.1 := by
  unfold dispatchTurn at h
  dsimp only at h
  split at h
  · next hp =>
    cases h
    refine .single (.advance head fun u hu => ?_)
    have := List.filter_eq_nil_iff.mp hp u hu
    simpa [Option.isSome_iff_ne_none] using this
  · next hp =>
    split at h
    · cases h; exact .refl
    · next chunk hchunk =>
      obtain ⟨b, hb, h⟩ := ok_bind.mp h
      cases b with
      | some reason => exact stopBlocked_steps h
      | none =>
        cases chunk with
        | take us a units =>
          exact (Relation.ReflTransGen.single
            (.take head (chooseChunk_take hp hchunk) hb)).trans (closeTurn_steps (by simpa using head) h)
        | budget units =>
          cases h
          exact .single (.budget head (chooseChunk_budget hchunk) hb)
        | blocked =>
          dsimp only at h
          split at h <;> exact stopBlocked_steps h

theorem dispatchLoop_steps {width : ℕ} : ∀ (fuel : ℕ) (s : Sched) (c : DispatchCycle) {s' : Sched},
    dispatchLoop E width now fuel s c = .ok s' → Steps E now s s'
  | 0, s, _, s', h => by cases h; exact .refl
  | fuel + 1, s, c, s', h => by
    unfold dispatchLoop at h
    split at h
    · cases h; exact .refl
    · next m hm =>
      split at h
      · cases h; exact .refl
      · obtain ⟨r, hr, h⟩ := ok_bind.mp h
        have hturn := dispatchTurn_steps hm hr
        split at h
        · exact hturn.trans (dispatchLoop_steps fuel _ _ h)
        · cases h; exact hturn

theorem dispatch_steps (h : dispatch E now s = .ok s') : Steps E now s s' := by
  obtain ⟨width, _, h⟩ := ok_bind.mp h
  exact dispatchLoop_steps _ _ _ h

theorem earlyBlocker_none {x : ExecutionUop} (h : earlyBlocker E s x now = none) :
    dependencyBlocker (dependencyReason x) s.toCore x now = none ∧
      epochBlocker E s x now = none ∧ partBlocker s.toCore x now = none ∧
      E.overlapBlocker s.toMachine x = none ∧ intervalBlocker s.toMachine x now = none := by
  simpa [earlyBlocker, Option.or_eq_none_iff] using h

theorem issueBlocker_none {x : ExecutionUop} {memory : MemoryState}
    (h : issueBlocker E s x now = .ok (memory, none)) :
    earlyBlocker E s x now = none ∧ resourceChecks E s x now = .ok none ∧
      memoryBlocker E s x now = .ok (memory, none) ∧ tokenChecks E s x now = .ok none := by
  unfold issueBlocker at h
  split at h
  · cases h
  · next he =>
    obtain ⟨b, hb, h⟩ := ok_bind.mp h
    split at h
    · cases h
    · obtain ⟨⟨memory', b'⟩, hm, h⟩ := ok_bind.mp h
      cases b' with
      | some b' => cases h
      | none =>
        obtain ⟨b'', hd, h⟩ := ok_bind.mp h
        cases h
        exact ⟨he, hb, hm, hd⟩

theorem memoryBlocker_none {x : ExecutionUop} {memory : MemoryState}
    (h : memoryBlocker E s x now = .ok (memory, none)) (hx : x.kind.isMemory = true) :
    vectorMemoryBlocker E s x now = .ok none ∧
      E.hierarchyBlocker s.memory x now = .ok (memory, none) := by
  unfold memoryBlocker at h
  rw [if_pos hx] at h
  obtain ⟨b, hb, h⟩ := ok_bind.mp h
  split at h
  · cases h
  · exact ⟨hb, h⟩

/-- The resource checks do not look at the memory hierarchy. -/
theorem resourceChecks_memory (s : Sched) (memory : MemoryState) (x : ExecutionUop) :
    resourceChecks E { s with memory := memory } x now = resourceChecks E s x now := by
  unfold resourceChecks
  rw [resourceBlocker_memory]
  rfl

theorem issueList_unloads : ∀ (xs : List ExecutionUop) (s : Sched) {r : Bool × Sched},
    Candidates E.toSetup s.toCore xs → issueList E now xs s = .ok r → Unloads E now s r.2
  | [], s, r, _, h => by cases h; exact .refl
  | x :: xs, s, r, hc, h => by
    obtain ⟨⟨memory, b⟩, hb, h⟩ := ok_bind.mp h
    have hpoll : Unloads E now s { s with memory := memory } := .single (.poll memory)
    cases b with
    | some b =>
      dsimp only at h
      split at h
      · cases h; exact hpoll
      · exact hpoll.trans (issueList_unloads xs { s with memory := memory } hc.tail h)
    | none =>
      dsimp only at h
      obtain ⟨s₁, h₁, h⟩ := ok_bind.mp h
      obtain ⟨r', h', h⟩ := ok_bind.mp h
      cases h
      obtain ⟨p, hp, h₁⟩ := ok_bind.mp h₁
      cases h₁
      obtain ⟨he, hres, hm, ht⟩ := issueBlocker_none hb
      have hn := earlyBlocker_none he
      have hissuable := hc.issuable hn.1 hn.2.2.1
      have hi : Unload E now { s with memory := memory } (issued E _ x now p) :=
        .issue hissuable hp (.issue hissuable he ((resourceChecks_memory s memory x).trans hres)
          (fun hx => (memoryBlocker_none hm hx).1) ht hp)
      have hrest := issueList_unloads xs _ (hc.issue _) h'
      exact (hpoll.tail hi).trans hrest

theorem issueList_steps (xs : List ExecutionUop) (s : Sched) {r : Bool × Sched}
    (hc : Candidates E.toSetup s.toCore xs) (h : issueList E now xs s = .ok r) : Steps E now s r.2 :=
  (issueList_unloads xs s hc h).steps

theorem issueOnce_unloads (hT : WellFormed E.trace) {r : Bool × Sched}
    (h : issueOnce E now s = .ok r) : Unloads E now s r.2 :=
  issueList_unloads _ s (candidates_issueCandidates hT _) h

theorem issueOnce_steps (hT : WellFormed E.trace) {r : Bool × Sched}
    (h : issueOnce E now s = .ok r) : Steps E now s r.2 := (issueOnce_unloads hT h).steps

theorem issueFixedPoint_unloads (hT : WellFormed E.trace) (h : issueFixedPoint E now s = .ok s') :
    Unloads E now s s' :=
  FixedPoint.run_steps h .trans complete_unloads fun _ _ hr => issueOnce_unloads hT hr

theorem retireLoop_unloads {width : ℕ} : ∀ (fuel retired : ℕ) (s : Sched),
    Unloads E now s (retireLoop E width now fuel retired s)
  | 0, _, s => .refl
  | fuel + 1, retired, s => by
    unfold retireLoop
    split
    · exact .refl
    · next m hm =>
      split
      · next hc =>
        obtain ⟨id, hid, hm⟩ := Option.bind_eq_some_iff.mp hm
        obtain ⟨hmem, rfl⟩ := E.trace.macro?_mem hm
        obtain ⟨rest, hrest⟩ := List.head?_eq_some_iff.mp hid
        exact .head (.retire hmem hrest hc.2.1) (retireLoop_unloads fuel _ _)
      · exact .refl

theorem retire_unloads (h : retire E now s = .ok s') : Unloads E now s s' := by
  obtain ⟨width, _, h⟩ := ok_bind.mp h
  cases h
  exact retireLoop_unloads _ _ s

/-- Of the procedures of the loop's body only dispatch takes anything into a structure, and only the
release before it returns rename entries. -/
theorem phase_unloads (hT : WellFormed E.trace) {k : ℕ} {f : Sched → Except SimError Sched}
    (hf : (phases E now)[k]? = some f) (hrelease : k ≠ 2) (hdispatch : k ≠ 3) (h : f s = .ok s') :
    Unloads E now s s' := by
  rcases k with _ | _ | _ | _ | _ | _ | _ | k
  · cases hf; cases h; exact complete_unloads s
  · cases hf; cases h; exact releaseFlowsLoop_unloads _ s
  · exact absurd rfl hrelease
  · exact absurd rfl hdispatch
  · cases hf; exact issueFixedPoint_unloads hT h
  · cases hf; cases h; exact complete_unloads s
  · cases hf
    dsimp only at h
    split at h
    · exact retire_unloads h
    · cases h; exact .refl
  · cases hf

/-- Each procedure of the loop's body is a sequence of steps. -/
theorem phase_steps (hT : WellFormed E.trace) {f : Sched → Except SimError Sched}
    (hf : f ∈ phases E now) (h : f s = .ok s') : Steps E now s s' := by
  obtain ⟨k, hk⟩ := List.mem_iff_getElem?.mp hf
  by_cases hrelease : k = 2
  · subst hrelease
    cases hk
    cases h
    exact releaseRename_steps s
  by_cases hdispatch : k = 3
  · subst hdispatch
    cases hk
    dsimp only at h
    split at h
    · exact dispatch_steps h
    · cases h; exact .refl
  · exact (phase_unloads hT hk hrelease hdispatch h).steps

/-- A visit, or a part of one, is a sequence of steps. -/
theorem visit_steps (hT : WellFormed E.trace) {fs : List (Sched → Except SimError Sched)}
    (hfs : fs ⊆ phases E now) (h : visitOf fs s = .ok s') : Steps E now s s' :=
  foldlM_ok (P := fun t => Steps E now s t) h .refl fun _ hf _ _ ht hs =>
    ht.trans (phase_steps hT (hfs hf) hs)

/-- The choice of the next tick polls the memory hierarchy and changes nothing else. -/
theorem nextEventTick_ok {t : ℕ} (h : nextEventTick E now s = .ok (s', t)) :
    ∃ memory, s' = { s with memory := memory } := by
  obtain ⟨r, _, h⟩ := ok_bind.mp h
  split at h
  · cases h
  · cases h; exact ⟨_, rfl⟩

/-- While there is work, the next tick is no later than the next cycle. -/
theorem nextEventTick_le {t : ℕ} (hu : E.unfinished s.toCore = true) (h : nextEventTick E now s = .ok (s', t)) :
    t ≤ E.nextCycle now := by
  obtain ⟨r, -, h⟩ := ok_bind.mp h
  split at h
  · cases h
  · next t' ht =>
    cases h
    refine (List.min?_eq_some_iff.mp ht).2 _ (List.mem_append_left _ ?_)
    simp [scheduledTicks, hu]

/-! ### The steps of the bookkeeping -/

abbrev CoreInv (E : Config) (now : ℕ) (s : Sched) : Prop :=
  Core.Inv E.trace E.inOrder now s.toCore

/-- The admission of a macro-op is a step of the bookkeeping, or none. -/
theorem admitOnce_core (now : ℕ) {c : DispatchCycle} {m : MacroOp}
    (head : E.trace.macros[s.nextDispatch]? = some m) :
    Core.Steps E.trace E.inOrder now s.toCore (admitOnce E s c m now).1.toCore ∧
      ((admitOnce E s c m now).1.macro_ m.id).dispatchTick.isSome := by
  unfold admitOnce
  split
  · next h => exact ⟨.refl, h⟩
  · next h =>
    refine ⟨.single (.enterRob head ?_), by simp [admitMacro, Core.enterRob]⟩
    simpa [isAdmitted] using h

theorem admitOnce_uop (s : Sched) (c : DispatchCycle) (m : MacroOp) :
    (admitOnce E s c m now).1.uop = s.uop := by
  unfold admitOnce; split <;> rfl

/-- Every step of the engine is steps of the bookkeeping. -/
theorem step_core (h : Step E now s s') :
    Core.Steps E.trace E.inOrder now s.toCore s'.toCore := by
  cases h with
  | @complete e rest head due =>
    unfold completeEntry
    dsimp only
    split
    · next hc => exact .single (.drop head hc)
    · next hc => exact .single (.complete head due (by simpa using hc))
  | @take c m width us a units head taken _ =>
    obtain ⟨hadm, hin⟩ := admitOnce_core now (c := c) head
    obtain ⟨count, -, rfl⟩ := taken.listed
    have hsub : ((pendingUops s m).take count).Sublist m.uopIds :=
      (List.take_sublist _ _).trans List.filter_sublist
    refine hadm.tail (.dispatch (m := m) (by simpa using head) hin hsub fun u hu => ?_)
    have := (List.mem_filter.mp (List.mem_of_mem_take hu)).2
    simpa [spend, admitOnce_uop] using this
  | @budget c m width units head _ _ => exact (admitOnce_core now (c := c) head).1
  | advance head done => exact .single (.advance head done)
  | releaseFlow _ _ | releaseRename _ _ | stall _ _ _ | poll _ => exact .refl
  | issue issuable _ _ _ _ _ => exact .single (.issue issuable)
  | @retire m rest mem head due =>
    obtain ⟨t, ht, hle⟩ : ∃ t, (s.macro_ m.id).completeTick = some t ∧ t ≤ now := by
      simpa [Option.any_eq_true] using due
    exact .single (.retire mem head ht hle)

theorem inv_step (hT : WellFormed E.trace) (hs : CoreInv E now s) (h : Step E now s s') :
    CoreInv E now s' :=
  hs.steps hT (step_core h)

theorem inv_init : CoreInv E 0 (schedInit E) := Core.inv_init

/-! ### Runs -/

/-- The states of the event loop when it looks at its condition. -/
def AtTick (E : Config) (now : ℕ) (s : Sched) : Prop :=
  ∃ n, EventLoop.Reaches (loop E) n 0 (schedInit E) now s

/-- The states of a run: at a tick, and after any of the procedures of the loop's body. -/
def Reachable (E : Config) (now : ℕ) (s : Sched) : Prop :=
  ∃ s₀ fs gs, AtTick E now s₀ ∧ phases E now = fs ++ gs ∧ visitOf fs s₀ = .ok s

/-- What every step keeps, and the passing of time, holds at every tick of a run. -/
theorem AtTick.invariant {P : ℕ → Sched → Prop} (hT : WellFormed E.trace)
    (init : P 0 (schedInit E)) (step : ∀ now s s', P now s → Step E now s s' → P now s')
    (later : ∀ now next s, P now s → now < next → P next s) (h : AtTick E now s) : P now s := by
  obtain ⟨n, h⟩ := h
  refine h.invariant init ?_ ?_
  · intro now s s' hs _ hv
    exact (visit_steps hT (List.Subset.refl _) hv).invariant hs (step now)
  · intro now s s' t hs hn hlt
    obtain ⟨memory, rfl⟩ := nextEventTick_ok hn
    exact later _ _ _ (step _ _ _ hs (.poll memory)) hlt

/-- The same of every state of a run. -/
theorem Reachable.invariant {P : ℕ → Sched → Prop} (hT : WellFormed E.trace)
    (init : P 0 (schedInit E)) (step : ∀ now s s', P now s → Step E now s s' → P now s')
    (later : ∀ now next s, P now s → now < next → P next s) (h : Reachable E now s) : P now s := by
  obtain ⟨s₀, fs, gs, h₀, hfs, hv⟩ := h
  exact (visit_steps hT (hfs ▸ List.subset_append_left fs gs) hv).invariant
    (h₀.invariant hT init step later) (step now)

/-- The same of the state a run ends in, whatever its guard. -/
theorem run_invariant {P : ℕ → Sched → Prop} (hT : WellFormed E.trace)
    (init : P 0 (schedInit E)) (step : ∀ now s s', P now s → Step E now s s' → P now s')
    (later : ∀ now next s, P now s → now < next → P next s) {visits : ℕ}
    (h : EventLoop.run (loop E) visits 0 (schedInit E) = .ok (s, now)) :
    P now s ∧ E.unfinished s.toCore = false := by
  refine EventLoop.run_invariant h init ?_ ?_
  · intro now s s' hs _ hv
    exact (visit_steps hT (List.Subset.refl _) hv).invariant hs (step now)
  · intro now s s' t hs hn hlt
    obtain ⟨memory, rfl⟩ := nextEventTick_ok hn
    exact later _ _ _ (step _ _ _ hs (.poll memory)) hlt

/-- The state a run ends in is one of its states. -/
theorem run_reachable (h : run E = .ok (s, now)) : Reachable E now s := by
  obtain ⟨n, s₁, hr, rfl | hv⟩ := EventLoop.run_reaches h
  · exact ⟨s, [], phases E now, ⟨n, hr⟩, rfl, rfl⟩
  · exact ⟨s₁, phases E now, [], ⟨n, hr⟩, (List.append_nil _).symm, hv⟩

/-- A run that ends is a loop that does. -/
theorem run_ends (h : run E = .ok (s, now)) : ∃ n, EventLoop.Ends (loop E) n 0 (schedInit E) s now := by
  obtain ⟨n, -, hn⟩ := (EventLoop.run_ok_iff fun _ _ _ _ hu hn => by
    obtain ⟨memory, rfl⟩ := nextEventTick_ok hn
    exact hu).mp h
  exact ⟨n, hn⟩

/-- The bookkeeping of a run is in order, and at its end everything is. -/
theorem run_ordered (hT : WellFormed E.trace) {visits : ℕ}
    (h : EventLoop.run (loop E) visits 0 (schedInit E) = .ok (s, now)) :
    CoreInv E now s ∧ RunOrdered E.trace E.inOrder s.toCore ∧
      ((∀ m ∈ E.trace.macros, m.uopIds.Nodup) → DispatchedOnce E.trace s.toCore) := by
  obtain ⟨hs, hf⟩ := run_invariant (P := CoreInv E) hT inv_init (fun _ _ _ => inv_step hT)
    (fun _ _ _ h hlt => h.later hlt.le) h
  have hend : E.trace.macros.length ≤ s.nextDispatch ∧ s.rob = [] := by
    simpa [unfinished] using hf
  exact ⟨hs, hs.ordered hT hend.1 hend.2, hs.dispatchedOnce hT hend.1⟩

end Xsai
end VectorSim
