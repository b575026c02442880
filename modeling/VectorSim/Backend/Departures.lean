/-
# What leaves the structures

Between its dispatch and its end a visit only takes things out of the structures: macro-ops that
retire leave the reorder buffer and the queues, a macro-op leaves the unpartitioned vector scheduler
when the first of its vector-kind uops issues, and a uop leaves its partition when it issues. The
counters fall by just their entries (`Parting`).
-/
import VectorSim.Backend.Zen4Occupancy
import VectorSim.Backend.XsaiOccupancy
import VectorSim.Lib.Observer

namespace VectorSim

open Core Setup EventLoop

/-- The macro-op has left the reorder buffer. -/
def HasRetired (T : BoundTrace) (c : Core) (m : MacroOp) : Prop :=
  m ∈ T.macros ∧ (c.macro_ m.id).retireTick.isSome = true

/-- A vector-kind uop of the macro-op has issued. -/
def HasBegun (E : Setup) (c : Core) (m : MacroOp) : Prop :=
  m ∈ E.trace.macros ∧ m.uopIds.any (vectorIssued E c) = true

/-- Macro-ops leave the reorder buffer, the queues and the vector scheduler with what they take
of them. -/
structure Parting (E : Setup) (entries waits : MacroOp → ℕ) (s s' : Machine) : Prop where
  rob : Departs (·.robOccupancy) (fun s => HasRetired E.trace s.toCore) entries s s'
  loadQueue : Departs (·.loadQueueOccupancy) (fun s => HasRetired E.trace s.toCore) (·.usesLoadQueue.toNat) s s'
  storeQueue : Departs (·.storeQueueOccupancy) (fun s => HasRetired E.trace s.toCore) (·.usesStoreQueue.toNat) s s'
  vectorScheduler : Departs (·.vectorSchedulerOccupancy) (fun s => HasBegun E s.toCore) waits s s'

section

variable {T : BoundTrace} {E : Setup} {entries waits : MacroOp → ℕ} {now : ℕ} {c c' : Core} {s s' : Machine}

theorem hasRetired_congr (h : ∀ m, (c'.macro_ m).retireTick = (c.macro_ m).retireTick) (m : MacroOp) :
    HasRetired T c' m ↔ HasRetired T c m := by
  rw [HasRetired, HasRetired, h]

theorem hasBegun_congr (h : ∀ u, (c'.uop u).issueTick = (c.uop u).issueTick) (m : MacroOp) :
    HasBegun E c' m ↔ HasBegun E c m := by
  have hissued : vectorIssued E c' = vectorIssued E c := by
    funext u
    rw [vectorIssued, vectorIssued, h]
  rw [HasBegun, HasBegun, hissued]

theorem hasRetired_retire (hT : WellFormed T) {m : MacroOp} (mem : m ∈ T.macros) (i : MacroOp) :
    HasRetired T (c.retire m.id now) i ↔ HasRetired T c i ∨ i = m := by
  by_cases hid : i.id = m.id
  · simp only [HasRetired, Core.retire, hid, Function.update_self, Option.isSome_some]
    constructor
    · rintro ⟨hi, -⟩
      exact .inr (macro_ext hT hi mem hid)
    · rintro (⟨hi, -⟩ | rfl)
      · exact ⟨hi, trivial⟩
      · exact ⟨mem, trivial⟩
  · have hne : i ≠ m := fun h => hid (h ▸ rfl)
    simp [HasRetired, Core.retire, hid, hne]

theorem Parting.same (h : SameCounters s s') : Parting E entries waits s s' where
  rob := .inl ⟨h.rob, hasRetired_congr h.ticks.retire⟩
  loadQueue := .inl ⟨h.load, hasRetired_congr h.ticks.retire⟩
  storeQueue := .inl ⟨h.store, hasRetired_congr h.ticks.retire⟩
  vectorScheduler := .inl ⟨h.vector, hasBegun_congr h.issue⟩

theorem Parting.retire (hT : WellFormed E.trace) (hc : Core.Inv E.trace E.inOrder now s.toCore) {m : MacroOp}
    {rest : List Id} (mem : m ∈ E.trace.macros) (head : s.rob = m.id :: rest)
    (core : s'.toCore = s.toCore.retire m.id now) (rob : s'.robOccupancy = s.robOccupancy - entries m)
    (vector : s'.vectorSchedulerOccupancy = s.vectorSchedulerOccupancy)
    (load : s'.loadQueueOccupancy = s.loadQueueOccupancy - m.usesLoadQueue.toNat)
    (store : s'.storeQueueOccupancy = s.storeQueueOccupancy - m.usesStoreQueue.toNat) :
    Parting E entries waits s s' := by
  have hthere : ¬ HasRetired E.trace s.toCore m := by
    obtain ⟨r, a, hr⟩ := hc.rob
    rintro ⟨-, hsome⟩
    rw [hr.head_unretired hT mem head] at hsome
    cases hsome
  have hgone : ∀ i, HasRetired E.trace s'.toCore i ↔ HasRetired E.trace s.toCore i ∨ i = m := by
    intro i
    rw [core]
    exact hasRetired_retire hT mem i
  have hissue : ∀ u, (s'.uop u).issueTick = (s.uop u).issueTick := by
    intro u
    rw [core]
    rfl
  exact ⟨.inr ⟨m, hthere, rob, hgone⟩, .inr ⟨m, hthere, load, hgone⟩, .inr ⟨m, hthere, store, hgone⟩,
    .inl ⟨vector, hasBegun_congr hissue⟩⟩

/-- A uop that issues takes its macro-op out of the vector scheduler, if it is the first of its
vector-kind uops. -/
theorem Parting.issue (hT : WellFormed E.trace) (hc : Core.Inv E.trace E.inOrder now s.toCore) {x : ExecutionUop}
    {latency : ℕ} {flag : Bool} (hx : Issuable E.trace E.inOrder now s.toCore x)
    (flagged : ∀ m, E.trace.macro? x.parentId = some m → flag.toNat = waits m)
    (core : s'.toCore = s.toCore.issue x now latency E.inOrder) (rob : s'.robOccupancy = s.robOccupancy)
    (vector : s'.vectorSchedulerOccupancy = s.vectorSchedulerOccupancy -
      (x.kind.isVectorResource && flag && !E.otherVectorIssued s.toCore x).toNat)
    (load : s'.loadQueueOccupancy = s.loadQueueOccupancy)
    (store : s'.storeQueueOccupancy = s.storeQueueOccupancy) : Parting E entries waits s s' := by
  obtain ⟨m, hm, hparent, -, hu⟩ := hT.mem_parent hx.mem
  have hretire : ∀ m, (s'.macro_ m).retireTick = (s.macro_ m).retireTick := by
    intro m
    rw [core]
    rfl
  have hxe : E.uop x.id = x := Setup.uop_eq hT hx.mem
  have hfree : (s.uop x.id).issueTick = none := ((hc.uops.waiting x.id).mp hx.waiting).2
  have hother := otherVectorIssued_eq hT hm hx.mem hu hfree
  have hbegun : ∀ i, HasBegun E s'.toCore i ↔ HasBegun E s.toCore i ∨ i = m ∧ x.kind.isVectorResource = true := by
    intro i
    rw [HasBegun, HasBegun, core, any_vectorIssued_issue hxe]
    constructor
    · rintro ⟨hi, hany | ⟨hxi, hk⟩⟩
      · exact .inl ⟨hi, hany⟩
      · exact .inr ⟨hT.owner_unique hi hm hxi hu, hk⟩
    · rintro (⟨hi, hany⟩ | ⟨rfl, hk⟩)
      · exact ⟨hi, .inl hany⟩
      · exact ⟨hm, .inr ⟨hu, hk⟩⟩
  refine ⟨.inl ⟨rob, hasRetired_congr hretire⟩, .inl ⟨load, hasRetired_congr hretire⟩,
    .inl ⟨store, hasRetired_congr hretire⟩, ?_⟩
  by_cases hfirst : x.kind.isVectorResource = true ∧ E.otherVectorIssued s.toCore x = false
  · obtain ⟨hk, hnone⟩ := hfirst
    have hthere : ¬ HasBegun E s.toCore m := by
      rintro ⟨-, hany⟩
      rw [← hother, hnone] at hany
      cases hany
    have hfall : s'.vectorSchedulerOccupancy = s.vectorSchedulerOccupancy - (waits m : ℤ) := by
      rw [vector, hk, hnone, ← flagged m hparent]
      simp
    refine .inr ⟨m, hthere, hfall, fun i => (hbegun i).trans ?_⟩
    simp [hk]
  · have hlater : x.kind.isVectorResource = true → E.otherVectorIssued s.toCore x = true := by
      simpa using hfirst
    have hsame : s'.vectorSchedulerOccupancy = s.vectorSchedulerOccupancy := by
      rw [vector]
      cases hk : x.kind.isVectorResource with
      | false => simp
      | true => simp [hlater hk]
    refine .inl ⟨hsame, fun i => (hbegun i).trans (or_iff_left_of_imp ?_)⟩
    rintro ⟨rfl, hk⟩
    exact ⟨hm, hother ▸ hlater hk⟩

end

/-! ### The engines -/

namespace Zen4

variable {E : Setup} {now : ℕ} {s s' : Machine}

theorem unload_parting (hT : WellFormed E.trace) (hi : Inv E now s) (h : Unload E now s s') :
    Parting E (·.decodedMacroOps) (fun _ => 1) s s' := by
  cases h with
  | complete _ _ => exact .same (completeEntry_same _ _)
  | poll _ => exact .same ⟨⟨fun _ => rfl, fun _ => rfl⟩, fun _ => rfl, rfl, rfl, rfl, rfl⟩
  | @issue x r a free issuable _ =>
    have hflag : ∀ m, E.trace.macro? x.parentId = some m → true.toNat = (fun _ : MacroOp => 1) m := fun _ _ => rfl
    refine .issue hT hi.core issuable hflag rfl rfl ?_ rfl rfl
    simp [issued]
  | retire mem head _ => exact .retire hT hi.core mem head rfl rfl rfl rfl rfl

/-- From its dispatch to its end a visit takes macro-ops out of the structures. -/
theorem unloads_parting (hT : WellFormed E.trace) (hi : Inv E now s) (h : Unloads E now s s') :
    Relation.ReflTransGen (Parting E (·.decodedMacroOps) fun _ => 1) s s' := by
  have hall : Inv E now s' ∧ Relation.ReflTransGen (Parting E (·.decodedMacroOps) fun _ => 1) s s' := by
    induction h with
    | refl => exact ⟨hi, .refl⟩
    | tail _ hstep ih => exact ⟨inv_step hT ih.1 hstep.toStep, ih.2.tail (unload_parting hT ih.1 hstep)⟩
  exact hall.2

end Zen4

namespace Xsai

variable {E : Config} {now : ℕ} {s s' d : Sched}

/-- What a macro-op takes of the unpartitioned vector scheduler. -/
def legacyEntries (E : Config) (m : MacroOp) : ℕ := (usesLegacyVectorScheduler E m).toNat

theorem unload_parting (hT : WellFormed E.trace) (hi : CoreInv E now s) (h : Unload E now s s') :
    Parting E.toSetup (·.robEntryCount) (legacyEntries E) s.toMachine s'.toMachine := by
  cases h with
  | complete _ _ => exact .same (completeEntry_same _ _)
  | releaseFlow _ _ | poll _ => exact .same ⟨⟨fun _ => rfl, fun _ => rfl⟩, fun _ => rfl, rfl, rfl, rfl, rfl⟩
  | issue issuable _ _ =>
    refine .issue hT hi issuable (fun m hm => ?_) rfl rfl rfl rfl rfl
    rw [legacyEntries, parentUsesLegacy, hm, Option.any_some]
  | retire mem head _ => exact .retire hT hi mem head rfl rfl rfl rfl rfl

/-- The uop has left the partition it entered. -/
def HasLeft (E : Config) (c : Core) (x : ExecutionUop) : Prop :=
  x ∈ E.trace.uops ∧ (c.uop x.id).issueTick.isSome = true

/-- The partitions of kind `vector_compute` that the uop has entered. -/
def vectorEntries (E : Config) (d : Sched) (x : ExecutionUop) : ℕ :=
  (E.partitions.filter (·.kind = .vectorCompute)).countP fun q => (d.placement x.id).partition = some q.id

/-- What waits in the partitions of kind `vector_compute`. -/
def inPartitions (E : Config) (s : Sched) : ℤ :=
  ((E.partitions.filter (·.kind = .vectorCompute)).map fun q => s.partitionOccupancy q.id).sum

theorem unload_departs (hT : WellFormed E.trace) (hi : CoreInv E now s)
    (hplaced : ∀ u, (s.placement u).partition = (d.placement u).partition) (h : Unload E now s s') :
    Departs (inPartitions E) (fun s => HasLeft E s.toCore) (vectorEntries E d) s s' := by
  have hsame : ∀ {t : Sched}, t.partitionOccupancy = s.partitionOccupancy →
      (∀ u, (t.uop u).issueTick = (s.uop u).issueTick) →
      Departs (inPartitions E) (fun s => HasLeft E s.toCore) (vectorEntries E d) s t := by
    intro t ho hissue
    refine .inl ⟨by rw [inPartitions, inPartitions, ho], fun x => ?_⟩
    show x ∈ E.trace.uops ∧ (t.uop x.id).issueTick.isSome = true ↔ _
    rw [hissue]
    rfl
  cases h with
  | @complete e rest _ _ =>
    refine hsame ?_ (completeEntry_same e rest).issue
    unfold completeEntry
    dsimp only
    split <;> rfl
  | releaseFlow _ _ | poll _ | retire _ _ _ => exact hsame rfl fun _ => rfl
  | @issue x r issuable reserved _ =>
    have hfree : (s.uop x.id).issueTick = none := ((hi.uops.waiting x.id).mp issuable.waiting).2
    refine .inr ⟨x, ?_, ?_, fun y => ?_⟩
    · rintro ⟨-, hsome⟩
      rw [hfree] at hsome
      cases hsome
    · show ((E.partitions.filter _).map fun q => r.partitionOccupancy q.id).sum = _
      simp only [leavePartition_ok (reserve_partition reserved), hplaced]
      rw [inPartitions, vectorEntries]
      induction E.partitions.filter (·.kind = .vectorCompute) with
      | nil => rfl
      | cons q l ih =>
        rw [List.map_cons, List.sum_cons, List.map_cons, List.sum_cons, List.countP_cons, ih]
        by_cases hq : (d.placement x.id).partition = some q.id
        · simp [hq]; ring
        · simp [hq]; ring
    · show HasLeft E (issued E s x now r).toCore y ↔ HasLeft E s.toCore y ∨ y = x
      have hissue : ((issued E s x now r).uop y.id).issueTick.isSome = true ↔
          (s.uop y.id).issueTick.isSome = true ∨ y.id = x.id := by
        show (((s.toCore.issue x now _ E.inOrder).uop y.id).issueTick.isSome = true) ↔ _
        rw [issue_uop]
        split
        · next hy => simp [hy]
        · next hy => simp [hy]
      rw [HasLeft, HasLeft, hissue]
      constructor
      · rintro ⟨hy, hsome | hid⟩
        · exact .inl ⟨hy, hsome⟩
        · have h1 := hT.uop?_eq hy
          rw [hid, hT.uop?_eq issuable.mem] at h1
          exact .inr (Option.some.inj h1).symm
      · rintro (⟨hy, hsome⟩ | rfl)
        · exact ⟨hy, .inl hsome⟩
        · exact ⟨issuable.mem, .inr rfl⟩

/-- From its dispatch to its end a visit takes macro-ops out of the structures and uops out of the
partitions. -/
theorem unloads_parting (hT : WellFormed E.trace) (hi : CoreInv E now d) (h : Unloads E now d s) :
    Relation.ReflTransGen (Parting E.toSetup (·.robEntryCount) (legacyEntries E)) d.toMachine s.toMachine ∧
      Relation.ReflTransGen (Departs (inPartitions E) (fun s => HasLeft E s.toCore) (vectorEntries E d)) d s := by
  have hall : CoreInv E now s ∧ (∀ u, (s.placement u).partition = (d.placement u).partition) ∧
      Relation.ReflTransGen (Parting E.toSetup (·.robEntryCount) (legacyEntries E)) d.toMachine s.toMachine ∧
      Relation.ReflTransGen (Departs (inPartitions E) (fun s => HasLeft E s.toCore) (vectorEntries E d)) d s := by
    induction h with
    | refl => exact ⟨hi, fun _ => rfl, .refl, .refl⟩
    | tail _ hstep ih =>
      obtain ⟨hs, hplaced, hparting, hdeparts⟩ := ih
      exact ⟨inv_step hT hs hstep.toStep, fun u => (hstep.kept.2 u).trans (hplaced u),
        hparting.tail (unload_parting hT hs hstep), hdeparts.tail (unload_departs hT hs hplaced hstep)⟩
  exact hall.2.2

end Xsai
end VectorSim
