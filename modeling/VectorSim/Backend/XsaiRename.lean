/-
# The rename free lists of the XSAI engine

An entry of a free list is free, held by a macro-op in the reorder buffer, or
pending: retired with its macro-op and on its way back. Every step of the
engine moves entries between the three and loses none (`Conserved`), and what
is taken leaves the guard (`Guarded`). A call of `_release_rename` returns what
is due, up to the release width (`release_total`).
-/
import VectorSim.Backend.XsaiWidths
import VectorSim.Lib.Entries

namespace VectorSim
namespace Xsai

open Checked Setup Core

variable {E : Config} {now : ℕ} {s s' : Sched}

/-- The initial free count of a list. -/
def initialFree (E : Config) (f : String) : ℕ := lookupD E.rename.freeLists f 0

/-- The entries held by the macro-ops that are admitted and have not retired. -/
def heldEntries (E : Config) (s : Sched) (f : String) : ℕ :=
  occupancy E.trace s.toCore fun m => Entries.count f m.renameAllocations

/-- The entries of batches on their way back. -/
def pendingOf (q : List Release) (f : String) : ℕ := (q.map fun b => Entries.count f b.allocations).sum

/-- The entries on their way back: their macro-ops have retired. -/
def pendingEntries (s : Sched) (f : String) : ℕ := pendingOf s.renamePending f

/-! ### What a batch returns -/

theorem returnEntries_count (f : String) : ∀ (l : List (String × ℕ)) (width : ℕ) (free : String → ℤ),
    (returnEntries l width free).1 f + Entries.count f (returnEntries l width free).2.2 =
      free f + Entries.count f l
  | [], _, _ => rfl
  | (name, count) :: l, width, free => by
    have ih := returnEntries_count f l (width - min count width)
      (Function.update free name (free name + (min count width : ℕ)))
    have hupdate : Function.update free name (free name + ((min count width : ℕ) : ℤ)) f =
        free f + if name = f then ((min count width : ℕ) : ℤ) else 0 := by
      by_cases hf : name = f
      · subst hf; simp
      · rw [Function.update_of_ne (Ne.symm hf), if_neg hf, add_zero]
    rw [hupdate] at ih
    unfold returnEntries
    dsimp only
    rw [Entries.count_cons, Nat.cast_add]
    by_cases hf : name = f
    · rw [if_pos hf] at ih ⊢
      split
      · rw [Entries.count_cons, if_pos hf, Nat.cast_add]; omega
      · omega
    · rw [if_neg hf] at ih ⊢
      split
      · rw [Entries.count_cons, if_neg hf, Nat.cast_add]; omega
      · omega

/-- The greedy return serves the batch up to the width. -/
theorem returnEntries_total : ∀ (l : List (String × ℕ)) (width : ℕ) (free : String → ℤ),
    (returnEntries l width free).2.1 = width - Entries.total l ∧
      Entries.total (returnEntries l width free).2.2 = Entries.total l - width
  | [], _, _ => ⟨rfl, (Nat.zero_sub _).symm⟩
  | (name, count) :: l, width, free => by
    obtain ⟨hwidth, hleft⟩ := returnEntries_total l (width - min count width)
      (Function.update free name (free name + (min count width : ℕ)))
    unfold returnEntries
    dsimp only
    rw [Entries.total_cons]
    refine ⟨by omega, ?_⟩
    split
    · rw [Entries.total_cons]; omega
    · omega

/-- What is left over of a batch is of its lists, and not nothing. -/
theorem returnEntries_leftover : ∀ (l : List (String × ℕ)) (width : ℕ) (free : String → ℤ),
    ∀ e ∈ (returnEntries l width free).2.2, e.1 ∈ l.map (·.1) ∧ 0 < e.2
  | [], _, _, e, he => by cases he
  | (name, count) :: l, width, free, e, he => by
    unfold returnEntries at he
    dsimp only at he
    split at he
    · next hlt =>
      rcases List.mem_cons.mp he with rfl | he
      · exact ⟨List.mem_cons_self, Nat.sub_pos_of_lt hlt⟩
      · obtain ⟨hmem, hpos⟩ := returnEntries_leftover l _ _ e he
        exact ⟨List.mem_cons_of_mem _ hmem, hpos⟩
    · obtain ⟨hmem, hpos⟩ := returnEntries_leftover l _ _ e he
      exact ⟨List.mem_cons_of_mem _ hmem, hpos⟩

/-- A batch goes back whole when the width suffices. -/
theorem leftover_eq_nil (l : List (String × ℕ)) (width : ℕ) (free : String → ℤ) :
    (returnEntries l width free).2.2 = [] ↔ Entries.total l ≤ width := by
  have htotal := (returnEntries_total l width free).2
  constructor
  · intro h
    rw [h, Entries.total_nil] at htotal
    omega
  · intro h
    cases hl : (returnEntries l width free).2.2 with
    | nil => rfl
    | cons e rest =>
      have hpos := (returnEntries_leftover l width free e (by rw [hl]; exact List.mem_cons_self)).2
      rw [hl, Entries.total_cons] at htotal
      omega

@[simp] theorem pendingOf_cons (b : Release) (q : List Release) (f : String) :
    pendingOf (b :: q) f = Entries.count f b.allocations + pendingOf q f := List.sum_cons

theorem pendingOf_push (b : Release) (q : List Release) (f : String) :
    pendingOf (Queue.push Release.key b q) f = Entries.count f b.allocations + pendingOf q f := by
  rw [← pendingOf_cons]
  exact ((Queue.push_perm b q).map _).sum_eq

/-- What leaves the pending releases is free. -/
theorem returnBatch_count {b : Release} {rest : List Release} (head : s.renamePending = b :: rest)
    (width : ℕ) (f : String) :
    (returnBatch s b rest width).2.2.renameFree f + pendingEntries (returnBatch s b rest width).2.2 f =
      s.renameFree f + pendingEntries s f := by
  have hcount := returnEntries_count f b.allocations width s.renameFree
  have hpending : pendingEntries (returnBatch s b rest width).2.2 f =
      Entries.count f (returnEntries b.allocations width s.renameFree).2.2 + pendingOf rest f := by
    show pendingOf (if _ then _ else _) f = _
    split
    · next hnil => rw [hnil, Entries.count_nil, Nat.zero_add]
    · rw [pendingOf_push]
  have hbefore : pendingEntries s f = Entries.count f b.allocations + pendingOf rest f := by
    rw [pendingEntries, head, pendingOf_cons]
  rw [hpending, hbefore]
  show (returnEntries b.allocations width s.renameFree).1 f + _ = _
  push_cast
  omega

/-! ### Conservation -/

/-- Every entry is free, held or on its way back. -/
def Conserved (E : Config) (s : Sched) : Prop :=
  ∀ f, s.renameFree f + heldEntries E s f + pendingEntries s f = initialFree E f

theorem conserved_init : Conserved E (schedInit E) := by
  intro f
  rw [heldEntries]
  show (initialFree E f : ℤ) + ((occupancy E.trace (Core.init E.trace) _ : ℕ) : ℤ) + ((0 : ℕ) : ℤ) = _
  rw [occupancy_init]
  simp

/-- A step that moves no entry. -/
theorem Conserved.same (hs : Conserved E s) (ht : SameTicks s.toCore s'.toCore)
    (hfree : s'.renameFree = s.renameFree) (hpending : s'.renamePending = s.renamePending) :
    Conserved E s' := by
  intro f
  have hheld : heldEntries E s' f = heldEntries E s f := occupancy_congr ht.dispatch ht.retire
  rw [hfree, hheld, pendingEntries, hpending]
  exact hs f

/-- An admission takes the entries of the macro-op. -/
theorem admitMacro_free (henabled : E.rename.enabled = true) (c : DispatchCycle) (m : MacroOp) (f : String) :
    (admitMacro E s c m now).1.renameFree f = s.renameFree f - Entries.count f m.renameAllocations := by
  show (if _ then _ else _ : String → ℤ) f = _
  rw [if_pos henabled]
  exact Entries.foldl_sub _ _ _

theorem conserved_admission (hT : WellFormed E.trace) (henabled : E.rename.enabled = true)
    (hi : CoreInv E now s) (hs : Conserved E s) {c : DispatchCycle} {m : MacroOp}
    (head : E.trace.macros[s.nextDispatch]? = some m) (room : dispatchBlocker E s c m = .ok none) :
    Conserved E (admitOnce E s c m now).1 := by
  rcases admitOnce_cases now room with ⟨he, -⟩ | ⟨he, hout, -⟩
  · rw [he]; exact hs
  · rw [he]
    intro f
    have hheld : heldEntries E (admitMacro E s c m now).1 f =
        heldEntries E s f + Entries.count f m.renameAllocations := occupancy_enterRob hT hi head hout
    have hpending : pendingEntries (admitMacro E s c m now).1 f = pendingEntries s f := rfl
    have := hs f
    rw [admitMacro_free henabled, hheld, hpending]
    push_cast
    omega

theorem pendingEntries_retire (henabled : E.rename.enabled = true) (m : MacroOp) (f : String) :
    pendingEntries (retireMacro E s m now) f =
      Entries.count f m.renameAllocations + pendingEntries s f := by
  show pendingOf (pushRelease E s m now) f = _
  unfold pushRelease
  cases hl : m.renameAllocations with
  | nil => simp [pendingEntries]
  | cons e l =>
    rw [if_pos (by simp [henabled]), pendingOf_push]
    rfl

theorem conserved_step (hT : WellFormed E.trace) (henabled : E.rename.enabled = true)
    (hi : CoreInv E now s) (hs : Conserved E s) (h : Step E now s s') : Conserved E s' := by
  cases h with
  | @complete e rest _ _ =>
    refine hs.same (completeEntry_same e rest).ticks ?_ ?_ <;>
      · unfold completeEntry
        dsimp only
        split <;> rfl
  | take head _ room =>
    refine (conserved_admission hT henabled hi hs head room).same ⟨fun m => ?_, fun m => ?_⟩ rfl rfl <;>
      simp [enqueue, spend]
  | budget head _ room =>
    exact (conserved_admission hT henabled hi hs head room).same ⟨fun _ => rfl, fun _ => rfl⟩ rfl rfl
  | @releaseRename b rest width head _ =>
    intro f
    have hmoved := returnBatch_count head width f
    have hheld : heldEntries E (returnBatch s b rest width).2.2 f = heldEntries E s f := rfl
    have := hs f
    rw [hheld]
    omega
  | @retire m rest mem head _ =>
    intro f
    have hheld : heldEntries E (retireMacro E s m now) f + Entries.count f m.renameAllocations =
        heldEntries E s f := occupancy_retire hT hi mem head
    have hfree : (retireMacro E s m now).renameFree f = s.renameFree f := rfl
    have := hs f
    rw [pendingEntries_retire henabled, hfree]
    push_cast
    omega
  | advance _ _ | releaseFlow _ _ | stall _ _ _ | poll _ | issue _ _ _ _ _ _ =>
    exact hs.same ⟨fun _ => rfl, fun _ => rfl⟩ rfl rfl

/-! ### The guard -/

/-- Every list keeps the guard entries. -/
def Guarded (E : Config) (s : Sched) : Prop :=
  ∀ f ∈ E.rename.freeLists.map (·.1), E.rename.guardEntries ≤ s.renameFree f

theorem guarded_admission (henabled : E.rename.enabled = true) {c : DispatchCycle} {m : MacroOp}
    (hn : (m.renameAllocations.map (·.1)).Nodup) (hs : Guarded E s)
    (room : dispatchBlocker E s c m = .ok none) : Guarded E (admitOnce E s c m now).1 := by
  rcases admitOnce_cases now room with ⟨he, -⟩ | ⟨he, -, hadm⟩
  · rw [he]; exact hs
  · rw [he]
    intro f hf
    rw [admitMacro_free henabled]
    by_cases hmem : f ∈ m.renameAllocations.map (·.1)
    · obtain ⟨e, he, rfl⟩ := List.mem_map.mp hmem
      rw [Entries.count_of_mem hn e he]
      exact renameBlocker_none henabled hadm.rename e he
    · rw [Entries.count_of_notMem hmem, Nat.cast_zero, sub_zero]
      exact hs f hf

theorem guarded_step (henabled : E.rename.enabled = true)
    (hn : ∀ m ∈ E.trace.macros, (m.renameAllocations.map (·.1)).Nodup) (hs : Guarded E s)
    (h : Step E now s s') : Guarded E s' := by
  cases h with
  | @complete e rest _ _ =>
    unfold completeEntry
    dsimp only
    split <;> exact hs
  | take head _ room => exact guarded_admission henabled (hn _ (List.mem_of_getElem? head)) hs room
  | budget head _ room => exact guarded_admission henabled (hn _ (List.mem_of_getElem? head)) hs room
  | @releaseRename b rest width _ _ =>
    exact fun f hf => (hs f hf).trans (returnEntries_le b.allocations width s.renameFree f)
  | advance _ _ | releaseFlow _ _ | stall _ _ _ | poll _ | issue _ _ _ _ _ _ | retire _ _ _ => exact hs

/-- **No entry of a free list is lost or made**, and the guard stays. -/
theorem Reachable.conserved (hT : WellFormed E.trace) (henabled : E.rename.enabled = true)
    (h : Reachable E now s) : Conserved E s :=
  (h.invariant (P := fun now s => CoreInv E now s ∧ Conserved E s) hT ⟨inv_init, conserved_init⟩
    (fun _ _ _ hs hstep => ⟨inv_step hT hs.1 hstep, conserved_step hT henabled hs.1 hs.2 hstep⟩)
    fun _ _ _ hs hlt => ⟨hs.1.later hlt.le, hs.2⟩).2

theorem Reachable.guarded (hT : WellFormed E.trace) (henabled : E.rename.enabled = true)
    (hn : ∀ m ∈ E.trace.macros, (m.renameAllocations.map (·.1)).Nodup)
    (hguard : ∀ f ∈ E.rename.freeLists.map (·.1), E.rename.guardEntries ≤ initialFree E f)
    (h : Reachable E now s) : Guarded E s :=
  h.invariant (P := fun _ s => Guarded E s) hT (fun f hf => Int.ofNat_le.mpr (hguard f hf))
    (fun _ _ _ hs hstep => guarded_step henabled hn hs hstep) fun _ _ _ hs _ => hs

/-! ### The allocations of a cycle -/

/-- The dispatcher has admitted the same macro-ops, with the same rename entries. -/
structure SameAdmissions (r r' : Sched × DispatchCycle) : Prop where
  macros : ∀ m, (r'.1.macro_ m).dispatchTick = (r.1.macro_ m).dispatchTick
  usage : r'.2.renameUsage = r.2.renameUsage
  free : r'.1.renameFree = r.1.renameFree

theorem stopBlocked_admissions {c : DispatchCycle} {m : MacroOp} {reason : DispatchStall}
    {r : Bool × Sched × DispatchCycle} (h : stopBlocked s c m now reason = .ok r) :
    SameAdmissions (s, c) r.2 := by
  obtain ⟨stalls, domains, rfl⟩ := stopBlocked_ok h
  exact ⟨fun _ => rfl, rfl, rfl⟩

/-- A turn of the dispatcher admits its macro-op or nothing. -/
theorem dispatchTurn_admissions {width : ℕ} {c : DispatchCycle} {m : MacroOp}
    {r : Bool × Sched × DispatchCycle} (h : dispatchTurn E width now s c m = .ok r) :
    SameAdmissions (s, c) r.2 ∨
      dispatchBlocker E s c m = .ok none ∧ SameAdmissions (admitOnce E s c m now) r.2 := by
  unfold dispatchTurn at h
  dsimp only at h
  split at h
  · cases h; exact .inl ⟨fun _ => rfl, rfl, rfl⟩
  · split at h
    · cases h; exact .inl ⟨fun _ => rfl, rfl, rfl⟩
    · next chunk _ =>
      obtain ⟨b, hb, h⟩ := ok_bind.mp h
      cases b with
      | some reason => exact .inl (stopBlocked_admissions h)
      | none =>
        cases chunk with
        | take us a units =>
          refine .inr ⟨hb, ?_⟩
          dsimp only at h
          unfold closeTurn at h
          split at h
          · split at h
            · cases h
            · cases h; exact ⟨fun m' => by simp [enqueue, spend, Core.advance], rfl, rfl⟩
          · cases h; exact ⟨fun m' => by simp [enqueue, spend], rfl, rfl⟩
        | budget units => cases h; exact .inr ⟨hb, fun _ => rfl, rfl, rfl⟩
        | blocked =>
          dsimp only at h
          split at h <;> exact .inl (stopBlocked_admissions h)

/-- The dispatcher takes entries from the free lists, and returns none. -/
theorem dispatchLoop_free {width : ℕ} (f : String) : ∀ (fuel : ℕ) (s : Sched) (c : DispatchCycle) {s' : Sched},
    dispatchLoop E width now fuel s c = .ok s' → s'.renameFree f ≤ s.renameFree f
  | 0, _, _, _, h => by cases h; exact le_rfl
  | fuel + 1, s, c, s', h => by
    unfold dispatchLoop at h
    split at h
    · cases h; exact le_rfl
    · next m hm =>
      split at h
      · cases h; exact le_rfl
      · obtain ⟨r, hr, h⟩ := ok_bind.mp h
        have hturn : r.2.1.renameFree f ≤ s.renameFree f := by
          rcases dispatchTurn_admissions hr with hsame | ⟨hroom, hsame⟩
          · rw [hsame.free]
          · rw [hsame.free]
            rcases admitOnce_cases now hroom with ⟨he, -⟩ | ⟨he, -, -⟩
            · rw [he]
            · rw [he]
              show (if _ then _ else _ : String → ℤ) f ≤ _
              split
              · rw [Entries.foldl_sub]
                omega
              · exact le_rfl
        split at h
        · exact (dispatchLoop_free f fuel _ _ h).trans hturn
        · cases h; exact hturn

theorem dispatch_free (h : dispatch E now s = .ok s') (f : String) : s'.renameFree f ≤ s.renameFree f := by
  obtain ⟨width, -, h⟩ := ok_bind.mp h
  exact dispatchLoop_free f _ _ _ h

/-- The allocations of every cycle are within the width, and the dispatcher has counted
those of this one. -/
structure Allocating (E : Config) (now : ℕ) (s : Sched) (c : DispatchCycle) : Prop where
  core : CoreInv E now s
  within : ∀ cycle, admittedIn E s allocationTotal cycle ≤ E.rename.allocationWidth
  counted : c.renameUsage = admittedIn E s allocationTotal (now / E.ticksPerCycle)

variable {c : DispatchCycle} {m : MacroOp}

theorem Allocating.same {r : Sched × DispatchCycle} (h : Allocating E now s c) (hi : CoreInv E now r.1)
    (hs : SameAdmissions (s, c) r) : Allocating E now r.1 r.2 := by
  have hadm : ∀ cycle, admittedIn E r.1 allocationTotal cycle = admittedIn E s allocationTotal cycle := by
    intro cycle
    unfold admittedIn dispatchedIn
    congr 1
    exact funext hs.macros
  refine ⟨hi, fun cycle => ?_, ?_⟩
  · rw [hadm]; exact h.within cycle
  · rw [hadm, ← h.counted]; exact hs.usage

theorem Allocating.admission (hT : WellFormed E.trace) (henabled : E.rename.enabled = true)
    (h : Allocating E now s c) (head : E.trace.macros[s.nextDispatch]? = some m)
    (room : dispatchBlocker E s c m = .ok none) :
    Allocating E now (admitOnce E s c m now).1 (admitOnce E s c m now).2 := by
  have hi := h.core.steps hT (admitOnce_core now (c := c) head).1
  rcases admitOnce_cases now room with ⟨he, -⟩ | ⟨he, hout, hadm⟩
  · rw [he]; exact h
  · rw [he] at hi ⊢
    have hadd : ∀ cycle, admittedIn E (admitMacro E s c m now).1 allocationTotal cycle =
        admittedIn E s allocationTotal cycle +
          if now / E.ticksPerCycle = cycle then allocationTotal m else 0 :=
      fun cycle => dispatchedIn_enterRob hT (List.mem_of_getElem? head) hout
    refine ⟨hi, within_add h.within ?_ hadd, ?_⟩
    · have hused := h.within (now / E.ticksPerCycle)
      rw [← h.counted] at hused ⊢
      exact renameBlocker_width henabled hadm.rename hused
    · rw [hadd, if_pos rfl, ← h.counted]
      show (if _ then _ else _) = _
      rw [if_pos henabled]

theorem dispatchLoop_allocating (hT : WellFormed E.trace) (henabled : E.rename.enabled = true) {width : ℕ} :
    ∀ (fuel : ℕ) (s : Sched) (c : DispatchCycle) {s' : Sched}, dispatchLoop E width now fuel s c = .ok s' →
      Allocating E now s c → ∃ c', Allocating E now s' c'
  | 0, s, c, s', h, ht => by cases h; exact ⟨c, ht⟩
  | fuel + 1, s, c, s', h, ht => by
    unfold dispatchLoop at h
    split at h
    · cases h; exact ⟨c, ht⟩
    · next m hm =>
      split at h
      · cases h; exact ⟨c, ht⟩
      · obtain ⟨r, hr, h⟩ := ok_bind.mp h
        have hi : CoreInv E now r.2.1 := (dispatchTurn_steps hm hr).invariant ht.core fun _ _ => inv_step hT
        have hturn : Allocating E now r.2.1 r.2.2 := by
          rcases dispatchTurn_admissions hr with hsame | ⟨hroom, hsame⟩
          · exact ht.same hi hsame
          · exact (ht.admission hT henabled hm hroom).same hi hsame
        split at h
        · exact dispatchLoop_allocating hT henabled fuel _ _ h hturn
        · cases h; exact ⟨_, hturn⟩

/-- The assertion before the `k`-th procedure of a visit: those before the dispatcher admit
nothing. -/
structure AllocationPhase (E : Config) (k now : ℕ) (s : Sched) : Prop where
  core : CoreInv E now s
  within : ∀ cycle, admittedIn E s allocationTotal cycle ≤ E.rename.allocationWidth
  fresh : k ≤ 3 → ∀ m t, (s.macro_ m).dispatchTick = some t → t < now

theorem AllocationPhase.same {k : ℕ} (hs : AllocationPhase E k now s) (hi : CoreInv E now s')
    (h : SameDispatch s s') : AllocationPhase E (k + 1) now s' where
  core := hi
  within cycle := by rw [h.admittedIn]; exact hs.within cycle
  fresh hk m t ht := hs.fresh (by omega) m t (h.macros m ▸ ht)

theorem AllocationPhase.dispatch (hT : WellFormed E.trace) (henabled : E.rename.enabled = true)
    (hs : AllocationPhase E 3 now s) (hb : E.boundary now = true) (h : Xsai.dispatch E now s = .ok s') :
    AllocationPhase E 4 now s' := by
  obtain ⟨width, -, h⟩ := ok_bind.mp h
  have hmod : now % E.ticksPerCycle = 0 := by simpa [boundary] using hb
  have hzero : admittedIn E s allocationTotal (now / E.ticksPerCycle) = 0 :=
    sumIn_zero fun m t ht => div_ne_of_boundary hmod (hs.fresh le_rfl m t ht)
  obtain ⟨c, hdone⟩ := dispatchLoop_allocating hT henabled _ s {} h ⟨hs.core, hs.within, hzero.symm⟩
  exact ⟨hdone.core, hdone.within, fun hk => absurd hk (by omega)⟩

theorem allocation_phase (hT : WellFormed E.trace) (henabled : E.rename.enabled = true) {k : ℕ}
    {f : Sched → Except SimError Sched} (hf : (phases E now)[k]? = some f) (hs : AllocationPhase E k now s)
    (h : f s = .ok s') : AllocationPhase E (k + 1) now s' := by
  have hi : CoreInv E now s' := (phase_steps hT (List.mem_of_getElem? hf) h).invariant hs.core
    fun _ _ => inv_step hT
  rcases phase_cases hf h with hsame | ⟨rfl, hb, hd⟩
  · exact hs.same hi hsame
  · exact hs.dispatch hT henabled hb hd

theorem prefix_allocations (hT : WellFormed E.trace) (henabled : E.rename.enabled = true)
    {fs gs : List (Sched → Except SimError Sched)} (hfs : phases E now = fs ++ gs)
    (h : visitOf fs s = .ok s') (hs : AllocationPhase E 0 now s) : AllocationPhase E fs.length now s' := by
  have hlen : fs.length ≤ (phases E now).length := by rw [hfs]; simp
  have hfs : fs = (phases E now).take fs.length := by rw [hfs]; simp
  rw [visitOf, hfs] at h
  exact foldlM_take (P := fun k => AllocationPhase E k now) hlen h hs fun _ _ _ _ hf hs =>
    allocation_phase hT henabled hf hs

theorem AtTick.allocations (hT : WellFormed E.trace) (henabled : E.rename.enabled = true)
    (h : AtTick E now s) : AllocationPhase E 0 now s := by
  obtain ⟨n, h⟩ := h
  refine h.alternate (P := fun now s => AllocationPhase E 0 now s)
    (Q := fun now s => AllocationPhase E 7 now s) ?_ ?_ ?_
  · refine ⟨inv_init, fun cycle => ?_, fun _ _ _ ht => by cases ht⟩
    exact (sumIn_zero fun m t ht => by cases ht).trans_le (Nat.zero_le _)
  · exact fun now s s' hs _ hv => prefix_allocations hT henabled (List.append_nil _).symm hv hs
  · intro now s s' t hs hnext hlt
    obtain ⟨memory, rfl⟩ := nextEventTick_ok hnext
    obtain ⟨_, _, hrob⟩ := hs.core.rob
    exact ⟨(inv_step hT hs.core (.poll memory)).later hlt.le, hs.within,
      fun _ _ _ ht => (hrob.dispatch_le ht).trans_lt hlt⟩

/-- **The allocations of a cycle are within the allocation width.** -/
theorem Reachable.allocations (hT : WellFormed E.trace) (henabled : E.rename.enabled = true)
    (h : Reachable E now s) (cycle : ℕ) :
    admittedIn E s allocationTotal cycle ≤ E.rename.allocationWidth := by
  obtain ⟨s₀, fs, gs, h₀, hfs, hv⟩ := h
  exact (prefix_allocations hT henabled hfs hv (h₀.allocations hT henabled)).within cycle

end Xsai
end VectorSim
