/-
# What the rename release returns

A call of `_release_rename` returns the entries that are due, up to the release
width (`returnedAt_eq`). The batches on their way back stand in the order of
their ticks and name free lists of the profile (`ReleaseInv`).
-/
import VectorSim.Backend.XsaiRename
import VectorSim.Backend.Accepted

namespace VectorSim
namespace Xsai

open Checked Setup Core

variable {E : Config} {now : ℕ} {s s' : Sched}

/-- The names of the free lists. -/
def freeListNames (E : Config) : Finset String := (E.rename.freeLists.map (·.1)).toFinset

/-- All entries of batches on their way back. -/
def pendingTotal (q : List Release) : ℕ := (q.map fun b => Entries.total b.allocations).sum

/-- Those of them that are due. -/
def dueEntries (now : ℕ) (q : List Release) : ℕ := pendingTotal (q.filter (·.tick ≤ now))

/-- The state in which a visit calls `_release_rename`. -/
def atRelease (E : Config) (v : ℕ × Sched) : Sched := releaseFlows E v.1 (complete E v.1 v.2).2

/-- The entries that a visit finds due. -/
def dueAt (E : Config) (v : ℕ × Sched) : ℕ := dueEntries v.1 (atRelease E v).renamePending

/-- The entries that a visit moves back to the free lists. -/
def returnedAt (E : Config) (v : ℕ × Sched) : ℤ :=
  ∑ f ∈ freeListNames E, ((releaseRename E v.1 (atRelease E v)).renameFree f - (atRelease E v).renameFree f)

/-! ### The batches on their way back -/

/-- The batches stand in order and name free lists of the profile. -/
structure ReleaseInv (E : Config) (s : Sched) : Prop where
  sorted : Queue.Sorted Release.key s.renamePending
  pending : ∀ b ∈ s.renamePending, ∀ e ∈ b.allocations, e.1 ∈ freeListNames E
  admitted : ∀ m ∈ E.trace.macros, (s.macro_ m.id).dispatchTick.isSome →
    ∀ e ∈ m.renameAllocations, e.1 ∈ freeListNames E

theorem ReleaseInv.same (hs : ReleaseInv E s) (hq : s'.renamePending = s.renamePending)
    (hm : ∀ m, (s'.macro_ m).dispatchTick = (s.macro_ m).dispatchTick) : ReleaseInv E s' :=
  ⟨hq ▸ hs.sorted, hq ▸ hs.pending, fun m hmem h => hs.admitted m hmem (hm m.id ▸ h)⟩

theorem renameBlocker_known {c : DispatchCycle} {m : MacroOp} (henabled : E.rename.enabled = true)
    (h : renameBlocker E s c m = .ok none) : ∀ e ∈ m.renameAllocations, e.1 ∈ freeListNames E := by
  intro e he
  unfold renameBlocker at h
  have hne : m.renameAllocations.isEmpty = false := by
    rw [List.isEmpty_eq_false_iff]
    exact List.ne_nil_of_mem he
  rw [if_neg (by simp [henabled, hne])] at h
  split at h
  · cases h
  · next hknown =>
    rw [List.any_eq_true, not_exists] at hknown
    have := hknown e
    simpa [he, freeListNames] using this

theorem releaseInv_admission (hT : WellFormed E.trace) (henabled : E.rename.enabled = true)
    {c : DispatchCycle} {m : MacroOp} (hm : m ∈ E.trace.macros) (hs : ReleaseInv E s)
    (room : dispatchBlocker E s c m = .ok none) : ReleaseInv E (admitOnce E s c m now).1 := by
  rcases admitOnce_cases now room with ⟨he, -⟩ | ⟨he, -, hadm⟩
  · rw [he]; exact hs
  · rw [he]
    refine ⟨hs.sorted, hs.pending, fun m' hm' hd => ?_⟩
    by_cases hid : m'.id = m.id
    · obtain rfl := macro_ext hT hm' hm hid
      exact renameBlocker_known henabled hadm.rename
    · refine hs.admitted m' hm' ?_
      simpa [admitMacro, Core.enterRob, hid] using hd

theorem releaseInv_batch {b : Release} {rest : List Release} (head : s.renamePending = b :: rest)
    (hs : ReleaseInv E s) (width : ℕ) : ReleaseInv E (returnBatch s b rest width).2.2 := by
  have hsorted := hs.sorted
  have hpending := hs.pending
  rw [head] at hsorted hpending
  have hrest : ∀ b' ∈ rest, ∀ e ∈ b'.allocations, e.1 ∈ freeListNames E :=
    fun b' hb' => hpending b' (List.mem_cons_of_mem _ hb')
  refine ⟨?_, ?_, hs.admitted⟩
  · show Queue.Sorted Release.key (if _ then _ else _)
    split
    · exact hsorted.tail
    · exact hsorted.tail.push
  · show ∀ b' ∈ (if (returnEntries b.allocations width s.renameFree).2.2 = [] then rest else _), _
    split
    · exact hrest
    · intro b' hb' e he
      rcases Queue.mem_push.mp hb' with rfl | hb'
      · obtain ⟨hmem, -⟩ := returnEntries_leftover b.allocations width s.renameFree e he
        obtain ⟨e', he', heq⟩ := List.mem_map.mp hmem
        rw [← heq]
        exact hpending b List.mem_cons_self e' he'
      · exact hrest b' hb' e he

theorem releaseInv_step (hT : WellFormed E.trace) (henabled : E.rename.enabled = true)
    (hi : CoreInv E now s) (hs : ReleaseInv E s) (h : Step E now s s') : ReleaseInv E s' := by
  cases h with
  | @complete e rest _ _ =>
    refine hs.same ?_ (completeEntry_same e rest).ticks.dispatch
    unfold completeEntry
    dsimp only
    split <;> rfl
  | take head _ room =>
    refine (releaseInv_admission hT henabled (List.mem_of_getElem? head) hs room).same rfl fun m => ?_
    simp [enqueue, spend]
  | budget head _ room =>
    exact (releaseInv_admission hT henabled (List.mem_of_getElem? head) hs room).same rfl fun _ => rfl
  | releaseRename head _ => exact releaseInv_batch head hs _
  | @retire m rest mem head _ =>
    have hlive := hi.head_live hT mem head
    rw [live, Bool.and_eq_true] at hlive
    have hticks : ∀ m', ((retireMacro E s m now).macro_ m').dispatchTick = (s.macro_ m').dispatchTick :=
      (retireMacro_dispatch E now s m).macros
    refine ⟨?_, ?_, fun m' hm' h => hs.admitted m' hm' (hticks m'.id ▸ h)⟩
    · show Queue.Sorted Release.key (pushRelease E s m now)
      unfold pushRelease
      split
      · exact hs.sorted.push
      · exact hs.sorted
    · show ∀ b ∈ pushRelease E s m now, _
      unfold pushRelease
      split
      · intro b hb
        rcases Queue.mem_push.mp hb with rfl | hb
        · exact hs.admitted m mem hlive.1
        · exact hs.pending b hb
      · exact hs.pending
  | advance _ _ | releaseFlow _ _ | stall _ _ _ | poll _ | issue _ _ _ _ _ _ =>
    exact hs.same rfl fun _ => rfl

theorem Reachable.releaseInv (hT : WellFormed E.trace) (henabled : E.rename.enabled = true)
    (h : Reachable E now s) : ReleaseInv E s :=
  (h.invariant (P := fun now s => CoreInv E now s ∧ ReleaseInv E s) hT
    ⟨inv_init, .nil, fun _ hb => (by cases hb), fun _ _ h => (by cases h)⟩
    (fun _ _ _ hs hstep => ⟨inv_step hT hs.1 hstep, releaseInv_step hT henabled hs.1 hs.2 hstep⟩)
    fun _ _ _ hs hlt => ⟨hs.1.later hlt.le, hs.2⟩).2

/-! ### A call -/

theorem dueEntries_cons {b : Release} {q : List Release} (h : b.tick ≤ now) :
    dueEntries now (b :: q) = Entries.total b.allocations + dueEntries now q := by
  rw [dueEntries, List.filter_cons_of_pos (by simpa using h), pendingTotal, List.map_cons, List.sum_cons]
  rfl

/-- Nothing is due before the head is. -/
theorem dueEntries_early {b : Release} {q : List Release} (hq : Queue.Sorted Release.key (b :: q))
    (h : now < b.tick) : dueEntries now (b :: q) = 0 := by
  have hnone : (b :: q).filter (·.tick ≤ now) = [] := by
    rw [List.filter_eq_nil_iff]
    intro b' hb'
    have hle : b.tick ≤ b'.tick := by
      rcases List.mem_cons.mp hb' with rfl | hb'
      · exact le_rfl
      · exact hq.head_le hb'
    rw [decide_eq_true_eq]
    omega
  rw [dueEntries, hnone]
  rfl

theorem pendingTotal_push (b : Release) (q : List Release) :
    pendingTotal (Queue.push Release.key b q) = Entries.total b.allocations + pendingTotal q :=
  ((Queue.push_perm b q).map _).sum_eq.trans List.sum_cons

/-- **The loop serves what is due up to the width.** -/
theorem releaseRenameLoop_total (now : ℕ) : ∀ (fuel width : ℕ) (s : Sched), Queue.Sorted Release.key s.renamePending →
    s.renamePending.length ≤ fuel →
    pendingTotal (releaseRenameLoop now fuel width s).renamePending +
      min width (dueEntries now s.renamePending) = pendingTotal s.renamePending
  | 0, width, s, _, hfuel => by
    have hnil : s.renamePending = [] := List.length_eq_zero_iff.mp (Nat.le_zero.mp hfuel)
    unfold releaseRenameLoop
    rw [hnil, show dueEntries now [] = 0 from rfl, Nat.min_zero, Nat.add_zero]
  | fuel + 1, width, s, hsorted, hfuel => by
    unfold releaseRenameLoop
    cases hq : s.renamePending with
    | nil => rw [hq, show dueEntries now [] = 0 from rfl, Nat.min_zero, Nat.add_zero]
    | cons b rest =>
      rw [hq] at hsorted hfuel
      have htotal := returnEntries_total b.allocations width s.renameFree
      have hwhole := leftover_eq_nil b.allocations width s.renameFree
      have hbatch : (returnBatch s b rest width).1 = true ↔ Entries.total b.allocations ≤ width := by
        rw [← hwhole, ← List.isEmpty_iff]; rfl
      have hcons : pendingTotal (b :: rest) = Entries.total b.allocations + pendingTotal rest := List.sum_cons
      dsimp only
      split
      · next hstop =>
        rw [hq]
        rcases hstop with hearly | hzero
        · rw [dueEntries_early hsorted hearly]; omega
        · rw [hzero]; omega
      · next hgo =>
        rw [dueEntries_cons (by omega), hcons]
        split
        · next hall =>
          -- the batch goes back whole, and the loop goes on with the rest
          have hfit := hbatch.mp hall
          have hpending : (returnBatch s b rest width).2.2.renamePending = rest := by
            show (if _ then _ else _) = _
            rw [if_pos (hwhole.mpr hfit)]
          have ih := releaseRenameLoop_total now fuel (returnBatch s b rest width).2.1
            (returnBatch s b rest width).2.2 (by rw [hpending]; exact hsorted.tail)
            (by rw [hpending]; exact Nat.le_of_succ_le_succ hfuel)
          have hwidth : (returnBatch s b rest width).2.1 = width - Entries.total b.allocations := htotal.1
          rw [hpending, hwidth] at ih
          rw [hwidth]
          omega
        · next hpart =>
          have hshort : width < Entries.total b.allocations := by
            rw [← not_le, ← hbatch]; exact hpart
          have hpending : (returnBatch s b rest width).2.2.renamePending =
              Queue.push Release.key { b with allocations := (returnEntries b.allocations width s.renameFree).2.2 }
                rest := by
            show (if _ then _ else _) = _
            rw [if_neg (fun h => absurd (hwhole.mp h) (not_le.mpr hshort))]
          rw [hpending, pendingTotal_push]
          dsimp only
          omega

theorem releaseRenameLoop_count (now : ℕ) (f : String) : ∀ (fuel width : ℕ) (s : Sched),
    (releaseRenameLoop now fuel width s).renameFree f + pendingEntries (releaseRenameLoop now fuel width s) f =
      s.renameFree f + pendingEntries s f
  | 0, _, _ => rfl
  | fuel + 1, width, s => by
    unfold releaseRenameLoop
    cases hq : s.renamePending with
    | nil => rfl
    | cons b rest =>
      have hmoved := returnBatch_count hq width f
      dsimp only
      split
      · rfl
      · split
        · exact (releaseRenameLoop_count now f fuel _ _).trans hmoved
        · exact hmoved

/-- The entries of all lists are all entries. -/
theorem sum_pendingOf : ∀ {q : List Release}, (∀ b ∈ q, ∀ e ∈ b.allocations, e.1 ∈ freeListNames E) →
    ∑ f ∈ freeListNames E, pendingOf q f = pendingTotal q
  | [], _ => Finset.sum_eq_zero fun _ _ => rfl
  | b :: q, h => by
    have hhead := Entries.sum_count (h b List.mem_cons_self)
    have hrest := sum_pendingOf fun b' hb' => h b' (List.mem_cons_of_mem _ hb')
    simp only [pendingOf_cons, Finset.sum_add_distrib, hhead, hrest]
    exact List.sum_cons.symm

/-- **A visit returns what is due, up to the release width.** -/
theorem returnedAt_eq (hT : WellFormed E.trace) (henabled : E.rename.enabled = true) (h : AtTick E now s) :
    returnedAt E (now, s) = (min E.rename.releaseWidth (dueAt E (now, s)) : ℕ) := by
  have hbefore : Reachable E now (atRelease E (now, s)) := ⟨s, (phases E now).take 2, _, h, rfl, rfl⟩
  have hafter : Reachable E now (releaseRename E now (atRelease E (now, s))) :=
    ⟨s, (phases E now).take 3, _, h, rfl, rfl⟩
  have hinv := hbefore.releaseInv hT henabled
  have htotal := releaseRenameLoop_total now (atRelease E (now, s)).renamePending.length
    E.rename.releaseWidth (atRelease E (now, s)) hinv.sorted le_rfl
  have hsum := sum_pendingOf hinv.pending
  have hsum' := sum_pendingOf (hafter.releaseInv hT henabled).pending
  have hrelease : releaseRename E now (atRelease E (now, s)) = releaseRenameLoop now
      (atRelease E (now, s)).renamePending.length E.rename.releaseWidth (atRelease E (now, s)) := by
    unfold releaseRename
    rw [if_pos henabled]
  rw [← hrelease] at htotal
  have hmoved : ∀ f, (releaseRename E now (atRelease E (now, s))).renameFree f -
      (atRelease E (now, s)).renameFree f = (pendingOf (atRelease E (now, s)).renamePending f : ℤ) -
        pendingOf (releaseRename E now (atRelease E (now, s))).renamePending f := by
    intro f
    have hcount := releaseRenameLoop_count now f (atRelease E (now, s)).renamePending.length
      E.rename.releaseWidth (atRelease E (now, s))
    rw [← hrelease] at hcount
    unfold pendingEntries at hcount
    omega
  have hall : returnedAt E (now, s) = (pendingTotal (atRelease E (now, s)).renamePending : ℤ) -
      pendingTotal (releaseRename E now (atRelease E (now, s))).renamePending := by
    rw [← hsum, ← hsum', Nat.cast_sum, Nat.cast_sum, ← Finset.sum_sub_distrib]
    exact Finset.sum_congr rfl fun f _ => hmoved f
  rw [hall, dueAt]
  dsimp only at htotal ⊢
  omega

end Xsai
end VectorSim
