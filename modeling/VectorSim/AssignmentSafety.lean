/-
# The partition assignment is found just when there is one

`_plan_partition_assignment` searches for a partition of each uop that needs one,
with counters and a result that it updates in place and takes back where the rest
cannot be placed. For distinct uops it is sound and complete: it returns an
assignment within the remaining entries and, where they count, the remaining
enqueue width of every partition just when there is one (`plan_exact`). The order
in which it tries the uops and their choices does not matter to this. It returns
what the search of the run finds (`plan_eq_planAssignment`).
-/
import VectorSim.Backend.XsaiOccupancy
import VectorSim.Lib.Backtrack
import VectorSim.DispatchSafety

namespace VectorSim
namespace Xsai

open Checked Setup Backtrack

variable {E : Config} {enforce : Bool} {xs : List ExecutionUop} {us : List Id} {f : Id → Option String}

/-! ### The search in place -/

/-- The locals `occupancy`, `enqueues` and `result` of `_plan_partition_assignment`. -/
structure Search where
  occupancy : String → ℤ
  enqueues : String → ℕ
  result : Id → Option String

/-- The loop body of `assign`, before the recursive call and after one that fails. `del` of a
key that is missing raises. -/
def assignMoves (E : Config) (enforce : Bool) : Moves ExecutionUop String Search Id where
  choices t x := choicesOf E enforce t.occupancy t.enqueues x
  place t x p :=
    { occupancy := increment t.occupancy p
      enqueues := increment t.enqueues p
      result := Function.update t.result x.id (some p) }
  undo t x p :=
    if t.result x.id = none then .error x.id
    else .ok
      { occupancy := Function.update t.occupancy p (t.occupancy p - 1)
        enqueues := Function.update t.enqueues p (t.enqueues p - 1)
        result := Function.update t.result x.id none }

/-- `_plan_partition_assignment`, which counts on copies of the engine's counters. -/
def planPartitionAssignment (E : Config) (r : Sched × DispatchCycle) (enforce : Bool) (us : List Id) :
    Except Id ((Sched × DispatchCycle) × Option (Id → Option String)) := do
  let t : Search := ⟨r.1.partitionOccupancy, r.2.partitionEnqueues, fun _ => none⟩
  let found ← (assignMoves E enforce).search (partitioned E us) t
  return (r, if found.1 then some found.2.result else none)

theorem assignMoves_reversible : (assignMoves E enforce).Reversible (fun t x => t.result x.id = none)
    fun x y => x.id ≠ y.id where
  undo t x p h := by
    have hback : Function.update (Function.update t.result x.id (some p)) x.id none = t.result := by
      rw [Function.update_idem, ← h, Function.update_eq_self]
    show (if Function.update t.result x.id (some p) x.id = none then _ else _) = _
    rw [Function.update_self, if_neg (by simp)]
    simp only [assignMoves, increment, Function.update_self, Function.update_idem, hback, add_sub_cancel_right,
      Nat.add_sub_cancel, Function.update_eq_self]
  free t x p y hne h := by
    show Function.update t.result x.id (some p) y.id = none
    rw [Function.update_of_ne (Ne.symm hne)]
    exact h

/-! ### Assignments -/

/-- How many of the uops an assignment puts into a partition. -/
def placed (xs : List ExecutionUop) (f : Id → Option String) (p : String) : ℕ :=
  xs.countP fun x => f x.id = some p

/-- The uops are put into partitions they may use, within what is left of the entries of each
and, where it counts, of its enqueue width. -/
structure Feasible (E : Config) (enforce : Bool) (xs : List ExecutionUop) (occupancy : String → ℤ)
    (enqueues : String → ℕ) (f : Id → Option String) : Prop where
  allowed : ∀ x ∈ xs, ∃ p ∈ x.schedulerPartitionChoices, f x.id = some p
  entries : ∀ p, 0 < placed xs f p → occupancy p + placed xs f p ≤ entries E p
  widths : enforce = true → ∀ p, 0 < placed xs f p → enqueues p + placed xs f p ≤ enqueueWidth E p

theorem mem_choicesOf {occupancy : String → ℤ} {enqueues : String → ℕ} {x : ExecutionUop} {p : String} :
    p ∈ choicesOf E enforce occupancy enqueues x ↔ p ∈ x.schedulerPartitionChoices ∧
      occupancy p < entries E p ∧ (enforce = true → enqueues p < enqueueWidth E p) := by
  unfold choicesOf
  rw [(List.perm_insertionSort _ _).mem_iff, List.mem_filter]
  cases enforce <;> simp [hasRoom]

theorem placed_cons {x : ExecutionUop} {p q : String} (h : f x.id = some p) :
    placed (x :: xs) f q = placed xs f q + if p = q then 1 else 0 := by
  simp [placed, List.countP_cons, h]

/-- A uop takes a place, and the uops after it fit in what is left. -/
theorem feasible_cons {occupancy : String → ℤ} {enqueues : String → ℕ} {x : ExecutionUop} {p : String}
    (hx : f x.id = some p) : Feasible E enforce (x :: xs) occupancy enqueues f ↔
      p ∈ choicesOf E enforce occupancy enqueues x ∧
        Feasible E enforce xs (increment occupancy p) (increment enqueues p) f := by
  have hcount : ∀ q, placed (x :: xs) f q = placed xs f q + if p = q then 1 else 0 := fun q => placed_cons hx
  rw [mem_choicesOf]
  constructor
  · intro h
    have hself : 0 < placed (x :: xs) f p := by rw [hcount, if_pos rfl]; omega
    have hentries := h.entries p hself
    rw [hcount, if_pos rfl] at hentries
    obtain ⟨p', hp', he⟩ := h.allowed x List.mem_cons_self
    obtain rfl : p' = p := Option.some.inj (he.symm.trans hx)
    refine ⟨⟨hp', by omega, fun he => ?_⟩, fun y hy => h.allowed y (List.mem_cons_of_mem _ hy), fun q hq => ?_,
      fun he q hq => ?_⟩
    · have hwidths := h.widths he p' hself
      rw [hcount, if_pos rfl] at hwidths
      omega
    · have := h.entries q (by rw [hcount]; omega)
      rw [hcount] at this
      rw [increment_int]
      push_cast at this
      split_ifs at this ⊢ <;> omega
    · have := h.widths he q (by rw [hcount]; omega)
      rw [hcount] at this
      rw [increment_nat]
      omega
  · rintro ⟨⟨hp, hroom, hwidth⟩, h⟩
    refine ⟨fun y hy => ?_, fun q hq => ?_, fun he q hq => ?_⟩
    · rcases List.mem_cons.mp hy with rfl | hy
      · exact ⟨p, hp, hx⟩
      · exact h.allowed y hy
    · rw [hcount] at hq ⊢
      have hrest := h.entries q
      rw [increment_int] at hrest
      by_cases hpq : p = q
      · subst hpq
        simp only [if_true] at hrest ⊢
        rcases Nat.eq_zero_or_pos (placed xs f p) with h0 | hpos
        · rw [h0]
          push_cast
          omega
        · have := hrest hpos
          push_cast
          omega
      · simp only [if_neg hpq, add_zero] at hrest hq ⊢
        exact hrest hq
    · rw [hcount] at hq ⊢
      have hrest := h.widths he q
      rw [increment_nat] at hrest
      by_cases hpq : p = q
      · subst hpq
        have hroom := hwidth he
        simp only [if_true] at hrest ⊢
        rcases Nat.eq_zero_or_pos (placed xs f p) with h0 | hpos
        · omega
        · have := hrest hpos
          omega
      · simp only [if_neg hpq, Nat.add_zero] at hrest hq ⊢
        exact hrest hq

/-! ### What the search finds -/

/-- The uops have distinct ids. -/
def Apart (xs : List ExecutionUop) : Prop := xs.Pairwise fun x y => x.id ≠ y.id

/-- The search leaves alone what it does not place. -/
theorem places_frame : ∀ {xs : List ExecutionUop} {t t' : Search}, (assignMoves E enforce).Places xs t t' →
    ∀ u, (∀ x ∈ xs, x.id ≠ u) → t'.result u = t.result u
  | [], _, _, h, _, _ => by rw [Moves.places_nil.mp h]
  | x :: xs, t, _, hplaces, u, h => by
    obtain ⟨p, -, rest⟩ := Moves.places_cons.mp hplaces
    rw [places_frame rest u fun y hy => h y (List.mem_cons_of_mem _ hy)]
    show Function.update t.result x.id (some p) u = t.result u
    exact Function.update_of_ne (Ne.symm (h x List.mem_cons_self)) _ _

/-- The placements are the assignments. -/
theorem feasible_of_places : ∀ {xs : List ExecutionUop} {t t' : Search}, Apart xs →
    (assignMoves E enforce).Places xs t t' → Feasible E enforce xs t.occupancy t.enqueues t'.result
  | [], _, _, _, _ => ⟨by simp, by simp [placed], by simp [placed]⟩
  | x :: xs, t, t', hn, h => by
    obtain ⟨hx, hxs⟩ := List.pairwise_cons.mp hn
    obtain ⟨p, choice, rest⟩ := Moves.places_cons.mp h
    have hresult : t'.result x.id = some p := by
      rw [places_frame rest x.id fun y hy => (hx y hy).symm]
      exact Function.update_self _ _ _
    exact (feasible_cons hresult).mpr ⟨choice, feasible_of_places hxs rest⟩

theorem places_of_feasible : ∀ {xs : List ExecutionUop} {t : Search},
    Feasible E enforce xs t.occupancy t.enqueues f → ∃ t', (assignMoves E enforce).Places xs t t'
  | [], t, _ => ⟨t, .nil t⟩
  | x :: xs, t, h => by
    obtain ⟨p, -, hp⟩ := h.allowed x List.mem_cons_self
    obtain ⟨hchoice, hrest⟩ := (feasible_cons hp).mp h
    obtain ⟨t', ht'⟩ := places_of_feasible (t := (assignMoves E enforce).place t x p) hrest
    exact ⟨t', .cons p hchoice ht'⟩

/-- Only the uops matter, not their order. -/
theorem Feasible.perm {ys : List ExecutionUop} {occupancy : String → ℤ} {enqueues : String → ℕ}
    (h : Feasible E enforce xs occupancy enqueues f) (hperm : xs.Perm ys) :
    Feasible E enforce ys occupancy enqueues f := by
  have hplaced : ∀ p, placed ys f p = placed xs f p := fun p => (hperm.countP_eq _).symm
  refine ⟨fun x hx => h.allowed x (hperm.mem_iff.mpr hx), fun p => ?_, fun he p => ?_⟩
  · rw [hplaced]
    exact h.entries p
  · rw [hplaced]
    exact h.widths he p

/-- The uops of a list that may use some partition. -/
def needing (E : Config) (us : List Id) : List ExecutionUop :=
  (us.map E.uop).filter fun x => !x.schedulerPartitionChoices.isEmpty

theorem Chunked.apart (h : Chunked E us) : Apart (partitioned E us) :=
  List.pairwise_map.mp h.ids_nodup

/-! ### The search of the run -/

/-- What the search that keeps the earlier states finds is what `assign` finds. -/
theorem find_eq_assign : ∀ (xs : List ExecutionUop) (t : Search), (assignMoves E enforce).find xs t =
    (assign E enforce xs t.occupancy t.enqueues).map fun a => a.foldl (fun t e =>
      ⟨increment t.occupancy e.2, increment t.enqueues e.2, Function.update t.result e.1 (some e.2)⟩) t
  | [], _ => rfl
  | x :: xs, t => by
    unfold Moves.find assign
    rw [List.map_findSome?]
    refine congrArg (List.findSome? · _) (funext fun p => ?_)
    rw [find_eq_assign xs, Function.comp_apply, Option.map_map]
    rfl

theorem foldl_result (u : Id) : ∀ (a : List (Id × String)) (t : Search),
    (a.foldl (fun t e => Search.mk (increment t.occupancy e.2) (increment t.enqueues e.2)
      (Function.update t.result e.1 (some e.2))) t).result u = (assigned a u).or (t.result u)
  | [], _ => rfl
  | (k, p) :: a, t => by
    rw [List.foldl_cons, foldl_result u a]
    unfold assigned
    rw [List.reverse_cons, List.lookup_append, Option.or_assoc]
    congr 1
    by_cases hu : u = k
    · subst hu
      simp
    · simp [hu, List.lookup_cons, beq_false_of_ne hu]

/-- **The search in place returns what the search of the run does.** -/
theorem plan_eq_planAssignment (s : Sched) (c : DispatchCycle) (hus : Chunked E us) :
    planPartitionAssignment E (s, c) enforce us =
      .ok ((s, c), (planAssignment E s enforce c.partitionEnqueues us).map assigned) := by
  have hreversible : (assignMoves E enforce).Reversible _ _ := assignMoves_reversible
  unfold planPartitionAssignment planAssignment
  dsimp only
  rw [hreversible.search_eq_find hus.apart fun _ _ => rfl, find_eq_assign]
  cases assign E enforce (partitioned E us) s.partitionOccupancy c.partitionEnqueues with
  | none => rfl
  | some a =>
    refine congrArg (fun f => Except.ok ((s, c), some f)) (funext fun u => ?_)
    exact (foldl_result u a _).trans (Option.or_none ..)

/-! ### The assignment -/

/-- **The assignment is exact**: the call raises nothing and leaves the engine's counters as they
were; it returns an assignment just when there is one of each uop that needs a partition to one
it may use, within the remaining entries and enqueue widths, and what it returns is one. -/
theorem plan_exact (E : Config) (r : Sched × DispatchCycle) (enforce : Bool) (us : List Id) (hus : Chunked E us) :
    ∃ found, planPartitionAssignment E r enforce us = .ok (r, found) ∧
      (found.isSome ↔
        ∃ f, Feasible E enforce (needing E us) r.1.partitionOccupancy r.2.partitionEnqueues f) ∧
      ∀ f ∈ found, Feasible E enforce (needing E us) r.1.partitionOccupancy r.2.partitionEnqueues f ∧
        ∀ u, u ∉ us → f u = none := by
  let t : Search := ⟨r.1.partitionOccupancy, r.2.partitionEnqueues, fun _ => none⟩
  have hperm : (partitioned E us).Perm (needing E us) := partitioned_perm us
  have hreversible : (assignMoves E enforce).Reversible _ _ := assignMoves_reversible
  have hspec := hreversible.search_spec (s := t) hus.apart fun _ _ => rfl
  rcases hspec with ⟨t', hsearch, hplaces⟩ | ⟨hsearch, hnone⟩
  · have hfound : planPartitionAssignment E r enforce us = .ok (r, some t'.result) := by
      unfold planPartitionAssignment
      exact ok_bind.mpr ⟨_, hsearch, rfl⟩
    have hfeasible := (feasible_of_places hus.apart hplaces).perm hperm
    refine ⟨_, hfound, ⟨fun _ => ⟨_, hfeasible⟩, fun _ => rfl⟩, fun f hf => ?_⟩
    obtain rfl := Option.some.inj hf
    refine ⟨hfeasible, fun u hu => places_frame hplaces u fun x hx => ?_⟩
    obtain ⟨v, hv, rfl⟩ := List.mem_map.mp (List.mem_of_mem_filter (hperm.mem_iff.mp hx))
    rw [hus.known v hv]
    rintro rfl
    exact hu hv
  · have hfound : planPartitionAssignment E r enforce us = .ok (r, none) := by
      unfold planPartitionAssignment
      exact ok_bind.mpr ⟨_, hsearch, rfl⟩
    refine ⟨none, hfound, ⟨by simp, ?_⟩, by simp⟩
    rintro ⟨f, hf⟩
    obtain ⟨t', ht'⟩ := places_of_feasible (t := t) (hf.perm hperm.symm)
    exact absurd ht' (hnone t')

/-! ### Uops that need no partition, and uops that are listed twice -/

/-- The uops `0` and `1` may both enter `left`; the other choices are `right` for one and `side` for the other. -/
def Sample.sharedTrace : BoundTrace where
  profileId := "sample"
  ticksPerCycle := 1
  macros := [{ id := 0, sequence := 0, uopIds := [0, 1], decodedMacroOps := 1, retireMacroOps := 1,
               usesVectorScheduler := false, usesLoadQueue := false, usesStoreQueue := false }]
  uops := [{ VectorSim.Sample.uop with
      schedulerPartitionChoices := ["left", "right"], executionUnitChoices := ["leftPipe", "rightPipe"] },
    { VectorSim.Sample.uop with
      id := 1, sequence := 1, schedulerPartitionChoices := ["left", "side"],
      executionUnitChoices := ["leftPipe", "sidePipe"] }]
  resources := [("alu", 1)]

def Sample.sharedProfile : EngineProfile := { VectorSim.Sample.profile with
  partitions := [⟨"left", .scalar, some 2, some 2⟩, ⟨"right", .scalar, some 3, some 2⟩, ⟨"side", .scalar, some 1, some 1⟩]
  units := [("leftPipe", { schedulerPartition := "left", functionalUnits := ["alu"] }),
    ("rightPipe", { schedulerPartition := "right", functionalUnits := ["alu"] }),
    ("sidePipe", { schedulerPartition := "side", functionalUnits := ["alu"] })] }

/-- One entry of `left` is free, one of `right` and none of `side`, and `right` has been entered once in the cycle. -/
def Sample.crowded (E : Config) : Sched × DispatchCycle :=
  ({ schedInit E with
      partitionOccupancy := fun p => if p = "left" then 1 else if p = "right" then 2 else if p = "side" then 1 else 0 },
    { partitionEnqueues := fun p => if p = "right" then 1 else 0 })

/-- The first uop is put into `left`, which is less full, the second then fits nowhere, and the first is moved. -/
theorem plan_exact_sample : ∃ E, init Sample.sharedTrace Sample.sharedProfile false .cold none false = .ok E ∧
    Chunked E [0, 1] ∧ ∃ found,
      planPartitionAssignment E (Sample.crowded E) true [0, 1] = .ok (Sample.crowded E, found) ∧
      found.map (fun f => (f 0, f 1)) = some (some "right", some "left") ∧
      (found.isSome ↔ ∃ f, Feasible E true (needing E [0, 1]) (Sample.crowded E).1.partitionOccupancy
        (Sample.crowded E).2.partitionEnqueues f) ∧
      ∀ f ∈ found, Feasible E true (needing E [0, 1]) (Sample.crowded E).1.partitionOccupancy
        (Sample.crowded E).2.partitionEnqueues f ∧ ∀ u, u ∉ [0, 1] → f u = none := by
  obtain ⟨E, hE⟩ := exists_ok (x := init Sample.sharedTrace Sample.sharedProfile false .cold none false)
    (by decide +kernel)
  have hids : ((init Sample.sharedTrace Sample.sharedProfile false .cold none false).map fun E =>
      ((E.uop 0).id, (E.uop 1).id)).toOption = some (0, 1) := by
    decide +kernel
  have hmoved : ((init Sample.sharedTrace Sample.sharedProfile false .cold none false).map fun E =>
      (planPartitionAssignment E (Sample.crowded E) true [0, 1]).toOption.bind fun r =>
        r.2.map fun f => (f 0, f 1)).toOption = some (some (some "right", some "left")) := by
    decide +kernel
  rw [hE] at hids hmoved
  obtain ⟨hzero, hone⟩ := Prod.mk.inj (Option.some.inj hids)
  have hus : Chunked E [0, 1] := ⟨by simp, by simp [hzero, hone]⟩
  obtain ⟨found, hfound, hexact⟩ := plan_exact E (Sample.crowded E) true [0, 1] hus
  refine ⟨E, hE, hus, found, hfound, ?_, hexact⟩
  simpa [hfound, Except.map, Except.toOption] using hmoved

/-- A uop that may use no partition is passed over: an assignment is returned, though none puts
the uop into a partition it may use. For a list that repeats a uop the search raises. -/
theorem plan_passes_over : (∃ E, init (VectorSim.Sample.trace [0]) VectorSim.Sample.profile false .cold none false = .ok E ∧
      Chunked E [0] ∧ (∃ f, planPartitionAssignment E (schedInit E, {}) true [0] = .ok ((schedInit E, {}), some f)) ∧
        ¬ ∃ f, Feasible E true ([0].map E.uop) (fun _ => 0) (fun _ => 0) f) ∧
    ∃ E, init Sample.fusedTrace Sample.narrowProfile false .cold none false = .ok E ∧
      planPartitionAssignment E (schedInit E, {}) false [0, 0, 0, 0, 1] = .error 0 := by
  constructor
  · obtain ⟨E, hE⟩ := exists_ok
      (x := init (VectorSim.Sample.trace [0]) VectorSim.Sample.profile false .cold none false) (by decide +kernel)
    have hfacts : ((init (VectorSim.Sample.trace [0]) VectorSim.Sample.profile false .cold none false).map fun E =>
        ((E.uop 0).id, (E.uop 0).schedulerPartitionChoices)).toOption = some (0, []) := by
      decide +kernel
    rw [hE] at hfacts
    obtain ⟨hid, hchoices⟩ := Prod.mk.inj (Option.some.inj hfacts)
    have hpartitioned : partitioned E [0] = [] := by
      simp [partitioned, hchoices]
    refine ⟨E, hE, ⟨by simp, by simpa using hid⟩, ⟨fun _ => none, ?_⟩, ?_⟩
    · unfold planPartitionAssignment
      rw [hpartitioned]
      rfl
    · rintro ⟨f, hf⟩
      obtain ⟨p, hp, -⟩ := hf.allowed (E.uop 0) (by simp)
      rw [hchoices] at hp
      exact List.not_mem_nil hp
  · obtain ⟨E, hE⟩ := exists_ok (x := init Sample.fusedTrace Sample.narrowProfile false .cold none false)
      (by decide +kernel)
    have hraises : ((init Sample.fusedTrace Sample.narrowProfile false .cold none false).map fun E =>
        errorOf ((planPartitionAssignment E (schedInit E, {}) false [0, 0, 0, 0, 1]).map (·.2.isSome))).toOption =
          some (some 0) := by
      decide +kernel
    rw [hE] at hraises
    have hraises := errorOf_eq.mp (Option.some.inj hraises)
    refine ⟨E, hE, ?_⟩
    cases h : planPartitionAssignment E (schedInit E, {}) false [0, 0, 0, 0, 1] with
    | ok r => rw [h] at hraises; cases hraises
    | error u => rw [h] at hraises; cases hraises; rfl

end Xsai
end VectorSim
