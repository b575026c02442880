/-
# How the uops of a trace are laid out

The binder lists the uops macro-op by macro-op and numbers them by their places
(`bind_laidOut`), and the expander of the XSAI engine, which groups them, does so again
(`schedulerTrace_laidOut`). With edges that point back, such a trace is in program order.
-/
import VectorSim.Bound
import VectorSim.EpochSafety
import VectorSim.Backend.Calm

namespace VectorSim

open Checked

/-- The uops stand in the order of their macro-ops and of their sequence numbers. -/
structure LaidOut (T : BoundTrace) : Prop where
  listed : T.uops.map (·.id) = T.macros.flatMap (·.uopIds)
  rising : T.uops.Pairwise fun x y => x.sequence < y.sequence

/-- The edges of the trace point to earlier uops. -/
def PointsBack (T : BoundTrace) : Prop :=
  ∀ x ∈ T.uops, ∀ d ∈ x.dependencies ++ x.issueAfterUop.toList, ∃ y ∈ T.uop? d, y.sequence < x.sequence

instance (T : BoundTrace) : Decidable (PointsBack T) := by
  unfold PointsBack; infer_instance

theorem LaidOut.inProgramOrder {T : BoundTrace} (h : LaidOut T) (hback : PointsBack T) : InProgramOrder T where
  listed := h.listed
  back {k x} hx d hd := by
    obtain ⟨y, hy, hlt⟩ := hback x (List.mem_of_getElem? hx) d hd
    obtain ⟨hym, rfl⟩ := T.uop?_mem hy
    obtain ⟨j, hj⟩ := List.mem_iff_getElem?.mp hym
    exact ⟨j, place_lt h.rising hj hx hlt, y, hj, rfl⟩

theorem LaidOut.sequenced {T : BoundTrace} (h : LaidOut T) (hback : PointsBack T) : Xsai.Sequenced T where
  increasing := h.rising
  dependencies x hx d hd y hy := by
    obtain ⟨y', hy', hlt⟩ := hback x hx d (List.mem_append_left _ hd)
    obtain rfl := Option.mem_unique hy hy'
    exact hlt
  follows x hx p hp y hy := by
    obtain ⟨y', hy', hlt⟩ := hback x hx p (List.mem_append_right _ (Option.mem_toList.mpr hp))
    obtain rfl := Option.mem_unique hy hy'
    exact hlt

/-! ### The binder -/

section Binder

variable {P : Profile}

theorem bindInstruction_laidOut {bound : List Binding} {i : Instruction} {b : Binding}
    (h : bindInstruction P bound i = .ok b) : b.op.uopIds = b.uops.map (·.id) ∧
      b.uops.map (·.sequence) = (List.range b.uops.length).map ((bound.flatMap (·.uops)).length + ·) := by
  obtain ⟨c, -, h⟩ := ok_bind.mp h
  obtain ⟨semantics, -, h⟩ := ok_bind.mp h
  obtain ⟨d, -, h⟩ := ok_bind.mp h
  obtain ⟨entries, -, h⟩ := ok_bind.mp h
  obtain ⟨uops, huops, h⟩ := ok_bind.mp h
  obtain ⟨pairs, hpairs, h⟩ := ok_bind.mp h
  obtain ⟨op, hop, h⟩ := ok_bind.mp h
  cases h
  obtain ⟨_, -, hop⟩ := ok_bind.mp hop
  obtain ⟨_, -, hop⟩ := ok_bind.mp hop
  cases hop
  have hlength : entries.length = uops.length := by
    have := (mapM_ok.mp huops).length_eq
    rwa [List.length_zipIdx] at this
  -- the links change neither the ids nor the sequence numbers
  have hlinked : pairs.map (fun p => (p.2.id, p.2.sequence)) = uops.map fun x => (x.id, x.sequence) := by
    have hsame : List.Forall₂ (· = ·) ((entries.zip uops).map fun p => (p.2.id, p.2.sequence))
        (pairs.map fun p => (p.2.id, p.2.sequence)) := by
      rw [List.forall₂_map_left_iff, List.forall₂_map_right_iff]
      refine (mapM_ok.mp hpairs).imp fun p q hq => ?_
      obtain ⟨_, -, hq⟩ := ok_bind.mp hq
      obtain ⟨_, -, hq⟩ := ok_bind.mp hq
      obtain ⟨_, -, hq⟩ := ok_bind.mp hq
      obtain ⟨_, -, hq⟩ := ok_bind.mp hq
      obtain ⟨_, -, hq⟩ := ok_bind.mp hq
      cases hq
      rfl
    rw [List.forall₂_eq_eq_eq] at hsame
    have hzip : (entries.zip uops).map (·.2) = uops := List.map_snd_zip hlength.ge
    rw [← hsame, ← congrArg (List.map fun x : ExecutionUop => (x.id, x.sequence)) hzip, List.map_map]
    rfl
  have hids : uops.map (·.id) = pairs.map (·.2.id) := by
    have := congrArg (List.map (·.1)) hlinked
    simpa [List.map_map, Function.comp_def] using this.symm
  have hsequences : pairs.map (·.2.sequence) = uops.map (·.sequence) := by
    have := congrArg (List.map (·.2)) hlinked
    simpa [List.map_map, Function.comp_def] using this
  have hcount : uops.map (·.sequence) = (entries.zipIdx.map (·.2)).map ((bound.flatMap (·.uops)).length + ·) := by
    have hnumbered : List.Forall₂ (· = ·) (entries.zipIdx.map fun e => (bound.flatMap (·.uops)).length + e.2)
        (uops.map (·.sequence)) := by
      rw [List.forall₂_map_left_iff, List.forall₂_map_right_iff]
      refine (mapM_ok.mp huops).imp fun e x hx => ?_
      obtain ⟨_, -, hx⟩ := ok_bind.mp hx
      obtain ⟨_, -, hx⟩ := ok_bind.mp hx
      obtain ⟨_, -, hx⟩ := ok_bind.mp hx
      obtain ⟨_, -, hx⟩ := ok_bind.mp hx
      obtain ⟨_, -, hx⟩ := ok_bind.mp hx
      obtain ⟨_, -, hx⟩ := ok_bind.mp hx
      cases hx
      rfl
    rw [List.forall₂_eq_eq_eq] at hnumbered
    rw [← hnumbered, List.map_map]
    rfl
  have hpairsLength : pairs.length = uops.length := by
    have := congrArg List.length hids
    simpa using this.symm
  refine ⟨?_, ?_⟩
  · show uops.map (·.id) = (pairs.map (·.2)).map (·.id)
    rw [hids, List.map_map]
    rfl
  · show (pairs.map (·.2)).map (·.sequence) = (List.range (pairs.map (·.2)).length).map _
    rw [List.map_map, List.length_map, hpairsLength]
    refine hsequences.trans (hcount.trans ?_)
    rw [List.zipIdx_map_snd, hlength, List.range_eq_range']

/-- **The binder lays its traces out so**: the sequence number of a uop is its place. -/
theorem bind_laidOut {source : List Instruction} {T : BoundTrace} (h : bind P source = .ok T) : LaidOut T := by
  obtain ⟨bound, hbound, h⟩ := ok_bind.mp h
  obtain ⟨resources, -, h⟩ := ok_bind.mp h
  cases h
  have hall : (∀ b ∈ bound, b.op.uopIds = b.uops.map (·.id)) ∧
      (bound.flatMap (·.uops)).map (·.sequence) = List.range (bound.flatMap (·.uops)).length := by
    refine foldlM_ok (P := fun bound : List Binding => (∀ b ∈ bound, b.op.uopIds = b.uops.map (·.id)) ∧
      (bound.flatMap (·.uops)).map (·.sequence) = List.range (bound.flatMap (·.uops)).length) hbound (by simp) ?_
    rintro i - before after ⟨hids, hsequences⟩ hstep
    obtain ⟨b, hb, hstep⟩ := ok_bind.mp hstep
    cases hstep
    obtain ⟨hid, hsequence⟩ := bindInstruction_laidOut hb
    refine ⟨fun b' hb' => ?_, ?_⟩
    · rcases List.mem_append.mp hb' with hb' | hb'
      · exact hids b' hb'
      · rw [List.mem_singleton.mp hb']
        exact hid
    · simp only [List.flatMap_append, List.flatMap_singleton, List.map_append, List.length_append, hsequences, hsequence]
      exact (List.range_add ..).symm
  obtain ⟨hids, hsequences⟩ := hall
  refine ⟨?_, ?_⟩
  · show (bound.flatMap (·.uops)).map (·.id) = (bound.map (·.op)).flatMap (·.uopIds)
    rw [List.map_flatMap, List.flatMap_map]
    exact List.flatMap_congr fun b hb => (hids b hb).symm
  · have hrise := List.pairwise_lt_range (n := (bound.flatMap (·.uops)).length)
    rw [← hsequences, List.pairwise_map] at hrise
    exact hrise

/-- A resource that a trace of the binder uses has a lane. -/
theorem bind_lanes {source : List Instruction} {T : BoundTrace} (h : bind P source = .ok T) :
    ∀ x ∈ T.uops, ∀ r ∈ x.resourceChoices, 0 < lookupD T.resources r 0 := by
  obtain ⟨bound, -, h⟩ := ok_bind.mp h
  obtain ⟨resources, hresources, h⟩ := ok_bind.mp h
  cases h
  have hnamed : List.Forall₂ (fun r e => e.1 = r ∧ 0 < e.2)
      (((bound.flatMap (·.uops)).flatMap (·.resourceChoices)).dedup.insertionSort (· ≤ ·)) resources := by
    refine (mapM_ok.mp hresources).imp fun r e he => ?_
    unfold resourceOf at he
    split at he
    · cases he
    · obtain ⟨capacity, -, he⟩ := ok_bind.mp he
      split at he
      · cases he
        exact ⟨rfl, capacity.pos⟩
      · obtain ⟨_, -, rfl⟩ := ok_map.mp he
        exact ⟨rfl, capacity.pos⟩
  have hlookup : ∀ {rs : List String} {es : List (String × ℕ)}, List.Forall₂ (fun r e => e.1 = r ∧ 0 < e.2) rs es →
      ∀ r ∈ rs, 0 < lookupD es r 0 := by
    intro rs es hall
    induction hall with
    | nil => simp
    | @cons r e rs es he _ ih =>
      intro q hq
      obtain ⟨k, v⟩ := e
      obtain ⟨rfl, hpos⟩ := he
      unfold lookupD at ih ⊢
      by_cases hqk : q = k
      · simpa [List.lookup_cons, hqk] using hpos
      · have := ih q ((List.mem_cons.mp hq).resolve_left hqk)
        simpa [List.lookup_cons, beq_false_of_ne hqk] using this
  intro x hx r hr
  refine hlookup hnamed r ?_
  rw [List.mem_insertionSort, List.mem_dedup]
  exact List.mem_flatMap.mpr ⟨x, hx, hr⟩

end Binder

/-! ### The expander -/

/-- **The trace that the XSAI engine schedules is laid out as the one it is given.** -/
theorem Xsai.schedulerTrace_laidOut {T T' : BoundTrace} {P : EngineProfile} {expand : Bool} (hlaid : LaidOut T)
    (h : schedulerTrace T P expand = .ok T') : LaidOut T' := by
  unfold schedulerTrace at h
  split at h
  · cases h
  · next hvalid =>
    split at h
    · split at h
      · cases h
      · next slots hslots =>
        dsimp only at h
        split at h
        · cases h
        · cases h
          exact ⟨Expander.materialize_listed (wellFormed_of_valid hvalid) hslots, Expander.materialize_rising slots⟩
    · cases h
      exact hlaid

end VectorSim
