/-
# When the expander returns

`exists_groupsForMacro` says when the expander makes the groups of a macro-op: a chain
of one part, and as many parts of an access or another vector operation as it counts
(`PartsExpected`). Of a valid trace nothing else can stop it (`exists_expand`), and then
the flows of an access are its parts, in order, with all their uops (`flows_are_parts`).
-/
import VectorSim.SemanticTraces

namespace VectorSim

open Checked

namespace Expander

variable {T : BoundTrace} {P : EngineProfile}

/-! ### When the entries of a macro-op are made -/

/-- The expander makes a chain of the instruction: it configures the vectors, or reduces one. -/
def IsChain (i : Instruction) : Prop := .vectorConfig ∈ i.semanticKinds ∨ i.semanticKinds.any (·.isReduction)

/-- A vector load or store: the expander makes flows of it. -/
def IsVectorAccess (i : Instruction) : Prop := ¬ IsChain i ∧ i.memory.isSome ∧ i.semanticKinds.any isMemoryKind

/-- The parts of so many bits in registers of `width` bits. -/
def partsOfBits (bits width : ℕ) : ℕ := max 1 ((bits + width - 1) / width)

/-- What the expander asks of the parts of an instruction: that a chain is of one part, and that there
are as many of an access or of another vector operation as it counts. -/
structure PartsExpected (width : PositiveParam) (i : Instruction) (onePart : Prop) (inParts : ℕ → Prop) : Prop where
  chain : IsChain i → onePart
  access : ¬ IsChain i → ∀ a ∈ i.memory, i.semanticKinds.any isMemoryKind →
    ∃ w ∈ width, inParts (partsOfBits (i.activeVectorBits.getD (a.bytes * 8)) w)
  compute : ¬ IsChain i → ¬ (i.memory.isSome ∧ i.semanticKinds.any isMemoryKind) → ∀ state ∈ i.vectorState,
    i.semanticKinds.any (·.isVector) → inParts (lmulParts state.lmul)

theorem PartsExpected.congr {width : PositiveParam} {i : Instruction} {one one' : Prop} {parts parts' : ℕ → Prop}
    (hone : one ↔ one') (hparts : ∀ n, parts n ↔ parts' n) :
    PartsExpected width i one parts ↔ PartsExpected width i one' parts' := by
  obtain rfl : one = one' := propext hone
  obtain rfl : parts = parts' := funext fun n => propext (hparts n)
  exact Iff.rfl

/-- The uops are of one part, or all of none. -/
def SamePart (execution : List ExecutionUop) : Prop := ∀ x ∈ execution, ∀ y ∈ execution, x.partIndex = y.partIndex

/-- The part count of the uops is one number where they have a part. -/
def SameCount (execution : List ExecutionUop) : Prop :=
  ∃ count : Option ℕ, ∀ x ∈ execution, x.partCount = if x.partIndex.isSome then count else none

theorem SamePart.counts {execution group : List ExecutionUop} (h : SameCount execution) (hsub : group ⊆ execution)
    (hpart : SamePart group) : ∀ x ∈ group, ∀ y ∈ group, x.partCount = y.partCount := by
  obtain ⟨count, hcount⟩ := h
  intro x hx y hy
  rw [hcount x (hsub hx), hcount y (hsub hy), hpart x hx y hy]

theorem exists_singleValue (values : List (Option ℕ)) (m : Id) (field : String) :
    (∃ v, singleValue values m field = .ok v) ↔ ∀ a ∈ values, ∀ b ∈ values, a = b := by
  constructor
  · rintro ⟨v, hv⟩ a ha b hb
    rw [(singleValue_ok hv).1 a ha, (singleValue_ok hv).1 b hb]
  · intro h
    unfold singleValue
    split
    · exact ⟨_, rfl⟩
    · exact ⟨_, rfl⟩
    · next hnil hone =>
      -- two values that differ
      exfalso
      have hn := List.nodup_dedup values
      cases hl : values.dedup with
      | nil => exact hnil hl
      | cons a rest =>
        cases rest with
        | nil => exact hone a hl
        | cons b rest =>
          have ha : a ∈ values := List.mem_dedup.mp (by rw [hl]; simp)
          have hb : b ∈ values := List.mem_dedup.mp (by rw [hl]; simp)
          rw [hl, h a ha b hb] at hn
          simp at hn

/-- The groups have entries where each is of one part and one count. -/
theorem exists_slotsOf {m : MacroOp} {execution : List ExecutionUop} :
    ∀ {gs : List (Group × ℕ)} {previous : Option Id}, (∃ slots, slotsOf m execution previous gs = .ok slots) ↔
      ∀ g ∈ gs, SamePart g.1.uops ∧ ∀ x ∈ g.1.uops, ∀ y ∈ g.1.uops, x.partCount = y.partCount
  | [], _ => by simp [slotsOf]
  | g :: gs, previous => by
    have hslot : (∃ s, slotOf m execution previous g = .ok s) ↔ SamePart g.1.uops ∧
        ∀ x ∈ g.1.uops, ∀ y ∈ g.1.uops, x.partCount = y.partCount := by
      have hindex := exists_singleValue (g.1.uops.map (·.partIndex)) m.id "part_index"
      have hcount := exists_singleValue (g.1.uops.map (·.partCount)) m.id "part_count"
      simp only [List.forall_mem_map] at hindex hcount
      unfold SamePart
      rw [← hindex, ← hcount]
      constructor
      · rintro ⟨s, hs⟩
        obtain ⟨index, hi, hs⟩ := ok_bind.mp hs
        obtain ⟨count, hc, -⟩ := ok_bind.mp hs
        exact ⟨⟨index, hi⟩, count, hc⟩
      · rintro ⟨⟨index, hi⟩, count, hc⟩
        exact ⟨_, ok_bind.mpr ⟨index, hi, ok_bind.mpr ⟨count, hc, rfl⟩⟩⟩
    rw [List.forall_mem_cons, ← hslot]
    constructor
    · rintro ⟨slots, h⟩
      obtain ⟨slot, hs, h⟩ := ok_bind.mp h
      obtain ⟨rest, hrest, -⟩ := ok_bind.mp h
      exact ⟨⟨slot, hs⟩, exists_slotsOf.mp ⟨rest, hrest⟩⟩
    · rintro ⟨⟨slot, hs⟩, hall⟩
      obtain ⟨rest, hrest⟩ : ∃ rest,
          slotsOf m execution (if g.1.chain then some slot.id else previous) gs = .ok rest := exists_slotsOf.mpr hall
      exact ⟨_, ok_bind.mpr ⟨slot, hs, ok_bind.mpr ⟨rest, hrest, rfl⟩⟩⟩

/-- How many part indices the uops have. -/
def numParts (execution : List ExecutionUop) : ℕ := (execution.filterMap (·.partIndex)).dedup.length

theorem groupsByPart_length (execution : List ExecutionUop) :
    (groupsByPart execution).length = numParts execution := by
  unfold groupsByPart numParts
  rw [List.length_map, List.length_insertionSort]

/-- The groups of the parts, and of the uops of none, are of one part each. -/
theorem partition_samePart {a b : String} {execution : List ExecutionUop} :
    ∀ g ∈ prepGroups a execution ++ partGroups b execution, SamePart g.uops := by
  intro g hg x hx y hy
  rcases List.mem_append.mp hg with hg | hg
  · obtain ⟨z, -, rfl⟩ := List.mem_map.mp hg
    rw [List.mem_singleton.mp hx, List.mem_singleton.mp hy]
  · obtain ⟨p, hp, rfl⟩ := List.mem_map.mp hg
    obtain ⟨k, -, rfl⟩ := List.mem_map.mp hp
    rw [of_decide_eq_true (List.mem_filter.mp hx).2, of_decide_eq_true (List.mem_filter.mp hy).2]

theorem exists_syntheticSequence (role : String) {m : MacroOp} {execution : List ExecutionUop} (hne : execution ≠ [])
    (hm : 1 ≤ m.decodedMacroOps) : ∃ groups, syntheticSequence role m execution = .ok groups ∧
      ((∀ g ∈ groups, SamePart g.uops) ↔ SamePart execution) := by
  unfold syntheticSequence
  rw [if_neg hne]
  refine ⟨_, rfl, fun h => ?_, fun h g hg => ?_⟩
  · have hlast := h _ (List.mem_map_of_mem (a := m.decodedMacroOps - 1) (List.mem_range.mpr (by omega)))
    simpa using hlast
  · obtain ⟨k, -, rfl⟩ := List.mem_map.mp hg
    dsimp only
    split
    · exact h
    · intro x hx
      cases hx

/-- **The groups of a macro-op are made, of one part each**, just where the expander's counts are
met. -/
theorem exists_groupsForMacro {width : PositiveParam} {m : MacroOp} {i : Instruction} {execution : List ExecutionUop}
    (hne : execution ≠ []) (hm : 1 ≤ m.decodedMacroOps) :
    (∃ groups, groupsForMacro width m i execution = .ok groups ∧ ∀ g ∈ groups, SamePart g.uops) ↔
      PartsExpected width i (SamePart execution) (numParts execution = ·) := by
  have hchain : ∀ role, IsChain i → groupsForMacro width m i execution = syntheticSequence role m execution →
      ((∃ groups, groupsForMacro width m i execution = .ok groups ∧ ∀ g ∈ groups, SamePart g.uops) ↔
        PartsExpected width i (SamePart execution) (numParts execution = ·)) := by
    intro role hc he
    obtain ⟨groups, hgroups, hsame⟩ := exists_syntheticSequence role hne hm
    rw [he, hgroups]
    constructor
    · rintro ⟨groups', h, hall⟩
      cases h
      exact ⟨fun _ => hsame.mp hall, fun hno => absurd hc hno, fun hno => absurd hc hno⟩
    · exact fun h => ⟨groups, rfl, hsame.mpr (h.chain hc)⟩
  by_cases hconfig : .vectorConfig ∈ i.semanticKinds
  · exact hchain "vector-config" (.inl hconfig) (by unfold groupsForMacro; rw [if_pos hconfig])
  · by_cases hreduction : i.semanticKinds.any (·.isReduction) = true
    · exact hchain "vector-reduction" (.inr hreduction)
        (by unfold groupsForMacro; rw [if_neg hconfig, if_pos hreduction])
    · have hno : ¬ IsChain i := not_or.mpr ⟨hconfig, hreduction⟩
      unfold groupsForMacro
      rw [if_neg hconfig, if_neg hreduction]
      split
      · next a hmemory hkind =>
        have hcounted : PartsExpected width i (SamePart execution) (numParts execution = ·) ↔
            ∃ w ∈ width, numParts execution =
              partsOfBits (i.activeVectorBits.getD (a.bytes * 8)) w := by
          refine ⟨fun h => h.access hno a hmemory hkind,
            fun h => ⟨fun hc => absurd hc hno, fun _ a' ha' _ => ?_, fun _ hn => ?_⟩⟩
          · obtain rfl := Option.some.inj (hmemory.symm.trans ha')
            exact h
          · exact absurd ⟨by rw [hmemory]; rfl, hkind⟩ hn
        rw [hcounted]
        unfold vectorMemoryGroups
        cases width with
        | none => simp
        | some w =>
          simp only [groupsByPart_length, Option.mem_def, Option.some.injEq, exists_eq_left']
          split
          · next hdiffer => exact iff_of_false (fun ⟨_, h, _⟩ => by cases h) hdiffer
          · next hsame => exact iff_of_true ⟨_, rfl, partition_samePart⟩ (not_not.mp hsame)
      · next hother =>
        have hnone : ¬ (i.memory.isSome ∧ i.semanticKinds.any isMemoryKind = true) := by
          rintro ⟨hsome, hkind⟩
          obtain ⟨a, ha⟩ := Option.isSome_iff_exists.mp hsome
          exact hother a ha hkind
        have haccess : ∀ a ∈ i.memory, i.semanticKinds.any isMemoryKind = true → False :=
          fun a ha hkind => hother a ha hkind
        split
        · next state hstate hvector =>
          have hcounted : PartsExpected width i (SamePart execution) (numParts execution = ·) ↔
              numParts execution = lmulParts state.lmul := by
            refine ⟨fun h => h.compute hno hnone state hstate hvector,
              fun h => ⟨fun hc => absurd hc hno, fun _ a ha hkind => (haccess a ha hkind).elim,
                fun _ _ state' hstate' _ => ?_⟩⟩
            obtain rfl := Option.some.inj (hstate.symm.trans hstate')
            exact h
          rw [hcounted]
          unfold vectorComputeGroups
          rw [groupsByPart_length]
          split
          · next hdiffer => exact iff_of_false (fun ⟨_, h, _⟩ => by cases h) hdiffer
          · next hsame => exact iff_of_true ⟨_, rfl, partition_samePart⟩ (not_not.mp hsame)
        · next hscalar =>
          refine iff_of_true ⟨_, rfl, fun g hg x hx y hy => ?_⟩
            ⟨fun hc => absurd hc hno, fun _ a ha hkind => (haccess a ha hkind).elim,
              fun _ _ state hstate hvector => (hscalar state hstate hvector).elim⟩
          obtain ⟨z, -, rfl⟩ := List.mem_map.mp hg
          rw [List.mem_singleton.mp hx, List.mem_singleton.mp hy]

/-- The entries of a macro-op are made just where the expander's counts are met. -/
theorem exists_slotsForMacro {width : PositiveParam} {m : MacroOp} {i : Instruction}
    (hi : T.source.find? (·.id = m.id) = some i) (hne : executionOf T m ≠ []) (hm : 1 ≤ m.decodedMacroOps)
    (hcount : SameCount (executionOf T m)) :
    (∃ l, slotsForMacro T width m = .ok l) ↔ PartsExpected width i (SamePart (executionOf T m)) fun n =>
      numParts (executionOf T m) = n := by
  rw [← exists_groupsForMacro hne hm]
  unfold slotsForMacro
  rw [hi]
  constructor
  · rintro ⟨l, h⟩
    obtain ⟨groups, hgroups, h⟩ := ok_bind.mp h
    refine ⟨groups, hgroups, fun g hg => ?_⟩
    have hall := exists_slotsOf.mp ⟨l, h⟩
    rw [← List.zipIdx_map_fst 0 groups] at hg
    obtain ⟨g', hg', rfl⟩ := List.mem_map.mp hg
    exact (hall g' hg').1
  · rintro ⟨groups, hgroups, hsame⟩
    obtain ⟨l, hl⟩ : ∃ l, slotsOf m (executionOf T m) none groups.zipIdx = .ok l := by
      refine exists_slotsOf.mpr fun g hg => ?_
      have hin := List.fst_mem_of_mem_zipIdx hg
      exact ⟨hsame g.1 hin, SamePart.counts hcount (groupsForMacro_uops hgroups g.1 hin) (hsame g.1 hin)⟩
    exact ⟨l, ok_bind.mpr ⟨groups, hgroups, hl⟩⟩

/-! ### When the trace is expanded -/

/-- The groups of a macro-op divide its uops. -/
theorem groupsForMacro_nodup {width : PositiveParam} {m : MacroOp} {i : Instruction} {execution : List ExecutionUop}
    {groups : List Group} (h : groupsForMacro width m i execution = .ok groups) (hn : (execution.map (·.id)).Nodup) :
    ((groups.flatMap (·.uops)).map (·.id)).Nodup := by
  have hexecution : execution.Nodup := List.Nodup.of_map _ hn
  have hsub : ∀ g ∈ groups, g.uops ⊆ execution := fun g hg x hx => groupsForMacro_uops h g hg x hx
  -- equal ids are of equal uops, so that it is enough to divide these
  refine List.Nodup.map_on (fun x hx y hy he => ?_) ?_
  · obtain ⟨g, hg, hx⟩ := List.mem_flatMap.mp hx
    obtain ⟨g', hg', hy⟩ := List.mem_flatMap.mp hy
    exact List.inj_on_of_nodup_map hn (hsub g hg hx) (hsub g' hg' hy) he
  have hparts : ∀ {a b : String}, ((prepGroups a execution ++ partGroups b execution).flatMap (·.uops)).Nodup := by
    intro a b
    have hprep : (prepGroups a execution).flatMap (·.uops) = execution.filter (·.partIndex = none) := by
      unfold prepGroups
      rw [List.flatMap_map]
      exact List.flatMap_singleton' _
    have hindices : ((execution.filterMap (·.partIndex)).dedup.insertionSort (· ≤ ·)).Nodup :=
      (List.perm_insertionSort _ _).nodup_iff.mpr (List.nodup_dedup _)
    rw [List.flatMap_append, hprep]
    refine List.Nodup.append (hexecution.filter _) ?_ ?_
    · unfold partGroups groupsByPart
      rw [List.map_map, List.flatMap_map, List.nodup_flatMap]
      refine ⟨fun k _ => hexecution.filter _, hindices.imp fun {k k'} hne x hx hx' => hne ?_⟩
      have hk := of_decide_eq_true (List.mem_filter.mp hx).2
      have hk' := of_decide_eq_true (List.mem_filter.mp hx').2
      exact Option.some.inj (hk.symm.trans hk')
    · intro x hx hx'
      obtain ⟨g, hg, hx'⟩ := List.mem_flatMap.mp hx'
      obtain ⟨p, hp, rfl⟩ := List.mem_map.mp hg
      obtain ⟨k, -, rfl⟩ := List.mem_map.mp hp
      have hnone := of_decide_eq_true (List.mem_filter.mp hx).2
      rw [of_decide_eq_true (List.mem_filter.mp hx').2] at hnone
      cases hnone
  have hsequence : ∀ {role}, syntheticSequence role m execution = .ok groups → (groups.flatMap (·.uops)).Nodup := by
    intro role h
    unfold syntheticSequence at h
    split at h
    · cases h
    · cases h
      rw [List.flatMap_map, List.nodup_flatMap]
      refine ⟨fun k _ => ?_, List.nodup_range.imp fun {k k'} hne x hx hx' => hne ?_⟩
      · split
        · exact hexecution
        · exact List.nodup_nil
      · have hlast : ∀ {k}, x ∈ (if k = m.decodedMacroOps - 1 then execution else []) → k = m.decodedMacroOps - 1 := by
          intro k hx
          by_contra hno
          rw [if_neg hno] at hx
          cases hx
        rw [hlast hx, hlast hx']
  unfold groupsForMacro at h
  split at h
  · exact hsequence h
  · split at h
    · exact hsequence h
    · split at h
      · unfold vectorMemoryGroups at h
        split at h
        · cases h
        · split at h
          · cases h
          · cases h
            exact hparts
      · split at h
        · unfold vectorComputeGroups at h
          split at h
          · cases h
          · cases h
            exact hparts
        · cases h
          rw [List.flatMap_map]
          exact (List.flatMap_singleton' execution).symm ▸ hexecution

/-- What one macro-op gives: its uops, each in one entry. -/
theorem slotsForMacro_divides {width : PositiveParam} {m : MacroOp} {l : List Slot}
    (h : slotsForMacro T width m = .ok l) (hm : 1 ≤ m.decodedMacroOps) (hn : ((executionOf T m).map (·.id)).Nodup) :
    ((l.flatMap (·.uops)).map (·.id)).Nodup ∧ ∀ x, x ∈ l.flatMap (·.uops) ↔ x ∈ executionOf T m := by
  unfold slotsForMacro at h
  split at h
  · cases h
  · obtain ⟨groups, hgroups, h⟩ := ok_bind.mp h
    have huops : l.flatMap (·.uops) = groups.flatMap (·.uops) := by
      have hsame : List.Forall₂ (· = ·) (groups.map (·.uops)) (l.map (·.uops)) := by
        rw [← List.zipIdx_map_fst 0 groups, List.map_map, List.forall₂_map_left_iff, List.forall₂_map_right_iff]
        exact (slotsOf_made h).imp fun g s hs => hs.uops.symm
      rw [List.forall₂_eq_eq_eq] at hsame
      rw [List.flatMap_def, List.flatMap_def, hsame]
    rw [huops]
    refine ⟨groupsForMacro_nodup hgroups hn, fun x => ?_⟩
    rw [List.mem_flatMap]
    constructor
    · rintro ⟨g, hg, hx⟩
      exact groupsForMacro_uops hgroups g hg x hx
    · exact fun hx => groupsForMacro_covers hgroups hm hx

/-- The uops of a macro-op of a validated trace are found, in the order it lists them. -/
theorem executionOf_ids (hT : WellFormed T) {m : MacroOp} (hm : m ∈ T.macros) :
    (executionOf T m).map (·.id) = m.uopIds := by
  have hall := hT.owned m hm
  unfold executionOf
  generalize m.uopIds = us at hall ⊢
  induction us with
  | nil => rfl
  | cons u us ih =>
    obtain ⟨x, hx, -⟩ := hall u List.mem_cons_self
    have hrest := ih fun v hv => hall v (List.mem_cons_of_mem _ hv)
    rw [List.filterMap_cons_some hx, List.map_cons, (T.uop?_mem hx).2, hrest]

/-- **The expander returns just where it makes the entries of every macro-op**: of a valid trace no uop
has two owners, and none waits for a uop that has none. -/
theorem exists_expand (hvalid : validateBoundTrace T = .ok ()) (hn : ∀ m ∈ T.macros, m.uopIds.Nodup)
    (hprofile : T.profileId = P.id) :
    (∃ slots, expand T P = .ok slots) ↔ ∀ m ∈ T.macros, ∃ l, slotsForMacro T P.registerWidthBits m = .ok l := by
  have hT := wellFormed_of_valid hvalid
  have hdecoded := decoded_of_valid hvalid
  constructor
  · rintro ⟨slots, h⟩ m hm
    obtain ⟨byMacro, -, hslots, -⟩ := expand_byMacro h
    obtain ⟨l, -, hl⟩ := forall₂_left hslots hm
    exact ⟨l, hl⟩
  · intro hall
    obtain ⟨byMacro, hmap, hby⟩ := exists_mapM (R := fun m l => slotsForMacro T P.registerWidthBits m = .ok l)
      fun m hm => (hall m hm).imp fun l hl => ⟨hl, hl⟩
    have hdivides : List.Forall₂ (fun m l => m ∈ T.macros ∧ ((l.flatMap (·.uops)).map (·.id)).Nodup ∧
        ∀ x, x ∈ l.flatMap (·.uops) ↔ x ∈ executionOf T m) T.macros byMacro := by
      rw [List.forall₂_iff_zip] at hby ⊢
      refine ⟨hby.1, fun {m l} hml => ?_⟩
      have hm := (List.of_mem_zip hml).1
      exact ⟨hm, slotsForMacro_divides (hby.2 hml) (hdecoded m hm) (executionOf_ids hT hm ▸ hn m hm)⟩
    have hsingle : ((byMacro.flatten.flatMap (·.uops)).map (·.id)).Nodup := by
      rw [← List.flatMap_id', List.flatMap_assoc, List.map_flatMap, List.nodup_flatMap]
      refine ⟨fun l hl => ?_, ?_⟩
      · obtain ⟨m, -, -, hml, -⟩ := forall₂_right hdivides hl
        exact hml
      · have hdistinct := List.pairwise_map.mp hT.macroIds
        refine forall₂_pairwise hdivides hdistinct fun {m m' l l'} hl hl' hne u hu hu' => hne ?_
        obtain ⟨x, hx, rfl⟩ := List.mem_map.mp hu
        obtain ⟨y, hy, he⟩ := List.mem_map.mp hu'
        obtain ⟨hxT, hxm⟩ := mem_executionOf hT hl.1 ((hl.2.2 x).mp hx)
        obtain ⟨hyT, hym⟩ := mem_executionOf hT hl'.1 ((hl'.2.2 y).mp hy)
        rw [← hxm, ← hym, List.inj_on_of_nodup_map hT.uopIds hyT hxT he]
    have hcovers : ∀ x ∈ T.uops, (ownerOf byMacro.flatten x.id).isSome := by
      intro x hx
      obtain ⟨m, hm, -, -, hlisted⟩ := hT.mem_parent hx
      obtain ⟨l, hl, -, -, hin⟩ := forall₂_left hdivides hm
      obtain ⟨s, hs, hxs⟩ := List.mem_flatMap.mp ((hin x).mpr (List.mem_filterMap.mpr ⟨_, hlisted, hT.uop?_eq hx⟩))
      unfold ownerOf
      rw [Option.isSome_map, List.find?_isSome]
      exact ⟨s, List.mem_flatten.mpr ⟨l, hl, hs⟩, decide_eq_true (List.mem_map_of_mem hxs)⟩
    have huops : ∀ s ∈ byMacro.flatten, ∀ x ∈ s.uops, x ∈ T.uops := by
      intro s hs x hx
      obtain ⟨l, hl, hs⟩ := List.mem_flatten.mp hs
      obtain ⟨m, -, hm, -, hin⟩ := forall₂_right hdivides hl
      exact (mem_executionOf hT hm ((hin x).mp (List.mem_flatMap.mpr ⟨s, hs, hx⟩))).1
    have htranslated : ∀ s ∈ byMacro.flatten, ∀ e, translated byMacro.flatten s ≠ .error e := by
      intro s hs e he
      rcases error_bind.mp he with he | ⟨_, -, he⟩
      · obtain ⟨d, hd, he⟩ := mapM_error he
        obtain ⟨x, hx, hdx⟩ := List.mem_flatMap.mp (List.mem_dedup.mp (List.mem_of_mem_filter hd))
        obtain ⟨y, hy⟩ := Option.isSome_iff_exists.mp (hT.dependencies x (huops s hs x hx) d hdx)
        obtain ⟨hyT, rfl⟩ := T.uop?_mem hy
        split at he
        · cases he
        · next hnone =>
          have hsome := hcovers y hyT
          rw [hnone] at hsome
          cases hsome
      · cases he
    cases hexpand : expand T P with
    | ok slots => exact ⟨slots, rfl⟩
    | error e =>
      exfalso
      rcases error_bind.mp hexpand with h | ⟨_, -, h⟩
      · unfold check at h
        rw [if_pos hprofile] at h
        cases h
      · rcases error_bind.mp h with h | ⟨byMacro', hmap', h⟩
        · rw [hmap] at h
          cases h
        · obtain rfl := Except.ok.inj (hmap.symm.trans hmap')
          dsimp only at h
          split at h
          · next x hfind =>
            -- no uop is in two entries
            have hmany := List.find?_some hfind
            rw [decide_eq_true_eq] at hmany
            have hone := List.nodup_iff_count_le_one.mp hsingle x.id
            rw [List.count, List.countP_map] at hone
            exact absurd hone (not_le.mpr hmany)
          · obtain ⟨s, hs, h⟩ := mapM_error h
            rcases error_bind.mp h with h | ⟨_, -, h⟩
            · exact htranslated s hs e h
            · cases h

/-! ### The flows -/

/-- The flows of a macro-op, in the order of its entries: the uops of each. -/
def flowsOf (slots : List Slot) (m : Id) : List (List ExecutionUop) :=
  ((slots.filter (·.parentId = m)).filter (·.role = "vector-memory-flow")).map (·.uops)

/-- The flows of a macro-op are the parts that the binder made of it, in the order of their indices, with
all their uops. -/
def FlowsAreParts (T : BoundTrace) (slots : List Slot) (m : MacroOp) : Prop :=
  ∃ indices : List ℕ, indices.Pairwise (· < ·) ∧
    (∀ k, k ∈ indices ↔ ∃ x ∈ executionOf T m, x.partIndex = some k) ∧
    flowsOf slots m.id = indices.map fun k => (executionOf T m).filter (·.partIndex = some k)

theorem groupsForMacro_access {width : PositiveParam} {m : MacroOp} {i : Instruction} {execution : List ExecutionUop}
    {groups : List Group} (hi : IsVectorAccess i) (h : groupsForMacro width m i execution = .ok groups) :
    groups = prepGroups "vector-memory-prep" execution ++ partGroups "vector-memory-flow" execution := by
  obtain ⟨hchain, hmemory, hkind⟩ := hi
  obtain ⟨hconfig, hreduction⟩ := not_or.mp hchain
  unfold groupsForMacro at h
  rw [if_neg hconfig, if_neg hreduction] at h
  split at h
  · unfold vectorMemoryGroups at h
    split at h
    · cases h
    · split at h
      · cases h
      · cases h
        rfl
  · next hno =>
    obtain ⟨a, ha⟩ := Option.isSome_iff_exists.mp hmemory
    exact (hno a ha hkind).elim

/-- **The flows that the expander makes are the parts of the binder.** -/
theorem flows_are_parts (hT : WellFormed T) {slots : List (Slot × List Id)} (h : expand T P = .ok slots) {m : MacroOp}
    (hm : m ∈ T.macros) {i : Instruction} (hi : T.source.find? (·.id = m.id) = some i) (haccess : IsVectorAccess i) :
    FlowsAreParts T (slots.map (·.1)) m := by
  obtain ⟨byMacro, hfirst, hslots, -⟩ := expand_byMacro h
  -- the entries of the macro-op
  have hl : slotsForMacro T P.registerWidthBits m = .ok ((slots.map (·.1)).filter (·.parentId = m.id)) := by
    rw [hfirst]
    rw [byMacro_eq (hslots.imp fun m l hl => slotsForMacro_parent hl) hT.macroIds, List.forall₂_map_right_iff,
      List.forall₂_same] at hslots
    exact hslots m hm
  unfold slotsForMacro at hl
  rw [hi] at hl
  obtain ⟨groups, hgroups, hl⟩ := ok_bind.mp hl
  have hmade := slotsOf_made hl
  obtain rfl := groupsForMacro_access haccess hgroups
  have hrole : ∀ {gs : List (Group × ℕ)} {l : List Slot}, List.Forall₂ (Made m (executionOf T m)) gs l →
      (l.filter (·.role = "vector-memory-flow")).map (·.uops) =
        ((gs.map (·.1)).filter (·.role = "vector-memory-flow")).map (·.uops) := by
    intro gs l hall
    induction hall with
    | nil => rfl
    | cons hg _ ih =>
      rw [List.map_cons, List.filter_cons, List.filter_cons, hg.role]
      split
      · rw [List.map_cons, List.map_cons, ih, hg.uops]
      · exact ih
  have hprep : (prepGroups "vector-memory-prep" (executionOf T m)).filter (·.role = "vector-memory-flow") = [] := by
    rw [List.filter_eq_nil_iff]
    intro g hg
    obtain ⟨x, -, rfl⟩ := List.mem_map.mp hg
    simp
  have hflow : (partGroups "vector-memory-flow" (executionOf T m)).filter (·.role = "vector-memory-flow") =
      partGroups "vector-memory-flow" (executionOf T m) := by
    rw [List.filter_eq_self]
    intro g hg
    obtain ⟨x, -, rfl⟩ := List.mem_map.mp hg
    exact decide_eq_true rfl
  refine ⟨((executionOf T m).filterMap (·.partIndex)).dedup.insertionSort (· ≤ ·), ?_, fun k => ?_, ?_⟩
  · have hsorted := List.pairwise_insertionSort (· ≤ ·) ((executionOf T m).filterMap (·.partIndex)).dedup
    have hdistinct := (List.perm_insertionSort (· ≤ ·)
      ((executionOf T m).filterMap (·.partIndex)).dedup).nodup_iff.mpr (List.nodup_dedup _)
    exact (hsorted.and hdistinct).imp fun h => lt_of_le_of_ne h.1 h.2
  · rw [List.mem_insertionSort, List.mem_dedup, List.mem_filterMap]
  · unfold flowsOf
    rw [hrole hmade, List.zipIdx_map_fst, List.filter_append, hprep, hflow, List.nil_append]
    unfold partGroups groupsByPart
    rw [List.map_map, List.map_map]
    rfl

end Expander

end VectorSim
