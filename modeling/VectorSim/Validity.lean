/-
# Which traces of the binder are valid

The binder numbers the uops of an instruction, lists them in its macro-op and makes
edges to uops it has bound; the other fields it takes from a profile that was checked
(`Profile.Accepted`). What the validation can find in its traces is a part outside
the parts of its recipe, and uops of one instruction that wait for each other in a
circle: nothing checks the names in a recipe for one (`bind_valid_iff`).
-/
import VectorSim.Layout
import VectorSim.SemanticTraces
import VectorSim.StoreOrder

namespace VectorSim

open Checked

/-! ### What the checks of a profile promise -/

/-- A uop of the profile demands what it lists, and no demand is zero. -/
structure RecipeUop.Accepted (u : RecipeUop) : Prop where
  demands : ∀ d ∈ u.issueDomains, 1 ≤ lookupD u.issueDomainDemands d 1
  renames : ∀ a ∈ u.renameAllocations, 1 ≤ a.2

structure Recipe.Accepted (r : Recipe) : Prop where
  domains : r.dispatchDomains.Nodup
  demands : ∀ d ∈ r.dispatchDomains, 1 ≤ lookupD r.dispatchDomainDemands d 1
  renames : ∀ a ∈ r.renameAllocations, 1 ≤ a.2
  uops : ∀ u ∈ r.uops, u.Accepted

/-- The schema and the checks of `Profile` accept the profile. -/
structure Profile.Accepted (P : Profile) : Prop where
  recipes : ∀ r ∈ P.recipes, r.2.Accepted
  preps : ∀ rules ∈ P.decompositionRules, ∀ rule ∈ rules, ∀ variants ∈ rule.2.prepUops, ∀ v ∈ variants, v.2.Accepted
  units : (P.units.map (·.1)).Nodup

variable {P : Profile} {i : Instruction} {c : ChosenRecipe} {bound : List Binding} {b : Binding}

theorem chooseRecipe_accepted (hP : P.Accepted) (h : chooseRecipe P i = .ok c) : c.recipe.Accepted := by
  rcases chooseRecipe_cases h with ⟨key, hmem⟩ | ⟨u, hdomains, hrenames, hfallback⟩
  · exact hP.recipes _ hmem
  · rw [hfallback]
    refine ⟨List.nodup_nil, by simp, by simp, fun v hv => ?_⟩
    obtain rfl := List.mem_singleton.mp hv
    exact ⟨by simp [hdomains], by simp [hrenames]⟩

theorem IsPrep.accepted (hP : P.Accepted) {rule : DecompositionRule} {state : VectorState}
    (hrule : ruleFor P i = some (rule, state)) {e : Entry} (h : IsPrep rule e) : e.uop.Accepted := by
  obtain ⟨rules, hrules, hrule⟩ := Option.bind_eq_some_iff.mp hrule
  obtain ⟨state', -, hrule⟩ := Option.bind_eq_some_iff.mp hrule
  obtain ⟨category, -, hrule⟩ := Option.bind_eq_some_iff.mp hrule
  obtain ⟨rule', hlookup, hrule⟩ := Option.bind_eq_some_iff.mp hrule
  cases hrule
  obtain ⟨before, after, hsplit, -⟩ := List.lookup_eq_some_iff.mp hlookup
  obtain ⟨variants, hvariants, v, hv, hve⟩ := h.uop
  rw [← hve]
  exact hP.preps rules hrules (category, rule) (by rw [hsplit]; simp) variants hvariants v hv

/-! ### The entries of an instruction -/

/-- An entry is a recipe uop, which may wait for a prep uop besides. -/
def Entry.OfRecipe (c : ChosenRecipe) (e : Entry) : Prop := ∃ u ∈ c.recipe.uops, ∃ names, e.uop = { u with dependsOn := names }

/-- An entry of a recipe that is not decomposed is its uop. -/
theorem staticEntries_made {entries : List Entry} (h : staticEntries c = .ok entries) :
    List.Forall₂ (fun u e => e.uop = u ∧ e.partIndex = u.partIndex ∧ staticPartCount c u = .ok e.partCount)
      c.recipe.uops entries := by
  rw [← List.zipIdx_map_fst 0 c.recipe.uops, List.forall₂_map_left_iff]
  refine (mapM_ok.mp h).imp fun u e he => ?_
  obtain ⟨count, hcount, he⟩ := ok_bind.mp he
  cases he
  exact ⟨rfl, rfl, hcount⟩

theorem mem_partEntries {d : Decomposition} {part : ℕ} {e : Entry} (he : e ∈ partEntries c d part) :
    e.OfRecipe c ∧ e.partIndex = some part ∧ e.partCount = some d.parts := by
  obtain ⟨u, hu, rfl⟩ := List.mem_map.mp he
  refine ⟨⟨u.1, List.fst_mem_of_mem_zipIdx hu, ?_⟩, rfl, rfl⟩
  dsimp only
  split
  · exact ⟨u.1.dependsOn, rfl⟩
  · exact ⟨_, rfl⟩

/-- An entry is of the recipe, or a prep uop of the rule that decomposes it. -/
theorem entriesFor_mem {d : Option Decomposition} (hd : decompositionFor P i c = .ok d) {entries : List Entry}
    (h : entriesFor c d = .ok entries) {e : Entry} (he : e ∈ entries) :
    e.OfRecipe c ∨ ∃ rule state, ruleFor P i = some (rule, state) ∧ IsPrep rule e := by
  cases d with
  | none =>
    obtain ⟨u, hu, rfl, -⟩ := forall₂_right (staticEntries_made h) he
    exact .inl ⟨e.uop, hu, e.uop.dependsOn, rfl⟩
  | some d =>
    cases h
    rcases List.mem_append.mp he with he | he
    · obtain ⟨-, rule, state, w, hruled⟩ := decompositionFor_some hd
      exact .inr ⟨rule, state, hruled.found, hruled.prep e (Option.mem_toList.mp he)⟩
    · obtain ⟨part, -, he⟩ := List.mem_flatMap.mp he
      exact .inl (mem_partEntries he).1

/-- The entries of a layout are of accepted uops. -/
theorem layout_accepted (hP : P.Accepted) {entries : List Entry} (h : layout P i = .ok entries) :
    ∀ e ∈ entries, e.uop.Accepted := by
  obtain ⟨c, hc, h⟩ := ok_bind.mp h
  obtain ⟨d, hd, h⟩ := ok_bind.mp h
  intro e he
  rcases entriesFor_mem hd h he with ⟨u, hu, names, hue⟩ | ⟨rule, state, hrule, hprep⟩
  · have haccepted := (chooseRecipe_accepted hP hc).uops u hu
    rw [hue]
    exact ⟨haccepted.demands, haccepted.renames⟩
  · exact hprep.accepted hP hrule

/-- The entries that have a part are parts of equally many. -/
theorem layout_count {entries : List Entry} (h : layout P i = .ok entries) :
    ∃ count : Option ℕ, ∀ e ∈ entries, e.partCount = if e.partIndex.isSome then count else none := by
  obtain ⟨c, -, h⟩ := ok_bind.mp h
  obtain ⟨d, hd, h⟩ := ok_bind.mp h
  cases d with
  | none =>
    cases hdecomposed : c.recipe.decomposition with
    | none =>
      refine ⟨none, fun e he => ?_⟩
      obtain ⟨u, -, -, -, hcount⟩ := forall₂_right (staticEntries_made h) he
      unfold staticPartCount at hcount
      rw [hdecomposed] at hcount
      rw [← Except.ok.inj hcount]
      simp
    | some r =>
      refine ⟨r.parts.map (·.val), fun e he => ?_⟩
      obtain ⟨u, -, -, hpart, hcount⟩ := forall₂_right (staticEntries_made h) he
      unfold staticPartCount at hcount
      rw [hdecomposed] at hcount
      rw [hpart]
      cases hu : u.partIndex with
      | none =>
        rw [hu] at hcount
        exact (Except.ok.inj hcount).symm
      | some k =>
        rw [hu] at hcount
        obtain ⟨n, hn, hcount⟩ := ok_map.mp hcount
        cases hr : r.parts with
        | none => rw [hr] at hn; cases hn
        | some n' =>
          rw [hr] at hn
          cases hn
          rw [← hcount]
          rfl
  | some d =>
    cases h
    obtain ⟨-, rule, state, w, hruled⟩ := decompositionFor_some hd
    refine ⟨some d.parts, fun e he => ?_⟩
    rcases List.mem_append.mp he with he | he
    · have hprep := hruled.prep e (Option.mem_toList.mp he)
      rw [hprep.partIndex, hprep.partCount]
      rfl
    · obtain ⟨part, -, he⟩ := List.mem_flatMap.mp he
      obtain ⟨-, hpart, hcount⟩ := mem_partEntries he
      rw [hpart, hcount]
      rfl

/-! ### The fields of a uop -/

/-- The checks of a uop that are about the uop alone, but for its part. -/
structure UopFields (x : ExecutionUop) : Prop where
  vectorState : x.vectorStateDependencies ⊆ x.dependencies
  oldDestination : x.oldDestinationDependencies ⊆ x.dependencies
  listed : ∀ d ∈ x.issueDomainDemands, d.1 ∈ x.issueDomains
  partitions : x.schedulerPartitionChoices.Nodup
  units : x.executionUnitChoices.Nodup
  demands : ∀ d ∈ x.issueDomainDemands, 1 ≤ d.2
  renames : ∀ d ∈ x.renameAllocations, 1 ≤ d.2

theorem executionUop_fields (hP : P.Accepted) {semantics : List ℕ} {d : Option Decomposition} {depended : List String}
    {first : ℕ} {e : Entry × ℕ} {x : ExecutionUop} (he : e.1.uop.Accepted)
    (h : executionUop P i c semantics d depended first e = .ok x) : UopFields x := by
  obtain ⟨_, -, h⟩ := ok_bind.mp h
  obtain ⟨_, -, h⟩ := ok_bind.mp h
  obtain ⟨_, -, h⟩ := ok_bind.mp h
  obtain ⟨_, -, h⟩ := ok_bind.mp h
  obtain ⟨_, -, h⟩ := ok_bind.mp h
  obtain ⟨_, -, h⟩ := ok_bind.mp h
  cases h
  refine ⟨List.Subset.refl _, List.Subset.refl _, ?_, nodup_orderedUnique _, ?_, ?_, he.renames⟩
  · intro d hd
    obtain ⟨domain, hdomain, rfl⟩ := List.mem_map.mp hd
    exact hdomain
  · exact hP.units.sublist (List.filter_sublist.map _)
  · intro d hd
    obtain ⟨domain, hdomain, rfl⟩ := List.mem_map.mp hd
    exact he.demands domain hdomain

theorem linkUop_fields {terminals : Id → Option (List ExecutionUop)} {semantics : List ℕ}
    {pairs : List (Entry × ExecutionUop)} {p q : Entry × ExecutionUop} (hp : UopFields p.2)
    (h : linkUop P terminals i c semantics pairs p = .ok q) : UopFields q.2 := by
  obtain ⟨internal, -, h⟩ := ok_bind.mp h
  obtain ⟨after, -, h⟩ := ok_bind.mp h
  obtain ⟨external, -, h⟩ := ok_bind.mp h
  obtain ⟨state, -, h⟩ := ok_bind.mp h
  obtain ⟨old, -, h⟩ := ok_bind.mp h
  cases h
  refine ⟨fun d hd => ?_, fun d hd => ?_, hp.listed, hp.partitions, hp.units, hp.demands, hp.renames⟩
  · have hd := List.mem_dedup.mp hd
    exact List.mem_dedup.mpr (by simp [hd])
  · have hd := List.mem_dedup.mp hd
    exact List.mem_dedup.mpr (by simp [hd])

/-! ### The fields of a macro-op -/

theorem accountingCount_pos (basis : AccountingBasis) {decoded execution : ℕ} (hd : 1 ≤ decoded) (he : 1 ≤ execution) :
    1 ≤ accountingCount basis decoded execution := by
  cases basis with
  | decodedMacroOps => exact hd
  | executionUops => exact he
  | maxDecodedOrExecutionUops => exact hd.trans (le_max_left _ _)
  | architecturalInstructions => exact le_refl 1

theorem macroRenameAllocations_pos {r : Recipe} (hr : ∀ a ∈ r.renameAllocations, 1 ≤ a.2) {uops : List ExecutionUop}
    (huops : ∀ x ∈ uops, ∀ a ∈ x.renameAllocations, 1 ≤ a.2) : ∀ a ∈ macroRenameAllocations r uops, 1 ≤ a.2 := by
  unfold macroRenameAllocations
  split
  · exact hr
  · intro a ha
    obtain ⟨name, hname, rfl⟩ := List.mem_map.mp ha
    -- the uop that has the name allocates
    obtain ⟨x, hx, hname⟩ := List.mem_flatMap.mp (List.mem_dedup.mp hname)
    have hpos : 1 ≤ lookupD x.renameAllocations name 0 := by
      unfold lookupD
      cases hlookup : x.renameAllocations.lookup name with
      | none =>
        rw [List.lookup_eq_none_iff] at hlookup
        obtain ⟨a', ha', rfl⟩ := List.mem_map.mp hname
        simpa using hlookup a' ha'
      | some n =>
        obtain ⟨before, after, hsplit, -⟩ := List.lookup_eq_some_iff.mp hlookup
        exact huops x hx (name, n) (by rw [hsplit]; simp)
    exact hpos.trans (List.single_le_sum (by simp) _ (List.mem_map_of_mem hx))

theorem macroOpOf_checks (hc : c.recipe.Accepted) {uops : List ExecutionUop} (hne : uops ≠ [])
    (huops : ∀ x ∈ uops, UopFields x) {op : MacroOp} (h : macroOpOf P i c uops = .ok op) : MacroChecks op := by
  obtain ⟨decoded, -, h⟩ := ok_bind.mp h
  obtain ⟨retire, -, h⟩ := ok_bind.mp h
  cases h
  have hcount : ∀ basis, 1 ≤ accountingCount basis decoded uops.length :=
    fun basis => accountingCount_pos basis decoded.pos (List.length_pos_iff.mpr hne)
  refine ⟨decoded.pos, hcount _, hcount _, retire.pos, hc.domains, ?_, ?_, ?_, ?_⟩
  · intro d hd
    obtain ⟨domain, hdomain, rfl⟩ := List.mem_map.mp hd
    exact hdomain
  · intro d hd
    obtain ⟨domain, hdomain, rfl⟩ := List.mem_map.mp hd
    exact hc.demands domain hdomain
  · exact macroRenameAllocations_pos hc.renames fun x hx => (huops x hx).renames
  · simpa using hne

/-! ### One instruction -/

/-- What the binder promises of an instruction, whatever its layout. -/
structure Binding.Proper (i : Instruction) (b : Binding) : Prop where
  checks : MacroChecks b.op
  fields : ∀ x ∈ b.uops, UopFields x
  ids : b.uops.map (·.id) = (List.range b.uops.length).map (execId i.id)

theorem bindInstruction_proper (hP : P.Accepted) (h : bindInstruction P bound i = .ok b) : b.Proper i := by
  have hmade := bindInstruction_made h
  obtain ⟨c, hc, h⟩ := ok_bind.mp h
  obtain ⟨semantics, hsemantics, h⟩ := ok_bind.mp h
  obtain ⟨d, hd, h⟩ := ok_bind.mp h
  obtain ⟨entries, hentries, h⟩ := ok_bind.mp h
  obtain ⟨uops, huops, h⟩ := ok_bind.mp h
  obtain ⟨pairs, hpairs, h⟩ := ok_bind.mp h
  obtain ⟨op, hop, h⟩ := ok_bind.mp h
  cases h
  have hlength : entries.length = uops.length := by
    have := (mapM_ok.mp huops).length_eq
    rwa [List.length_zipIdx] at this
  have haccepted : ∀ e ∈ entries, e.uop.Accepted :=
    layout_accepted hP (ok_bind.mpr ⟨c, hc, ok_bind.mpr ⟨d, hd, hentries⟩⟩)
  have hfields : ∀ x ∈ uops, UopFields x := by
    intro x hx
    obtain ⟨e, he, hok⟩ := forall₂_right (mapM_ok.mp huops) hx
    exact executionUop_fields hP (haccepted _ (List.fst_mem_of_mem_zipIdx he)) hok
  -- the recipe has a uop, so the layout has an entry
  have hne : uops ≠ [] := by
    obtain ⟨hrecipe, -⟩ := bindExecutionSemantics_ok hsemantics
    obtain ⟨-, hcovers⟩ := entriesFor_index hentries (decompositionFor_ok hd) hrecipe
    obtain ⟨e, he, -⟩ := hcovers 0 (List.length_pos_iff.mpr hrecipe)
    exact List.length_pos_iff.mp (hlength ▸ List.length_pos_of_mem he)
  have hlinked : List.Forall₂ (fun x q => q.2.id = x.id ∧ UopFields q.2) uops pairs := by
    have hzip : (entries.zip uops).map (·.2) = uops := List.map_snd_zip hlength.ge
    rw [← hzip, List.forall₂_map_left_iff]
    have hmade := mapM_ok.mp hpairs
    rw [List.forall₂_iff_zip] at hmade ⊢
    refine ⟨hmade.1, fun {p q} hpq => ?_⟩
    have hq := hmade.2 hpq
    have hp := (List.of_mem_zip (List.of_mem_zip hpq).1).2
    exact ⟨(linkUop_links hq).1.id, linkUop_fields (hfields _ hp) hq⟩
  refine ⟨macroOpOf_checks (chooseRecipe_accepted hP hc) hne hfields hop, fun x hx => ?_, ?_⟩
  · obtain ⟨q, hq, rfl⟩ := List.mem_map.mp hx
    obtain ⟨y, -, -, hy⟩ := forall₂_right hlinked hq
    exact hy
  · have hids : uops.map (·.id) = (pairs.map (·.2)).map (·.id) := by
      have hsame : List.Forall₂ (· = ·) (uops.map (·.id)) ((pairs.map (·.2)).map (·.id)) := by
        rw [List.map_map, List.forall₂_map_left_iff, List.forall₂_map_right_iff]
        exact hlinked.imp fun x q hq => hq.1.symm
      rwa [List.forall₂_eq_eq_eq] at hsame
    have hnumbered : (List.range uops.length).map (execId i.id) = uops.map (·.id) := by
      have hsame : List.Forall₂ (· = ·) (entries.zipIdx.map fun e => execId i.id e.2) (uops.map (·.id)) := by
        rw [List.forall₂_map_left_iff, List.forall₂_map_right_iff]
        exact (mapM_ok.mp huops).imp fun e x hx => (executionUop_ok hx).1.symm
      rw [List.forall₂_eq_eq_eq] at hsame
      rw [← hsame, List.range_eq_range', ← hlength, ← List.zipIdx_map_snd 0 entries, List.map_map]
      rfl
    show (pairs.map (·.2)).map (·.id) = (List.range (pairs.map (·.2)).length).map (execId i.id)
    have hsize : (pairs.map (·.2)).length = uops.length := by
      have := congrArg List.length hids
      simpa using this.symm
    rw [← hids, hsize, hnumbered]

/-! ### The trace -/

variable {source : List Instruction} {T : BoundTrace}

/-- The parts of the entries are among so many, and no entry waits for itself along names and
parts. -/
structure SoundLayout (entries : List Entry) : Prop where
  parts : ∀ e ∈ entries, ∀ k ∈ e.partIndex, ∀ n ∈ e.partCount, k < n
  untangled : ∀ e, ¬ Relation.TransGen (LocalWaits entries) e e

theorem bind_trace (h : bind P source = .ok T) : ∃ bound, bindAll P source = .ok bound ∧
    T.macros = bound.map (·.op) ∧ T.uops = bound.flatMap (·.uops) ∧ T.source = source ∧ T.profileId = P.id := by
  obtain ⟨bound, hbound, h⟩ := ok_bind.mp h
  obtain ⟨resources, -, h⟩ := ok_bind.mp h
  cases h
  exact ⟨bound, hbound, rfl, rfl, rfl, rfl⟩

theorem execId_inj {n k n' k' : ℕ} (h : execId n k = execId n' k') : n = n' ∧ k = k' := by
  obtain ⟨hn, hk⟩ := Nat.pair_eq_pair.mp h
  exact ⟨hn, by omega⟩

/-- What is numbered by its positions. -/
theorem map_eq_range {α : Type} {f : α → ℕ} {l : List α} (h : ∀ (k : ℕ) (x : α), l[k]? = some x → f x = k) :
    l.map f = List.range l.length := by
  refine List.ext_getElem? fun k => ?_
  rw [List.getElem?_map]
  cases hk : l[k]? with
  | none => simp [List.getElem?_eq_none_iff.mp hk]
  | some x =>
    rw [List.getElem?_range (List.getElem?_eq_some_iff.mp hk).1, Option.map_some, h k x hk]

/-- The uops of an instruction have different ids. -/
theorem Binding.Proper.ids_nodup (h : b.Proper i) : (b.uops.map (·.id)).Nodup := by
  rw [h.ids]
  exact List.nodup_range.map fun k k' he => (execId_inj he).2

theorem Binding.Proper.pair_eq (h : b.Proper i) {p q : Entry × ExecutionUop} (hp : p ∈ b.pairs) (hq : q ∈ b.pairs)
    (he : p.2.id = q.2.id) : p = q := by
  have hn := h.ids_nodup
  rw [Binding.uops, List.map_map] at hn
  exact List.inj_on_of_nodup_map hn hp hq he

section Trace

variable (hid : ∀ (k : ℕ) (d : Instruction), source[k]? = some d → d.id = k) (hbound : bindAll P source = .ok bound)

include hbound in
/-- A binding is that of an instruction. -/
theorem source_of_binding (hb : b ∈ bound) : ∃ (k : ℕ) (i : Instruction), source[k]? = some i ∧ bound[k]? = some b ∧
    bindInstruction P (bound.take k) i = .ok b := by
  obtain ⟨hlength, hall⟩ := bindAll_made hbound
  obtain ⟨k, hk⟩ := List.mem_iff_getElem?.mp hb
  have hlt : k < source.length := hlength ▸ (List.getElem?_eq_some_iff.mp hk).1
  obtain ⟨b', hb', hmade⟩ := hall k _ (List.getElem?_eq_getElem hlt)
  obtain rfl : b' = b := Option.some.inj (hb'.symm.trans hk)
  exact ⟨k, _, List.getElem?_eq_getElem hlt, hk, hmade⟩

include hid hbound in
/-- The uops of the trace have distinct ids. -/
theorem uops_nodup (hP : P.Accepted) : ((bound.flatMap (·.uops)).map (·.id)).Nodup := by
  have hids : ∀ b ∈ bound, b.uops.map (·.id) = (List.range b.uops.length).map (execId b.instruction.id) := by
    intro b hb
    obtain ⟨k, i, -, -, hmade⟩ := source_of_binding hbound hb
    rw [(bindInstruction_made hmade).instruction]
    exact (bindInstruction_proper hP hmade).ids
  have hdistinct : bound.Pairwise fun b b' => b.instruction.id ≠ b'.instruction.id := by
    rw [← List.pairwise_map, map_eq_range (bindAll_numbered hid hbound)]
    exact List.nodup_range
  rw [List.map_flatMap, List.nodup_flatMap]
  refine ⟨fun b hb => ?_, hdistinct.imp_of_mem fun {b b'} hb hb' hne => ?_⟩
  · obtain ⟨k, i, -, -, hmade⟩ := source_of_binding hbound hb
    exact (bindInstruction_proper hP hmade).ids_nodup
  · show List.Disjoint (b.uops.map (·.id)) (b'.uops.map (·.id))
    rw [hids b hb, hids b' hb']
    intro u hu hu'
    obtain ⟨k, -, rfl⟩ := List.mem_map.mp hu
    obtain ⟨k', -, he⟩ := List.mem_map.mp hu'
    exact hne (execId_inj he).1.symm

end Trace

/-- **The fields of a trace of the binder are right**, but for the parts, and its macro-ops own its
uops. -/
theorem bind_fields (hP : P.Accepted) (hid : ∀ (k : ℕ) (d : Instruction), source[k]? = some d → d.id = k)
    (h : bind P source = .ok T) (hparts : ∀ x ∈ T.uops, partInRange x) : FieldChecks T ∧ Owned T := by
  have hprovenance := bind_provenance h
  have hlanes := bind_lanes h
  obtain ⟨bound, hbound, hmacros, huops, hsource, -⟩ := bind_trace h
  have hnodup : (T.uops.map (·.id)).Nodup := huops ▸ uops_nodup hid hbound hP
  have hmem : ∀ {b : Binding}, b ∈ bound → ∀ x ∈ b.uops, x ∈ T.uops := by
    intro b hb x hx
    rw [huops]
    exact List.mem_flatMap.mpr ⟨b, hb, hx⟩
  refine ⟨⟨?_, hnodup, fun m hm => ?_, fun x hx => ?_⟩, fun m hm u hu => ?_, fun x hx => ?_⟩
  · rw [← hprovenance.source, hsource]
    rw [map_eq_range hid]
    exact List.nodup_range
  · rw [hmacros] at hm
    obtain ⟨b, hb, rfl⟩ := List.mem_map.mp hm
    obtain ⟨k, i, -, -, hmade⟩ := source_of_binding hbound hb
    exact (bindInstruction_proper hP hmade).checks
  · rw [huops] at hx
    obtain ⟨b, hb, hxb⟩ := List.mem_flatMap.mp hx
    obtain ⟨k, i, -, -, hturn⟩ := source_of_binding hbound hb
    have hfields := (bindInstruction_proper hP hturn).fields x hxb
    have hmade := bindInstruction_made hturn
    have hxT := hmem hb x hxb
    refine ⟨?_, hfields.vectorState, hfields.oldDestination, hfields.listed, hfields.partitions, hfields.units, ?_,
      hparts x hxT, hfields.demands, hfields.renames, fun r hr => ?_, fun d hd => ?_, fun u hu => ?_⟩
    · refine List.find?_isSome.mpr ⟨b.op, hmacros ▸ List.mem_map_of_mem hb, ?_⟩
      obtain ⟨p, hp, rfl⟩ := List.mem_map.mp hxb
      exact decide_eq_true ((bindInstruction_traced hturn).op.trans (hmade.parent p hp).symm)
    · obtain ⟨p, hp, rfl⟩ := List.mem_map.mp hxb
      obtain ⟨count, hcount⟩ := layout_count hmade.layout
      rw [hmade.count p hp, hmade.part p hp, hcount p.1 (List.mem_map_of_mem hp)]
      split
      · next hsome => exact fun _ => hsome
      · exact fun hnone => by cases hnone
    · have hpos := hlanes x hxT r hr
      unfold lookupD at hpos
      cases hlookup : T.resources.lookup r with
      | none => rw [hlookup] at hpos; exact absurd hpos (lt_irrefl 0)
      | some n =>
        obtain ⟨before, after, hsplit, -⟩ := List.lookup_eq_some_iff.mp hlookup
        rw [hsplit]
        simp
    · obtain ⟨y, hy, rfl, -⟩ := hprovenance.dependencies x hxT d hd
      rw [uop?_of_mem hnodup hy]
      rfl
    · obtain ⟨y, hy, rfl, -⟩ := hprovenance.parts x hxT u hu
      rw [uop?_of_mem hnodup hy]
      rfl
  · rw [hmacros] at hm
    obtain ⟨b, hb, rfl⟩ := List.mem_map.mp hm
    obtain ⟨k, i, -, -, hturn⟩ := source_of_binding hbound hb
    rw [(bindInstruction_laidOut hturn).1] at hu
    obtain ⟨x, hx, rfl⟩ := List.mem_map.mp hu
    refine ⟨x, uop?_of_mem hnodup (hmem hb x hx), ?_⟩
    rw [((bindInstruction_traced hturn).parents x hx).1, (bindInstruction_traced hturn).op]
  · rw [huops] at hx
    obtain ⟨b, hb, hxb⟩ := List.mem_flatMap.mp hx
    obtain ⟨k, i, -, -, hturn⟩ := source_of_binding hbound hb
    refine ⟨b.op, hmacros ▸ List.mem_map_of_mem hb, ?_⟩
    rw [(bindInstruction_laidOut hturn).1]
    exact List.mem_map_of_mem hxb

section Acyclic

variable (hid : ∀ (k : ℕ) (d : Instruction), source[k]? = some d → d.id = k) (hbound : bindAll P source = .ok bound)
  (huops : T.uops = bound.flatMap (·.uops))

include hid hbound huops

/-- What a uop waits for is of an instruction before its own, or of its own and named by its recipe
uop. -/
theorem depends_cases {u d : Id} (h : Depends T u d) : ∃ (k : ℕ) (i : Instruction) (b : Binding), source[k]? = some i ∧
    bound[k]? = some b ∧ ∃ p ∈ b.pairs, p.2.id = u ∧ u.unpair.1 = k ∧
      (d.unpair.1 < k ∨ d.unpair.1 = k ∧ ∃ q ∈ b.pairs, q.2.id = d ∧ LocalWaits (laidOut P i) p.1 q.1) := by
  obtain ⟨x, hx, rfl, hd⟩ := h
  rw [huops] at hx
  obtain ⟨b, hb, hxb⟩ := List.mem_flatMap.mp hx
  obtain ⟨k, i, hi, hbk, hturn⟩ := source_of_binding hbound hb
  have hmade := bindInstruction_made hturn
  obtain ⟨p, hp, rfl⟩ := List.mem_map.mp hxb
  have hnumber : ∀ {k : ℕ} {i : Instruction} {b : Binding}, source[k]? = some i →
      bindInstruction P (bound.take k) i = .ok b → ∀ x ∈ b.uops, x.id.unpair.1 = k := by
    intro k i b hi hturn x hx
    obtain ⟨j, hj⟩ := bindInstruction_execIds hturn x hx
    rw [hj, ((bindInstruction_traced hturn).parents x hx).1, hid k i hi]
    simp [execId]
  refine ⟨k, i, b, hi, hbk, p, hp, rfl, hnumber hi hturn _ (List.mem_map_of_mem hp), ?_⟩
  rcases hmade.waits p hp d hd with ⟨q, hq, rfl, hname, hselects⟩ | ⟨producer, cs, hcs, y, hy, rfl⟩
  · refine .inr ⟨hnumber hi hturn _ (List.mem_map_of_mem hq), q, hq, rfl, ?_⟩
    rw [hmade.entries]
    exact ⟨List.mem_map_of_mem hp, List.mem_map_of_mem hq, hname, hselects⟩
  · -- the producer is bound before
    obtain ⟨b', hb', hlt, rfl⟩ := terminalsOf_take (bindAll_numbered hid hbound) hcs
    obtain ⟨k', i', hi', hbk', hturn'⟩ := source_of_binding hbound (List.mem_of_getElem? hb')
    have hyb : y ∈ b'.uops := by
      obtain ⟨q, hq, rfl⟩ := List.mem_map.mp hy
      exact List.mem_map_of_mem (List.mem_of_mem_filter hq)
    have hk' : k' = producer := by
      rw [← bindAll_numbered hid hbound k' b' hbk', bindAll_numbered hid hbound producer b' hb']
    rw [hnumber hi' hturn' y hyb, hk']
    exact .inl hlt

/-- **A circle in a trace of the binder is one in the layout of an instruction.** -/
theorem bind_acyclic_iff (hP : P.Accepted) :
    Acyclic T ↔ ∀ i ∈ source, ∀ e, ¬ Relation.TransGen (LocalWaits (laidOut P i)) e e := by
  constructor
  · intro h i hi e hcircle
    obtain ⟨k, hk⟩ := List.mem_iff_getElem?.mp hi
    obtain ⟨b, hb, -, hmade⟩ := exists_binding hbound hk
    obtain ⟨f, hef, hfe⟩ := Relation.TransGen.head'_iff.mp hcircle
    have he := hef.waiting
    rw [hmade.entries] at he
    obtain ⟨p, hp, rfl⟩ := List.mem_map.mp he
    obtain ⟨q, hq, rfl, hpath⟩ := localWaits_depends huops hb hmade hp hfe hef.awaited
    have hselects := hef.selects
    rw [hmade.entries] at hselects
    exact h p.2.id (.head' ⟨p.2, mem_uops huops hb hp, rfl, hmade.internal p hp q hq hef.named hselects⟩ hpath)
  · intro h u hu
    have hlevel := Kahn.cycle_level (fun u : Id => u.unpair.1) (fun u d hd => by
      obtain ⟨k, -, -, -, -, -, -, -, hk, hlt | ⟨he, -⟩⟩ := depends_cases hid hbound huops hd
      · exact hk ▸ hlt.le
      · exact (he.trans hk.symm).le) hu
    -- the uops of a circle are of one instruction
    obtain ⟨a, ⟨hua, -⟩, -⟩ := Relation.TransGen.head'_iff.mp hlevel
    obtain ⟨k, i, b, hi, hb, p, hp, hpu, hk, -⟩ := depends_cases hid hbound huops hua
    obtain ⟨b', hb', hturn, -⟩ := exists_binding hbound hi
    obtain rfl := Option.some.inj (hb.symm.trans hb')
    have hproper := bindInstruction_proper hP hturn
    have key : ∀ {d}, Relation.TransGen (fun a d => Depends T a d ∧ a.unpair.1 = u.unpair.1 ∧ d.unpair.1 = u.unpair.1) u d →
        ∃ q ∈ b.pairs, q.2.id = d ∧ Relation.TransGen (LocalWaits (laidOut P i)) p.1 q.1 := by
      have hstep : ∀ {a d}, Depends T a d → a.unpair.1 = u.unpair.1 → d.unpair.1 = u.unpair.1 → ∀ r ∈ b.pairs, r.2.id = a →
          ∃ q ∈ b.pairs, q.2.id = d ∧ LocalWaits (laidOut P i) r.1 q.1 := by
        intro a d had hau hdu r hr hra
        obtain ⟨k', i', c, hi', hc, r', hr', hra', hk', hcases⟩ := depends_cases hid hbound huops had
        obtain rfl : k' = k := by omega
        obtain rfl := Option.some.inj (hi.symm.trans hi')
        obtain rfl := Option.some.inj (hb.symm.trans hc)
        obtain rfl := hproper.pair_eq hr hr' (hra.trans hra'.symm)
        exact (hcases.resolve_left (by omega)).2
      intro d hd
      induction hd with
      | single hd =>
        obtain ⟨q, hq, hqd, hwaits⟩ := hstep hd.1 hd.2.1 hd.2.2 p hp hpu
        exact ⟨q, hq, hqd, .single hwaits⟩
      | tail _ hd ih =>
        obtain ⟨r, hr, hra, hpath⟩ := ih
        obtain ⟨q, hq, hqd, hwaits⟩ := hstep hd.1 hd.2.1 hd.2.2 r hr hra
        exact ⟨q, hq, hqd, hpath.tail hwaits⟩
    obtain ⟨q, hq, hqu, hpath⟩ := key hlevel
    obtain rfl := hproper.pair_eq hp hq (hpu.trans hqu.symm)
    exact h i (List.mem_of_getElem? hi) p.1 hpath

end Acyclic

/-- **Which traces of the binder are valid**: those whose instructions all have a sound layout. -/
theorem bind_valid_iff (hP : P.Accepted) (hid : ∀ (k : ℕ) (d : Instruction), source[k]? = some d → d.id = k)
    (h : bind P source = .ok T) :
    validateBoundTrace T = .ok () ↔ ∀ i ∈ source, SoundLayout (laidOut P i) := by
  obtain ⟨bound, hbound, hmacros, huops, hsource, -⟩ := bind_trace h
  have hacyclic := bind_acyclic_iff hid hbound huops hP
  have hparts : (∀ x ∈ T.uops, partInRange x) ↔
      ∀ i ∈ source, ∀ e ∈ laidOut P i, ∀ k ∈ e.partIndex, ∀ n ∈ e.partCount, k < n := by
    constructor
    · intro hall i hi e he
      obtain ⟨k, hk⟩ := List.mem_iff_getElem?.mp hi
      obtain ⟨b, hb, -, hmade⟩ := exists_binding hbound hk
      rw [hmade.entries] at he
      obtain ⟨p, hp, rfl⟩ := List.mem_map.mp he
      have hx := hall p.2 (mem_uops huops hb hp)
      unfold partInRange at hx
      rwa [hmade.part p hp, hmade.count p hp] at hx
    · intro hall x hx
      rw [huops] at hx
      obtain ⟨b, hb, hx⟩ := List.mem_flatMap.mp hx
      obtain ⟨p, hp, rfl⟩ := List.mem_map.mp hx
      obtain ⟨k, i, hi, -, hturn⟩ := source_of_binding hbound hb
      have hmade := bindInstruction_made hturn
      unfold partInRange
      rw [hmade.part p hp, hmade.count p hp]
      exact hall i (List.mem_of_getElem? hi) p.1 (hmade.entries ▸ List.mem_map_of_mem hp)
  constructor
  · intro hvalid i hi
    obtain ⟨hfields, -, horder⟩ := validate_iff.mp hvalid
    exact ⟨hparts.mp (fun x hx => (hfields.uops x hx).part) i hi, hacyclic.mp horder.acyclic i hi⟩
  · intro hsound
    obtain ⟨hfields, hown⟩ := bind_fields hP hid h (hparts.mpr fun i hi => (hsound i hi).parts)
    exact (validate_acyclic hfields hown).1 (hacyclic.mpr fun i hi => (hsound i hi).untangled)

end VectorSim
