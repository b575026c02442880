/-
# What the binder promises

The flags of a macro-op say what its execution uops are, and it lists each of
them once (`bind_bound`): linking a uop to those it waits for leaves its id and
its kind as they were.
-/
import VectorSim.Bind
import VectorSim.Trace

namespace VectorSim

open Checked

variable {P : Profile}

/-! ### One instruction -/

theorem linkUop_ok {terminals : Id → Option (List ExecutionUop)} {i : Instruction} {c : ChosenRecipe}
    {semantics : List ℕ} {pairs : List (Entry × ExecutionUop)} {p q : Entry × ExecutionUop}
    (h : linkUop P terminals i c semantics pairs p = .ok q) : (q.2.id, q.2.kind) = (p.2.id, p.2.kind) := by
  obtain ⟨_, -, h⟩ := ok_bind.mp h
  obtain ⟨_, -, h⟩ := ok_bind.mp h
  obtain ⟨_, -, h⟩ := ok_bind.mp h
  obtain ⟨_, -, h⟩ := ok_bind.mp h
  obtain ⟨_, -, h⟩ := ok_bind.mp h
  cases h
  rfl

theorem linked_same {terminals : Id → Option (List ExecutionUop)} {i : Instruction} {c : ChosenRecipe}
    {semantics : List ℕ} {pairs l l' : List (Entry × ExecutionUop)}
    (h : List.Forall₂ (fun p q => linkUop P terminals i c semantics pairs p = .ok q) l l') :
    l.map (fun p => (p.2.id, p.2.kind)) = l'.map fun p => (p.2.id, p.2.kind) := by
  induction h with
  | nil => rfl
  | cons hq _ ih => rw [List.map_cons, List.map_cons, ih, linkUop_ok hq]

/-- The macro-op of a binding says what its uops are. -/
structure Binding.Flagged (b : Binding) : Prop where
  uopIds : b.op.uopIds = b.uops.map (·.id)
  vector : b.op.usesVectorScheduler = b.uops.any (·.kind.isVectorResource)
  load : b.op.usesLoadQueue = b.uops.any (·.kind = .loadData)
  store : b.op.usesStoreQueue = b.uops.any (·.kind = .storeData)
  renames : (b.op.renameAllocations.map (·.1)).Nodup

/-- The recipes list the rename allocations of a name once, as dictionaries do. -/
def Profile.Dictionaries (P : Profile) : Prop := ∀ r ∈ P.recipes, (r.2.renameAllocations.map (·.1)).Nodup

/-- A recipe is one of the profile, or the fallback of one uop. -/
theorem chooseRecipe_cases {i : Instruction} {c : ChosenRecipe} (h : chooseRecipe P i = .ok c) :
    (∃ key, (key, c.recipe) ∈ P.recipes) ∨ ∃ u : RecipeUop, u.issueDomains = [] ∧ u.renameAllocations = [] ∧
      c.recipe = { decodedMacroOps := some 1, retireMacroOps := some 1, uops := [u] } := by
  unfold chooseRecipe at h
  split at h
  · next key recipe hfind =>
    cases h
    obtain ⟨key', -, hlookup⟩ := List.exists_of_findSome?_eq_some hfind
    obtain ⟨r, hr, he⟩ := Option.map_eq_some_iff.mp hlookup
    cases he
    obtain ⟨before, after, hsplit, -⟩ := List.lookup_eq_some_iff.mp hr
    exact .inl ⟨key, by rw [hsplit]; simp⟩
  · unfold fallbackRecipe at h
    split at h
    · split at h
      · split at h
        · cases h
          exact .inr ⟨_, rfl, rfl, rfl⟩
        · cases h
      · cases h
    · cases h

theorem chooseRecipe_renames (hP : P.Dictionaries) {i : Instruction} {c : ChosenRecipe}
    (h : chooseRecipe P i = .ok c) : (c.recipe.renameAllocations.map (·.1)).Nodup := by
  rcases chooseRecipe_cases h with ⟨key, hmem⟩ | ⟨u, -, -, hfallback⟩
  · exact hP _ hmem
  · rw [hfallback]
    exact List.nodup_nil

theorem macroRenameAllocations_nodup {r : Recipe} (h : (r.renameAllocations.map (·.1)).Nodup)
    (uops : List ExecutionUop) : ((macroRenameAllocations r uops).map (·.1)).Nodup := by
  unfold macroRenameAllocations
  split
  · exact h
  · rw [List.map_map]
    exact (List.map_id _).symm ▸ List.nodup_dedup _

theorem bindInstruction_flagged (hP : P.Dictionaries) {bound : List Binding} {i : Instruction} {b : Binding}
    (h : bindInstruction P bound i = .ok b) : b.Flagged := by
  obtain ⟨c, hc, h⟩ := ok_bind.mp h
  obtain ⟨semantics, -, h⟩ := ok_bind.mp h
  obtain ⟨d, -, h⟩ := ok_bind.mp h
  obtain ⟨entries, -, h⟩ := ok_bind.mp h
  obtain ⟨uops, huops, h⟩ := ok_bind.mp h
  obtain ⟨pairs, hpairs, h⟩ := ok_bind.mp h
  obtain ⟨op, hop, h⟩ := ok_bind.mp h
  cases h
  obtain ⟨_, -, hop⟩ := ok_bind.mp hop
  obtain ⟨_, -, hop⟩ := ok_bind.mp hop
  cases hop
  have hlength : entries.length = uops.length := by
    have := (mapM_ok.mp huops).length_eq
    rwa [List.length_zipIdx] at this
  have hlinked : pairs.map (fun p => (p.2.id, p.2.kind)) = uops.map fun x => (x.id, x.kind) := by
    have hzip : (entries.zip uops).map (·.2) = uops := List.map_snd_zip hlength.ge
    have hsame := congrArg (List.map fun x : ExecutionUop => (x.id, x.kind)) hzip
    rw [← linked_same (mapM_ok.mp hpairs), ← hsame, List.map_map]
    rfl
  have hany : ∀ p : Kind → Bool, (uops.any fun x => p x.kind) = (pairs.map (·.2)).any fun x => p x.kind := by
    intro p
    have := congrArg (fun l => l.any fun e => p e.2) hlinked
    simpa [List.any_map, Function.comp_def] using this.symm
  exact {
    uopIds := by
      have := congrArg (List.map (·.1)) hlinked
      simpa [Binding.uops, List.map_map, Function.comp_def] using this.symm
    vector := hany _
    load := hany (· = .loadData)
    store := hany (· = .storeData)
    renames := macroRenameAllocations_nodup (chooseRecipe_renames hP hc) uops }

/-! ### The trace -/

theorem bindAll_flagged (hP : P.Dictionaries) {source : List Instruction} {bound : List Binding}
    (h : bindAll P source = .ok bound) : ∀ b ∈ bound, b.Flagged := by
  refine foldlM_ok (P := fun bound : List Binding => ∀ b ∈ bound, b.Flagged) h (by simp) ?_
  intro i _ bound bound' hbound hstep
  obtain ⟨b, hb, hstep⟩ := ok_bind.mp hstep
  cases hstep
  intro b' hb'
  rcases List.mem_append.mp hb' with hb' | hb'
  · exact hbound b' hb'
  · rw [List.mem_singleton.mp hb']
    exact bindInstruction_flagged hP hb

/-- **A trace the binder makes is bound**, where its ids are distinct. -/
theorem bind_bound (hP : P.Dictionaries) {source : List Instruction} {T : BoundTrace}
    (h : bind P source = .ok T) (hT : WellFormed T) : Bound T := by
  obtain ⟨bound, hbound, h⟩ := ok_bind.mp h
  obtain ⟨resources, -, h⟩ := ok_bind.mp h
  have hmacros : T.macros = bound.map (·.op) := by cases h; rfl
  have huops : T.uops = bound.flatMap (·.uops) := by cases h; rfl
  have hflagged : ∀ m ∈ T.macros, ∃ b ∈ bound, b.op = m ∧ b.Flagged := by
    intro m hm
    rw [hmacros] at hm
    obtain ⟨b, hb, rfl⟩ := List.mem_map.mp hm
    exact ⟨b, hb, rfl, bindAll_flagged hP hbound b hb⟩
  have hmem : ∀ b ∈ bound, ∀ x ∈ b.uops, x ∈ T.uops := fun b hb x hx => by
    rw [huops]
    exact List.mem_flatMap.mpr ⟨b, hb, hx⟩
  have hkind : ∀ b ∈ bound, b.Flagged → ∀ p : Kind → Bool,
      T.hasKind p b.op = b.uops.any fun x => p x.kind := by
    intro b hb hf p
    rw [BoundTrace.hasKind, hf.uopIds, List.any_map]
    refine Bool.eq_iff_iff.mpr ?_
    simp only [List.any_eq_true, Function.comp_apply]
    refine exists_congr fun x => and_congr_right fun hx => ?_
    rw [hT.uop?_eq (hmem b hb x hx), Option.any_some]
  refine ⟨fun m hm => ?_, fun m hm => ?_, fun m hm => ?_, fun m hm => ?_, fun m hm => ?_⟩ <;>
    obtain ⟨b, hb, rfl, hf⟩ := hflagged m hm
  · rw [hf.uopIds]
    have := hT.uopIds
    rw [huops, List.map_flatMap] at this
    exact (List.nodup_flatMap.mp this).1 b hb
  · rw [hf.vector, hkind b hb hf]
  · rw [hf.load, hkind b hb hf fun k => decide (k = .loadData)]
  · rw [hf.store, hkind b hb hf fun k => decide (k = .storeData)]
  · exact hf.renames

end VectorSim
