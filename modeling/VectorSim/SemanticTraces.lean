/-
# Where the uops of a trace come from

In a trace of the binder every execution uop implements a semantic uop of its own
instruction, and every semantic uop is implemented. What a uop waits for is of its
own instruction, or of an instruction before it that its instruction names as a
producer (`Provenance`). The expander keeps all of it: the entry of a uop stands
for everything the uop did.
-/
import VectorSim.Backend.Accepted
import VectorSim.Links

namespace VectorSim

open Checked

/-- The instructions whose results an instruction may wait for. -/
def Instruction.producers (i : Instruction) : List Id :=
  i.registerDependencies.map (·.2) ++ i.memoryDependencies ++ i.flagsDependency.toList ++
    (i.oldDestinationDependencies.getD []).map (·.2) ++ (i.vectorDestinationDependencies.getD []).map (·.2)

/-- The instruction `p` stands before `c` in the source. -/
def Precedes (T : BoundTrace) (p c : Id) : Prop :=
  ∃ before after, T.source.map (·.id) = before ++ c :: after ∧ p ∈ before

/-- What the uops of a trace implement, and why they wait. -/
structure Provenance (T : BoundTrace) : Prop where
  source : T.source.map (·.id) = T.macros.map (·.id)
  parents : ∀ x ∈ T.uops, x.semanticIds ≠ [] ∧ ∀ q ∈ x.semanticIds,
    q.1 = x.parentId ∧ ∃ i ∈ T.source, i.id = x.parentId ∧ q.2 < i.semanticUops.length
  implemented : ∀ i ∈ T.source, ∀ k < i.semanticUops.length, ∃ x ∈ T.uops, (i.id, k) ∈ x.semanticIds
  dependencies : ∀ x ∈ T.uops, ∀ d ∈ x.dependencies, ∃ y ∈ T.uops, y.id = d ∧ (y.parentId = x.parentId ∨
    Precedes T y.parentId x.parentId ∧ ∃ i ∈ T.source, i.id = x.parentId ∧ y.parentId ∈ i.producers)
  parts : ∀ x ∈ T.uops, ∀ u ∈ x.issueAfterUop, ∃ y ∈ T.uops, y.id = u ∧ y.parentId = x.parentId

/-! ### The semantic uops of an instruction -/

section Bind

variable {P : Profile} {i : Instruction} {c : ChosenRecipe} {bound : List Binding} {b : Binding}

theorem semanticOf_lt {kinds : List SemanticKind} {u : RecipeUop} {k : ℕ} (h : semanticOf kinds u = .ok k) :
    k < kinds.length := by
  unfold semanticOf at h
  split at h
  · next j hj =>
    cases h
    have hmem : k ∈ compatible kinds u.kind := by simp [hj]
    obtain ⟨e, he, rfl⟩ := List.mem_map.mp hmem
    have hlt := List.snd_lt_of_mem_zipIdx (List.mem_of_mem_filter he)
    simpa using hlt
  · cases h
  · cases h

theorem bindExecutionSemantics_ok {kinds : List SemanticKind} {uops : List RecipeUop} {semantics : List ℕ}
    (h : bindExecutionSemantics kinds uops = .ok semantics) : uops ≠ [] ∧ semantics.length = uops.length ∧
      (∀ k ∈ semantics, k < kinds.length) ∧ ∀ k < kinds.length, k ∈ semantics := by
  obtain ⟨_, hne, h⟩ := ok_bind.mp h
  obtain ⟨bound, hbound, h⟩ := ok_bind.mp h
  obtain ⟨_, hall, h⟩ := ok_bind.mp h
  cases h
  rw [check_ok] at hne hall
  have hmade := mapM_ok.mp hbound
  have hlength := hmade.length_eq
  refine ⟨?_, hlength.symm, fun k hk => ?_, hall⟩
  · rintro rfl
    -- the first semantic uop has an execution uop
    cases hmade
    exact absurd (hall 0 (List.length_pos_iff.mpr hne)) List.not_mem_nil
  · obtain ⟨u, -, hu⟩ := forall₂_right hmade hk
    exact semanticOf_lt hu

/-! ### The entries of an instruction -/

/-- The prep uop stands for the first recipe uop, and there is a part. -/
theorem decompositionFor_ok {d : Option Decomposition} (h : decompositionFor P i c = .ok d) :
    ∀ x ∈ d, 0 < x.parts ∧ ∀ e ∈ x.prep, e.localIndex = 0 := by
  rintro x rfl
  obtain ⟨-, _, _, _, hruled⟩ := decompositionFor_some h
  exact ⟨hruled.parts_pos, fun e he => (hruled.prep e he).localIndex⟩

theorem mem_partEntries_index {d : Decomposition} {part : ℕ} :
    (partEntries c d part).map (·.localIndex) = List.range c.recipe.uops.length := by
  unfold partEntries
  rw [List.map_map, List.range_eq_range', ← List.zipIdx_map_snd 0 c.recipe.uops]
  rfl

/-- The entries are of the recipe's uops, of all of them. -/
theorem entriesFor_index {d : Option Decomposition} {entries : List Entry} (h : entriesFor c d = .ok entries)
    (hd : ∀ x ∈ d, 0 < x.parts ∧ ∀ e ∈ x.prep, e.localIndex = 0) (hne : c.recipe.uops ≠ []) :
    (∀ e ∈ entries, e.localIndex < c.recipe.uops.length) ∧
      ∀ k < c.recipe.uops.length, ∃ e ∈ entries, e.localIndex = k := by
  have hpos : 0 < c.recipe.uops.length := List.length_pos_iff.mpr hne
  cases d with
  | none =>
    have hmade : entries.map (·.localIndex) = List.range c.recipe.uops.length := by
      have hsame : List.Forall₂ (· = ·) (c.recipe.uops.zipIdx.map (·.2)) (entries.map (·.localIndex)) := by
        rw [List.forall₂_map_left_iff, List.forall₂_map_right_iff]
        refine (mapM_ok.mp h).imp fun u e he => ?_
        obtain ⟨count, -, he⟩ := ok_bind.mp he
        cases he
        rfl
      rw [List.forall₂_eq_eq_eq] at hsame
      rw [← hsame, List.zipIdx_map_snd, List.range_eq_range']
    refine ⟨fun e he => ?_, fun k hk => ?_⟩
    · have := List.mem_map_of_mem (f := (·.localIndex)) he
      rw [hmade] at this
      exact List.mem_range.mp this
    · have : k ∈ entries.map (·.localIndex) := by rw [hmade]; exact List.mem_range.mpr hk
      simpa using this
  | some d =>
    cases h
    obtain ⟨hparts, hprep⟩ := hd d rfl
    refine ⟨fun e he => ?_, fun k hk => ?_⟩
    · rcases List.mem_append.mp he with he | he
      · rw [hprep e (by simpa using he)]
        exact hpos
      · obtain ⟨part, -, he⟩ := List.mem_flatMap.mp he
        have := List.mem_map_of_mem (f := (·.localIndex)) he
        rw [mem_partEntries_index] at this
        exact List.mem_range.mp this
    · have : k ∈ (partEntries c d 0).map (·.localIndex) := by
        rw [mem_partEntries_index]
        exact List.mem_range.mpr hk
      obtain ⟨e, he, hk⟩ := List.mem_map.mp this
      refine ⟨e, List.mem_append_right _ (List.mem_flatMap.mpr ⟨0, List.mem_range.mpr hparts, he⟩), hk⟩

/-! ### One instruction -/

theorem snd_of_lookup {items : List (String × Id)} {key : String} {p : Id} (h : items.lookup key = some p) :
    p ∈ items.map (·.2) := by
  obtain ⟨before, after, rfl, -⟩ := List.lookup_eq_some_iff.mp h
  simp

/-- What the turn of an instruction says of its uops. -/
structure Binding.Traced (bound : List Binding) (i : Instruction) (b : Binding) : Prop where
  instruction : b.instruction = i
  op : b.op.id = i.id
  parents : ∀ x ∈ b.uops, x.parentId = i.id ∧ x.semanticIds ≠ [] ∧
    ∀ q ∈ x.semanticIds, q.1 = i.id ∧ q.2 < i.semanticUops.length
  implemented : ∀ k < i.semanticUops.length, ∃ x ∈ b.uops, (i.id, k) ∈ x.semanticIds
  dependencies : ∀ x ∈ b.uops, ∀ d ∈ x.dependencies, (∃ y ∈ b.uops, y.id = d) ∨
    ∃ producer ∈ i.producers, ∃ cs, terminalsOf bound producer = some cs ∧ ∃ y ∈ cs, y.id = d
  parts : ∀ x ∈ b.uops, ∀ u ∈ x.issueAfterUop, ∃ y ∈ b.uops, y.id = u

theorem executionUop_semantics {semantics : List ℕ} {d : Option Decomposition} {depended : List String}
    {first : ℕ} {e : Entry × ℕ} {x : ExecutionUop}
    (h : executionUop P i c semantics d depended first e = .ok x) :
    x.semanticIds = (entrySemantic semantics e.1).toList.map fun k => (i.id, k) := by
  obtain ⟨_, -, h⟩ := ok_bind.mp h
  obtain ⟨_, -, h⟩ := ok_bind.mp h
  obtain ⟨_, -, h⟩ := ok_bind.mp h
  obtain ⟨_, -, h⟩ := ok_bind.mp h
  obtain ⟨_, -, h⟩ := ok_bind.mp h
  obtain ⟨_, -, h⟩ := ok_bind.mp h
  cases h
  rfl

theorem mem_externalProducers {k : Kind} {firstLocal : Bool} {sources : Option (List String)} {p : Id}
    (h : p ∈ externalProducers i k firstLocal sources) : p ∈ i.producers := by
  have hregister : ∀ q ∈ i.registerDependencies.map (·.2), q ∈ i.producers := by
    intro q hq
    simp [Instruction.producers, hq]
  have hmemory : ∀ q ∈ i.memoryDependencies, q ∈ i.producers := by
    intro q hq
    simp [Instruction.producers, hq]
  have hflags : ∀ q ∈ i.flagsDependency.toList, q ∈ i.producers := by
    intro q hq
    simp only [Instruction.producers, List.mem_append]
    exact .inl (.inl (.inr hq))
  unfold externalProducers at h
  dsimp only at h
  split at h
  · obtain ⟨r, -, hr⟩ := List.mem_filterMap.mp h
    exact hregister p (snd_of_lookup hr)
  · obtain ⟨e, he, rfl⟩ := List.mem_map.mp h
    exact hregister _ (List.mem_map_of_mem (List.mem_of_mem_filter he))
  · rcases List.mem_append.mp h with h | h
    · exact hmemory p h
    · split at h
      · exact hregister p h
      · cases h
  · exact (List.mem_append.mp h).elim (hregister p) (hmemory p)
  · rcases List.mem_append.mp h with h | h
    · exact (List.mem_append.mp h).elim (hregister p) (hmemory p)
    · exact hflags p h

theorem mem_stateProducers {e : Entry} {p : Id} (h : p ∈ stateProducers P i e) : p ∈ i.producers := by
  unfold stateProducers at h
  split at h
  · obtain ⟨r, -, hr⟩ := List.mem_filterMap.mp h
    have := snd_of_lookup hr
    simp [Instruction.producers, this]
  · cases h

theorem mem_oldDestinationProducers {semantics : List ℕ} {e : Entry} {p : Id}
    (h : p ∈ oldDestinationProducers P i semantics e) : p ∈ i.producers := by
  unfold oldDestinationProducers at h
  split at h
  · dsimp only at h
    obtain ⟨r, -, hr⟩ := List.mem_filterMap.mp h
    have hmem := snd_of_lookup hr
    simp only [Instruction.producers, List.mem_append]
    split at hmem
    · next hm => exact .inr (by simpa [hm] using hmem)
    · next hm _ => exact .inl (.inr (by simpa [hm] using hmem))
    · exact .inl (.inl (.inl (.inl hmem)))
  · cases h

theorem issueAfter_mem {uops : List ExecutionUop} {part : Option ℕ} {after : Option Id × ℕ}
    (h : issueAfter P c uops part = .ok after) : ∀ u ∈ after.1, ∃ y ∈ uops, y.id = u := by
  unfold issueAfter at h
  split at h
  · split at h
    · next x hx =>
      obtain ⟨gap, -, rfl⟩ := ok_map.mp h
      intro u hu
      obtain rfl := Option.some.inj hu
      exact ⟨x, List.mem_of_find?_eq_some hx, rfl⟩
    · cases h
      simp
  · cases h
    simp

/-- A linked uop implements what it did, and waits for its own instruction and its producers. -/
theorem linkUop_traced {terminals : Id → Option (List ExecutionUop)} {semantics : List ℕ}
    {pairs : List (Entry × ExecutionUop)} {p q : Entry × ExecutionUop}
    (h : linkUop P terminals i c semantics pairs p = .ok q) :
    q.2.id = p.2.id ∧ q.2.parentId = p.2.parentId ∧ q.2.semanticIds = p.2.semanticIds ∧
      (∀ d ∈ q.2.dependencies, (∃ r ∈ pairs, r.2.id = d) ∨
        ∃ producer ∈ i.producers, ∃ cs, terminals producer = some cs ∧ ∃ y ∈ cs, y.id = d) ∧
      ∀ u ∈ q.2.issueAfterUop, ∃ r ∈ pairs, r.2.id = u := by
  have hwaits := linkUop_waits h
  obtain ⟨internal, -, h⟩ := ok_bind.mp h
  obtain ⟨after, hafter, h⟩ := ok_bind.mp h
  obtain ⟨external, -, h⟩ := ok_bind.mp h
  obtain ⟨state, -, h⟩ := ok_bind.mp h
  obtain ⟨old, -, h⟩ := ok_bind.mp h
  cases h
  refine ⟨rfl, rfl, rfl, fun d hd => ?_, fun u hu => ?_⟩
  · refine (hwaits d hd).imp (fun ⟨name, _, x, hx, hid⟩ => ?_) fun ⟨producer, hproducer, hcs⟩ => ⟨producer, ?_, hcs⟩
    · obtain ⟨r, hr, rfl⟩ := List.mem_map.mp (mem_selected.mp hx).1
      exact ⟨r, List.mem_of_mem_filter hr, hid⟩
    · rcases hproducer with hproducer | hproducer | hproducer
      · exact mem_externalProducers hproducer
      · exact mem_stateProducers hproducer
      · exact mem_oldDestinationProducers hproducer
  · obtain ⟨y, hy, rfl⟩ := issueAfter_mem hafter u hu
    obtain ⟨r, hr, rfl⟩ := List.mem_map.mp hy
    exact ⟨r, hr, rfl⟩

theorem bindInstruction_traced (h : bindInstruction P bound i = .ok b) : b.Traced bound i := by
  obtain ⟨c, hc, h⟩ := ok_bind.mp h
  obtain ⟨semantics, hsemantics, h⟩ := ok_bind.mp h
  obtain ⟨d, hd, h⟩ := ok_bind.mp h
  obtain ⟨entries, hentries, h⟩ := ok_bind.mp h
  obtain ⟨uops, huops, h⟩ := ok_bind.mp h
  obtain ⟨pairs, hpairs, h⟩ := ok_bind.mp h
  obtain ⟨op, hop, h⟩ := ok_bind.mp h
  cases h
  obtain ⟨hne, hlength, hlt, hall⟩ := bindExecutionSemantics_ok hsemantics
  obtain ⟨hindex, hcovers⟩ := entriesFor_index hentries (decompositionFor_ok hd) hne
  -- each entry implements a semantic uop, before and after it is linked
  have hmade : List.Forall₂ (fun e x => x.parentId = i.id ∧
      ∃ k ∈ semantics, semantics[e.localIndex]? = some k ∧ x.semanticIds = [(i.id, k)]) entries uops := by
    rw [← List.zipIdx_map_fst 0 entries, List.forall₂_map_left_iff]
    have hmade := mapM_ok.mp huops
    rw [List.forall₂_iff_zip] at hmade ⊢
    refine ⟨hmade.1, fun {e x} hex => ?_⟩
    have hx := hmade.2 hex
    refine ⟨(executionUop_ok hx).2.1, ?_⟩
    have hlt := hindex e.1 (List.fst_mem_of_mem_zipIdx (List.of_mem_zip hex).1)
    rw [← hlength] at hlt
    refine ⟨semantics[e.1.localIndex], List.getElem_mem hlt, List.getElem?_eq_getElem hlt, ?_⟩
    rw [executionUop_semantics hx, entrySemantic, List.getElem?_eq_getElem hlt]
    rfl
  obtain ⟨hsame, hzip⟩ := List.forall₂_iff_zip.mp hmade
  have hlinked := (mapM_ok.mp hpairs).imp fun p q hq => linkUop_traced hq
  have huop : ∀ x ∈ pairs.map (·.2), ∃ e y, (e, y) ∈ entries.zip uops ∧ x.id = y.id ∧ x.parentId = y.parentId ∧
      x.semanticIds = y.semanticIds ∧ (∀ d ∈ x.dependencies, (∃ r ∈ entries.zip uops, r.2.id = d) ∨
        ∃ producer ∈ i.producers, ∃ cs, terminalsOf bound producer = some cs ∧ ∃ y ∈ cs, y.id = d) ∧
      ∀ u ∈ x.issueAfterUop, ∃ r ∈ entries.zip uops, r.2.id = u := by
    intro x hx
    obtain ⟨q, hq, rfl⟩ := List.mem_map.mp hx
    obtain ⟨⟨e, y⟩, hp, hid, hparent, hids, hdep, hpart⟩ := forall₂_right hlinked hq
    exact ⟨e, y, hp, hid, hparent, hids, hdep, hpart⟩
  have hback : ∀ r ∈ entries.zip uops, ∃ x ∈ pairs.map (·.2), x.id = r.2.id ∧ x.semanticIds = r.2.semanticIds := by
    intro r hr
    obtain ⟨q, hq, hid, -, hids, -⟩ := forall₂_left hlinked hr
    exact ⟨q.2, List.mem_map_of_mem hq, hid, hids⟩
  refine ⟨rfl, ?_, fun x hx => ?_, fun k hk => ?_, fun x hx d hd => ?_, fun x hx u hu => ?_⟩
  · obtain ⟨_, -, hop⟩ := ok_bind.mp hop
    obtain ⟨_, -, hop⟩ := ok_bind.mp hop
    cases hop
    rfl
  · obtain ⟨e, y, hey, -, hparent, hids, -⟩ := huop x hx
    obtain ⟨hp, k, hk, -, hyk⟩ := hzip hey
    rw [hids, hyk, hparent, hp]
    have hlt := hlt k hk
    simp only [Instruction.semanticKinds, List.length_map] at hlt
    simp [hlt]
  · obtain ⟨j, hj⟩ := List.mem_iff_getElem?.mp (hall k (by simpa [Instruction.semanticKinds] using hk))
    obtain ⟨e, he, rfl⟩ := hcovers j (hlength ▸ (List.getElem?_eq_some_iff.mp hj).1)
    obtain ⟨n, hn, hen⟩ := List.mem_iff_getElem.mp he
    have hnu : n < uops.length := hsame ▸ hn
    have hmem : (e, uops[n]) ∈ entries.zip uops := by
      refine List.mem_iff_getElem.mpr ⟨n, by simp [hn, hnu], ?_⟩
      rw [List.getElem_zip, hen]
    obtain ⟨-, k', -, hk', hids⟩ := hzip hmem
    obtain rfl : k' = k := Option.some.inj (hk'.symm.trans hj)
    obtain ⟨x, hx, -, hxids⟩ := hback _ hmem
    exact ⟨x, hx, by rw [hxids, hids]; exact List.mem_singleton_self _⟩
  · obtain ⟨e, y, -, -, -, -, hdep, -⟩ := huop x hx
    refine (hdep d hd).imp_left ?_
    rintro ⟨r, hr, rfl⟩
    obtain ⟨x', hx', hid, -⟩ := hback r hr
    exact ⟨x', hx', hid⟩
  · obtain ⟨e, y, -, -, -, -, -, hpart⟩ := huop x hx
    obtain ⟨r, hr, rfl⟩ := hpart u hu
    obtain ⟨x', hx', hid, -⟩ := hback r hr
    exact ⟨x', hx', hid⟩

/-! ### The trace -/

/-- **In a trace of the binder every uop has its provenance.** -/
theorem bind_provenance {source : List Instruction} {T : BoundTrace} (h : bind P source = .ok T) : Provenance T := by
  obtain ⟨bound, hbound, h⟩ := ok_bind.mp h
  obtain ⟨resources, -, h⟩ := ok_bind.mp h
  have hmacros : T.macros = bound.map (·.op) := by cases h; rfl
  have huops : T.uops = bound.flatMap (·.uops) := by cases h; rfl
  have hsource : T.source = source := by cases h; rfl
  obtain ⟨hlength, hmade⟩ := bindAll_made hbound
  have htraced : ∀ k i, source[k]? = some i →
      ∃ b : Binding, bound[k]? = some b ∧ b.Traced (bound.take k) i := by
    intro k i hi
    obtain ⟨b, hb, hbind⟩ := hmade k i hi
    exact ⟨b, hb, bindInstruction_traced hbind⟩
  have hof : ∀ x ∈ T.uops, ∃ (k : ℕ) (i : Instruction) (b : Binding),
      source[k]? = some i ∧ bound[k]? = some b ∧ b.Traced (bound.take k) i ∧ x ∈ b.uops := by
    intro x hx
    rw [huops] at hx
    obtain ⟨b, hb, hx⟩ := List.mem_flatMap.mp hx
    obtain ⟨k, hk⟩ := List.mem_iff_getElem?.mp hb
    have hlt : k < source.length := hlength ▸ (List.getElem?_eq_some_iff.mp hk).1
    obtain ⟨b', hb', ht⟩ := htraced k _ (List.getElem?_eq_getElem hlt)
    obtain rfl : b' = b := Option.some.inj (hb'.symm.trans hk)
    exact ⟨k, _, b', List.getElem?_eq_getElem hlt, hk, ht, hx⟩
  have hmem : ∀ {b : Binding} {x : ExecutionUop}, b ∈ bound → x ∈ b.uops → x ∈ T.uops := by
    intro b x hb hx
    rw [huops]
    exact List.mem_flatMap.mpr ⟨b, hb, hx⟩
  refine ⟨?_, fun x hx => ?_, fun i hi k hk => ?_, fun x hx d hd => ?_, fun x hx u hu => ?_⟩
  · rw [hsource, hmacros, List.map_map]
    refine List.ext_getElem? fun k => ?_
    rw [List.getElem?_map, List.getElem?_map]
    cases hi : source[k]? with
    | none =>
      have : bound[k]? = none := by
        rw [List.getElem?_eq_none_iff] at hi ⊢
        omega
      rw [this]
      rfl
    | some i =>
      obtain ⟨b, hb, ht⟩ := htraced k i hi
      rw [hb]
      simp [ht.op]
  · obtain ⟨k, i, b, hi, hb, ht, hx⟩ := hof x hx
    obtain ⟨hp, hne, hq⟩ := ht.parents x hx
    rw [hp, hsource]
    exact ⟨hne, fun q hqm => ⟨(hq q hqm).1, i, List.mem_of_getElem? hi, rfl, (hq q hqm).2⟩⟩
  · rw [hsource] at hi
    obtain ⟨n, hn⟩ := List.mem_iff_getElem?.mp hi
    obtain ⟨b, hb, ht⟩ := htraced n i hn
    obtain ⟨x, hx, hids⟩ := ht.implemented k hk
    exact ⟨x, hmem (List.mem_of_getElem? hb) hx, hids⟩
  · obtain ⟨k, i, b, hi, hb, ht, hx⟩ := hof x hx
    rcases ht.dependencies x hx d hd with ⟨y, hy, hid⟩ | ⟨producer, hproducer, cs, hcs, y, hy, hid⟩
    · refine ⟨y, hmem (List.mem_of_getElem? hb) hy, hid, .inl ?_⟩
      rw [(ht.parents x hx).1, (ht.parents y hy).1]
    · -- the producer is bound before
      obtain ⟨b', hb', hproducer', rfl⟩ := terminalsOf_some hcs
      have hyb : y ∈ b'.uops := by
        obtain ⟨q, hq, rfl⟩ := List.mem_map.mp hy
        exact List.mem_map_of_mem (List.mem_of_mem_filter hq)
      obtain ⟨j, hj⟩ := List.mem_iff_getElem?.mp hb'
      have hjk : j < k := by
        have := (List.getElem?_eq_some_iff.mp hj).1
        rw [List.length_take] at this
        omega
      rw [List.getElem?_take_of_lt hjk] at hj
      have hjs : j < source.length := hlength ▸ (List.getElem?_eq_some_iff.mp hj).1
      obtain ⟨b'', hb'', ht'⟩ := htraced j _ (List.getElem?_eq_getElem hjs)
      obtain rfl : b'' = b' := Option.some.inj (hb''.symm.trans hj)
      have hparent : y.parentId = producer := by
        rw [(ht'.parents y hyb).1, ← hproducer', ht'.instruction]
      refine ⟨y, hmem (List.mem_of_getElem? hj) hyb, hid, .inr ⟨?_, i, ?_, ?_, hparent ▸ hproducer⟩⟩
      · refine ⟨(source.map (·.id)).take k, (source.map (·.id)).drop (k + 1), ?_, ?_⟩
        · have hk : (source.map (·.id))[k]? = some x.parentId := by
            rw [List.getElem?_map, hi, (ht.parents x hx).1]
            rfl
          obtain ⟨hkl, hke⟩ := List.getElem?_eq_some_iff.mp hk
          rw [hsource, ← hke, List.cons_getElem_drop_succ, List.take_append_drop]
        · refine List.mem_iff_getElem?.mpr ⟨j, ?_⟩
          rw [List.getElem?_take_of_lt hjk, List.getElem?_map, List.getElem?_eq_getElem hjs, (ht'.parents y hyb).1]
          rfl
      · rw [hsource]
        exact List.mem_of_getElem? hi
      · rw [(ht.parents x hx).1]
  · obtain ⟨k, i, b, hi, hb, ht, hx⟩ := hof x hx
    obtain ⟨y, hy, hid⟩ := ht.parts x hx u hu
    refine ⟨y, hmem (List.mem_of_getElem? hb) hy, hid, ?_⟩
    rw [(ht.parents x hx).1, (ht.parents y hy).1]

end Bind

/-! ### The expanded trace -/

namespace Expander

variable {T : BoundTrace} {P : EngineProfile}

theorem groupsByPart_covers {execution : List ExecutionUop} {x : ExecutionUop} (hx : x ∈ execution) {k : ℕ}
    (hk : x.partIndex = some k) : ∃ g ∈ groupsByPart execution, x ∈ g.2 := by
  refine ⟨_, List.mem_map_of_mem (a := k) ?_, List.mem_filter.mpr ⟨hx, by simpa using hk⟩⟩
  rw [List.mem_insertionSort, List.mem_dedup]
  exact List.mem_filterMap.mpr ⟨x, hx, hk⟩

/-- A uop is of no part, or of one. -/
theorem partition_covers {a b : String} {execution : List ExecutionUop} {x : ExecutionUop} (hx : x ∈ execution) :
    ∃ g ∈ prepGroups a execution ++ partGroups b execution, x ∈ g.uops := by
  cases hk : x.partIndex with
  | none =>
    refine ⟨{ role := a, uops := [x] }, List.mem_append_left _ ?_, List.mem_singleton_self x⟩
    exact List.mem_map.mpr ⟨x, List.mem_filter.mpr ⟨hx, by simpa using hk⟩, rfl⟩
  | some k =>
    obtain ⟨g, hg, hxg⟩ := groupsByPart_covers hx hk
    exact ⟨{ role := b, uops := g.2 }, List.mem_append_right _ (List.mem_map.mpr ⟨g, hg, rfl⟩), hxg⟩

theorem syntheticSequence_covers {role : String} {m : MacroOp} {execution : List ExecutionUop} {groups : List Group}
    (h : syntheticSequence role m execution = .ok groups) (hm : 1 ≤ m.decodedMacroOps) {x : ExecutionUop}
    (hx : x ∈ execution) : ∃ g ∈ groups, x ∈ g.uops := by
  unfold syntheticSequence at h
  split at h
  · cases h
  · cases h
    -- the last entry has them all
    refine ⟨_, List.mem_map_of_mem (a := m.decodedMacroOps - 1) (List.mem_range.mpr (by omega)), ?_⟩
    simpa using hx

/-- Every execution uop of a macro-op is in a group. -/
theorem groupsForMacro_covers {width : PositiveParam} {m : MacroOp} {i : Instruction} {execution : List ExecutionUop}
    {groups : List Group} (h : groupsForMacro width m i execution = .ok groups) (hm : 1 ≤ m.decodedMacroOps)
    {x : ExecutionUop} (hx : x ∈ execution) : ∃ g ∈ groups, x ∈ g.uops := by
  unfold groupsForMacro at h
  split at h
  · exact syntheticSequence_covers h hm hx
  · split at h
    · exact syntheticSequence_covers h hm hx
    · split at h
      · unfold vectorMemoryGroups at h
        split at h
        · cases h
        · split at h
          · cases h
          · cases h
            exact partition_covers hx
      · split at h
        · unfold vectorComputeGroups at h
          split at h
          · cases h
          · cases h
            exact partition_covers hx
        · cases h
          exact ⟨_, List.mem_map_of_mem hx, List.mem_singleton_self x⟩

/-- What an entry waits for by itself is an entry before it. -/
theorem slotsOf_local {m : MacroOp} {execution : List ExecutionUop} : ∀ {gs : List (Group × ℕ)}
    {previous : Option Id} {slots : List Slot}, slotsOf m execution previous gs = .ok slots →
      ∀ s ∈ slots, ∀ d ∈ s.localDependencies, previous = some d ∨ ∃ s' ∈ slots, s'.id = d
  | [], _, slots, h, s, hs, d, hd => by
    cases h
    cases hs
  | g :: gs, previous, slots, h, s, hs, d, hd => by
    obtain ⟨slot, hslot, h⟩ := ok_bind.mp h
    obtain ⟨rest, hrest, h⟩ := ok_bind.mp h
    cases h
    rcases List.mem_cons.mp hs with rfl | hs
    · rw [(slotOf_made hslot).2] at hd
      split at hd
      · exact .inl (by simpa using hd)
      · cases hd
    · rcases slotsOf_local hrest s hs d hd with he | ⟨s', hs', he⟩
      · split at he
        · exact .inr ⟨slot, List.mem_cons_self, Option.some.inj he⟩
        · exact .inl he
      · exact .inr ⟨s', List.mem_cons_of_mem _ hs', he⟩

/-- What the expander makes of a trace: the entries of its macro-ops, which have every uop. -/
structure Expands (T : BoundTrace) (slots : List (Slot × List Id)) : Prop where
  translated : ∀ e ∈ slots, translated (slots.map (·.1)) e.1 = .ok e.2
  parent : ∀ e ∈ slots, ∃ m ∈ T.macros, e.1.parentId = m.id ∧ e.1.macroUops = executionOf T m ∧
    ∀ x ∈ e.1.uops, x ∈ executionOf T m
  own : ∀ e ∈ slots, ∀ d ∈ e.1.localDependencies, ∃ e' ∈ slots, e'.1.id = d ∧ e'.1.parentId = e.1.parentId
  covers : ∀ m ∈ T.macros, ∀ x ∈ executionOf T m, ∃ e ∈ slots, x ∈ e.1.uops

theorem expand_expands (hcount : ∀ m ∈ T.macros, 1 ≤ m.decodedMacroOps) {slots : List (Slot × List Id)}
    (h : expand T P = .ok slots) : Expands T slots := by
  obtain ⟨byMacro, hfirst, hby, htranslated, -⟩ := expand_byMacro h
  have hback : ∀ l ∈ byMacro, ∀ s ∈ l, ∃ e ∈ slots, e.1 = s := by
    intro l hl s hs
    have hmem : s ∈ slots.map (·.1) := hfirst ▸ List.mem_flatten.mpr ⟨l, hl, hs⟩
    obtain ⟨e, he, rfl⟩ := List.mem_map.mp hmem
    exact ⟨e, he, rfl⟩
  refine ⟨htranslated, expand_parent h, fun e he d hd => ?_, fun m hm x hx => ?_⟩
  · obtain ⟨l, hl, hel⟩ := List.mem_flatten.mp (hfirst ▸ List.mem_map_of_mem he)
    obtain ⟨m, -, hok⟩ := forall₂_right hby hl
    have hparent := slotsForMacro_parent hok
    unfold slotsForMacro at hok
    split at hok
    · cases hok
    · obtain ⟨groups, -, hok⟩ := ok_bind.mp hok
      obtain ⟨s', hs', hid⟩ := (slotsOf_local hok e.1 hel d hd).resolve_left (by simp)
      obtain ⟨e', he', rfl⟩ := hback l hl s' hs'
      exact ⟨e', he', hid, (hparent _ hs').trans (hparent _ hel).symm⟩
  · obtain ⟨l, hl, hok⟩ := forall₂_left hby hm
    unfold slotsForMacro at hok
    split at hok
    · cases hok
    · obtain ⟨groups, hgroups, hok⟩ := ok_bind.mp hok
      obtain ⟨g, hg, hxg⟩ := groupsForMacro_covers hgroups (hcount m hm) hx
      rw [← List.zipIdx_map_fst 0 groups] at hg
      obtain ⟨g', hg', rfl⟩ := List.mem_map.mp hg
      obtain ⟨s, hs, hmade⟩ := forall₂_left (slotsOf_made hok) hg'
      obtain ⟨e, he, rfl⟩ := hback l hl s hs
      exact ⟨e, he, hmade.uops ▸ hxg⟩

/-- The execution uops an entry stands for. -/
def candidatesOf (s : Slot) : List ExecutionUop := if s.uops = [] then s.macroUops else s.uops

/-- The fields of the uop of an entry, which takes its timing from a uop of the trace. -/
structure Copies (slots : List Slot) (e : Slot × List Id) (owner y : ExecutionUop) : Prop where
  id : y.id = e.1.id
  parent : y.parentId = owner.parentId
  semanticIds : y.semanticIds = orderedUnique ((candidatesOf e.1).flatMap (·.semanticIds))
  dependencies : y.dependencies = e.2
  vectorState : y.vectorStateDependencies = translateAll slots e.1.id (e.1.uops.flatMap (·.vectorStateDependencies))
  oldDestination :
    y.oldDestinationDependencies = translateAll slots e.1.id (e.1.uops.flatMap (·.oldDestinationDependencies))
  partIndex : y.partIndex = e.1.partIndex
  partCount : y.partCount = e.1.partCount
  partitions : y.schedulerPartitionChoices.Nodup
  units : y.executionUnitChoices.Nodup
  domains : y.issueDomains = owner.issueDomains
  demands : y.issueDomainDemands = owner.issueDomainDemands
  renames : y.renameAllocations ⊆ owner.renameAllocations
  resources : y.resourceChoices = owner.resourceChoices
  predecessor : ∀ u ∈ y.issueAfterUop, ∃ v ∈ owner.issueAfterUop, ownerOf slots v = some u

theorem materializeUop_copies {slots : List Slot} {tpc : ℕ} {e : (Slot × List Id) × ℕ} {y : ExecutionUop}
    (h : materializeUop slots tpc e = some y) : ∃ owner ∈ candidatesOf e.1.1, Copies slots e.1 owner y := by
  obtain ⟨owner, howner, rfl⟩ := Option.map_eq_some_iff.mp h
  refine ⟨owner, ownerUop_mem howner, ?_⟩
  have hpredecessor : ∀ u ∈ (owner.issueAfterUop.bind (ownerOf slots)).filter (· ≠ e.1.1.id),
      ∃ v ∈ owner.issueAfterUop, ownerOf slots v = some u := by
    intro u hu
    obtain ⟨v, hv, hu⟩ := Option.bind_eq_some_iff.mp (Option.filter_eq_some_iff.mp hu).1
    exact ⟨v, hv, hu⟩
  dsimp only
  split
  · next hnil =>
    exact ⟨rfl, rfl, by rw [candidatesOf, if_pos hnil], rfl, rfl, rfl, rfl, rfl, nodup_orderedUnique _,
      nodup_orderedUnique _, rfl, rfl, List.nil_subset _, rfl, hpredecessor⟩
  · next hne =>
    exact ⟨rfl, rfl, by rw [candidatesOf, if_neg hne], rfl, rfl, rfl, rfl, rfl, nodup_orderedUnique _,
      nodup_orderedUnique _, rfl, rfl, List.Subset.refl _, rfl, hpredecessor⟩

/-- What an entry waits for is an entry of its macro-op before it, or one that has a uop that one
of its uops waits for. -/
theorem mem_translated {slots : List Slot} {s : Slot} {ids : List Id} (h : translated slots s = .ok ids) :
    ∀ d ∈ ids, d ∈ s.localDependencies ∨ ∃ x ∈ s.uops, ∃ u ∈ x.dependencies, ownerOf slots u = some d := by
  obtain ⟨owners, howners, h⟩ := ok_bind.mp h
  cases h
  intro d hd
  have hd := List.mem_dedup.mp (List.mem_of_mem_filter hd)
  rcases List.mem_append.mp hd with hd | hd
  · exact .inl hd
  · obtain ⟨u, hu, hok⟩ := forall₂_right (mapM_ok.mp howners) hd
    obtain ⟨x, hx, hu⟩ := List.mem_flatMap.mp (List.mem_dedup.mp (List.mem_of_mem_filter hu))
    refine .inr ⟨x, hx, u, hu, ?_⟩
    split at hok
    · next o ho =>
      cases hok
      exact ho
    · cases hok

theorem mem_candidatesOf {s : Slot} {x : ExecutionUop} (hx : x ∈ s.uops) : x ∈ candidatesOf s := by
  unfold candidatesOf
  rw [if_neg (List.ne_nil_of_mem hx)]
  exact hx

namespace Expands

variable {slots : List (Slot × List Id)} (hS : Expands T slots) (hT : WellFormed T)

include hS hT

/-- The uops an entry stands for are of its macro-op. -/
theorem candidates {e : Slot × List Id} (he : e ∈ slots) :
    candidatesOf e.1 ≠ [] ∧ ∀ x ∈ candidatesOf e.1, x ∈ T.uops ∧ x.parentId = e.1.parentId := by
  obtain ⟨m, hm, hparent, hmac, huops⟩ := hS.parent e he
  rw [hparent]
  unfold candidatesOf
  split
  · rw [hmac]
    exact ⟨executionOf_ne_nil hT hm, fun x hx => mem_executionOf hT hm hx⟩
  · next hne => exact ⟨hne, fun x hx => mem_executionOf hT hm (huops x hx)⟩

theorem uops_own {e : Slot × List Id} (he : e ∈ slots) {x : ExecutionUop} (hx : x ∈ e.1.uops) :
    x ∈ T.uops ∧ x.parentId = e.1.parentId :=
  (hS.candidates hT he).2 x (mem_candidatesOf hx)

/-- Every uop is in an entry of its macro-op. -/
theorem covered {x : ExecutionUop} (hx : x ∈ T.uops) : ∃ e ∈ slots, x ∈ e.1.uops ∧ e.1.parentId = x.parentId := by
  obtain ⟨m, hm, -, -, hlisted⟩ := hT.mem_parent hx
  obtain ⟨e, he, hxe⟩ := hS.covers m hm x (List.mem_filterMap.mpr ⟨_, hlisted, hT.uop?_eq hx⟩)
  exact ⟨e, he, hxe, (hS.uops_own hT he hxe).2.symm⟩

/-- Every uop of the scheduler-visible trace is that of an entry. -/
theorem copies {y : ExecutionUop} (hy : y ∈ (materialize T slots).uops) : ∃ e ∈ slots, ∃ owner ∈ candidatesOf e.1,
    Copies (slots.map (·.1)) e owner y ∧ y.parentId = e.1.parentId := by
  obtain ⟨n, hn, hy⟩ := List.mem_filterMap.mp hy
  obtain ⟨owner, howner, hcopies⟩ := materializeUop_copies hy
  have he := List.fst_mem_of_mem_zipIdx hn
  exact ⟨n.1, he, owner, howner, hcopies, hcopies.parent.trans ((hS.candidates hT he).2 owner howner).2⟩

/-- Every entry has a uop there. -/
theorem uop_of_entry {e : Slot × List Id} (he : e ∈ slots) : ∃ y ∈ (materialize T slots).uops, ∃ owner,
    Copies (slots.map (·.1)) e owner y ∧ y.parentId = e.1.parentId := by
  rw [← List.zipIdx_map_fst 0 slots] at he
  obtain ⟨n, hn, rfl⟩ := List.mem_map.mp he
  have he := List.fst_mem_of_mem_zipIdx hn
  obtain ⟨m, hm, -, hmac, -⟩ := hS.parent n.1 he
  obtain ⟨y, hy, -⟩ : ∃ y, materializeUop (slots.map (·.1)) T.ticksPerCycle n = some y ∧ y.id = n.1.1.id :=
    materializeUop_id (hmac ▸ executionOf_ne_nil hT hm)
  obtain ⟨owner, howner, hcopies⟩ := materializeUop_copies hy
  exact ⟨y, List.mem_filterMap.mpr ⟨n, hn, hy⟩, owner, hcopies,
    hcopies.parent.trans ((hS.candidates hT he).2 owner howner).2⟩

/-- A uop that another waits for is in an entry, which has a uop. -/
theorem uop_of_owner {u o : Id} (ho : ownerOf (slots.map (·.1)) u = some o) {y : ExecutionUop} (hy : y ∈ T.uops)
    (hid : y.id = u) : ∃ z ∈ (materialize T slots).uops, z.id = o ∧ z.parentId = y.parentId := by
  obtain ⟨s, hs, rfl⟩ := Option.map_eq_some_iff.mp ho
  obtain ⟨e, he, rfl⟩ := List.mem_map.mp (List.mem_of_find?_eq_some hs)
  have hmem : u ∈ e.1.uops.map (·.id) := by simpa using List.find?_some hs
  obtain ⟨y', hy', hid'⟩ := List.mem_map.mp hmem
  obtain ⟨hmem, hparent⟩ := hS.uops_own hT he hy'
  obtain rfl : y' = y := List.inj_on_of_nodup_map hT.uopIds hmem hy (hid'.trans hid.symm)
  obtain ⟨z, hz, _, hcopies, hzparent⟩ := hS.uop_of_entry hT he
  exact ⟨z, hz, hcopies.id, hzparent.trans hparent.symm⟩

end Expands

/-- **The expander keeps the provenance.** -/
theorem materialize_provenance (hT : WellFormed T) (hP : Provenance T) {slots : List (Slot × List Id)}
    (hS : Expands T slots) : Provenance (materialize T slots) := by
  refine ⟨?_, fun x hx => ?_, fun i hi k hk => ?_, fun x hx d hd => ?_, fun x hx u hu => ?_⟩
  · refine hP.source.trans ?_
    unfold materialize
    dsimp only
    rw [List.map_map]
    rfl
  · obtain ⟨e, he, _, -, hcopies, hparent⟩ := hS.copies hT hx
    obtain ⟨hne, hall⟩ := hS.candidates hT he
    obtain ⟨y, hy⟩ := List.exists_mem_of_ne_nil _ hne
    obtain ⟨q, hq⟩ := List.exists_mem_of_ne_nil _ (hP.parents y (hall y hy).1).1
    have hmem : ∀ q, q ∈ x.semanticIds ↔ ∃ y ∈ candidatesOf e.1, q ∈ y.semanticIds := by
      intro q
      rw [hcopies.semanticIds, mem_orderedUnique, List.mem_flatMap]
    refine ⟨List.ne_nil_of_mem ((hmem q).mpr ⟨y, hy, hq⟩), fun q hq => ?_⟩
    obtain ⟨y, hy, hq⟩ := (hmem q).mp hq
    obtain ⟨hparent', i, hi, hid, hlt⟩ := (hP.parents y (hall y hy).1).2 q hq
    rw [hparent, ← (hall y hy).2]
    exact ⟨hparent', i, hi, hid, hlt⟩
  · obtain ⟨y, hy, hq⟩ := hP.implemented i hi k hk
    obtain ⟨e, he, hye, -⟩ := hS.covered hT hy
    obtain ⟨x, hx, _, hcopies, -⟩ := hS.uop_of_entry hT he
    refine ⟨x, hx, ?_⟩
    rw [hcopies.semanticIds, mem_orderedUnique, List.mem_flatMap]
    exact ⟨y, mem_candidatesOf hye, hq⟩
  · obtain ⟨e, he, _, -, hcopies, hparent⟩ := hS.copies hT hx
    rw [hcopies.dependencies] at hd
    rcases mem_translated (hS.translated e he) d hd with hlocal | ⟨w, hw, u, hu, ho⟩
    · obtain ⟨e', he', hid, hsame⟩ := hS.own e he d hlocal
      obtain ⟨z, hz, _, hcopies', hzparent⟩ := hS.uop_of_entry hT he'
      exact ⟨z, hz, hcopies'.id.trans hid, .inl (hzparent.trans (hsame.trans hparent.symm))⟩
    · obtain ⟨hwmem, hwparent⟩ := hS.uops_own hT he hw
      obtain ⟨y, hy, hid, hwhy⟩ := hP.dependencies w hwmem u hu
      obtain ⟨z, hz, hzid, hzparent⟩ := hS.uop_of_owner hT ho hy hid
      refine ⟨z, hz, hzid, ?_⟩
      rw [hzparent, hparent, ← hwparent]
      exact hwhy
  · obtain ⟨e, he, owner, howner, hcopies, hparent⟩ := hS.copies hT hx
    obtain ⟨v, hv, ho⟩ := hcopies.predecessor u hu
    obtain ⟨hmem, hown⟩ := (hS.candidates hT he).2 owner howner
    obtain ⟨y, hy, hid, hsame⟩ := hP.parts owner hmem v hv
    obtain ⟨z, hz, hzid, hzparent⟩ := hS.uop_of_owner hT ho hy hid
    exact ⟨z, hz, hzid, hzparent.trans (hsame.trans (hown.trans hparent.symm))⟩

end Expander

theorem decoded_of_valid {T : BoundTrace} (h : validateBoundTrace T = .ok ()) : ∀ m ∈ T.macros, 1 ≤ m.decodedMacroOps := by
  simp only [validateBoundTrace, ok_bind, check_ok, forM_ok, exists_const] at h
  intro m hm
  have := h.2.2.1 m hm
  simp only [validateMacro, ok_bind, check_ok, forM_ok, exists_const] at this
  exact this.1

/-- The trace the XSAI engine schedules has its provenance. -/
theorem Xsai.schedulerTrace_provenance {T T' : BoundTrace} {P : EngineProfile} {expand : Bool} (hP : Provenance T)
    (h : schedulerTrace T P expand = .ok T') : Provenance T' := by
  unfold schedulerTrace at h
  split at h
  · cases h
  · next hv =>
    split at h
    · split at h
      · cases h
      · next slots hslots =>
        dsimp only at h
        split at h
        · cases h
        · cases h
          exact Expander.materialize_provenance (wellFormed_of_valid hv) hP
            (Expander.expand_expands (decoded_of_valid hv) hslots)
    · cases h
      exact hP

end VectorSim
