/-
# The binder and the expander count the parts of an operation alike

The binder makes the parts of a vector operation by a rule of the profile or by the
indices in its recipe; the expander of the XSAI engine counts on its own how many there
should be: of a vector access those of `vl * SEW` bits, of another vector operation
those of its register group, and of a configuration or a reduction one. It returns just
where the two counts agree, and then its flows are the parts of the binder
(`decompositions_agree_iff`). A dynamic rule divides the bytes of the access, and these
are of `vl` elements of 32 bits, whatever SEW is (`narrow_load_refused`).
-/
import VectorSim.BufferSafety
import VectorSim.Flows
import VectorSim.Validity

namespace VectorSim

open Checked Expander

/-! ### The parts of the binder -/

variable {P : Profile} {i : Instruction} {c : ChosenRecipe} {bound : List Binding} {b : Binding}
  {source : List Instruction} {T : BoundTrace}

/-- The rule makes `n` parts: it says `n`, or the register group has `n` registers, or `n` registers hold
the bits of the access (of an operation without one, the active bits). -/
def PartsRule.Makes (rule : PartsRule) (i : Instruction) (state : VectorState) (w n : ℕ) : Prop :=
  match rule with
  | .fixed k => k = n
  | .lmul => lmulParts state.lmul = n
  | .dynamic => partsOfBits ((i.memory.map (·.bytes * 8)).getD (i.activeVectorBits.getD w)) w = n
  | .lmulPlusOne | .measure => False

/-- The rule that the backend has for an instruction of the recipe. -/
def ruleOf (P : Profile) (i : Instruction) (c : ChosenRecipe) : Option (DecompositionRule × VectorState) :=
  if c.recipe.decomposition.isSome then none else ruleFor P i

/-- The parts of an instruction by a rule of the backend, else by the indices in its recipe. -/
def PartsBy (P : Profile) (i : Instruction) (r : Recipe) (n : ℕ) : Option (DecompositionRule × VectorState) → Prop
  | some (rule, state) => ∀ w ∈ P.registerWidthBits, rule.parts.Makes i state w n
  | none => (r.uops.filterMap (·.partIndex)).dedup.length = n

/-- One piece: the rule makes one part and no prep uop, or the uops of the recipe have the same index, or
none. -/
def OnePartBy (P : Profile) (i : Instruction) (r : Recipe) : Option (DecompositionRule × VectorState) → Prop
  | some (rule, state) => rule.prepUops = none ∧ ∀ w ∈ P.registerWidthBits, rule.parts.Makes i state w 1
  | none => ∀ u ∈ r.uops, ∀ v ∈ r.uops, u.partIndex = v.partIndex

/-- The instruction has `n` parts. -/
def InParts (P : Profile) (i : Instruction) (n : ℕ) : Prop :=
  ∀ c, chooseRecipe P i = .ok c → PartsBy P i c.recipe n (ruleOf P i c)

/-- The instruction is in one piece. -/
def InOnePart (P : Profile) (i : Instruction) : Prop :=
  ∀ c, chooseRecipe P i = .ok c → OnePartBy P i c.recipe (ruleOf P i c)

/-- The parts of the instruction are those that the expander counts. -/
def PartsFit (P : Profile) (i : Instruction) : Prop :=
  PartsExpected P.registerWidthBits i (InOnePart P i) (InParts P i)

theorem Ruled.makes_iff {d : Decomposition} {rule : DecompositionRule} {state : VectorState} {w : ℕ+}
    (h : Ruled P i d rule state w) {n : ℕ} : rule.parts.Makes i state w n ↔ d.parts = n := by
  obtain ⟨k, hk, hparts⟩ := h.parts
  rw [hparts]
  unfold PartsRule.Makes
  cases hr : rule.parts with
  | fixed j =>
    rw [hr] at hk
    cases hk
    rw [Nat.max_eq_right j.pos]
  | lmul =>
    rw [hr] at hk
    cases hk
    have hpos : 1 ≤ lmulParts state.lmul := by
      rcases state.lmul with _ | _ | _ | _ | _ | _ | _ | _ <;> decide
    rw [Nat.max_eq_right hpos]
  | dynamic =>
    rw [hr] at hk
    unfold vectorPartCount at hk
    unfold partsOfBits
    cases hm : i.memory with
    | none =>
      rw [hm] at hk
      cases hk
      rw [Nat.max_eq_right (le_max_left _ _)]
      rfl
    | some m =>
      rw [hm] at hk
      cases hk
      rw [Nat.max_eq_right (le_max_left _ _)]
      rfl
  | lmulPlusOne =>
    rw [hr] at hk
    cases hk
  | measure =>
    rw [hr] at hk
    cases hk

theorem ruleOf_some {d : Decomposition} (h : decompositionFor P i c = .ok (some d)) :
    ∃ rule state w, ruleOf P i c = some (rule, state) ∧ Ruled P i d rule state w := by
  obtain ⟨hnone, rule, state, w, hruled⟩ := decompositionFor_some h
  refine ⟨rule, state, w, ?_, hruled⟩
  unfold ruleOf
  rw [if_neg (by simp [hnone]), hruled.found]

theorem ruleOf_none (h : decompositionFor P i c = .ok none) : ruleOf P i c = none := by
  unfold ruleOf
  split
  · rfl
  · next hno => exact (decompositionFor_none h).resolve_left hno

/-- **An access that a dynamic rule divides** has the expander's parts just where its `vl` elements of 32 bits
fill as many registers as `vl` elements of SEW bits. -/
theorem dynamic_access_fits_iff {c : ChosenRecipe} {rule : DecompositionRule} {recorded : VectorState} {w : ℕ+}
    {a : MemoryAccess} {vl sew : ℕ} (hi : IsVectorAccess i) (hc : chooseRecipe P i = .ok c)
    (hrule : ruleOf P i c = some (rule, recorded)) (hdynamic : rule.parts = .dynamic)
    (hw : P.registerWidthBits = some w) (ha : i.memory = some a) (hbytes : a.bytes = vl * 4)
    (hbits : i.activeVectorBits = some (vl * sew)) :
    PartsFit P i ↔ partsOfBits (vl * 32) w = partsOfBits (vl * sew) w := by
  obtain ⟨hchain, hmemory, hkind⟩ := hi
  have hparts : ∀ n, InParts P i n ↔ partsOfBits (vl * 32) w = n := by
    intro n
    have hmakes : rule.parts.Makes i recorded w n ↔ partsOfBits (vl * 32) w = n := by
      rw [hdynamic]
      unfold PartsRule.Makes
      rw [ha, Option.map_some, Option.getD_some, hbytes, Nat.mul_assoc]
    constructor
    · intro h
      have hby := h c hc
      rw [hrule] at hby
      exact hmakes.mp (hby w hw)
    · intro h c' hc'
      obtain rfl := Except.ok.inj (hc.symm.trans hc')
      rw [hrule]
      intro w' hw'
      obtain rfl := Option.some.inj (hw.symm.trans hw')
      exact hmakes.mpr h
  constructor
  · intro h
    obtain ⟨w', hw', hfits⟩ := h.access hchain a ha hkind
    obtain rfl := Option.some.inj (hw.symm.trans hw')
    rw [hbits, Option.getD_some] at hfits
    exact (hparts _).mp hfits
  · intro h
    refine ⟨fun hyes => absurd hyes hchain, fun _ a' ha' _ => ⟨w, hw, ?_⟩, fun _ hno => absurd ⟨hmemory, hkind⟩ hno⟩
    rw [hbits, Option.getD_some]
    exact (hparts _).mpr h

/-- The entries of a rule are of its parts, of each of them, and the prep uop of none. -/
theorem dynamicEntries_parts {d : Decomposition} (hd : ∀ e ∈ d.prep, e.partIndex = none) (hne : c.recipe.uops ≠ []) :
    (∀ k, (∃ e ∈ dynamicEntries c d, e.partIndex = some k) ↔ k < d.parts) ∧
      ((∃ e ∈ dynamicEntries c d, e.partIndex = none) ↔ d.prep.isSome) := by
  have hpart : ∀ k < d.parts, ∃ e ∈ dynamicEntries c d, e.partIndex = some k := by
    intro k hk
    obtain ⟨e, he⟩ : ∃ e, e ∈ partEntries c d k := by
      refine List.exists_mem_of_ne_nil _ (List.length_pos_iff.mp ?_)
      unfold partEntries
      rw [List.length_map, List.length_zipIdx]
      exact List.length_pos_iff.mpr hne
    exact ⟨e, List.mem_append_right _ (List.mem_flatMap.mpr ⟨k, List.mem_range.mpr hk, he⟩), (mem_partEntries he).2.1⟩
  have hcases : ∀ e ∈ dynamicEntries c d, e ∈ d.prep ∨ ∃ k < d.parts, e.partIndex = some k := by
    intro e he
    refine (List.mem_append.mp he).imp Option.mem_toList.mp fun he => ?_
    obtain ⟨k, hk, he⟩ := List.mem_flatMap.mp he
    exact ⟨k, List.mem_range.mp hk, (mem_partEntries he).2.1⟩
  refine ⟨fun k => ⟨fun ⟨e, he, hk⟩ => ?_, hpart k⟩, fun ⟨e, he, hnone⟩ => ?_, fun hsome => ?_⟩
  · rcases hcases e he with hprep | ⟨k', hk', hpart'⟩
    · rw [hd e hprep] at hk
      cases hk
    · rw [hpart'] at hk
      exact Option.some.inj hk ▸ hk'
  · rcases hcases e he with hprep | ⟨k', -, hpart'⟩
    · exact Option.isSome_iff_exists.mpr ⟨e, hprep⟩
    · rw [hpart'] at hnone
      cases hnone
  · obtain ⟨e, he⟩ := Option.isSome_iff_exists.mp hsome
    exact ⟨e, List.mem_append_left _ (Option.mem_toList.mpr he), hd e he⟩

/-- The entries of a layout have `n` part indices just where the instruction has `n` parts. -/
theorem inParts_iff (hc : chooseRecipe P i = .ok c) (hne : c.recipe.uops ≠ []) {d : Option Decomposition}
    (hd : decompositionFor P i c = .ok d) {entries : List Entry} (h : entriesFor c d = .ok entries) {n : ℕ} :
    InParts P i n ↔ (entries.filterMap (·.partIndex)).dedup.length = n := by
  have hchosen : InParts P i n ↔ PartsBy P i c.recipe n (ruleOf P i c) := by
    refine ⟨fun h => h c hc, fun h c' hc' => ?_⟩
    obtain rfl := Except.ok.inj (hc.symm.trans hc')
    exact h
  rw [hchosen]
  cases d with
  | none =>
    rw [ruleOf_none hd, filterMap_of_forall₂ (staticEntries_made h) fun u e he => he.2.1]
    exact Iff.rfl
  | some d =>
    obtain ⟨rule, state, w, hrule, hruled⟩ := ruleOf_some hd
    cases h
    obtain ⟨hparts, -⟩ := dynamicEntries_parts (fun e he => (hruled.prep e he).partIndex) hne
    have hcount : ((dynamicEntries c d).filterMap (·.partIndex)).dedup.length = d.parts := by
      rw [← List.card_toFinset, ← Finset.card_range d.parts]
      congr 1
      ext k
      rw [List.mem_toFinset, List.mem_filterMap, Finset.mem_range]
      exact hparts k
    rw [hrule, hcount]
    simp only [PartsBy, hruled.width, Option.mem_def, Option.some.injEq, forall_eq']
    exact hruled.makes_iff

/-- They have all the same index just where it is in one piece. -/
theorem inOnePart_iff (hc : chooseRecipe P i = .ok c) (hne : c.recipe.uops ≠ []) {d : Option Decomposition}
    (hd : decompositionFor P i c = .ok d) {entries : List Entry} (h : entriesFor c d = .ok entries) :
    InOnePart P i ↔ ∀ e ∈ entries, ∀ e' ∈ entries, e.partIndex = e'.partIndex := by
  have hchosen : InOnePart P i ↔ OnePartBy P i c.recipe (ruleOf P i c) := by
    refine ⟨fun h => h c hc, fun h c' hc' => ?_⟩
    obtain rfl := Except.ok.inj (hc.symm.trans hc')
    exact h
  rw [hchosen]
  cases d with
  | none =>
    rw [ruleOf_none hd]
    have hmade := staticEntries_made h
    constructor
    · intro hsame e he e' he'
      obtain ⟨u, hu, -, hpart, -⟩ := forall₂_right hmade he
      obtain ⟨u', hu', -, hpart', -⟩ := forall₂_right hmade he'
      rw [hpart, hpart', hsame u hu u' hu']
    · intro hsame u hu v hv
      obtain ⟨e, he, -, hpart, -⟩ := forall₂_left hmade hu
      obtain ⟨e', he', -, hpart', -⟩ := forall₂_left hmade hv
      rw [← hpart, ← hpart', hsame e he e' he']
  | some d =>
    obtain ⟨rule, state, w, hrule, hruled⟩ := ruleOf_some hd
    cases h
    obtain ⟨hparts, hprep⟩ := dynamicEntries_parts (fun e he => (hruled.prep e he).partIndex) hne
    rw [hrule]
    simp only [OnePartBy, hruled.width, Option.mem_def, Option.some.injEq, forall_eq', hruled.makes_iff]
    obtain ⟨e₀, he₀, hzero⟩ := (hparts 0).mpr hruled.parts_pos
    constructor
    · rintro ⟨hnone, hone⟩ e he e' he'
      -- every entry is of the part 0
      have hall : ∀ e ∈ dynamicEntries c d, e.partIndex = some 0 := by
        intro e he
        cases hk : e.partIndex with
        | none =>
          have := hprep.mp ⟨e, he, hk⟩
          rw [hruled.hasPrep, hnone] at this
          cases this
        | some k =>
          have := (hparts k).mp ⟨e, he, hk⟩
          rw [hone] at this
          rw [Nat.lt_one_iff.mp this]
      rw [hall e he, hall e' he']
    · intro hsame
      refine ⟨?_, ?_⟩
      · by_contra hno
        have hsome : d.prep.isSome = true := by
          rw [hruled.hasPrep]
          exact Option.isSome_iff_ne_none.mpr hno
        obtain ⟨e, he, hnone⟩ := hprep.mpr hsome
        have := hsame e he e₀ he₀
        rw [hnone, hzero] at this
        cases this
      · by_contra hno
        have hpos := hruled.parts_pos
        obtain ⟨e, he, hone⟩ := (hparts 1).mpr (by omega)
        have := hsame e he e₀ he₀
        rw [hone, hzero] at this
        cases this

/-- The uops of an instruction are of its parts, and of one count. -/
theorem bindInstruction_parts (h : bindInstruction P bound i = .ok b) : b.uops ≠ [] ∧ SameCount b.uops ∧
    (InOnePart P i ↔ SamePart b.uops) ∧ ∀ n, InParts P i n ↔ numParts b.uops = n := by
  have hmade := bindInstruction_made h
  obtain ⟨count, hcount⟩ := layout_count hmade.layout
  obtain ⟨c, hc, hlayout⟩ := ok_bind.mp hmade.layout
  obtain ⟨d, hd, hentries⟩ := ok_bind.mp hlayout
  have hrecipe : c.recipe.uops ≠ [] := by
    obtain ⟨c', hc', h⟩ := ok_bind.mp h
    obtain ⟨semantics, hsemantics, -⟩ := ok_bind.mp h
    obtain rfl := Except.ok.inj (hc.symm.trans hc')
    exact (bindExecutionSemantics_ok hsemantics).1
  have hindices : b.uops.map (·.partIndex) = (b.pairs.map (·.1)).map (·.partIndex) := by
    rw [Binding.uops, List.map_map, List.map_map]
    exact List.map_congr_left hmade.part
  refine ⟨fun hnil => ?_, ⟨count, fun x hx => ?_⟩, ?_, fun n => ?_⟩
  · obtain ⟨-, hcovers⟩ := entriesFor_index hentries (decompositionFor_ok hd) hrecipe
    obtain ⟨e, he, -⟩ := hcovers 0 (List.length_pos_iff.mpr hrecipe)
    obtain ⟨p, hp, -⟩ := List.mem_map.mp he
    exact List.ne_nil_of_mem (List.mem_map_of_mem hp) hnil
  · obtain ⟨p, hp, rfl⟩ := List.mem_map.mp hx
    rw [hmade.count p hp, hmade.part p hp, hcount p.1 (List.mem_map_of_mem hp)]
  · have hsame : SamePart b.uops ↔ ∀ k ∈ b.uops.map (·.partIndex), ∀ k' ∈ b.uops.map (·.partIndex), k = k' := by
      simp only [SamePart, List.forall_mem_map]
    rw [inOnePart_iff hc hrecipe hd hentries, hsame, hindices]
    simp only [List.forall_mem_map]
  · have hfilter : ∀ {α : Type} (f : α → Option ℕ) (l : List α), l.filterMap f = (l.map f).filterMap id := by
      intro α f l
      rw [List.filterMap_map]
      rfl
    rw [inParts_iff hc hrecipe hd hentries, numParts, hfilter, hfilter _ b.uops, hindices]

section Numbered

variable (hid : ∀ (k : ℕ) (d : Instruction), source[k]? = some d → d.id = k)

include hid

/-- The instruction of a macro-op is found by its id. -/
theorem find?_numbered (hi : i ∈ source) : source.find? (·.id = i.id) = some i := by
  have hn : (source.map (·.id)).Nodup := by
    rw [map_eq_range hid]
    exact List.nodup_range
  cases h : source.find? (·.id = i.id) with
  | none => exact absurd (List.find?_eq_none.mp h i hi) (by simp)
  | some j =>
    have he : j.id = i.id := by simpa using List.find?_some h
    rw [List.inj_on_of_nodup_map hn (List.mem_of_find?_eq_some h) hi he]

/-- **The entries of a macro-op of the binder are made just where its parts are those that the expander
counts.** -/
theorem exists_slots_iff (hT : WellFormed T) (hdecoded : ∀ m ∈ T.macros, 1 ≤ m.decodedMacroOps)
    (hmacros : T.macros = bound.map (·.op)) (huops : T.uops = bound.flatMap (·.uops))
    (hsource : T.source = source) {k : ℕ} (hi : source[k]? = some i)
    (hb : bound[k]? = some b) (hturn : bindInstruction P (bound.take k) i = .ok b) :
    (∃ l, slotsForMacro T P.registerWidthBits b.op = .ok l) ↔ PartsFit P i := by
  have hm : b.op ∈ T.macros := hmacros ▸ List.mem_map_of_mem (List.mem_of_getElem? hb)
  have hfound : T.source.find? (·.id = b.op.id) = some i := by
    rw [hsource, (bindInstruction_traced hturn).op]
    exact find?_numbered hid (List.mem_of_getElem? hi)
  have hexecution : executionOf T b.op = b.uops := by
    unfold executionOf
    rw [(bindInstruction_laidOut hturn).1, List.filterMap_map]
    refine (List.filterMap_congr fun x hx => ?_).trans List.filterMap_some
    exact hT.uop?_eq (huops ▸ List.mem_flatMap.mpr ⟨b, List.mem_of_getElem? hb, hx⟩)
  obtain ⟨hne, hcount, hone, hparts⟩ := bindInstruction_parts hturn
  rw [exists_slotsForMacro hfound (hexecution ▸ hne) (hdecoded b.op hm) (hexecution ▸ hcount), hexecution]
  exact (PartsExpected.congr hone hparts).symm

end Numbered

/-! ### The two agree -/

/-- The binder and the expander agree: the expander accepts the trace and returns, and the flows that it
makes of a vector access are the parts of the binder. -/
def DecompositionsAgree (T : BoundTrace) (P : EngineProfile) : Prop :=
  validateBoundTrace T = .ok () ∧ ∃ slots, expand T P = .ok slots ∧
    ∀ m ∈ T.macros, ∀ i ∈ T.source, i.id = m.id → IsVectorAccess i → FlowsAreParts T (slots.map (·.1)) m

/-- Of a numbered trace they agree where every layout is sound and its parts are those of the expander. -/
theorem agree_iff (hP : P.Accepted) (hid : ∀ (k : ℕ) (d : Instruction), source[k]? = some d → d.id = k)
    (h : bind P source = .ok T) : DecompositionsAgree T P.toEngineProfile ↔
      ∀ i ∈ source, SoundLayout (laidOut P i) ∧ PartsFit P i := by
  have hvalid := bind_valid_iff hP hid h
  obtain ⟨bound, hbound, hmacros, huops, hsource, hprofile⟩ := bind_trace h
  have hentries : validateBoundTrace T = .ok () →
      ((∃ slots, expand T P.toEngineProfile = .ok slots) ↔ ∀ i ∈ source, PartsFit P i) := by
    intro hok
    have hT := wellFormed_of_valid hok
    have hdecoded := decoded_of_valid hok
    have hnodup : ∀ m ∈ T.macros, m.uopIds.Nodup := by
      intro m hm
      rw [hmacros] at hm
      obtain ⟨b, hb, rfl⟩ := List.mem_map.mp hm
      obtain ⟨k, i, -, -, hturn⟩ := source_of_binding hbound hb
      rw [(bindInstruction_laidOut hturn).1]
      exact (bindInstruction_proper hP hturn).ids_nodup
    rw [exists_expand hok hnodup hprofile]
    constructor
    · intro hall i hi
      obtain ⟨k, hk⟩ := List.mem_iff_getElem?.mp hi
      obtain ⟨b, hb, hturn, -⟩ := exists_binding hbound hk
      exact (exists_slots_iff hid hT hdecoded hmacros huops hsource hk hb hturn).mp
        (hall b.op (hmacros ▸ List.mem_map_of_mem (List.mem_of_getElem? hb)))
    · intro hall m hm
      rw [hmacros] at hm
      obtain ⟨b, hb, rfl⟩ := List.mem_map.mp hm
      obtain ⟨k, i, hk, hbk, hturn⟩ := source_of_binding hbound hb
      exact (exists_slots_iff hid hT hdecoded hmacros huops hsource hk hbk hturn).mpr
        (hall i (List.mem_of_getElem? hk))
  constructor
  · rintro ⟨hok, slots, hslots, -⟩ i hi
    exact ⟨hvalid.mp hok i hi, (hentries hok).mp ⟨slots, hslots⟩ i hi⟩
  · intro hall
    have hok := hvalid.mpr fun i hi => (hall i hi).1
    obtain ⟨slots, hslots⟩ := (hentries hok).mpr fun i hi => (hall i hi).2
    refine ⟨hok, slots, hslots, fun m hm i hi him haccess => ?_⟩
    have hfound : T.source.find? (·.id = m.id) = some i := by
      rw [hsource, ← him]
      exact find?_numbered hid (hsource ▸ hi)
    exact flows_are_parts (wellFormed_of_valid hok) hslots hm hfound haccess

/-! ### The elements of an access -/

namespace Rvv

variable {p : Program} {x : Execution}

/-- Where the vector length is set, the element width is. -/
def WidthSet (x : Execution) : Prop := x.vectorState.vl.isSome → x.vectorState.sewBits.isSome

theorem vectorStateFromOperands_sew {registers : String → ℕ} {previous state : State} {operands : List String}
    (h : vectorStateFromOperands registers previous operands = .ok state) : state.sewBits.isSome := by
  unfold vectorStateFromOperands at h
  split at h
  · obtain ⟨_, -, h⟩ := ok_bind.mp h
    dsimp only at h
    split at h
    · obtain ⟨_, -, h⟩ := ok_bind.mp h
      obtain ⟨_, -, h⟩ := ok_bind.mp h
      cases h
      rfl
    · cases h
  · cases h

theorem Visits.widthSet {count vlenBits : ℕ} {vs : List Visit} (h : Visits p (initial count vlenBits) vs x) :
    WidthSet x ∧ ∀ v ∈ vs, WidthSet v.state := by
  induction h with
  | nil =>
    refine ⟨fun hvl => ?_, List.forall_mem_nil _⟩
    cases hvl
  | snoc _ _ recorded stepped ih =>
    refine ⟨fun hvl => ?_, List.forall_mem_append.mpr ⟨ih.2, List.forall_mem_singleton.mpr ih.1⟩⟩
    obtain ⟨-, -, -, hkept | hset⟩ := step_frame recorded stepped
    · rw [hkept] at hvl ⊢
      exact ih.1 hvl
    · exact vectorStateFromOperands_sew hset

theorem memoryOf_bytes {i : StaticInstruction} {c : List String} {a : MemoryAccess}
    (h : memoryOf x i = .ok (c, some a)) :
    (i.mnemonic ∈ loads ∨ i.mnemonic ∈ stores) ∧ accessBytes i.mnemonic x.vectorState = .ok a.bytes := by
  unfold memoryOf at h
  split at h
  · next hmem =>
    split at h
    · cases h
    · obtain ⟨_, -, h⟩ := ok_bind.mp h
      obtain ⟨size, hsize, h⟩ := ok_bind.mp h
      cases h
      exact ⟨hmem, hsize⟩
  · cases h

/-- A vector access is a `vle32.v` or a `vse32.v`. -/
theorem vector_access {name : String} (hmem : name ∈ loads ∨ name ∈ stores) (hvector : isVectorMnemonic name) :
    name = "vle32.v" ∨ name = "vse32.v" := by
  simp only [loads, stores, List.mem_cons, List.not_mem_nil, or_false] at hmem
  rcases hmem with (rfl | rfl | rfl) | (rfl | rfl | rfl)
  · exact absurd hvector (by decide)
  · exact absurd hvector (by decide)
  · exact .inl rfl
  · exact absurd hvector (by decide)
  · exact absurd hvector (by decide)
  · exact .inr rfl

theorem accessBytes_vector {name : String} {state : State} {bytes : ℕ} (hname : name = "vle32.v" ∨ name = "vse32.v")
    (h : accessBytes name state = .ok bytes) : ∃ vl, state.vl = some vl ∧ bytes = vl * 4 := by
  unfold accessBytes at h
  rw [if_neg (by rcases hname with rfl | rfl <;> decide), if_neg (by rcases hname with rfl | rfl <;> decide)] at h
  split at h
  · next vl hvl =>
    cases h
    exact ⟨vl, hvl, rfl⟩
  · cases h

/-- A vector access is of `vl` elements of 32 bits, and of `vl * SEW` active bits. -/
theorem record_elements {i : StaticInstruction} {c : List String} {d : Instruction} (hx : WidthSet x)
    (h : record p x i = .ok (c, d)) : ∀ a ∈ d.memory, ∀ state ∈ d.vectorState, ∃ vl sew, state.vl = some vl ∧
      state.sewBits = some sew ∧ a.bytes = vl * 4 ∧ d.activeVectorBits = some (vl * sew) := by
  intro a ha state hstate
  have hmemory := (record_memory h).1
  rw [ha] at hmemory
  obtain ⟨hmem, hbytes⟩ := memoryOf_bytes hmemory
  obtain ⟨roles, -, h⟩ := ok_bind.mp h
  obtain ⟨m, -, h⟩ := ok_bind.mp h
  dsimp only at h
  split at h
  · cases h
  · obtain ⟨recorded, hrecorded, h⟩ := ok_bind.mp h
    cases h
    unfold recordedState at hrecorded
    split at hrecorded
    · next hvector =>
      have hname := vector_access hmem hvector
      rw [if_neg (by rcases hname with h | h <;> rw [h] <;> decide)] at hrecorded
      cases hrecorded
      cases hstate
      obtain ⟨vl, hvl, hsize⟩ := accessBytes_vector hname hbytes
      obtain ⟨sew, hsew⟩ := Option.isSome_iff_exists.mp (hx (by rw [hvl]; rfl))
      refine ⟨vl, sew, hvl, hsew, hsize, ?_⟩
      show activeBits x.vectorState = _
      unfold activeBits
      rw [hvl, hsew]
      rfl
    · cases hrecorded
      cases hstate

/-- So is every vector access of a trace. -/
theorem buildDynamicTrace_elements {count vlenBits : ℕ} {source : List Instruction}
    (h : buildDynamicTrace p count vlenBits = .ok source) : ∀ i ∈ source, ∀ a ∈ i.memory, ∀ state ∈ i.vectorState,
      ∃ vl sew, state.vl = some vl ∧ state.sewBits = some sew ∧ a.bytes = vl * 4 ∧
        i.activeVectorBits = some (vl * sew) := by
  obtain ⟨htrace, hok⟩ := buildDynamicTrace_visits h
  obtain ⟨x', hvisits⟩ := visits_visits (p := p) (10000 + count * 256) (.nil (x := initial count vlenBits))
  rw [List.nil_append] at hvisits
  subst htrace
  intro i hi
  obtain ⟨v, hv, rfl⟩ := List.mem_map.mp hi
  obtain ⟨k, hk⟩ := List.mem_iff_getElem?.mp hv
  obtain ⟨c, hrecorded⟩ := (hok k v hk).recorded
  exact record_elements (hvisits.widthSet.2 v hv) hrecorded

end Rvv

/-- **The binder and the expander agree just where every layout is sound and has the parts that the expander
counts.** A vector access is of `vl` elements of 32 bits, and the expander counts them with `SEW` bits. -/
theorem decompositions_agree_iff (P : Profile) (hP : P.Accepted) (p : Rvv.Program) (count vlenBits : ℕ)
    (source : List Instruction) (hsource : Rvv.buildDynamicTrace p count vlenBits = .ok source) (T : BoundTrace)
    (hbind : bind P source = .ok T) :
    (DecompositionsAgree T P.toEngineProfile ↔ ∀ i ∈ source, SoundLayout (laidOut P i) ∧ PartsFit P i) ∧
      ∀ i ∈ source, ∀ a ∈ i.memory, ∀ state ∈ i.vectorState, ∃ vl sew, state.vl = some vl ∧
        state.sewBits = some sew ∧ a.bytes = vl * 4 ∧ i.activeVectorBits = some (vl * sew) := by
  have hid := (FrontendTrace.lastStores (.inl ⟨p, count, vlenBits, hsource⟩)).id
  exact ⟨agree_iff hP hid hbind, Rvv.buildDynamicTrace_elements hsource⟩

namespace Sample

theorem uopOf_accepted (kind : Kind) : (uopOf kind).Accepted := by
  refine ⟨List.nodup_nil, by simp [uopOf], by simp [uopOf], fun u hu => ?_⟩
  obtain rfl := List.mem_singleton.mp hu
  exact ⟨by simp, by simp⟩

theorem accessProfile_accepted : accessProfile.Accepted := by
  refine ⟨?_, ?_, List.nodup_nil⟩
  · simp [accessProfile, uopOf_accepted]
  · simp [accessProfile]

/-- A program that stores a group of two, and loads it. -/
def storedGroup : Rvv.Program where
  static := [⟨"vsetvli", ["a5", "a2", "e32", "m2", "ta", "ma"]⟩, ⟨"vse32.v", ["v8", "0(a1)"]⟩,
    ⟨"vle32.v", ["v4", "0(a1)"]⟩, ⟨"ret", []⟩]
  labels := []
  recipes := [("vsetvli", [.vectorConfig]), ("vse32.v", [.vectorStore]), ("vle32.v", [.vectorLoad]), ("ret", [.ret])]

/-- A program that loads elements of 32 bits while the element width is 64. -/
def narrowLoad : Rvv.Program where
  static := [⟨"vsetvli", ["a5", "a2", "e64", "m2", "ta", "ma"]⟩, ⟨"vle32.v", ["v4", "0(a1)"]⟩, ⟨"ret", []⟩]
  labels := []
  recipes := [("vsetvli", [.vectorConfig]), ("vle32.v", [.vectorLoad]), ("ret", [.ret])]

/-- The trace of a program. -/
def boundOf (p : Rvv.Program) (count : ℕ) : Option (List Instruction × BoundTrace) := do
  let source ← (Rvv.buildDynamicTrace p count 128).toOption
  let T ← (bind accessProfile source).toOption
  return (source, T)

theorem boundOf_some {p : Rvv.Program} {count : ℕ} {r : List Instruction × BoundTrace}
    (h : boundOf p count = some r) :
    Rvv.buildDynamicTrace p count 128 = .ok r.1 ∧ bind accessProfile r.1 = .ok r.2 := by
  obtain ⟨source, hsource, h⟩ := Option.bind_eq_some_iff.mp h
  obtain ⟨T, hT, h⟩ := Option.bind_eq_some_iff.mp h
  cases h
  exact ⟨toOption_ok.mp hsource, toOption_ok.mp hT⟩

end Sample

/-- A group of two is stored and loaded in two flows each. -/
theorem decompositions_agree_sample : ∃ source T, Rvv.buildDynamicTrace Sample.storedGroup 8 128 = .ok source ∧
    bind Sample.accessProfile source = .ok T ∧ DecompositionsAgree T Sample.accessProfile.toEngineProfile ∧
    (∀ i ∈ source, SoundLayout (laidOut Sample.accessProfile i) ∧ PartsFit Sample.accessProfile i) ∧
    ∃ slots, expand T Sample.accessProfile.toEngineProfile = .ok slots ∧
      (flowsOf (slots.map (·.1)) 1).map (·.map (·.id)) = [[2], [5]] ∧
      (flowsOf (slots.map (·.1)) 2).map (·.map (·.id)) = [[6], [8]] := by
  have hrun : ((Sample.boundOf Sample.storedGroup 8).bind fun r =>
      (expand r.2 Sample.accessProfile.toEngineProfile).toOption.map fun slots => (r, slots)).map (fun x =>
        (decide (validateBoundTrace x.1.2 = .ok ()), (flowsOf (x.2.map (·.1)) 1).map (·.map (·.id)),
          (flowsOf (x.2.map (·.1)) 2).map (·.map (·.id)))) = some (true, [[2], [5]], [[6], [8]]) := by decide +kernel
  obtain ⟨⟨⟨source, T⟩, slots⟩, hr, hvalues⟩ := Option.map_eq_some_iff.mp hrun
  obtain ⟨r, hbound, hr⟩ := Option.bind_eq_some_iff.mp hr
  obtain ⟨slots', hslots, he⟩ := Option.map_eq_some_iff.mp hr
  cases he
  simp only [Prod.mk.injEq, decide_eq_true_eq] at hvalues
  obtain ⟨hvalid, hstore, hload⟩ := hvalues
  obtain ⟨hsource, hT⟩ := Sample.boundOf_some hbound
  have hexpand := toOption_ok.mp hslots
  obtain ⟨hiff, -⟩ := decompositions_agree_iff Sample.accessProfile Sample.accessProfile_accepted
    Sample.storedGroup 8 128 source hsource T hT
  have hid := (FrontendTrace.lastStores (.inl ⟨_, _, _, hsource⟩)).id
  have hagree : DecompositionsAgree T Sample.accessProfile.toEngineProfile := by
    refine ⟨hvalid, slots, hexpand, fun m hm i hi him haccess => ?_⟩
    obtain ⟨-, -, -, -, hsame, -⟩ := bind_trace hT
    refine flows_are_parts (wellFormed_of_valid hvalid) hexpand hm ?_ haccess
    rw [hsame, ← him]
    exact find?_numbered hid (hsame ▸ hi)
  exact ⟨source, T, hsource, hT, hagree, hiff.mp hagree, slots, hexpand, hstore, hload⟩

/-- A load of elements of 32 bits while the element width is 64: the binder makes one part of it, and the expander
raises, for it counts two flows. -/
theorem narrow_load_refused : Sample.accessProfile.Accepted ∧ ∃ source T,
    Rvv.buildDynamicTrace Sample.narrowLoad 4 128 = .ok source ∧ bind Sample.accessProfile source = .ok T ∧
    validateBoundTrace T = .ok () ∧
    (∀ slots, expand T Sample.accessProfile.toEngineProfile ≠ .ok slots) ∧
    errorOf (expand T Sample.accessProfile.toEngineProfile) = some (.memoryFlows 1 2 1) ∧
    ¬ DecompositionsAgree T Sample.accessProfile.toEngineProfile := by
  have hrun : (Sample.boundOf Sample.narrowLoad 4).map (fun r => (decide (validateBoundTrace r.2 = .ok ()),
      errorOf (expand r.2 Sample.accessProfile.toEngineProfile))) = some (true, some (.memoryFlows 1 2 1)) := by
    decide +kernel
  obtain ⟨⟨source, T⟩, hbound, hvalues⟩ := Option.map_eq_some_iff.mp hrun
  simp only [Prod.mk.injEq, decide_eq_true_eq] at hvalues
  obtain ⟨hvalid, herror⟩ := hvalues
  obtain ⟨hsource, hT⟩ := Sample.boundOf_some hbound
  have hraises : ∀ slots, expand T Sample.accessProfile.toEngineProfile ≠ .ok slots := by
    intro slots h
    rw [errorOf_eq.mp herror] at h
    cases h
  exact ⟨Sample.accessProfile_accepted, source, T, hsource, hT, hvalid, hraises, herror,
    fun ⟨_, slots, hslots, _⟩ => hraises slots hslots⟩

end VectorSim
