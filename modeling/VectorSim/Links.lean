/-
# What a bound uop waits for

One turn of the loop of `Profile.bind` lays an instruction out and links its
uops. A uop is linked to those of its own instruction that its recipe uop names,
and to the result uops of the instructions that produce what it reads; of
either it waits for those of its own part, or for all of them where none is of
its part (`Selects`). `bindAll_made` says so of every instruction of a trace.
-/
import VectorSim.Bind

namespace VectorSim

open Checked

variable {P : Profile} {i : Instruction} {bound : List Binding} {b : Binding}

/-! ### Pairing by parts -/

/-- A uop of the part `part` waits for one of the part `a`, of producers of the parts `parts`: it
has no part, they have none of its part, or it is the same. -/
def Selects (part : Option ℕ) (parts : List (Option ℕ)) (a : Option ℕ) : Prop :=
  part = none ∨ part ∉ parts ∨ a = part

instance (part : Option ℕ) (parts : List (Option ℕ)) (a : Option ℕ) : Decidable (Selects part parts a) := by
  unfold Selects; infer_instance

theorem mem_selected {part : Option ℕ} {candidates : List ExecutionUop} {x : ExecutionUop} :
    x ∈ selected part candidates ↔ x ∈ candidates ∧ Selects part (candidates.map (·.partIndex)) x.partIndex := by
  have hmatch : ∀ y, y ∈ (candidates.filter fun c => part.isSome && c.partIndex = part) ↔
      y ∈ candidates ∧ part ≠ none ∧ y.partIndex = part := by
    intro y
    simp [List.mem_filter, Option.isSome_iff_ne_none]
  unfold selected Selects
  dsimp only
  split
  · next hnil =>
    -- no candidate is of the part
    have hnone : part = none ∨ part ∉ candidates.map (·.partIndex) := by
      by_contra hboth
      push Not at hboth
      obtain ⟨y, hy, hpart⟩ := List.mem_map.mp hboth.2
      exact List.ne_nil_of_mem ((hmatch y).mpr ⟨hy, hboth.1, hpart⟩) hnil
    constructor
    · exact fun hx => ⟨hx, hnone.elim .inl fun h => .inr (.inl h)⟩
    · exact And.left
  · next hne =>
    obtain ⟨y, hy⟩ := List.exists_mem_of_ne_nil _ hne
    obtain ⟨hy, hsome, hpart⟩ := (hmatch y).mp hy
    have hmem : part ∈ candidates.map (·.partIndex) := List.mem_map.mpr ⟨y, hy, hpart⟩
    rw [hmatch]
    constructor
    · rintro ⟨hx, -, hxp⟩
      exact ⟨hx, .inr (.inr hxp)⟩
    · rintro ⟨hx, h | h | h⟩
      · exact absurd h hsome
      · exact absurd hmem h
      · exact ⟨hx, hsome, h⟩

/-! ### Layouts -/

/-- The uops an instruction is laid out as. -/
def layout (P : Profile) (i : Instruction) : Except ProfileError (List Entry) := do
  let c ← chooseRecipe P i
  let d ← decompositionFor P i c
  entriesFor c d

/-- A uop that prepares a source: it is one of the rule's, of no part. -/
structure IsPrep (rule : DecompositionRule) (e : Entry) : Prop where
  prep : e.prep = true
  localIndex : e.localIndex = 0
  partIndex : e.partIndex = none
  partCount : e.partCount = none
  uop : ∃ variants ∈ rule.prepUops, ∃ v ∈ variants, v.2 = e.uop

theorem prepOf_ok {rule : DecompositionRule} {path : String} {prep : Option Entry} (h : prepOf i rule path = .ok prep) :
    prep.isSome = rule.prepUops.isSome ∧ ∀ e ∈ prep, IsPrep rule e := by
  unfold prepOf at h
  split at h
  · next hnone =>
    cases h
    rw [hnone]
    exact ⟨rfl, fun e he => by cases he⟩
  · next variants hsome =>
    obtain ⟨e, he, rfl⟩ := ok_map.mp h
    rw [hsome]
    refine ⟨rfl, fun e' he' => ?_⟩
    obtain rfl := Option.some.inj he'
    have hmem : ∀ {key : Option OperandClass} {u : RecipeUop}, variants.lookup key = some u →
        ∃ vs ∈ rule.prepUops, ∃ v ∈ vs, v.2 = u := by
      intro key u hu
      obtain ⟨before, after, hsplit, -⟩ := List.lookup_eq_some_iff.mp hu
      exact ⟨variants, hsome, (key, u), by rw [hsplit]; simp, rfl⟩
    unfold selectPrepUop at he
    dsimp only at he
    split at he
    · next c u hfind =>
      cases he
      obtain ⟨c', -, hc⟩ := List.exists_of_findSome?_eq_some hfind
      obtain ⟨u', hu', hpair⟩ := Option.map_eq_some_iff.mp hc
      cases hpair
      exact ⟨rfl, rfl, rfl, rfl, hmem hu'⟩
    · split at he
      · next u hu =>
        cases he
        exact ⟨rfl, rfl, rfl, rfl, hmem hu⟩
      · cases he

/-- The decomposition is that of a rule of the backend. -/
structure Ruled (P : Profile) (i : Instruction) (d : Decomposition) (rule : DecompositionRule) (state : VectorState)
    (w : ℕ+) : Prop where
  found : ruleFor P i = some (rule, state)
  width : P.registerWidthBits = some w
  widthBits : d.widthBits = w
  parts : ∃ n, vectorPartCount rule.parts i state w "backend.vector_decomposition.rules" = .ok n ∧ d.parts = max 1 n
  hasPrep : d.prep.isSome = rule.prepUops.isSome
  prep : ∀ e ∈ d.prep, IsPrep rule e

theorem decompositionFor_some {c : ChosenRecipe} {d : Decomposition} (h : decompositionFor P i c = .ok (some d)) :
    c.recipe.decomposition = none ∧ ∃ rule state w, Ruled P i d rule state w := by
  unfold decompositionFor at h
  split at h
  · cases h
  · next hnone =>
    refine ⟨by simpa using hnone, ?_⟩
    unfold backendDecomposition at h
    split at h
    · cases h
    · next rule state hrule =>
      obtain ⟨w, hw, h⟩ := ok_bind.mp h
      obtain ⟨prep, hprep, h⟩ := ok_bind.mp h
      obtain ⟨n, hn, h⟩ := ok_bind.mp h
      cases h
      have hwidth : P.registerWidthBits = some w := by
        cases hreg : P.registerWidthBits with
        | none => rw [hreg] at hw; cases hw
        | some w' => rw [hreg] at hw; cases hw; rfl
      exact ⟨rule, state, w, hrule, hwidth, rfl, ⟨n, hn, rfl⟩, (prepOf_ok hprep).1, (prepOf_ok hprep).2⟩

theorem decompositionFor_none {c : ChosenRecipe} (h : decompositionFor P i c = .ok none) :
    c.recipe.decomposition.isSome ∨ ruleFor P i = none := by
  unfold decompositionFor at h
  split at h
  · next hsome => exact .inl hsome
  · unfold backendDecomposition at h
    split at h
    · next hnone => exact .inr hnone
    · obtain ⟨_, -, h⟩ := ok_bind.mp h
      obtain ⟨_, -, h⟩ := ok_bind.mp h
      obtain ⟨_, -, h⟩ := ok_bind.mp h
      cases h

theorem Ruled.parts_pos {d : Decomposition} {rule : DecompositionRule} {state : VectorState} {w : ℕ+}
    (h : Ruled P i d rule state w) : 0 < d.parts := by
  obtain ⟨n, -, hparts⟩ := h.parts
  rw [hparts]
  exact lt_max_of_lt_left Nat.one_pos

/-- The entries of the result uops: no other uop of the instruction waits for them. -/
def resultEntries (entries : List Entry) : List Entry :=
  entries.filter fun e => e.uop.id ∉ dependedLocals entries

/-- The parts of the result uops. -/
def resultParts (entries : List Entry) : List (Option ℕ) := (resultEntries entries).map (·.partIndex)

theorem Binding.terminals_parts (b : Binding) (hpart : ∀ p ∈ b.pairs, p.2.partIndex = p.1.partIndex) :
    b.terminals.map (·.partIndex) = resultParts (b.pairs.map (·.1)) := by
  unfold Binding.terminals resultParts resultEntries
  rw [List.filter_map, List.map_map, List.map_map]
  exact List.map_congr_left fun p hp => hpart p (List.mem_of_mem_filter hp)

/-! ### One instruction -/

/-- The entry of a uop stays what it is when the uop is linked, and so do these fields. -/
structure SameUop (p q : Entry × ExecutionUop) : Prop where
  entry : q.1 = p.1
  id : q.2.id = p.2.id
  parent : q.2.parentId = p.2.parentId
  kind : q.2.kind = p.2.kind
  part : q.2.partIndex = p.2.partIndex
  count : q.2.partCount = p.2.partCount
  memory : q.2.memory = p.2.memory

section Link

variable {terminals : Id → Option (List ExecutionUop)} {c : ChosenRecipe} {semantics : List ℕ}
  {pairs : List (Entry × ExecutionUop)} {p q : Entry × ExecutionUop}

theorem localDependency_ok {part : Option ℕ} {name : String} {ids : List Id}
    (h : localDependency pairs part name = .ok ids) :
    ids = (selected part ((pairs.filter fun p => p.1.uop.id = name).map (·.2))).map (·.id) := by
  unfold localDependency at h
  split at h
  · cases h
  · cases h
    rfl

theorem producerDependencies_ok {part : Option ℕ} {producers ids : List Id}
    (h : producerDependencies terminals part producers = .ok ids) : ∀ producer ∈ producers,
      ∃ cs, terminals producer = some cs ∧ ∀ x ∈ selected part cs, x.id ∈ ids := by
  obtain ⟨groups, hgroups, h⟩ := ok_bind.mp h
  cases h
  intro producer hproducer
  obtain ⟨group, hgroup, hok⟩ := forall₂_left (mapM_ok.mp hgroups) hproducer
  split at hok
  · cases hok
  · next cs hcs =>
    cases hok
    exact ⟨cs, hcs, fun x hx => List.mem_flatten.mpr ⟨_, hgroup, List.mem_map_of_mem hx⟩⟩

/-- The uops that producers stand for are their result uops. -/
theorem mem_producerDependencies {part : Option ℕ} {producers ids : List Id}
    (h : producerDependencies terminals part producers = .ok ids) :
    ∀ d ∈ ids, ∃ producer ∈ producers, ∃ cs, terminals producer = some cs ∧ ∃ y ∈ cs, y.id = d := by
  obtain ⟨groups, hgroups, h⟩ := ok_bind.mp h
  cases h
  intro d hd
  obtain ⟨group, hgroup, hd⟩ := List.mem_flatten.mp hd
  obtain ⟨producer, hproducer, hok⟩ := forall₂_right (mapM_ok.mp hgroups) hgroup
  split at hok
  · cases hok
  · next cs hcs =>
    cases hok
    obtain ⟨y, hy, rfl⟩ := List.mem_map.mp hd
    exact ⟨producer, hproducer, cs, hcs, y, (mem_selected.mp hy).1, rfl⟩

/-- A uop is linked to those its recipe uop names, and to what its producers result in. -/
theorem linkUop_links (h : linkUop P terminals i c semantics pairs p = .ok q) : SameUop p q ∧
    (∀ name ∈ p.1.uop.dependsOn, ∀ x ∈ selected p.1.partIndex ((pairs.filter fun p => p.1.uop.id = name).map (·.2)),
      x.id ∈ q.2.dependencies) ∧
    ∀ producer ∈ externalProducers i p.2.kind (p.1.localIndex = 0) p.1.sources,
      ∃ cs, terminals producer = some cs ∧ ∀ x ∈ selected p.2.partIndex cs, x.id ∈ q.2.dependencies := by
  obtain ⟨internal, hinternal, h⟩ := ok_bind.mp h
  obtain ⟨after, -, h⟩ := ok_bind.mp h
  obtain ⟨external, hexternal, h⟩ := ok_bind.mp h
  obtain ⟨state, -, h⟩ := ok_bind.mp h
  obtain ⟨old, -, h⟩ := ok_bind.mp h
  cases h
  refine ⟨⟨rfl, rfl, rfl, rfl, rfl, rfl, rfl⟩, fun name hname x hx => ?_, fun producer hproducer => ?_⟩
  · obtain ⟨ids, hids, hok⟩ := forall₂_left (mapM_ok.mp hinternal) hname
    rw [localDependency_ok hok] at hids
    have hmem : x.id ∈ internal.flatten := List.mem_flatten.mpr ⟨_, hids, List.mem_map_of_mem hx⟩
    simp [hmem]
  · obtain ⟨cs, hcs, hall⟩ := producerDependencies_ok hexternal producer hproducer
    refine ⟨cs, hcs, fun x hx => ?_⟩
    have hmem := hall x hx
    simp [hmem]

/-- A linked uop waits for those its recipe uop names, and for what its producers result in. -/
theorem linkUop_waits (h : linkUop P terminals i c semantics pairs p = .ok q) : ∀ d ∈ q.2.dependencies,
    (∃ name ∈ p.1.uop.dependsOn,
      ∃ x ∈ selected p.1.partIndex ((pairs.filter fun p => p.1.uop.id = name).map (·.2)), x.id = d) ∨
    ∃ producer, (producer ∈ externalProducers i p.2.kind (p.1.localIndex = 0) p.1.sources ∨
        producer ∈ stateProducers P i p.1 ∨ producer ∈ oldDestinationProducers P i semantics p.1) ∧
      ∃ cs, terminals producer = some cs ∧ ∃ y ∈ cs, y.id = d := by
  obtain ⟨internal, hinternal, h⟩ := ok_bind.mp h
  obtain ⟨after, -, h⟩ := ok_bind.mp h
  obtain ⟨external, hexternal, h⟩ := ok_bind.mp h
  obtain ⟨state, hstate, h⟩ := ok_bind.mp h
  obtain ⟨old, hold, h⟩ := ok_bind.mp h
  cases h
  intro d hd
  simp only [List.mem_dedup, List.mem_append] at hd
  rcases hd with ((hd | hd) | hd) | hd
  · obtain ⟨ids, hids, hd⟩ := List.mem_flatten.mp hd
    obtain ⟨name, hname, hok⟩ := forall₂_right (mapM_ok.mp hinternal) hids
    rw [localDependency_ok hok] at hd
    exact .inl ⟨name, hname, List.mem_map.mp hd⟩
  · obtain ⟨producer, hproducer, hcs⟩ := mem_producerDependencies hexternal d hd
    exact .inr ⟨producer, .inl hproducer, hcs⟩
  · obtain ⟨producer, hproducer, hcs⟩ := mem_producerDependencies hstate d hd
    exact .inr ⟨producer, .inr (.inl hproducer), hcs⟩
  · obtain ⟨producer, hproducer, hcs⟩ := mem_producerDependencies hold d hd
    exact .inr ⟨producer, .inr (.inr hproducer), hcs⟩

end Link

/-- What the turn of an instruction makes of it. -/
structure Binding.Made (P : Profile) (bound : List Binding) (i : Instruction) (b : Binding) : Prop where
  instruction : b.instruction = i
  layout : layout P i = .ok (b.pairs.map (·.1))
  parent : ∀ p ∈ b.pairs, p.2.parentId = i.id
  kind : ∀ p ∈ b.pairs, p.2.kind = p.1.uop.kind
  part : ∀ p ∈ b.pairs, p.2.partIndex = p.1.partIndex
  count : ∀ p ∈ b.pairs, p.2.partCount = p.1.partCount
  internal : ∀ p ∈ b.pairs, ∀ q ∈ b.pairs, q.1.uop.id ∈ p.1.uop.dependsOn →
    Selects p.1.partIndex (((b.pairs.map (·.1)).filter fun e => e.uop.id = q.1.uop.id).map (·.partIndex))
      q.1.partIndex → q.2.id ∈ p.2.dependencies
  external : ∀ p ∈ b.pairs, ∀ producer ∈ externalProducers i p.1.uop.kind (p.1.localIndex = 0) p.1.sources,
    ∃ cs, terminalsOf bound producer = some cs ∧
      ∀ x ∈ cs, Selects p.1.partIndex (cs.map (·.partIndex)) x.partIndex → x.id ∈ p.2.dependencies
  waits : ∀ p ∈ b.pairs, ∀ d ∈ p.2.dependencies,
    (∃ q ∈ b.pairs, q.2.id = d ∧ q.1.uop.id ∈ p.1.uop.dependsOn ∧
      Selects p.1.partIndex (((b.pairs.map (·.1)).filter fun e => e.uop.id = q.1.uop.id).map (·.partIndex))
        q.1.partIndex) ∨
    ∃ producer cs, terminalsOf bound producer = some cs ∧ ∃ y ∈ cs, y.id = d

theorem executionUop_ok {c : ChosenRecipe} {semantics : List ℕ} {d : Option Decomposition} {depended : List String}
    {first : ℕ} {e : Entry × ℕ} {x : ExecutionUop}
    (h : executionUop P i c semantics d depended first e = .ok x) :
    x.id = execId i.id e.2 ∧ x.parentId = i.id ∧ x.kind = e.1.uop.kind ∧ x.partIndex = e.1.partIndex ∧
      x.partCount = e.1.partCount := by
  obtain ⟨_, -, h⟩ := ok_bind.mp h
  obtain ⟨_, -, h⟩ := ok_bind.mp h
  obtain ⟨_, -, h⟩ := ok_bind.mp h
  obtain ⟨_, -, h⟩ := ok_bind.mp h
  obtain ⟨_, -, h⟩ := ok_bind.mp h
  obtain ⟨_, -, h⟩ := ok_bind.mp h
  cases h
  exact ⟨rfl, rfl, rfl, rfl, rfl⟩

theorem bindInstruction_made (h : bindInstruction P bound i = .ok b) : b.Made P bound i := by
  obtain ⟨c, hc, h⟩ := ok_bind.mp h
  obtain ⟨semantics, -, h⟩ := ok_bind.mp h
  obtain ⟨d, hd, h⟩ := ok_bind.mp h
  obtain ⟨entries, hentries, h⟩ := ok_bind.mp h
  obtain ⟨uops, huops, h⟩ := ok_bind.mp h
  obtain ⟨pairs, hpairs, h⟩ := ok_bind.mp h
  obtain ⟨op, -, h⟩ := ok_bind.mp h
  cases h
  -- each uop is made of its entry, and linked it is still of that entry
  have hmade : List.Forall₂ (fun e x => x.parentId = i.id ∧ x.kind = e.uop.kind ∧ x.partIndex = e.partIndex ∧
      x.partCount = e.partCount) entries uops := by
    rw [← List.zipIdx_map_fst 0 entries, List.forall₂_map_left_iff]
    exact (mapM_ok.mp huops).imp fun e x hx => (executionUop_ok hx).2
  obtain ⟨hlength, hzip⟩ := List.forall₂_iff_zip.mp hmade
  have hlinked := (mapM_ok.mp hpairs).imp fun p q hq => linkUop_links hq
  have hfirst : pairs.map (·.1) = entries := by
    have hsame : List.Forall₂ (· = ·) ((entries.zip uops).map (·.1)) (pairs.map (·.1)) := by
      rw [List.forall₂_map_left_iff, List.forall₂_map_right_iff]
      exact hlinked.imp fun p q hq => hq.1.entry.symm
    rw [List.forall₂_eq_eq_eq, List.map_fst_zip hlength.le] at hsame
    exact hsame.symm
  have hown : ∀ q ∈ pairs, q.2.parentId = i.id ∧ q.2.kind = q.1.uop.kind ∧ q.2.partIndex = q.1.partIndex ∧
      q.2.partCount = q.1.partCount := by
    intro q hq
    obtain ⟨p, hp, hsame, -, -⟩ := forall₂_right hlinked hq
    rw [hsame.parent, hsame.kind, hsame.part, hsame.count, hsame.entry]
    exact hzip hp
  have hlayout : layout P i = .ok (pairs.map (·.1)) := by
    exact ok_bind.mpr ⟨c, hc, ok_bind.mpr ⟨d, hd, hfirst ▸ hentries⟩⟩
  -- the uops of a name before they are linked have the parts of its entries
  have hparts : ∀ name : String, ((entries.zip uops).filter fun p => p.1.uop.id = name).map (·.2.partIndex) =
      (entries.filter fun e => e.uop.id = name).map (·.partIndex) := by
    intro name
    conv_rhs => rw [← List.map_fst_zip hlength.le, List.filter_map, List.map_map]
    exact List.map_congr_left fun p hp => (hzip (List.mem_of_mem_filter hp)).2.2.1
  refine ⟨rfl, hlayout, fun q hq => (hown q hq).1, fun q hq => (hown q hq).2.1, fun q hq => (hown q hq).2.2.1,
    fun q hq => (hown q hq).2.2.2, ?_, ?_, ?_⟩
  · intro p hp q hq hname hselects
    obtain ⟨p', hp', hsame, hlocal, -⟩ := forall₂_right hlinked hp
    obtain ⟨q', hq', hsame', -, -⟩ := forall₂_right hlinked hq
    rw [hsame.entry] at hname hselects
    rw [hsame'.id]
    refine hlocal _ hname q'.2 (mem_selected.mpr ⟨List.mem_map_of_mem (List.mem_filter.mpr ⟨hq', ?_⟩), ?_⟩)
    · rw [hsame'.entry]
      exact decide_eq_true rfl
    · rw [List.map_map]
      show Selects p'.1.partIndex (((entries.zip uops).filter fun p => p.1.uop.id = q.1.uop.id).map (·.2.partIndex)) _
      rw [hparts, (hzip hq').2.2.1, ← hsame'.entry, ← hfirst]
      exact hselects
  · intro q hq producer hproducer
    obtain ⟨p, hp, hsame, -, hexternal⟩ := forall₂_right hlinked hq
    rw [hsame.entry, ← (hzip hp).2.1] at hproducer
    obtain ⟨cs, hcs, hall⟩ := hexternal producer hproducer
    refine ⟨cs, hcs, fun x hx hselects => hall x (mem_selected.mpr ⟨hx, ?_⟩)⟩
    rw [(hzip hp).2.2.1, ← hsame.entry]
    exact hselects
  · intro p hp d hd
    obtain ⟨p', hp', hlink⟩ := forall₂_right (mapM_ok.mp hpairs) hp
    have hentry := (linkUop_links hlink).1.entry
    refine (linkUop_waits hlink d hd).imp (fun ⟨name, hname, x, hx, hid⟩ => ?_) fun ⟨producer, _, hcs⟩ => ⟨producer, hcs⟩
    obtain ⟨hx, hselects⟩ := mem_selected.mp hx
    obtain ⟨r, hr, rfl⟩ := List.mem_map.mp hx
    obtain ⟨hzr, hnamed⟩ := List.mem_filter.mp hr
    obtain rfl := of_decide_eq_true hnamed
    obtain ⟨q, hq, hsame, -, -⟩ := forall₂_left hlinked hzr
    rw [List.map_map] at hselects
    have hselects : Selects p'.1.partIndex
        (((entries.zip uops).filter fun p => p.1.uop.id = r.1.uop.id).map (·.2.partIndex)) r.2.partIndex := hselects
    rw [hparts, (hzip hzr).2.2.1, ← hentry, ← hsame.entry, ← hfirst] at hselects
    rw [← hentry, ← hsame.entry] at hname
    exact ⟨q, hq, hsame.id.trans hid, hname, hselects⟩

theorem bindInstruction_execIds (h : bindInstruction P bound i = .ok b) : ∀ x ∈ b.uops, ∃ k, x.id = execId x.parentId k := by
  obtain ⟨c, -, h⟩ := ok_bind.mp h
  obtain ⟨semantics, -, h⟩ := ok_bind.mp h
  obtain ⟨d, -, h⟩ := ok_bind.mp h
  obtain ⟨entries, -, h⟩ := ok_bind.mp h
  obtain ⟨uops, huops, h⟩ := ok_bind.mp h
  obtain ⟨pairs, hpairs, h⟩ := ok_bind.mp h
  obtain ⟨op, -, h⟩ := ok_bind.mp h
  cases h
  intro x hx
  obtain ⟨q, hq, rfl⟩ := List.mem_map.mp hx
  obtain ⟨p, hp, hlink⟩ := forall₂_right (mapM_ok.mp hpairs) hq
  have hsame := (linkUop_links hlink).1
  obtain ⟨e, -, hmade⟩ := forall₂_right (mapM_ok.mp huops) (List.of_mem_zip hp).2
  obtain ⟨hid, hparent, -⟩ := executionUop_ok hmade
  exact ⟨e.2, by rw [hsame.id, hsame.parent, hid, hparent]⟩

/-! ### The trace -/

/-- Every instruction of the trace is bound after those before it. -/
theorem bindAll_made : ∀ {source : List Instruction} {bound : List Binding}, bindAll P source = .ok bound →
    bound.length = source.length ∧ ∀ k i, source[k]? = some i →
      ∃ b, bound[k]? = some b ∧ bindInstruction P (bound.take k) i = .ok b := by
  intro source
  induction source using List.reverseRecOn with
  | nil =>
    intro bound h
    cases h
    exact ⟨rfl, fun k i hi => by simp at hi⟩
  | append_singleton source i ih =>
    intro bound h
    unfold bindAll at h
    rw [List.foldlM_append] at h
    obtain ⟨before, hbefore, h⟩ := ok_bind.mp h
    rw [List.foldlM_cons] at h
    obtain ⟨after, hafter, h⟩ := ok_bind.mp h
    cases h
    obtain ⟨b, hb, hafter⟩ := ok_bind.mp hafter
    cases hafter
    obtain ⟨hlength, hall⟩ := ih hbefore
    refine ⟨by simp [hlength], fun k j hj => ?_⟩
    by_cases hk : k < source.length
    · rw [List.getElem?_append_left hk] at hj
      obtain ⟨b', hb', hbind⟩ := hall k j hj
      refine ⟨b', by rw [List.getElem?_append_left (hlength ▸ hk)]; exact hb', ?_⟩
      rw [List.take_append_of_le_length (by omega)]
      exact hbind
    · have hlt := (List.getElem?_eq_some_iff.mp hj).1
      rw [List.length_append, List.length_singleton] at hlt
      obtain rfl : k = source.length := by omega
      have hij : i = j := by simpa using hj
      refine ⟨b, by simp [← hlength], ?_⟩
      rw [← hlength, List.take_left, ← hij]
      exact hb

/-- The uops of a trace of the binder have ids of its making. -/
theorem bind_execIds {source : List Instruction} {T : BoundTrace} (h : bind P source = .ok T) :
    ∀ x ∈ T.uops, ∃ k, x.id = execId x.parentId k := by
  obtain ⟨bound, hbound, h⟩ := ok_bind.mp h
  obtain ⟨resources, -, h⟩ := ok_bind.mp h
  cases h
  intro x hx
  obtain ⟨b, hb, hx⟩ := List.mem_flatMap.mp hx
  obtain ⟨hlength, hall⟩ := bindAll_made hbound
  obtain ⟨k, hk⟩ := List.mem_iff_getElem?.mp hb
  have hlt : k < source.length := hlength ▸ (List.getElem?_eq_some_iff.mp hk).1
  obtain ⟨b', hb', hmade⟩ := hall k _ (List.getElem?_eq_getElem hlt)
  obtain rfl : b' = b := Option.some.inj (hb'.symm.trans hk)
  exact bindInstruction_execIds hmade x hx

/-- The result uops of an instruction once the trace is bound. -/
def resultUops (P : Profile) (source : List Instruction) (producer : Id) : List ExecutionUop :=
  match bindAll P source with
  | .ok bound => (terminalsOf bound producer).getD []
  | .error _ => []

/-- Of instructions numbered by their positions, the result uops of one are its binding's. -/
theorem terminalsOf_eq (hid : ∀ k (b : Binding), bound[k]? = some b → b.instruction.id = k) {k : ℕ} (hb : bound[k]? = some b) :
    terminalsOf bound k = some b.terminals := by
  unfold terminalsOf
  cases hfind : bound.reverse.find? (·.instruction.id = k) with
  | none =>
    have hmem := List.mem_reverse.mpr (List.mem_of_getElem? hb)
    have hnot := List.find?_eq_none.mp hfind b hmem
    rw [decide_eq_true_eq] at hnot
    exact absurd (hid k b hb) hnot
  | some b' =>
    have hk : b'.instruction.id = k := by simpa using List.find?_some hfind
    obtain ⟨k', hk'⟩ := List.mem_iff_getElem?.mp (List.mem_reverse.mp (List.mem_of_find?_eq_some hfind))
    obtain rfl : k' = k := (hid k' b' hk').symm.trans hk
    rw [hb] at hk'
    cases hk'
    rfl

theorem terminalsOf_some {producer : Id} {cs : List ExecutionUop} (h : terminalsOf bound producer = some cs) :
    ∃ b ∈ bound, b.instruction.id = producer ∧ cs = b.terminals := by
  obtain ⟨b, hb, rfl⟩ := Option.map_eq_some_iff.mp h
  exact ⟨b, List.mem_reverse.mp (List.mem_of_find?_eq_some hb), by simpa using List.find?_some hb, rfl⟩

end VectorSim
