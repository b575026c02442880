/-
# A reader waits for all that was written

A vector instruction is bound to one uop for each part of its register group, by
its own rule, and a reader of the group waits for the producers of its part
index. Where the two instructions have as many parts, each part of the reader
waits for its own. Where they have not, a part of the producer may be left that
no uop of the reader waits for: a reduction has the one part 0, and a producer
of a group of two has the parts 0 and 1. That the parts meet (`PartsMeet`) is
enough for the reader to wait for all of them (`raw_ordered`).
-/
import VectorSim.FrontendTraces
import VectorSim.Links
import VectorSim.TraceSafety

namespace VectorSim

open Checked

variable {P : Profile} {source : List Instruction} {T : BoundTrace} {bound : List Binding} {b : Binding}

/-! ### The parts of a producer and of a reader -/

/-- The entry waits for every producer of a register. -/
def Entry.isReader (e : Entry) : Bool :=
  e.sources.isNone && e.uop.kind ≠ .addressGeneration && (e.uop.kind ≠ .loadData || e.localIndex = 0)

/-- The parts of the uops that wait for every producer of a register. -/
def readerParts (entries : List Entry) : List (Option ℕ) := (entries.filter (·.isReader)).map (·.partIndex)

/-- A reader waits for every instruction its registers come from. -/
theorem Entry.isReader.producers {e : Entry} (h : e.isReader = true) {i : Instruction} {r : String} {w : Id}
    (hw : (r, w) ∈ i.registerDependencies) : w ∈ externalProducers i e.uop.kind (e.localIndex = 0) e.sources := by
  have hmem : w ∈ i.registerDependencies.map (·.2) := List.mem_map.mpr ⟨(r, w), hw, rfl⟩
  unfold Entry.isReader at h
  simp only [Bool.and_eq_true, Bool.or_eq_true, Option.isNone_iff_eq_none, decide_eq_true_eq] at h
  obtain ⟨⟨hsources, hkind⟩, hload⟩ := h
  unfold externalProducers
  rw [hsources]
  cases hk : e.uop.kind with
  | addressGeneration => exact absurd hk hkind
  | loadData =>
    have hfirst : e.localIndex = 0 := hload.resolve_left fun hne => hne hk
    simp [hfirst, hmem]
  | storeData => exact List.mem_append_left _ hmem
  | _ => exact List.mem_append_left _ (List.mem_append_left _ hmem)

/-- Every part of the one instruction's result is selected by a uop of the other that waits for its
registers: a uop without a part, of that part, or of one the result has none of. -/
def PartsMeet (P : Profile) (i j : Instruction) : Prop :=
  match layout P i, layout P j with
  | .ok writer, .ok reader =>
    ∀ a ∈ resultParts writer, ∃ part ∈ readerParts reader, Selects part (resultParts writer) a
  | _, _ => True

instance (P : Profile) (i j : Instruction) : Decidable (PartsMeet P i j) := by
  unfold PartsMeet
  split <;> infer_instance

/-- The instruction `j` reads the whole vector register group that `i` writes. -/
def ReadsGroup (i j : Instruction) : Prop :=
  (∃ r ∈ i.registerWrites, isVectorRegister r = true) ∧
    ∀ r ∈ i.registerWrites, isVectorRegister r = true → (r, i.id) ∈ j.registerDependencies

instance (i j : Instruction) : Decidable (ReadsGroup i j) := by unfold ReadsGroup; infer_instance

/-- Every result uop of the instruction `i` is an ancestor of a uop of `j`. -/
def OrderedAfter (P : Profile) (source : List Instruction) (T : BoundTrace) (i j : Instruction) : Prop :=
  ∀ t ∈ resultUops P source i.id, ∃ x ∈ T.uops, x.parentId = j.id ∧ Relation.TransGen (Depends T) x.id t.id

/-! ### Bindings of a numbered trace -/

theorem bind_uops (h : bind P source = .ok T) : ∃ bound, bindAll P source = .ok bound ∧
    T.uops = bound.flatMap (·.uops) := by
  obtain ⟨bound, hbound, h⟩ := ok_bind.mp h
  obtain ⟨resources, -, h⟩ := ok_bind.mp h
  cases h
  exact ⟨bound, hbound, rfl⟩

/-- The bindings are numbered as the instructions are. -/
theorem bindAll_numbered (hid : ∀ (k : ℕ) (d : Instruction), source[k]? = some d → d.id = k)
    (h : bindAll P source = .ok bound) : ∀ k (b : Binding), bound[k]? = some b → b.instruction.id = k := by
  obtain ⟨hlength, hall⟩ := bindAll_made h
  intro k b hb
  have hlt : k < source.length := hlength ▸ (List.getElem?_eq_some_iff.mp hb).1
  obtain ⟨b', hb', hmade⟩ := hall k source[k] (List.getElem?_eq_getElem _)
  rw [hb] at hb'
  cases hb'
  rw [(bindInstruction_made hmade).instruction]
  exact hid k _ (List.getElem?_eq_getElem _)

/-- What an instruction waits for of another is the result of that one's binding. -/
theorem terminalsOf_take (hid : ∀ k (b : Binding), bound[k]? = some b → b.instruction.id = k) {k n : ℕ}
    {cs : List ExecutionUop} (h : terminalsOf (bound.take n) k = some cs) :
    ∃ b, bound[k]? = some b ∧ k < n ∧ cs = b.terminals := by
  obtain ⟨b, hb, hk, rfl⟩ := terminalsOf_some h
  obtain ⟨k', hk'⟩ := List.mem_iff_getElem?.mp hb
  have hget := LastWriter.getElem?_of_take hk'
  obtain rfl : k' = k := (hid k' b hget).symm.trans hk
  have hlt := (List.getElem?_eq_some_iff.mp hk').1
  rw [List.length_take] at hlt
  exact ⟨b, hget, by omega, rfl⟩

/-- The ancestors of a uop are among some uops that wait for none but these. -/
theorem ancestor_mem {S : List Id} (hS : ∀ x ∈ T.uops, x.id ∈ S → x.dependencies ⊆ S) {u d : Id}
    (h : Relation.TransGen (Depends T) u d) (hu : u ∈ S) : d ∈ S := by
  have hstep : ∀ {u d}, Depends T u d → u ∈ S → d ∈ S := by
    rintro u d ⟨x, hx, rfl, hd⟩ hu
    exact hS x hx hu hd
  induction h with
  | single h => exact hstep h hu
  | tail _ h ih => exact hstep h ih

/-- **A reader of a register group waits for every result uop of its writer**, where the parts of the
two instructions meet. -/
theorem raw_ordered (hfront : FrontendTrace source) (hbind : bind P source = .ok T) {i j : Instruction} (hi : i ∈ source)
    (hj : j ∈ source) (hreads : ReadsGroup i j) (hparts : PartsMeet P i j) : OrderedAfter P source T i j := by
  obtain ⟨bound, hbound, huops⟩ := bind_uops hbind
  have hid := hfront.lastStores.id
  have hnumbered := bindAll_numbered hid hbound
  obtain ⟨-, hall⟩ := bindAll_made hbound
  obtain ⟨k, hk⟩ := List.mem_iff_getElem?.mp hi
  obtain ⟨n, hn⟩ := List.mem_iff_getElem?.mp hj
  obtain ⟨writer, hwriter, hmade⟩ := hall k i hk
  obtain ⟨reader, hreader, hmade'⟩ := hall n j hn
  have hwrites := bindInstruction_made hmade
  have hwaits := bindInstruction_made hmade'
  intro t ht
  have hresult : t ∈ writer.terminals := by
    unfold resultUops at ht
    rw [hbound] at ht
    dsimp only at ht
    rw [hid k i hk, terminalsOf_eq hnumbered hwriter] at ht
    exact ht
  -- a uop of the reader selects the part of the result uop
  have hmem : t.partIndex ∈ resultParts (writer.pairs.map (·.1)) := by
    rw [← writer.terminals_parts hwrites.part]
    exact List.mem_map_of_mem hresult
  unfold PartsMeet at hparts
  rw [hwrites.layout, hwaits.layout] at hparts
  obtain ⟨part, hpart, hselects⟩ := hparts _ hmem
  obtain ⟨e, he, rfl⟩ := List.mem_map.mp hpart
  obtain ⟨he, hreader⟩ := List.mem_filter.mp he
  obtain ⟨p, hp, rfl⟩ := List.mem_map.mp he
  obtain ⟨⟨r, hr, hvector⟩, hgroup⟩ := hreads
  obtain ⟨cs, hcs, hdepends⟩ := hwaits.external p hp i.id (Entry.isReader.producers hreader (hgroup r hr hvector))
  rw [hid k i hk] at hcs
  obtain ⟨b, hb, -, rfl⟩ := terminalsOf_take hnumbered hcs
  rw [hwriter] at hb
  cases hb
  rw [writer.terminals_parts hwrites.part] at hdepends
  have huop : p.2 ∈ T.uops := by
    rw [huops]
    exact List.mem_flatMap.mpr ⟨reader, List.mem_of_getElem? ‹_›, List.mem_map_of_mem hp⟩
  exact ⟨p.2, huop, hwaits.parent p hp, .single ⟨p.2, huop, rfl, hdepends t hresult hselects⟩⟩

namespace Sample

def uopOf (kind : Kind) : Recipe where
  decodedMacroOps := some 1
  retireMacroOps := some 1
  uops := [{ id := "e0", kind := kind, latencyCycles := some 1, issueIntervalCycles := some 1,
             resourceOccupancyCycles := some 1, resourceChoices := [] }]

/-- A profile that gives a vector operation as many parts as its register group has registers, and a
reduction one part. -/
def groupProfile : Profile where
  id := "sample"
  ticksPerCycle := 1
  pipeline := ⟨some 2, some 2, some 4, some 4, some 4, some 4⟩
  memory := .oneLine ⟨some 1, some 1, some 1, some 1⟩ 1
  registerWidthBits := some 128
  recipes := [("vsetvli:any", uopOf .vectorControl), ("vfadd.vv:any", uopOf .vectorFp),
    ("vfredmax.vs:any", uopOf .vectorFp), ("ret:any", uopOf .branch)]
  resources := []
  l1d := ⟨some 1, some 1, some 1⟩
  decompositionRules := some [(.vectorVector, { parts := .lmul }), (.vectorReduction, { parts := .fixed 1 }),
    (.vectorConfig, { parts := .fixed 1 })]

/-- A program that adds two groups of two registers and reads the sum with a last instruction. -/
def groupProgram (last : Rvv.StaticInstruction) : Rvv.Program where
  static := [⟨"vsetvli", ["a5", "a2", "e32", "m2", "ta", "ma"]⟩, ⟨"vfadd.vv", ["v8", "v4", "v6"]⟩, last, ⟨"ret", []⟩]
  labels := []
  recipes := [("vsetvli", [.vectorConfig]), ("vfadd.vv", [.vectorFpAdd]), ("vfredmax.vs", [.vectorReduceMax]),
    ("ret", [.ret])]

/-- The sum is added to itself. -/
def addedTwice : Rvv.Program := groupProgram ⟨"vfadd.vv", ["v12", "v8", "v8"]⟩

/-- The greatest element of the sum. -/
def reducedSum : Rvv.Program := groupProgram ⟨"vfredmax.vs", ["v2", "v8", "v10"]⟩

/-- Two instructions of a trace. -/
def pairOf (p : Rvv.Program) (i j : ℕ) : Option (List Instruction × Instruction × Instruction) := do
  let source ← (Rvv.buildDynamicTrace p 4 128).toOption
  return (source, ← source[i]?, ← source[j]?)

/-- What the binder makes of a program under `groupProfile`: the ids of the result uops of its second
instruction, and the uops with their dependencies. -/
def boundUops (p : Rvv.Program) : Option (Bool × List Id × List (Id × Id × List Id)) := do
  let (source, i, j) ← pairOf p 1 2
  let T ← (bind groupProfile source).toOption
  return (decide (ReadsGroup i j ∧ PartsMeet groupProfile i j), (resultUops groupProfile source i.id).map (·.id),
    T.uops.map fun x => (x.id, x.parentId, x.dependencies))

end Sample

theorem raw_ordered_sample : ∃ source T i j, FrontendTrace source ∧ bind Sample.groupProfile source = .ok T ∧
    ReadsGroup i j ∧ OrderedAfter Sample.groupProfile source T i j := by
  have hrun : (Sample.boundUops Sample.addedTwice).map (·.1) = some true := by decide +kernel
  obtain ⟨r, hr, hmeet⟩ := Option.map_eq_some_iff.mp hrun
  obtain ⟨⟨source, i, j⟩, hpair, hr⟩ := Option.bind_eq_some_iff.mp hr
  obtain ⟨T, hT, hr⟩ := Option.bind_eq_some_iff.mp hr
  cases hr
  obtain ⟨source', hsource, hpair⟩ := Option.bind_eq_some_iff.mp hpair
  obtain ⟨i', hi, hpair⟩ := Option.bind_eq_some_iff.mp hpair
  obtain ⟨j', hj, hpair⟩ := Option.bind_eq_some_iff.mp hpair
  cases hpair
  have hfront : FrontendTrace source := .inl ⟨_, _, _, toOption_ok.mp hsource⟩
  obtain ⟨hreads, hparts⟩ := of_decide_eq_true hmeet
  exact ⟨source, T, i, j, hfront, toOption_ok.mp hT, hreads, raw_ordered hfront (toOption_ok.mp hT)
    (List.mem_of_getElem? hi) (List.mem_of_getElem? hj) hreads hparts⟩

/-- The greatest element of a group of two waits for the first register only. -/
theorem reduction_misses_part : ¬ ∀ P source T i j, FrontendTrace source → bind P source = .ok T → i ∈ source →
    j ∈ source → ReadsGroup i j → OrderedAfter P source T i j := by
  intro h
  have hrun : Sample.boundUops Sample.reducedSum = some (false, [2, 5],
      [(0, 0, []), (2, 1, [0]), (5, 1, [0]), (6, 2, [0, 2]), (12, 3, [])]) := by decide +kernel
  have hpair : (Sample.pairOf Sample.reducedSum 1 2).map (fun t => (t.2.1.id, t.2.2.id, decide (ReadsGroup t.2.1 t.2.2))) =
      some (1, 2, true) := by decide +kernel
  obtain ⟨⟨source, i, j⟩, hsample, hids⟩ := Option.map_eq_some_iff.mp hpair
  simp only [Prod.mk.injEq, decide_eq_true_eq] at hids
  obtain ⟨-, hj', hreads⟩ := hids
  obtain ⟨t, ht, hr⟩ := Option.bind_eq_some_iff.mp hrun
  rw [hsample] at ht
  cases ht
  obtain ⟨T, hT, hr⟩ := Option.bind_eq_some_iff.mp hr
  obtain ⟨-, hr⟩ := Prod.mk.inj (Option.some.inj hr)
  obtain ⟨hresult, huops⟩ := Prod.mk.inj hr
  obtain ⟨source', hsource, hsample⟩ := Option.bind_eq_some_iff.mp hsample
  obtain ⟨i', hi, hsample⟩ := Option.bind_eq_some_iff.mp hsample
  obtain ⟨j', hj, hsample⟩ := Option.bind_eq_some_iff.mp hsample
  cases hsample
  have hordered := h _ source T i j (.inl ⟨_, _, _, toOption_ok.mp hsource⟩) (toOption_ok.mp hT)
    (List.mem_of_getElem? hi) (List.mem_of_getElem? hj) hreads
  -- part 1 of the sum is the uop 5
  have hsecond : 5 ∈ (resultUops Sample.groupProfile source i.id).map (·.id) := by
    rw [hresult]
    decide
  obtain ⟨t, ht, hid⟩ := List.mem_map.mp hsecond
  obtain ⟨x, hx, hparent, hpath⟩ := hordered t ht
  have hall : ∀ y ∈ T.uops, (y.id, y.parentId, y.dependencies) ∈
      [(0, 0, []), (2, 1, [0]), (5, 1, [0]), (6, 2, [0, 2]), (12, 3, [])] := by
    intro y hy
    rw [← huops]
    exact List.mem_map_of_mem hy
  have hclosed : ∀ y ∈ T.uops, y.id ∈ [0, 2, 6] → y.dependencies ⊆ [0, 2, 6] := by
    intro y hy hyS
    have hmem := hall y hy
    simp only [List.mem_cons, Prod.mk.injEq, List.not_mem_nil, or_false] at hmem
    rcases hmem with ⟨-, -, hd⟩ | ⟨-, -, hd⟩ | ⟨hy5, -, hd⟩ | ⟨-, -, hd⟩ | ⟨-, -, hd⟩
    all_goals rw [hd]
    all_goals simp
  have hstart : x.id ∈ [0, 2, 6] := by
    have hmem := hall x hx
    rw [hparent, hj'] at hmem
    simp only [List.mem_cons, Prod.mk.injEq, List.not_mem_nil, or_false] at hmem
    rcases hmem with ⟨-, h, -⟩ | ⟨-, h, -⟩ | ⟨-, h, -⟩ | ⟨h, -, -⟩ | ⟨-, h, -⟩
    · cases h
    · cases h
    · cases h
    · simp [h]
    · cases h
  have hin := ancestor_mem hclosed hpath hstart
  rw [hid] at hin
  exact absurd hin (by decide)

end VectorSim
