/-
# A load comes after the store of its bytes

The frontends record for an access the last store to each of its lines, and the
binder pairs the parts of the two instructions by index, not by address. Along
the stores to a line a part of a store is carried to the uops of a later access
(`Carried`) as far as the indices meet; where every two parts that overlap meet
in this way, each is ordered after the other (`memory_ordered`). A store and a
load that start sixteen bytes apart overlap in parts of different indices.
-/
import VectorSim.PartSafety
import VectorSim.RawSafety

namespace VectorSim

open Checked LastWriter

variable {P : Profile} {source : List Instruction} {T : BoundTrace} {bound : List Binding} {b : Binding}

/-! ### What overlaps -/

/-- The accesses have a byte in common. -/
def Overlap (a b : MemoryAccess) : Prop :=
  ∃ byte, Tiling.Inside byte (a.address, a.bytes) ∧ Tiling.Inside byte (b.address, b.bytes)

/-- An older store uop and a younger load or store uop with a byte in common. -/
structure Conflict (u v : ExecutionUop) : Prop where
  older : u.parentId < v.parentId
  store : u.kind = .storeData
  access : v.kind.isMemory = true
  overlap : ∃ a ∈ u.memory, ∃ b ∈ v.memory, Overlap a b

/-- Every conflict is ordered: the older uop is an ancestor of the younger. -/
def MemoryOrdered (T : BoundTrace) : Prop :=
  ∀ u ∈ T.uops, ∀ v ∈ T.uops, Conflict u v → Relation.TransGen (Depends T) v.id u.id

/-! ### How a part is carried -/

/-- The uops an instruction is laid out as, if it is. -/
def laidOut (P : Profile) (i : Instruction) : List Entry :=
  match layout P i with
  | .ok entries => entries
  | .error _ => []

/-- The access of an entry, if it has one. -/
def accessOf (P : Profile) (i : Instruction) (e : Entry) : Option MemoryAccess :=
  match chooseRecipe P i with
  | .ok c =>
    match decompositionFor P i c with
    | .ok d => entryMemory? P i d e
    | .error _ => none
  | .error _ => none

/-- An entry waits for another of its instruction. -/
structure LocalWaits (entries : List Entry) (f e : Entry) : Prop where
  waiting : f ∈ entries
  awaited : e ∈ entries
  named : e.uop.id ∈ f.uop.dependsOn
  selects : Selects f.partIndex ((entries.filter fun e' => e'.uop.id = e.uop.id).map (·.partIndex)) e.partIndex

/-- A result uop of the part waits for the entry. -/
def Passes (entries : List Entry) (e : Entry) (a : Option ℕ) : Prop :=
  ∃ f ∈ resultEntries entries, f.partIndex = a ∧ Relation.ReflTransGen (LocalWaits entries) f e

/-- The entry is a load or store that the binder did not add. -/
def Entry.isAccess (e : Entry) : Bool := e.sources.isNone && e.uop.kind.isMemory

/-- The lines that an instruction touches. -/
def touchedLines (i : Instruction) : List ℤ := (i.memory.map (·.cacheLines)).getD []

/-- Along the stores to the line, the result of the part `a` of the store `k` is carried to the entry
`f` of the access `n`: each of them selects the part of the one before. -/
inductive Carried (P : Profile) (source : List Instruction) (l : ℤ) : ℕ → Option ℕ → ℕ → Entry → Prop
  | last {k n : ℕ} {i j : Instruction} {a : Option ℕ} {f : Entry} (store : source[k]? = some i)
      (access : source[n]? = some j) (touches : l ∈ touchedLines j)
      (isLast : IsLast ((source.take n).map storedLines) l k) (entry : f ∈ laidOut P j)
      (isAccess : f.isAccess = true) (selects : Selects f.partIndex (resultParts (laidOut P i)) a) :
      Carried P source l k a n f
  | through {k m n : ℕ} {i : Instruction} {a a' : Option ℕ} {f f' : Entry} (before : Carried P source l k a m f')
      (store : source[m]? = some i) (passes : Passes (laidOut P i) f' a') (after : Carried P source l m a' n f) :
      Carried P source l k a n f

/-- What a part is carried to is an entry of the instruction. -/
theorem Carried.entry {l : ℤ} {k n : ℕ} {a : Option ℕ} {f : Entry} (h : Carried P source l k a n f) :
    ∃ j, source[n]? = some j ∧ f ∈ laidOut P j := by
  induction h with
  | last _ access _ _ entry => exact ⟨_, access, entry⟩
  | through _ _ _ _ _ ih => exact ih

/-- Of every two entries whose accesses overlap, the older a store, the result of the one is carried
to the other along the stores to a line. -/
def PartsCarried (P : Profile) (source : List Instruction) : Prop :=
  ∀ k n i j, k < n → source[k]? = some i → source[n]? = some j →
    ∀ e ∈ laidOut P i, e.uop.kind = .storeData → ∀ f ∈ laidOut P j, f.uop.kind.isMemory = true →
      (∃ a ∈ accessOf P i e, ∃ b ∈ accessOf P j f, Overlap a b) →
      ∃ l a, Passes (laidOut P i) e a ∧ Carried P source l k a n f

/-! ### The bindings -/

theorem Binding.Made.entries {i : Instruction} (h : b.Made P bound i) : laidOut P i = b.pairs.map (·.1) := by
  unfold laidOut
  rw [h.layout]

/-- A pair of the binding has the access of its entry. -/
theorem accessOf_eq {i : Instruction} (h : bindInstruction P bound i = .ok b) {p : Entry × ExecutionUop}
    (hp : p ∈ b.pairs) : accessOf P i p.1 = p.2.memory := by
  obtain ⟨c, hc, hd, -, hmemory⟩ := bindInstruction_memory h
  unfold accessOf
  rw [hc]
  dsimp only
  rw [hd]
  dsimp only
  unfold entryMemory?
  rw [hmemory p hp]

section Bound

variable (hid : ∀ (k : ℕ) (d : Instruction), source[k]? = some d → d.id = k) (hbound : bindAll P source = .ok bound)
  (huops : T.uops = bound.flatMap (·.uops))

include hbound in
/-- The binding of an instruction. -/
theorem exists_binding {k : ℕ} {i : Instruction} (hk : source[k]? = some i) :
    ∃ b, bound[k]? = some b ∧ bindInstruction P (bound.take k) i = .ok b ∧ b.Made P (bound.take k) i := by
  obtain ⟨b, hb, hmade⟩ := (bindAll_made hbound).2 k i hk
  exact ⟨b, hb, hmade, bindInstruction_made hmade⟩

include huops in
theorem mem_uops {k : ℕ} (hb : bound[k]? = some b) {p : Entry × ExecutionUop} (hp : p ∈ b.pairs) : p.2 ∈ T.uops := by
  rw [huops]
  exact List.mem_flatMap.mpr ⟨b, List.mem_of_getElem? hb, List.mem_map_of_mem hp⟩

include huops in
/-- Entries that wait for another make uops that do. -/
theorem localWaits_depends {k : ℕ} {i : Instruction} (hb : bound[k]? = some b) (hmade : b.Made P (bound.take k) i)
    {p : Entry × ExecutionUop} (hp : p ∈ b.pairs) {f : Entry}
    (h : Relation.ReflTransGen (LocalWaits (laidOut P i)) f p.1) (hf : f ∈ laidOut P i) :
    ∃ q ∈ b.pairs, q.1 = f ∧ Relation.ReflTransGen (Depends T) q.2.id p.2.id := by
  induction h using Relation.ReflTransGen.head_induction_on with
  | refl => exact ⟨p, hp, rfl, .refl⟩
  | @head f g hwaits _ ih =>
    obtain ⟨q, hq, rfl, hpath⟩ := ih hwaits.awaited
    rw [hmade.entries] at hf
    obtain ⟨r, hr, rfl⟩ := List.mem_map.mp hf
    refine ⟨r, hr, rfl, .head ⟨r.2, mem_uops huops hb hr, rfl, ?_⟩ hpath⟩
    have hselects := hwaits.selects
    rw [hmade.entries] at hselects
    exact hmade.internal r hr q hq hwaits.named hselects

/-- A result entry of an instruction makes a result uop. -/
theorem mem_terminals {q : Entry × ExecutionUop} (hq : q ∈ b.pairs) (hresult : q.1 ∈ resultEntries (b.pairs.map (·.1))) :
    q.2 ∈ b.terminals := by
  unfold Binding.terminals
  refine List.mem_map_of_mem (List.mem_filter.mpr ⟨hq, ?_⟩)
  exact (List.mem_filter.mp hresult).2

/-- An access waits for its memory producers. -/
theorem Entry.isAccess.producers {e : Entry} (h : e.isAccess = true) {i : Instruction} {w : Id}
    (hw : w ∈ i.memoryDependencies) : w ∈ externalProducers i e.uop.kind (e.localIndex = 0) e.sources := by
  unfold Entry.isAccess at h
  rw [Bool.and_eq_true, Option.isNone_iff_eq_none] at h
  obtain ⟨hsources, hkind⟩ := h
  unfold externalProducers
  rw [hsources]
  cases hk : e.uop.kind with
  | loadData => exact List.mem_append_left _ hw
  | storeData => exact List.mem_append_right _ hw
  | _ => rw [hk] at hkind; cases hkind

include hbound huops in
/-- **A part that is carried is waited for**: the uops of the access are behind every result uop of
the part. The induction is on the stores to the line. -/
theorem carried_ancestor (hstores : LastStores source) {l : ℤ} {k n : ℕ} {a : Option ℕ} {f : Entry}
    (h : Carried P source l k a n f) : ∀ store access, bound[k]? = some store → bound[n]? = some access →
      ∀ t ∈ store.terminals, t.partIndex = a → ∀ q ∈ access.pairs, q.1 = f →
        Relation.TransGen (Depends T) q.2.id t.id := by
  have hnumbered := bindAll_numbered hstores.id hbound
  induction h with
  | @last k n i j a f store access touches isLast entry isAccess selects =>
    rintro b b' hb hb' t ht rfl q hq rfl
    obtain ⟨_, hbk, -, hmade⟩ := exists_binding hbound store
    obtain rfl := Option.some.inj (hb.symm.trans hbk)
    obtain ⟨_, hbn, -, hmade'⟩ := exists_binding hbound access
    obtain rfl := Option.some.inj (hb'.symm.trans hbn)
    -- the access names the last store to the line
    have hproducer : k ∈ j.memoryDependencies := by
      cases hm : j.memory with
      | none => simp [touchedLines, hm] at touches
      | some m =>
        refine hstores.stores n j m access hm l ?_ k isLast
        simpa [touchedLines, hm] using touches
    obtain ⟨cs, hcs, hdepends⟩ := hmade'.external q hq k (Entry.isAccess.producers isAccess hproducer)
    obtain ⟨c, hc, -, rfl⟩ := terminalsOf_take hnumbered hcs
    obtain rfl := Option.some.inj (hb.symm.trans hc)
    rw [b.terminals_parts hmade.part, ← hmade.entries] at hdepends
    exact .single ⟨q.2, mem_uops huops hb' hq, rfl, hdepends t ht selects⟩
  | @through k m n i a a' f f' before store passes after ih ih' =>
    rintro b b' hb hb' t ht hta q hq rfl
    obtain ⟨c, hc, -, hmade⟩ := exists_binding hbound store
    obtain ⟨g, hg, rfl, hlocal⟩ := passes
    obtain ⟨i', hi', hentry⟩ := before.entry
    obtain rfl := Option.some.inj (store.symm.trans hi')
    rw [hmade.entries] at hentry
    obtain ⟨p, hp, rfl⟩ := List.mem_map.mp hentry
    have hgin : g ∈ laidOut P i := List.mem_of_mem_filter hg
    obtain ⟨r, hr, rfl, hpath⟩ := localWaits_depends huops hc hmade hp hlocal hgin
    -- from the access to the result of the store between, through its uops, and on to the older store
    have hresult : r.2 ∈ c.terminals := mem_terminals hr (hmade.entries ▸ hg)
    have hlater := ih' c b' hc hb' r.2 hresult (hmade.part r hr) q hq rfl
    have hearlier := ih b c hb hc t ht hta p hp rfl
    exact (hlater.trans_left hpath).trans hearlier

end Bound

/-- **Overlapping accesses are ordered**, where the parts of every two that overlap are carried. -/
theorem memory_ordered (hfront : FrontendTrace source) (hbind : bind P source = .ok T)
    (hcarried : PartsCarried P source) : MemoryOrdered T := by
  obtain ⟨bound, hbound, huops⟩ := bind_uops hbind
  have hstores := hfront.lastStores
  have hlength := (bindAll_made hbound).1
  -- a uop of the trace is that of an entry of an instruction
  have hentry : ∀ u ∈ T.uops, ∃ (k : ℕ) (i : Instruction) (b : Binding) (p : Entry × ExecutionUop),
      source[k]? = some i ∧ bound[k]? = some b ∧ bindInstruction P (bound.take k) i = .ok b ∧ p ∈ b.pairs ∧ p.2 = u := by
    intro u hu
    rw [huops] at hu
    obtain ⟨b, hb, hu⟩ := List.mem_flatMap.mp hu
    obtain ⟨k, hk⟩ := List.mem_iff_getElem?.mp hb
    have hlt : k < source.length := hlength ▸ (List.getElem?_eq_some_iff.mp hk).1
    have hi : source[k]? = some source[k] := List.getElem?_eq_getElem _
    obtain ⟨b', hb', hmade, -⟩ := exists_binding hbound hi
    obtain rfl := Option.some.inj (hk.symm.trans hb')
    obtain ⟨p, hp, rfl⟩ := List.mem_map.mp hu
    exact ⟨k, _, b, p, hi, hk, hmade, hp, rfl⟩
  intro u hu v hv hconflict
  obtain ⟨k, i, b, p, hk, hb, hmade, hp, rfl⟩ := hentry u hu
  obtain ⟨n, j, b', q, hn, hb', hmade', hq, rfl⟩ := hentry v hv
  have hwrites := bindInstruction_made hmade
  have hreads := bindInstruction_made hmade'
  have holder : k < n := by
    have h := hconflict.older
    rwa [hwrites.parent p hp, hreads.parent q hq, hstores.id k i hk, hstores.id n j hn] at h
  have hpe : p.1 ∈ laidOut P i := by
    rw [hwrites.entries]
    exact List.mem_map_of_mem hp
  have hqe : q.1 ∈ laidOut P j := by
    rw [hreads.entries]
    exact List.mem_map_of_mem hq
  have hstore := hconflict.store
  rw [hwrites.kind p hp] at hstore
  have haccess := hconflict.access
  rw [hreads.kind q hq] at haccess
  have hoverlap := hconflict.overlap
  rw [← accessOf_eq hmade hp, ← accessOf_eq hmade' hq] at hoverlap
  obtain ⟨l, a, ⟨g, hg, rfl, hlocal⟩, hcarries⟩ := hcarried k n i j holder hk hn p.1 hpe hstore q.1 hqe haccess hoverlap
  -- the access is behind a result uop of the store, which is behind the store's uop
  obtain ⟨r, hr, rfl, hpath⟩ := localWaits_depends huops hb hwrites hp hlocal (List.mem_of_mem_filter hg)
  have hresult : r.2 ∈ b.terminals := mem_terminals hr (hwrites.entries ▸ hg)
  have hlater := carried_ancestor hbound huops hstores hcarries b b' hb hb' r.2 hresult (hwrites.part r hr) q hq rfl
  exact hlater.trans_left hpath

namespace Sample

/-- A profile that cuts an access into parts of sixteen bytes. -/
def accessProfile : Profile where
  id := "sample"
  ticksPerCycle := 1
  pipeline := ⟨some 2, some 2, some 4, some 4, some 4, some 4⟩
  memory := .oneLine ⟨some 1, some 1, some 1, some 1⟩ 1
  registerWidthBits := some 128
  recipes := [("vsetvli:any", uopOf .vectorControl), ("vse32.v:any", uopOf .storeData), ("vle32.v:any", uopOf .loadData),
    ("addi:any", uopOf .scalarAlu), ("ret:any", uopOf .branch)]
  resources := []
  l1d := ⟨some 1, some 1, some 1⟩
  decompositionRules := some [(.vectorMemory, { parts := .dynamic })]

/-- A program that stores a group of two and loads one from `offset` bytes on. -/
def storeLoad (lmul offset : String) : Rvv.Program where
  static := [⟨"vsetvli", ["a5", "a2", "e32", lmul, "ta", "ma"]⟩, ⟨"vse32.v", ["v8", "0(a1)"]⟩,
    ⟨"addi", ["a3", "a1", offset]⟩, ⟨"vle32.v", ["v4", "0(a3)"]⟩, ⟨"ret", []⟩]
  labels := []
  recipes := [("vsetvli", [.vectorConfig]), ("vse32.v", [.vectorStore]), ("vle32.v", [.vectorLoad]), ("addi", [.scalarAlu]),
    ("ret", [.ret])]

/-- The kind and the part of an entry, and whether it is a result. -/
structure EntryRow where
  kind : Kind
  part : Option ℕ
  isAccess : Bool
  isResult : Bool
  deriving DecidableEq

/-- The lines an instruction stores to and touches, and its entries. -/
structure InstructionRow where
  stored : List ℤ
  touched : List ℤ
  entries : List EntryRow
  deriving DecidableEq

def entryRow (entries : List Entry) (e : Entry) : EntryRow where
  kind := e.uop.kind
  part := e.partIndex
  isAccess := e.isAccess
  isResult := e.uop.id ∉ dependedLocals entries

def instructionRow (d : Instruction) : InstructionRow where
  stored := storedLines d
  touched := touchedLines d
  entries := (laidOut accessProfile d).map (entryRow (laidOut accessProfile d))

/-- A uop with the instruction it is of, the bytes it accesses and what it waits for. -/
structure UopRow where
  id : Id
  parent : Id
  kind : Kind
  access : Option (ℤ × ℕ)
  dependencies : List Id
  deriving DecidableEq

def uopRow (x : ExecutionUop) : UopRow where
  id := x.id
  parent := x.parentId
  kind := x.kind
  access := x.memory.map fun m => (m.address, m.bytes)
  dependencies := x.dependencies

/-- The instructions of the program and its bound uops. -/
def rowsOf (p : Rvv.Program) : Option (List InstructionRow × List UopRow) := do
  let source ← (Rvv.buildDynamicTrace p 8 128).toOption
  let T ← (bind accessProfile source).toOption
  return (source.map instructionRow, T.uops.map uopRow)

theorem rowsOf_eq {p : Rvv.Program} {rows : List InstructionRow × List UopRow} (h : rowsOf p = some rows) :
    ∃ source T, FrontendTrace source ∧ bind accessProfile source = .ok T ∧ source.map instructionRow = rows.1 ∧
      T.uops.map uopRow = rows.2 := by
  obtain ⟨source, hsource, h⟩ := Option.bind_eq_some_iff.mp h
  obtain ⟨T, hT, h⟩ := Option.bind_eq_some_iff.mp h
  cases h
  exact ⟨source, T, .inl ⟨_, _, _, toOption_ok.mp hsource⟩, toOption_ok.mp hT, rfl, rfl⟩

/-- A row of the table is of a uop that accesses the bytes it says. -/
theorem exists_uop {T : BoundTrace} {rows : List UopRow} (h : T.uops.map uopRow = rows) {r : UopRow} (hr : r ∈ rows) :
    ∃ x ∈ T.uops, uopRow x = r := by
  rw [← h] at hr
  exact List.mem_map.mp hr

/-- The instructions of a store of one register and a load of it. -/
def storeLoadRows : List InstructionRow :=
  [⟨[], [], [⟨.vectorControl, none, false, true⟩]⟩, ⟨[32768], [32768], [⟨.storeData, some 0, true, true⟩]⟩,
    ⟨[], [], [⟨.scalarAlu, none, false, true⟩]⟩, ⟨[], [32768], [⟨.loadData, some 0, true, true⟩]⟩,
    ⟨[], [], [⟨.branch, none, false, true⟩]⟩]

end Sample

/-- A store of one register and a load of it. -/
theorem memory_ordered_sample : ∃ source T, FrontendTrace source ∧ bind Sample.accessProfile source = .ok T ∧
    (∃ u ∈ T.uops, ∃ v ∈ T.uops, Conflict u v) ∧ MemoryOrdered T := by
  obtain ⟨source, T, hfront, hT, hsource, huops⟩ := Sample.rowsOf_eq (p := Sample.storeLoad "m1" "0")
    (show Sample.rowsOf _ = some (
      Sample.storeLoadRows,
      [⟨0, 0, .vectorControl, none, []⟩, ⟨2, 1, .storeData, some (2097152, 16), [0]⟩, ⟨6, 2, .scalarAlu, none, []⟩,
        ⟨12, 3, .loadData, some (2097152, 16), [2, 6, 0]⟩, ⟨20, 4, .branch, none, []⟩]) from by decide +kernel)
  refine ⟨source, T, hfront, hT, ?_, memory_ordered hfront hT ?_⟩
  · obtain ⟨u, hu, hrow⟩ := Sample.exists_uop huops (r := ⟨2, 1, .storeData, some (2097152, 16), [0]⟩) (by decide)
    obtain ⟨v, hv, hrow'⟩ := Sample.exists_uop huops (r := ⟨12, 3, .loadData, some (2097152, 16), [2, 6, 0]⟩) (by decide)
    simp only [Sample.uopRow, Sample.UopRow.mk.injEq, Option.map_eq_some_iff, Prod.mk.injEq] at hrow hrow'
    obtain ⟨-, hparent, hkind, ⟨m, hm, haddress, hbytes⟩, -⟩ := hrow
    obtain ⟨-, hparent', hkind', ⟨m', hm', haddress', hbytes'⟩, -⟩ := hrow'
    exact ⟨u, hu, v, hv, by rw [hparent, hparent']; decide, hkind, by rw [hkind']; rfl, m, hm, m', hm', 2097152,
      by simp [Tiling.Inside, haddress, hbytes], by simp [Tiling.Inside, haddress', hbytes']⟩
  · intro k n i j hkn hk hn e he hstore f hf haccess _
    have hrows : ∀ {k : ℕ} {i : Instruction}, source[k]? = some i →
        (source.map Sample.instructionRow)[k]? = some (Sample.instructionRow i) := by
      intro k i hi
      rw [List.getElem?_map, hi]
      rfl
    have hentry : ∀ {i : Instruction} {e : Entry}, e ∈ laidOut Sample.accessProfile i →
        Sample.entryRow (laidOut Sample.accessProfile i) e ∈ (Sample.instructionRow i).entries :=
      fun he => List.mem_map_of_mem he
    have hwriter := hrows hk
    have hreader := hrows hn
    have he' := hentry he
    have hf' := hentry hf
    rw [hsource] at hwriter hreader
    -- the second instruction stores, and the fourth is the only other access
    have hk1 : k = 1 := by
      have hlt : k < 5 := (List.getElem?_eq_some_iff.mp hwriter).1
      have hall : ∀ k < 5, ∀ r ∈ Sample.storeLoadRows[k]?, ∀ e ∈ r.entries, e.kind = .storeData → k = 1 := by decide
      exact hall k hlt _ hwriter _ he' hstore
    have hn3 : n = 3 := by
      have hlt : n < 5 := (List.getElem?_eq_some_iff.mp hreader).1
      have hall : ∀ n < 5, ∀ r ∈ Sample.storeLoadRows[n]?, ∀ e ∈ r.entries, e.kind.isMemory = true → n = 1 ∨ n = 3 := by
        decide
      rcases hall n hlt _ hreader _ hf' haccess with h | h
      · omega
      · exact h
    subst hk1 hn3
    rw [← Option.some.inj hwriter] at he'
    rw [← Option.some.inj hreader] at hf'
    simp only [List.mem_singleton, Sample.entryRow, Sample.EntryRow.mk.injEq, decide_eq_true_eq] at he' hf'
    obtain ⟨-, hpart, -, hresult⟩ := he'
    obtain ⟨-, hpart', hisAccess, -⟩ := hf'
    have htouches : touchedLines j = [32768] := (congrArg (·.touched) (Option.some.inj hreader)).symm
    have hstored : (source.take 3).map storedLines = [[], [32768], []] := by
      have hmap : (source.take 3).map storedLines = ((source.map Sample.instructionRow).take 3).map (·.stored) := by
        rw [← List.map_take, List.map_map]
        rfl
      rw [hmap, hsource]
      rfl
    refine ⟨32768, some 0, ⟨e, List.mem_filter.mpr ⟨he, decide_eq_true hresult⟩, hpart, .refl⟩,
      .last hk hn (by simp [htouches]) ?_ hf hisAccess (.inr (.inr hpart'.symm))⟩
    rw [hstored]
    refine ⟨⟨[32768], rfl, by simp⟩, fun m ks hm hks => ?_⟩
    have hlt : m < 3 := (List.getElem?_eq_some_iff.mp hks).1
    obtain rfl : m = 2 := by omega
    cases hks
    simp

/-- The load that starts sixteen bytes on does not wait for the part of the store it reads. -/
theorem load_passes_store : ¬ ∀ P source T, FrontendTrace source → bind P source = .ok T → MemoryOrdered T := by
  intro h
  obtain ⟨source, T, hfront, hT, -, huops⟩ := Sample.rowsOf_eq (p := Sample.storeLoad "m2" "16")
    (show Sample.rowsOf _ = some (
      [⟨[], [], [⟨.vectorControl, none, false, true⟩]⟩,
        ⟨[32768], [32768], [⟨.storeData, some 0, true, true⟩, ⟨.storeData, some 1, true, true⟩]⟩,
        ⟨[], [], [⟨.scalarAlu, none, false, true⟩]⟩,
        ⟨[], [32768], [⟨.loadData, some 0, true, true⟩, ⟨.loadData, some 1, true, true⟩]⟩, ⟨[], [], [⟨.branch, none, false, true⟩]⟩],
      [⟨0, 0, .vectorControl, none, []⟩, ⟨2, 1, .storeData, some (2097152, 16), [0]⟩,
        ⟨5, 1, .storeData, some (2097168, 16), [0]⟩, ⟨6, 2, .scalarAlu, none, []⟩,
        ⟨12, 3, .loadData, some (2097168, 16), [2, 6, 0]⟩, ⟨14, 3, .loadData, some (2097184, 16), [5, 6, 0]⟩,
        ⟨20, 4, .branch, none, []⟩]) from by decide +kernel)
  have hordered := h _ source T hfront hT
  -- the second part of the store and the first of the load
  obtain ⟨u, hu, hrow⟩ := Sample.exists_uop huops (r := ⟨5, 1, .storeData, some (2097168, 16), [0]⟩) (by decide)
  obtain ⟨v, hv, hrow'⟩ := Sample.exists_uop huops (r := ⟨12, 3, .loadData, some (2097168, 16), [2, 6, 0]⟩) (by decide)
  simp only [Sample.uopRow, Sample.UopRow.mk.injEq, Option.map_eq_some_iff, Prod.mk.injEq] at hrow hrow'
  obtain ⟨hid, hparent, hkind, ⟨m, hm, haddress, hbytes⟩, -⟩ := hrow
  obtain ⟨hid', hparent', hkind', ⟨m', hm', haddress', hbytes'⟩, -⟩ := hrow'
  have hconflict : Conflict u v := {
    older := by rw [hparent, hparent']; decide
    store := hkind
    access := by rw [hkind']; rfl
    overlap := ⟨m, hm, m', hm', 2097168, by simp [Tiling.Inside, haddress, hbytes], by simp [Tiling.Inside, haddress', hbytes']⟩ }
  have hclosed : ∀ x ∈ T.uops, x.id ∈ [0, 2, 6, 12] → x.dependencies ⊆ [0, 2, 6, 12] := by
    have hall : ∀ r ∈ T.uops.map Sample.uopRow, r.id ∈ [0, 2, 6, 12] → r.dependencies ⊆ [0, 2, 6, 12] := by
      rw [huops]
      decide
    exact fun x hx => hall _ (List.mem_map_of_mem hx)
  have hin := ancestor_mem hclosed (hordered u hu v hv hconflict) (by rw [hid']; decide)
  rw [hid] at hin
  exact absurd hin (by decide)

end VectorSim
