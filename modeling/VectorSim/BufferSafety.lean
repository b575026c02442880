/-
# Buffers apart

The input and the output of a kernel, `count` elements of four bytes at fixed
bases, and the accesses of a run, in both frontends. The buffers have no byte
and no line in common, every access is recorded with the region its address
lies in and the offset in it, and a load of the input has no dependency on a
store to the output (`Rvv.Apart`, `X86.Apart`), iff the count is at most
262144, the bases being `0x100000` apart, and every access is in a place that
the frontend knows (`apart_iff`): the RVV frontend has all that is between the
bases of the input and the stack for the buffers, the x86 frontend all that
has no label of a constant.
-/
import VectorSim.Frontend.RvvRuns
import VectorSim.Frontend.X86Runs

namespace VectorSim

/-! ### Buffers -/

/-- The address is one of `count` elements of four bytes from the base on. -/
def InBuffer (base count : ℕ) (a : ℤ) : Prop := base ≤ a ∧ a < base + 4 * count

instance (base count : ℕ) (a : ℤ) : Decidable (InBuffer base count a) := by unfold InBuffer; infer_instance

/-- All bytes of an access are in the buffer. -/
def Inside (base count : ℕ) (m : MemoryAccess) : Prop := base ≤ m.address ∧ m.address + m.bytes ≤ base + 4 * count

/-- The buffers have no byte and no line in common. -/
structure BuffersApart (input output count : ℕ) : Prop where
  bytes : ∀ a, ¬ (InBuffer input count a ∧ InBuffer output count a)
  lines : ∀ a b, InBuffer input count a → InBuffer output count b → a / 64 ≠ b / 64

/-- No load of the input has a dependency on a store to the output. -/
def NoFalseDependency (input output count : ℕ) (ds : List Instruction) : Prop :=
  ∀ d ∈ ds, ∀ m, d.memory = some m → m.access = .load → Inside input count m →
    ∀ d' ∈ ds, d'.id ∈ d.memoryDependencies → ∀ m', d'.memory = some m' → m'.access = .store →
      ¬ Inside output count m'

theorem buffersApart_iff {input output : ℕ} (count : ℕ) (hbase : input < output) (hline : output % 64 = 0) :
    BuffersApart input output count ↔ input + 4 * count ≤ output := by
  constructor
  · intro h
    by_contra hover
    refine h.bytes output ⟨⟨?_, ?_⟩, ⟨?_, ?_⟩⟩ <;> omega
  · intro h
    refine ⟨fun a ha => ?_, fun a b ha hb => ?_⟩
    · obtain ⟨⟨h1, h2⟩, ⟨h3, h4⟩⟩ := ha
      omega
    · obtain ⟨h1, h2⟩ := ha
      obtain ⟨h3, h4⟩ := hb
      omega

/-- A trace whose dependencies are stores to the same lines: the position of an instruction is its
id, and every dependency of an access stores to one of its lines. -/
structure LineOrdered (ds : List Instruction) : Prop where
  id : ∀ (k : ℕ) (d : Instruction), ds[k]? = some d → d.id = k
  lines : ∀ d ∈ ds, ∀ m, d.memory = some m → m.cacheLines = cacheLinesOf m.address m.bytes 64
  dependencies : ∀ d ∈ ds, ∀ m, d.memory = some m → ∀ i ∈ d.memoryDependencies,
    ∃ d', ds[i]? = some d' ∧ ∃ l ∈ m.cacheLines, l ∈ storedLines d'

theorem mem_cacheLinesOf {a l : ℤ} {bytes : ℕ} :
    l ∈ cacheLinesOf a bytes 64 ↔ a / 64 ≤ l ∧ l ≤ (a + bytes - 1) / 64 := by
  rw [cacheLinesOf, mem_intRange]
  push_cast
  omega

/-- Accesses to buffers that are apart have no line in common. -/
theorem noFalseDependency {input output count : ℕ} {ds : List Instruction} (h : LineOrdered ds)
    (hline : output % 64 = 0) (hapart : input + 4 * count ≤ output) :
    NoFalseDependency input output count ds := by
  intro d hd m hm _ hinside d' hd' hdep m' hm' hstore hinside'
  obtain ⟨k, hk⟩ := List.mem_iff_getElem?.mp hd'
  obtain ⟨d'', hd'', l, hl, hl'⟩ := h.dependencies d hd m hm _ hdep
  rw [h.id k d' hk, hk] at hd''
  cases hd''
  have hlow := mem_cacheLinesOf.mp (h.lines d hd m hm ▸ hl)
  have hstored : l ∈ m'.cacheLines := by
    simpa [storedLines, hm', hstore] using hl'
  have hhigh := mem_cacheLinesOf.mp (h.lines d' hd' m' hm' ▸ hstored)
  unfold Inside at hinside hinside'
  omega

/-! ### The RVV frontend -/

namespace Rvv

/-- The visits of the loop of `build_dynamic_trace`. -/
def runOf (p : Program) (count vlenBits : ℕ) : List Visit :=
  visits p (10000 + count * 256) (initial count vlenBits)

/-- The region of an address and the offset in it: a buffer, the stack, which is used from `0x10000`
below its base on, or the constants. An address in none of them has no offset. -/
def placeOf (count : ℕ) (a : ℤ) : Region × ℤ :=
  if InBuffer inputBase count a then (.input, a - inputBase)
  else if InBuffer outputBase count a then (.output, a - outputBase)
  else if (stackBase : ℤ) - 0x10000 ≤ a ∧ a < constantBase then (.stack, a - stackBase)
  else if (constantBase : ℤ) ≤ a then (.constant, a - constantBase)
  else (.other, 0)

/-- The buffers are apart, every access is recorded with its region and offset, and no load of the
input depends on a store to the output. -/
structure Apart (p : Program) (count vlenBits : ℕ) : Prop where
  buffers : BuffersApart inputBase outputBase count
  regions : ∀ v ∈ runOf p count vlenBits, ∀ m, v.dynamic.memory = some m →
    regionAccess v.item m = some (placeOf count m.address)
  dependencies : NoFalseDependency inputBase outputBase count ((runOf p count vlenBits).map (·.dynamic))

/-- The accesses from the base of the input up to that of the stack are to the buffers. -/
def Confined (p : Program) (count vlenBits : ℕ) : Prop :=
  ∀ v ∈ runOf p count vlenBits, ∀ m ∈ v.dynamic.memory, (inputBase : ℤ) ≤ m.address → m.address < stackBase →
    InBuffer inputBase count m.address ∨ InBuffer outputBase count m.address

instance (p : Program) (count vlenBits : ℕ) : Decidable (Confined p count vlenBits) := by
  unfold Confined; infer_instance

theorem record_memory {p : Program} {x : Execution} {i : StaticInstruction} {c : List String} {d : Instruction}
    (h : record p x i = .ok (c, d)) :
    memoryOf x i = .ok (c, d.memory) ∧
      d.memoryDependencies = sorted (((d.memory.map (·.cacheLines)).getD []).filterMap x.lastStoreByLine) := by
  unfold record at h
  obtain ⟨roles, -, h⟩ := Checked.ok_bind.mp h
  obtain ⟨m, hm, h⟩ := Checked.ok_bind.mp h
  dsimp only at h
  split at h
  · cases h
  · obtain ⟨state, -, h⟩ := Checked.ok_bind.mp h
    cases h
    exact ⟨hm, rfl⟩

theorem constantAddress_le (constants : List String) (label : String) :
    (constantBase : ℤ) ≤ (constantAddress constants label).2 := by
  unfold constantAddress
  dsimp only
  split <;> omega

/-- What is recorded of an access: the lines of its bytes, and an address from the constants on where
the operand is a relocation. -/
theorem memoryOf_access {x : Execution} {i : StaticInstruction} {c : List String} {m : MemoryAccess}
    (h : memoryOf x i = .ok (c, some m)) :
    m.cacheLines = cacheLinesOf m.address m.bytes 64 ∧ ∃ operand, memoryOperand i = some operand ∧
      (isRelocated operand = true → (constantBase : ℤ) ≤ m.address) := by
  unfold memoryOf at h
  split at h
  · split at h
    · cases h
    · next operand hoperand =>
      obtain ⟨a, ha, h⟩ := Checked.ok_bind.mp h
      obtain ⟨size, -, h⟩ := Checked.ok_bind.mp h
      cases h
      refine ⟨rfl, operand, hoperand, fun hreloc => ?_⟩
      unfold evaluateMemory at ha
      unfold isRelocated at hreloc
      split at ha
      · cases ha
      · next disp base hm =>
        rw [hm, Option.any_some] at hreloc
        obtain ⟨label, hlabel⟩ := Option.isSome_iff_exists.mp hreloc
        rw [hlabel] at ha
        cases ha
        exact constantAddress_le _ _
  · cases h

/-- A run of the frontend is ordered by its lines. -/
theorem run_lineOrdered (p : Program) (count vlenBits : ℕ) :
    LineOrdered ((runOf p count vlenBits).map (·.dynamic)) := by
  have hvisit : ∀ {k : ℕ} {d : Instruction}, ((runOf p count vlenBits).map (·.dynamic))[k]? = some d →
      ∃ v, v.dynamic = d ∧ VisitOk p (runOf p count vlenBits) k v ∧ k ≤ (runOf p count vlenBits).length := by
    intro k d hk
    rw [List.getElem?_map, Option.map_eq_some_iff] at hk
    obtain ⟨v, hv, hd⟩ := hk
    exact ⟨v, hd, visitOk hv, (List.getElem?_eq_some_iff.mp hv).1.le⟩
  constructor
  · intro k d hk
    obtain ⟨v, rfl, hok, hle⟩ := hvisit hk
    obtain ⟨c, hrec⟩ := hok.recorded
    rw [record_id hrec, hok.tables.instructions, List.length_map, List.length_take, Nat.min_eq_left hle]
  · intro d hd m hm
    obtain ⟨k, hk⟩ := List.mem_iff_getElem?.mp hd
    obtain ⟨v, rfl, hok, -⟩ := hvisit hk
    obtain ⟨c, hrec⟩ := hok.recorded
    have hmemory := (record_memory hrec).1
    rw [hm] at hmemory
    exact (memoryOf_access hmemory).1
  · intro d hd m hm i hi
    obtain ⟨k, hk⟩ := List.mem_iff_getElem?.mp hd
    obtain ⟨v, rfl, hok, -⟩ := hvisit hk
    obtain ⟨c, hrec⟩ := hok.recorded
    rw [(record_memory hrec).2, hm, mem_sorted, List.mem_filterMap] at hi
    obtain ⟨l, hl, hlast⟩ := hi
    obtain ⟨⟨v', hv', hstored⟩, -⟩ := LastWriter.isLast_map.mp ((hok.tables.lines l i).mp hlast)
    refine ⟨v'.dynamic, ?_, l, hl, hstored⟩
    rw [List.getElem?_map, LastWriter.getElem?_of_take hv']
    rfl

/-- The region and the offset recorded of an access. -/
theorem regionAccess_of_visit {p : Program} {count vlenBits : ℕ} {v : Visit} {m : MemoryAccess}
    (hv : v ∈ runOf p count vlenBits) (hm : v.dynamic.memory = some m) :
    ∃ operand, memoryOperand v.item = some operand ∧ (isRelocated operand = true → (constantBase : ℤ) ≤ m.address) ∧
      regionAccess v.item m =
        some (regionOf operand m.address, m.address - regionBase m.address (regionOf operand m.address)) := by
  obtain ⟨k, hk⟩ := List.mem_iff_getElem?.mp hv
  obtain ⟨c, hrec⟩ := (visitOk hk).recorded
  have hmemory := (record_memory hrec).1
  rw [hm] at hmemory
  obtain ⟨-, operand, hoperand, hreloc⟩ := memoryOf_access hmemory
  exact ⟨operand, hoperand, hreloc, by simp [regionAccess, hoperand]⟩

theorem inBuffer_input {count : ℕ} {a : ℤ} :
    InBuffer inputBase count a ↔ 0x100000 ≤ a ∧ a < 0x100000 + 4 * count := Iff.rfl

theorem inBuffer_output {count : ℕ} {a : ℤ} :
    InBuffer outputBase count a ↔ 0x200000 ≤ a ∧ a < 0x200000 + 4 * count := Iff.rfl

/-- The region found of an address, by the bases. -/
theorem regionOf_eq {operand : String} {a : ℤ} (hreloc : isRelocated operand = true → (constantBase : ℤ) ≤ a) :
    regionOf operand a =
      if a < 0x100000 then .other else if a < 0x200000 then .input else if a < 0x300000 then .output
      else if a < 0x400000 then .stack else .constant := by
  unfold regionOf
  split_ifs <;> simp only [inputBase, outputBase, stackBase, constantBase] at * <;>
    first | rfl | omega | exact absurd (hreloc ‹_›) (by omega)

/-- The place of an address, by the bases, where the buffers end before the next base. -/
theorem placeOf_eq {count : ℕ} {a : ℤ} (hcount : count ≤ 262144) :
    placeOf count a =
      if a < 0x100000 then (.other, 0)
      else if a < 0x200000 then if InBuffer inputBase count a then (.input, a - inputBase) else (.other, 0)
      else if a < 0x2F0000 then if InBuffer outputBase count a then (.output, a - outputBase) else (.other, 0)
      else if a < 0x300000 then
        if InBuffer outputBase count a then (.output, a - outputBase) else (.stack, a - stackBase)
      else if a < 0x400000 then (.stack, a - stackBase) else (.constant, a - constantBase) := by
  unfold placeOf
  split_ifs <;> simp only [inBuffer_input, inBuffer_output, stackBase, constantBase] at * <;>
    first | rfl | omega

/-- The frontend finds the place of an address, unless it is between the bases and in no buffer. -/
theorem regionOf_eq_placeOf_iff {operand : String} {count : ℕ} {a : ℤ} (hcount : count ≤ 262144)
    (hreloc : isRelocated operand = true → (constantBase : ℤ) ≤ a) :
    (regionOf operand a, a - regionBase a (regionOf operand a)) = placeOf count a ↔
      ((inputBase : ℤ) ≤ a → a < stackBase → InBuffer inputBase count a ∨ InBuffer outputBase count a) := by
  have hbases : (inputBase : ℤ) = 0x100000 ∧ (stackBase : ℤ) = 0x300000 := ⟨rfl, rfl⟩
  rw [regionOf_eq hreloc, placeOf_eq hcount, hbases.1, hbases.2]
  split_ifs <;> simp [regionBase, hbases] <;> simp only [inBuffer_input, inBuffer_output] at * <;> omega

/-- **When the buffers of an RVV run are apart.** -/
theorem apart_iff (p : Program) (count vlenBits : ℕ) :
    Apart p count vlenBits ↔ count ≤ 262144 ∧ Confined p count vlenBits := by
  have hbuffers : BuffersApart inputBase outputBase count ↔ count ≤ 262144 := by
    rw [buffersApart_iff count (by decide) (by decide)]
    simp only [inputBase, outputBase]
    omega
  have hregion : count ≤ 262144 → ∀ v ∈ runOf p count vlenBits, ∀ m, v.dynamic.memory = some m →
      (regionAccess v.item m = some (placeOf count m.address) ↔ ((inputBase : ℤ) ≤ m.address →
        m.address < stackBase → InBuffer inputBase count m.address ∨ InBuffer outputBase count m.address)) := by
    intro hcount v hv m hm
    obtain ⟨operand, -, hreloc, hfound⟩ := regionAccess_of_visit hv hm
    rw [hfound, Option.some_inj]
    exact regionOf_eq_placeOf_iff hcount hreloc
  constructor
  · intro h
    have hcount := hbuffers.mp h.buffers
    exact ⟨hcount, fun v hv m hm => (hregion hcount v hv m hm).mp (h.regions v hv m hm)⟩
  · rintro ⟨hcount, hconfined⟩
    refine ⟨hbuffers.mpr hcount, fun v hv m hm => (hregion hcount v hv m hm).mpr (hconfined v hv m hm), ?_⟩
    exact noFalseDependency (run_lineOrdered p count vlenBits) (by decide)
      (by simp only [inputBase, outputBase]; omega)

end Rvv

/-! ### The x86 frontend -/

namespace X86

/-- The displacement of the operand is the label of a constant. -/
def isLabelled (operand : String) : Bool := (memoryOperand? operand).any fun m => (displacement [] m.disp).2.2

/-- The region of an address and the offset in it: a buffer, or the constants, which are known by their
addresses. No other address has a region. -/
def placeOf (count : ℕ) (a : ℤ) : Option (Region × ℤ) :=
  if InBuffer inputBase count a then some (.input, a - inputBase)
  else if InBuffer outputBase count a then some (.output, a - outputBase)
  else if (constantBase : ℤ) ≤ a then some (.constant, 0)
  else none

/-- The buffers are apart, every access is recorded with its region and offset, and no load of the
input depends on a store to the output. -/
structure Apart (p : Program) (count : ℕ) : Prop where
  buffers : BuffersApart inputBase outputBase count
  regions : ∀ t ∈ turns p count, ∀ a, t.item.recorded.memory = some a →
    placeOf count a.access.address = some (a.region, a.offset)
  dependencies : NoFalseDependency inputBase outputBase count ((turns p count).map dynamicOf)

/-- An operand with the label of a constant has its address among the constants, and any other in a
buffer. -/
def Confined (p : Program) (count : ℕ) : Prop :=
  ∀ t ∈ turns p count, ∀ a ∈ t.item.recorded.memory, ∀ operand ∈ recordedOperand t.item.static,
    if isLabelled operand = true then (constantBase : ℤ) ≤ a.access.address
    else InBuffer inputBase count a.access.address ∨ InBuffer outputBase count a.access.address

instance (p : Program) (count : ℕ) : Decidable (Confined p count) := by
  unfold Confined; infer_instance

theorem displacement_labelled (constants : List String) (disp : String) :
    (displacement constants disp).2.2 = (displacement [] disp).2.2 := by
  unfold displacement
  dsimp only
  split
  · rfl
  · split <;> rfl

/-- What is recorded of an access: the lines of its bytes, and the region of its address, or of its
label. -/
theorem memoryOf_access {s : ScalarState} {i : StaticInstruction} {c : List String} {a : RegionAccess}
    (h : memoryOf s i = .ok (c, some a)) :
    a.access.cacheLines = cacheLinesOf a.access.address a.access.bytes 64 ∧
      ∃ operand, recordedOperand i = some operand ∧
        a.region = (if isLabelled operand = true then .constant
          else if a.access.address < 0x200000 then .input else .output) ∧
        a.offset = a.access.address - regionBase a.access.address a.region := by
  unfold memoryOf at h
  split at h
  · cases h
  · next operand hoperand =>
    obtain ⟨b, hb, h⟩ := Checked.ok_bind.mp h
    cases h
    refine ⟨rfl, operand, hoperand, ?_, rfl⟩
    unfold evaluateMemory at hb
    split at hb
    · cases hb
    · next m hm =>
      obtain ⟨base, -, hb⟩ := Checked.ok_bind.mp hb
      obtain ⟨index, -, hb⟩ := Checked.ok_bind.mp hb
      cases hb
      simp only [isLabelled, hm, Option.any_some, displacement_labelled]

/-- A run of the frontend is ordered by its lines. -/
theorem turns_lineOrdered (p : Program) (count : ℕ) : LineOrdered ((turns p count).map dynamicOf) := by
  have hturn : ∀ {k : ℕ} {d : Instruction}, ((turns p count).map dynamicOf)[k]? = some d →
      ∃ t, dynamicOf t = d ∧ Tables ((turns p count).take k) t.before ∧ IsTurn p t ∧ k ≤ (turns p count).length := by
    intro k d hk
    rw [List.getElem?_map, Option.map_eq_some_iff] at hk
    obtain ⟨t, ht, hd⟩ := hk
    obtain ⟨htables, hisTurn⟩ := turns_tables ht
    exact ⟨t, hd, htables, hisTurn, (List.getElem?_eq_some_iff.mp ht).1.le⟩
  constructor
  · intro k d hk
    obtain ⟨t, rfl, htables, ht, hle⟩ := hturn hk
    rw [dynamicOf, (record_parts ht.recorded).2.1, htables.instructions, List.length_map, List.length_take,
      Nat.min_eq_left hle]
  · intro d hd m hm
    obtain ⟨k, hk⟩ := List.mem_iff_getElem?.mp hd
    obtain ⟨t, rfl, -, ht, -⟩ := hturn hk
    obtain ⟨hmemory, -, haccess, -⟩ := record_parts ht.recorded
    rw [dynamicOf, haccess, Option.map_eq_some_iff] at hm
    obtain ⟨a, ha, rfl⟩ := hm
    rw [ha] at hmemory
    exact (memoryOf_access hmemory).1
  · intro d hd m hm i hi
    obtain ⟨k, hk⟩ := List.mem_iff_getElem?.mp hd
    obtain ⟨t, rfl, htables, ht, -⟩ := hturn hk
    obtain ⟨-, -, haccess, hdependencies⟩ := record_parts ht.recorded
    rw [dynamicOf, haccess, Option.map_eq_some_iff] at hm
    obtain ⟨a, ha, rfl⟩ := hm
    rw [dynamicOf, hdependencies, ha, mem_sorted, List.mem_filterMap] at hi
    obtain ⟨l, hl, hlast⟩ := hi
    obtain ⟨⟨t', ht', hstored⟩, -⟩ := LastWriter.isLast_map.mp ((htables.lines l i).mp hlast)
    refine ⟨dynamicOf t', ?_, l, hl, hstored⟩
    rw [List.getElem?_map, LastWriter.getElem?_of_take ht']
    rfl

theorem inBuffer_input {count : ℕ} {a : ℤ} :
    InBuffer inputBase count a ↔ 0x100000 ≤ a ∧ a < 0x100000 + 4 * count := Iff.rfl

theorem inBuffer_output {count : ℕ} {a : ℤ} :
    InBuffer outputBase count a ↔ 0x200000 ≤ a ∧ a < 0x200000 + 4 * count := Iff.rfl

/-- The region found by a label or the address is that of the place. -/
theorem placeOf_eq_iff {count : ℕ} {a : ℤ} {labelled : Prop} [Decidable labelled] {region : Region}
    (hcount : count ≤ 262144)
    (hregion : region = if labelled then .constant else if a < 0x200000 then .input else .output) :
    placeOf count a = some (region, a - regionBase a region) ↔
      if labelled then (constantBase : ℤ) ≤ a else InBuffer inputBase count a ∨ InBuffer outputBase count a := by
  subst hregion
  have hplace : placeOf count a =
      if a < 0x200000 then if InBuffer inputBase count a then some (.input, a - inputBase) else none
      else if a < 0x400000 then if InBuffer outputBase count a then some (.output, a - outputBase) else none
      else some (.constant, 0) := by
    unfold placeOf
    split_ifs <;> simp only [inBuffer_input, inBuffer_output, constantBase] at * <;> first | rfl | omega
  have hbase : (constantBase : ℤ) = 0x400000 := rfl
  rw [hplace, hbase]
  by_cases hlabel : labelled
  · rw [if_pos hlabel, if_pos hlabel]
    split_ifs <;> simp [regionBase] <;> omega
  · rw [if_neg hlabel, if_neg hlabel]
    split_ifs <;> simp [regionBase] <;> simp only [inBuffer_input, inBuffer_output] at * <;> omega

/-- **When the buffers of an x86 run are apart.** -/
theorem apart_iff (p : Program) (count : ℕ) : Apart p count ↔ count ≤ 262144 ∧ Confined p count := by
  have hbuffers : BuffersApart inputBase outputBase count ↔ count ≤ 262144 := by
    rw [buffersApart_iff count (by decide) (by decide)]
    simp only [inputBase, outputBase]
    omega
  have hregion : count ≤ 262144 → ∀ t ∈ turns p count, ∀ a, t.item.recorded.memory = some a →
      (placeOf count a.access.address = some (a.region, a.offset) ↔ ∀ operand ∈ recordedOperand t.item.static,
        if isLabelled operand = true then (constantBase : ℤ) ≤ a.access.address
        else InBuffer inputBase count a.access.address ∨ InBuffer outputBase count a.access.address) := by
    intro hcount t ht a ha
    have hmemory := (record_parts (isTurn ht).recorded).1
    rw [ha] at hmemory
    obtain ⟨-, operand, hoperand, hregion, hoffset⟩ := memoryOf_access hmemory
    rw [hoffset, placeOf_eq_iff hcount hregion, hoperand]
    simp
  constructor
  · intro h
    have hcount := hbuffers.mp h.buffers
    exact ⟨hcount, fun t ht a ha => (hregion hcount t ht a ha).mp (h.regions t ht a ha)⟩
  · rintro ⟨hcount, hconfined⟩
    refine ⟨hbuffers.mpr hcount, fun t ht a ha => (hregion hcount t ht a ha).mpr (hconfined t ht a ha), ?_⟩
    exact noFalseDependency (turns_lineOrdered p count) (by decide) (by simp only [inputBase, outputBase]; omega)

end X86

/-- A row of the input is copied to the output. -/
def Rvv.copied : Rvv.Program where
  static := [⟨"ld", ["a5", "0(a0)"]⟩, ⟨"sd", ["a5", "0(a1)"]⟩]
  labels := []
  recipes := [("ld", [.scalarLoad]), ("sd", [.scalarStore])]

def X86.copied : X86.Program where
  static := [⟨"vmovups", ["(%rdi)", "%zmm0"]⟩, ⟨"vmovups", ["%zmm0", "(%rsi)"]⟩]
  labels := []
  recipes := [(("vmovups", "memory_load"), [.vectorLoad]), (("vmovups", "memory_store"), [.vectorStore])]

example : Rvv.Apart Rvv.copied 16 128 ∧ X86.Apart X86.copied 16 :=
  ⟨(Rvv.apart_iff _ _ _).mpr ⟨by decide, by decide +kernel⟩, (X86.apart_iff _ _).mpr ⟨by decide, by decide +kernel⟩⟩

/-- A register is spilled below the base of the stack. -/
def Rvv.spilled : Rvv.Program where
  static := [⟨"sd", ["ra", "-8(sp)"]⟩]
  labels := []
  recipes := [("sd", [.scalarStore])]

/-- A constant is loaded through a register. -/
def X86.indirect : X86.Program where
  static := [⟨"leaq", [".LC0(%rip)", "%rcx"]⟩, ⟨"vmovups", ["(%rcx)", "%zmm0"]⟩]
  labels := []
  recipes := [(("leaq", "any"), [.scalarAlu]), (("vmovups", "memory_load"), [.vectorLoad])]

end VectorSim
