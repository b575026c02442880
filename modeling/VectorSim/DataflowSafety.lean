/-
# The register dataflow of the RVV frontend

What an RVV instruction reads and writes architecturally (`architecturalReads`,
`architecturalWrites`): a reduction's destination and scalar operand and the
source of a scalar move are single registers, a memory group has the effective
multiplier of its element width, and a `vsetvli` that keeps VL reads it. The
frontend takes the group of LMUL for every vector operand and looks at neither
masks nor tail policies; `dataflow_iff` says of which runs its dependencies are
the architectural ones all the same.
-/
import VectorSim.Frontend.RvvRuns

namespace VectorSim
namespace Rvv

open Checked LastWriter

/-! ### The architecture -/

def reductions : List String := ["vfredmax.vs", "vfredusum.vs"]

/-- The moves of element 0 to a scalar register. -/
def scalarMoves : List String := ["vfmv.f.s", "vmv.x.s"]

/-- `n` registers from a vector register on, as far as there are registers. -/
def registerGroup (n : ℕ) (operand : String) : List String :=
  match (canonicalRegister operand).bind vectorIndex with
  | none => []
  | some start => ((List.range' start n).filter (· < 32)).map fun i => s!"v{i}"

/-- The registers of an access of 32-bit elements: EMUL is 32 / SEW * LMUL. -/
def effectiveGroup (s : State) : ℕ :=
  max 1 ⌊(32 : ℚ) / ((s.sewBits.getD 32 : ℕ) : ℚ) * (s.lmul.getD .m1).value⌋.toNat

/-- The size of the group of the destination. -/
def destinationGroup (s : State) (i : StaticInstruction) : ℕ :=
  if i.mnemonic ∈ reductions then 1
  else if i.mnemonic ∈ loads then effectiveGroup s
  else groupSize s.lmul

/-- The instruction has a vector register for a destination. -/
def writesVector (i : StaticInstruction) : Bool :=
  isVectorMnemonic i.mnemonic && i.mnemonic ≠ "vsetvli" && i.mnemonic ∉ stores && i.mnemonic ∉ scalarMoves

/-- The vector registers and the configuration that an instruction writes. -/
def architecturalWrites (s : State) (i : StaticInstruction) : List String :=
  if i.mnemonic = "vsetvli" then ["vconfig"]
  else if writesVector i then i.operands.head?.toList.flatMap (registerGroup (destinationGroup s i))
  else []

/-- The sources among its operands. -/
def architecturalSources (s : State) (i : StaticInstruction) : List String :=
  if i.mnemonic ∈ loads then []
  else if i.mnemonic ∈ stores then i.operands.head?.toList.flatMap (registerGroup (effectiveGroup s))
  else if i.mnemonic ∈ reductions then
    i.operands[1]?.toList.flatMap (registerGroup (groupSize s.lmul)) ++
      i.operands[2]?.toList.flatMap (registerGroup 1)
  else if i.mnemonic ∈ scalarMoves then i.operands[1]?.toList.flatMap (registerGroup 1)
  else (if i.mnemonic ∈ vectorFma then i.operands.head?.toList else []).flatMap (registerGroup (groupSize s.lmul)) ++
    i.operands.tail.flatMap (registerGroup (groupSize s.lmul))

/-- The vector registers and the configuration that an instruction reads: its sources, the
mask, and the destination whose tail it keeps. -/
def architecturalReads (s : State) (i : StaticInstruction) : List String :=
  if i.mnemonic = "vsetvli" then
    if keepsVl (i.operands.getD 0 "") (i.operands.getD 1 "") then ["vconfig"] else []
  else if isVectorMnemonic i.mnemonic then
    ["vconfig"] ++ (if "v0.t" ∈ i.operands then ["v0"] else []) ++
      (if s.tailPolicy = some .undisturbed then architecturalWrites s i else []) ++ architecturalSources s i
  else []

/-- The mnemonics of the recipe catalogue. -/
def supportedMnemonics : List String :=
  branches ++ returns ++ loads ++ stores ++ scalarOps ++ vectorFma ++ reductions ++ scalarMoves ++
    ["li", "lui", "fadd.s", "fdiv.s", "fmv.s.x", "fmv.s", "vsetvli", "vfmv.v.f", "vmv.v.i", "vmv.v.v", "vfmax.vf",
     "vfmin.vf", "vfsub.vf", "vfsub.vv", "vfmul.vf", "vfmul.vv", "vfadd.vv", "vfcvt.rtz.x.f.v", "vfcvt.f.x.v",
     "vadd.vx", "vsll.vi", "vsll.vx"]

/-- The operand is no vector register. -/
def isScalarOperand (operand : String) : Prop := (canonicalRegister operand).bind vectorIndex = none

instance (operand : String) : Decidable (isScalarOperand operand) := by
  unfold isScalarOperand; infer_instance

/-- The instruction is one of the catalogue, with operands of the kinds it takes. -/
structure Supported (i : StaticInstruction) : Prop where
  mnemonic : i.mnemonic ∈ supportedMnemonics
  scalar : isVectorMnemonic i.mnemonic = false ∨ i.mnemonic = "vsetvli" → ∀ o ∈ i.operands, isScalarOperand o
  scalarMove : i.mnemonic ∈ scalarMoves → ∀ o ∈ i.operands.head?, isScalarOperand o
  base : ∀ o ∈ i.operands, ∀ r ∈ registersInMemory o, vectorIndex r = none
  destination : writesVector i = true → ∃ o ∈ i.operands.head?, ¬ isScalarOperand o
  /-- An immediate AVL is not negative. -/
  avl : i.mnemonic = "vsetvli" → ∀ o ∈ i.operands[1]?, ∀ n ∈ (parseInt o).toOption, 0 ≤ n

/-- The last visit before `j` whose instruction writes the register. -/
def LastArchitectural (vs : List Visit) (j : ℕ) (r : String) (i : ℕ) : Prop :=
  IsLast ((vs.take j).map fun v => architecturalWrites v.state.vectorState v.item) r i

/-- The dependencies of a run are the architectural ones, and no instruction is recorded to
write a vector register that it does not write. -/
structure Dataflow (vs : List Visit) : Prop where
  reads : ∀ j v, vs[j]? = some v → ∀ r ∈ architecturalReads v.state.vectorState v.item, ∀ i,
    LastArchitectural vs j r i → (r, i) ∈ v.dynamic.registerDependencies
  writes : ∀ v ∈ vs, ∀ r ∈ v.dynamic.registerWrites, (vectorIndex r).isSome →
    r ∈ architecturalWrites v.state.vectorState v.item

/-! ### The groups of LMUL -/

/-- The group of LMUL of the destination. -/
def listedWrites (s : State) (i : StaticInstruction) : List String :=
  if i.mnemonic = "vsetvli" then ["vconfig"]
  else if writesVector i then i.operands.head?.toList.flatMap (registerGroup (groupSize s.lmul))
  else []

/-- The groups of LMUL of the operands that are sources, with the configuration. -/
def listedReads (s : State) (i : StaticInstruction) : List String :=
  if i.mnemonic = "vsetvli" ∨ isVectorMnemonic i.mnemonic = false then []
  else "vconfig" :: if i.mnemonic ∈ loads then []
    else if i.mnemonic ∈ stores then i.operands.head?.toList.flatMap (registerGroup (groupSize s.lmul))
    else (if i.mnemonic ∈ vectorFma then i.operands.head?.toList else []).flatMap (registerGroup (groupSize s.lmul)) ++
      i.operands.tail.flatMap (registerGroup (groupSize s.lmul))

/-- A register whose writers the dataflow is about. -/
def tracked (r : String) : Prop := (vectorIndex r).isSome ∨ r = "vconfig"

theorem vectorIndex_name : ∀ i < 32, vectorIndex s!"v{i}" = some i := by decide +kernel

/-- Neither the configuration nor the scalar registers the sources name have an index. -/
theorem vectorIndex_unnamed : ∀ r ∈ ["zero", "ra", "vconfig"], vectorIndex r = none := by decide +kernel

theorem vconfig_not_register : "vconfig" ∉ registerNames := by decide +kernel

theorem canonicalRegister_mem {o r : String} (h : canonicalRegister o = some r) : r ∈ registerNames := by
  unfold canonicalRegister at h
  split at h
  · next hm => cases h; exact hm
  · cases h

theorem mem_registerGroup {n : ℕ} {o r : String} : r ∈ registerGroup n o ↔
    ∃ start i, (canonicalRegister o).bind vectorIndex = some start ∧ start ≤ i ∧ i < start + n ∧ i < 32 ∧
      r = s!"v{i}" := by
  unfold registerGroup
  cases (canonicalRegister o).bind vectorIndex with
  | none => simp
  | some start =>
    simp only [List.mem_map, List.mem_filter, List.mem_range'_1, decide_eq_true_eq, Option.some.injEq]
    constructor
    · rintro ⟨i, ⟨⟨h1, h2⟩, h3⟩, rfl⟩
      exact ⟨start, i, rfl, h1, h2, h3, rfl⟩
    · rintro ⟨_, i, rfl, h1, h2, h3, rfl⟩
      exact ⟨i, ⟨⟨h1, h2⟩, h3⟩, rfl⟩

theorem registerGroup_tracked {n : ℕ} {o r : String} (h : r ∈ registerGroup n o) : (vectorIndex r).isSome := by
  obtain ⟨_, i, -, -, -, hi, rfl⟩ := mem_registerGroup.mp h
  rw [vectorIndex_name i hi]
  rfl

/-- What `add_operand_registers` adds of the vector registers is the group of LMUL. -/
theorem operandRegisters_iff {lmul : Option Lmul} {o r : String} {rs : List String}
    (h : operandRegisters lmul o = .ok rs) (hr : tracked r) : r ∈ rs ↔ r ∈ registerGroup (groupSize lmul) o := by
  rw [mem_registerGroup]
  unfold operandRegisters at h
  cases hc : canonicalRegister o with
  | none =>
    rw [hc] at h
    cases h
    simp
  | some c =>
    rw [hc] at h
    dsimp only [Option.bind_some] at h ⊢
    split at h
    · next hz =>
      -- `zero` has no index, so that no group starts there
      cases h
      have hnone : vectorIndex "zero" = none := vectorIndex_unnamed _ (by simp)
      rw [hz, hnone]
      simp
    · unfold vectorGroup at h
      cases hv : vectorIndex c with
      | none =>
        rw [hv] at h
        cases h
        constructor
        · intro hmem
          obtain rfl := List.mem_singleton.mp hmem
          rcases hr with hr | rfl
          · rw [hv] at hr; cases hr
          · exact absurd (canonicalRegister_mem hc) vconfig_not_register
        · rintro ⟨_, _, hs, -⟩
          cases hs
      | some start =>
        rw [hv] at h
        dsimp only at h
        split at h
        · cases h
        · next hle =>
          cases h
          simp only [List.mem_map, List.mem_range'_1, Option.some.injEq]
          constructor
          · rintro ⟨i, ⟨h1, h2⟩, rfl⟩
            exact ⟨start, i, rfl, h1, h2, by omega, rfl⟩
          · rintro ⟨_, i, rfl, h1, h2, -, rfl⟩
            exact ⟨i, ⟨h1, h2⟩, rfl⟩

theorem allOperandRegisters_iff {lmul : Option Lmul} {os : List String} {r : String} {rs : List String}
    (h : allOperandRegisters lmul os = .ok rs) (hr : tracked r) :
    r ∈ rs ↔ r ∈ os.flatMap (registerGroup (groupSize lmul)) := by
  obtain ⟨groups, hg, h⟩ := ok_bind.mp h
  cases h
  have hall := mapM_ok.mp hg
  constructor
  · intro hmem
    obtain ⟨g, hgm, hmem⟩ := List.mem_flatten.mp hmem
    obtain ⟨o, ho, hog⟩ := forall₂_right hall hgm
    exact List.mem_flatMap.mpr ⟨o, ho, (operandRegisters_iff hog hr).mp hmem⟩
  · intro hmem
    obtain ⟨o, ho, hmem⟩ := List.mem_flatMap.mp hmem
    obtain ⟨g, hgm, hog⟩ := forall₂_left hall ho
    exact List.mem_flatten.mpr ⟨g, hgm, (operandRegisters_iff hog hr).mpr hmem⟩

theorem operandRegisters_bound {lmul : Option Lmul} {o : String} {rs : List String} {start : ℕ}
    (h : operandRegisters lmul o = .ok rs) (hs : (canonicalRegister o).bind vectorIndex = some start) :
    start + groupSize lmul ≤ 32 := by
  unfold operandRegisters at h
  obtain ⟨c, hc, hv⟩ := Option.bind_eq_some_iff.mp hs
  rw [hc] at h
  dsimp only at h
  split at h
  · next hz =>
    have hnone : vectorIndex "zero" = none := vectorIndex_unnamed _ (by simp)
    rw [hz, hnone] at hv
    cases hv
  · unfold vectorGroup at h
    rw [hv] at h
    dsimp only at h
    split at h
    · cases h
    · next hle => omega

/-- A group that fits is part of another from the same register on when it is no larger. -/
theorem registerGroup_subset {n m start : ℕ} {o : String} (hs : (canonicalRegister o).bind vectorIndex = some start)
    (hn : 0 < n) (hfit : start + n ≤ 32) :
    (∀ r ∈ registerGroup n o, r ∈ registerGroup m o) ↔ n ≤ m := by
  constructor
  · intro h
    -- the last register of the smaller group
    have hlast := h s!"v{start + n - 1}"
      (mem_registerGroup.mpr ⟨start, start + n - 1, hs, by omega, by omega, by omega, rfl⟩)
    obtain ⟨start', i, hs', -, hlt, hi, heq⟩ := mem_registerGroup.mp hlast
    rw [hs] at hs'
    cases hs'
    have hidx : some (start + n - 1) = some i := by
      rw [← vectorIndex_name (start + n - 1) (by omega), ← vectorIndex_name i hi, heq]
    have := Option.some.inj hidx
    omega
  · intro hle r hr
    obtain ⟨start', i, hs', h1, h2, h3, rfl⟩ := mem_registerGroup.mp hr
    exact mem_registerGroup.mpr ⟨start', i, hs', h1, by omega, h3, rfl⟩

theorem registerGroup_scalar {n : ℕ} {o : String} (h : isScalarOperand o) : registerGroup n o = [] := by
  unfold registerGroup
  rw [h]

theorem flatMap_scalar {n : ℕ} {os : List String} (h : ∀ o ∈ os, isScalarOperand o) :
    os.flatMap (registerGroup n) = [] := by
  rw [List.flatMap_eq_nil_iff]
  exact fun o ho => registerGroup_scalar (h o ho)

/-! ### The roles of a supported instruction -/

/-- The families of scalar mnemonics, one after the other. -/
theorem families_scalar : ∀ m ∈ returns ++ branches ++ scalarOps ++ ["li", "lui"], isVectorMnemonic m = false := by
  decide +kernel

theorem returns_scalar {m : String} (h : m ∈ returns) : isVectorMnemonic m = false :=
  families_scalar m (by simp [h])

theorem branches_scalar {m : String} (h : m ∈ branches) : isVectorMnemonic m = false :=
  families_scalar m (by simp [h])

theorem scalarOps_scalar {m : String} (h : m ∈ scalarOps) : isVectorMnemonic m = false :=
  families_scalar m (by simp [h])

theorem immediates_scalar {m : String} (h : m ∈ ["li", "lui"]) : isVectorMnemonic m = false :=
  families_scalar m (List.mem_append_right _ h)

/-- No mnemonic stands in two of the families of vector moves. -/
theorem families_disjoint : (∀ m ∈ stores, m ∉ loads ∧ m ≠ "vsetvli") ∧
    ∀ m ∈ loads, m ∉ stores ∧ m ≠ "vsetvli" ∧ m ∉ scalarMoves := by decide +kernel

/-- An instruction that is no vector instruction lists no vector register. -/
theorem scalar_listed {s : State} {i : StaticInstruction} (hv : isVectorMnemonic i.mnemonic = false) :
    listedReads s i = [] ∧ listedWrites s i = [] := by
  have hne : i.mnemonic ≠ "vsetvli" := by
    intro h
    rw [h] at hv
    exact absurd hv (by decide +kernel)
  constructor
  · simp [listedReads, hv]
  · simp [listedWrites, writesVector, hne, hv]


theorem scalar_registers {lmul : Option Lmul} {os : List String} {rs : List String} {r : String}
    (hs : ∀ o ∈ os, isScalarOperand o) (h : allOperandRegisters lmul os = .ok rs) (hr : tracked r) : r ∉ rs := by
  rw [allOperandRegisters_iff h hr, flatMap_scalar hs]
  simp

theorem ra_not_tracked : ¬ tracked "ra" := by
  have hnone : vectorIndex "ra" = none := vectorIndex_unnamed _ (by simp)
  rintro (h | h)
  · rw [hnone] at h
    cases h
  · exact absurd h (by decide)

/-- What is listed of the tracked registers. -/
structure Lists (s : State) (i : StaticInstruction) (roles : List String × List String) (r : String) : Prop where
  reads : r ∈ roles.1 ↔ r ∈ listedReads s i
  writes : r ∈ roles.2 ↔ r ∈ listedWrites s i

/-- Neither side has the register. -/
theorem Lists.scalar {s : State} {i : StaticInstruction} {roles : List String × List String} {r : String}
    (hv : isVectorMnemonic i.mnemonic = false) (hreads : r ∉ roles.1) (hwrites : r ∉ roles.2) :
    Lists s i roles r := by
  obtain ⟨hr, hw⟩ := scalar_listed (s := s) hv
  refine ⟨?_, ?_⟩
  · rw [hr]
    simp [hreads]
  · rw [hw]
    simp [hwrites]

theorem mnemonicRoles_lists {s : State} {i : StaticInstruction} {roles : List String × List String} {r : String}
    (hi : Supported i) (h : mnemonicRoles s.lmul i = .ok roles) (hr : tracked r) : Lists s i roles r := by
  have hhead : ∀ o ∈ i.operands.head?.toList, o ∈ i.operands := by
    intro o ho
    exact List.mem_of_mem_head? (by simpa using ho)
  have htail : ∀ o ∈ i.operands.tail, o ∈ i.operands := fun o => List.mem_of_mem_tail
  have hsc : isVectorMnemonic i.mnemonic = false → ∀ {os rs}, (∀ o ∈ os, o ∈ i.operands) →
      allOperandRegisters s.lmul os = .ok rs → r ∉ rs := by
    intro hv os rs hos h
    exact scalar_registers (fun o ho => hi.scalar (.inl hv) o (hos o ho)) h hr
  unfold mnemonicRoles at h
  dsimp only at h
  split at h
  · next hret =>
    have hv := returns_scalar hret
    split at h
    · cases h
      refine .scalar hv (fun hmem => ?_) (by simp)
      rw [List.mem_singleton.mp hmem] at hr
      exact ra_not_tracked hr
    · obtain ⟨reads, hreads, rfl⟩ := ok_map.mp h
      exact .scalar hv (hsc hv hhead hreads) (by simp)
  · split at h
    · next hbranch =>
      have hv := branches_scalar hbranch
      split at h
      · cases h
        exact .scalar hv (by simp) (by simp)
      · obtain ⟨reads, hreads, rfl⟩ := ok_map.mp h
        exact .scalar hv (hsc hv (fun o ho => List.mem_of_mem_dropLast ho) hreads) (by simp)
    · split at h
      · next hstore =>
        obtain ⟨reads, hreads, rfl⟩ := ok_map.mp h
        obtain ⟨hnl, hne⟩ := families_disjoint.1 _ hstore
        cases hv : isVectorMnemonic i.mnemonic with
        | false => exact .scalar hv (by simpa [vconfigIf] using hsc hv hhead hreads) (by simp)
        | true =>
          refine ⟨?_, ?_⟩
          · have hiff := allOperandRegisters_iff hreads hr
            simp only [listedReads, hne, hv, vconfigIf, hnl, hstore, List.mem_append, hiff]
            simp only [if_true, if_false, List.mem_cons, List.not_mem_nil, or_false]
            simp [or_comm]
          · simp [listedWrites, writesVector, hne, hstore]
      · next hstore =>
        split at h
        · next hload =>
          obtain ⟨writes, hwrites, rfl⟩ := ok_map.mp h
          obtain ⟨-, hne, hnm⟩ := families_disjoint.2 _ hload
          cases hv : isVectorMnemonic i.mnemonic with
          | false => exact .scalar hv (by simp [vconfigIf]) (hsc hv hhead hwrites)
          | true =>
            refine ⟨?_, ?_⟩
            · simp [listedReads, hne, hv, vconfigIf, hload]
            · have hiff := allOperandRegisters_iff hwrites hr
              simp [listedWrites, writesVector, hne, hv, hstore, hnm, hiff]
        · next hload =>
          split at h
          · next hcfg =>
            obtain ⟨reads, hreads, h⟩ := ok_bind.mp h
            obtain ⟨writes, hwrites, h⟩ := ok_bind.mp h
            cases h
            have hnr : r ∉ reads := by
              refine scalar_registers (fun o ho => hi.scalar (.inr hcfg) o ?_) hreads hr
              exact htail o (List.mem_of_mem_head? (by simpa using ho))
            have hnw : r ∉ writes := scalar_registers (fun o ho => hi.scalar (.inr hcfg) o (hhead o ho)) hwrites hr
            refine ⟨?_, ?_⟩
            · simp [listedReads, hcfg, hnr]
            · simp [listedWrites, hcfg, hnw]
          · next hcfg =>
            split at h
            · next himm =>
              have hv := immediates_scalar himm
              obtain ⟨writes, hwrites, rfl⟩ := ok_map.mp h
              exact .scalar hv (by simp) (hsc hv hhead hwrites)
            · split at h
              · next hop =>
                have hv := scalarOps_scalar hop
                obtain ⟨writes, hwrites, h⟩ := ok_bind.mp h
                obtain ⟨reads, hreads, h⟩ := ok_bind.mp h
                cases h
                exact .scalar hv (hsc hv htail hreads) (hsc hv hhead hwrites)
              · obtain ⟨writes, hwrites, h⟩ := ok_bind.mp h
                obtain ⟨reads, hreads, h⟩ := ok_bind.mp h
                cases h
                have hw := allOperandRegisters_iff hwrites hr
                have hrd := allOperandRegisters_iff hreads hr
                cases hv : isVectorMnemonic i.mnemonic with
                | false =>
                  refine .scalar hv ?_ (hsc hv hhead hwrites)
                  have h1 := hsc hv hhead hwrites
                  have h2 := hsc hv htail hreads
                  simp only [vconfigIf, List.mem_append]
                  rintro ((h | h) | h)
                  · cases h
                  · split at h
                    · exact h1 h
                    · cases h
                  · exact h2 h
                | true =>
                  refine ⟨?_, ?_⟩
                  · simp only [listedReads, hcfg, hv, hload, hstore, vconfigIf]
                    by_cases hf : i.mnemonic ∈ vectorFma
                    · simp [hf, hw, hrd]
                    · simp [hf, hrd]
                  · by_cases hm : i.mnemonic ∈ scalarMoves
                    · have hnil : r ∉ writes := by
                        refine scalar_registers (fun o ho => hi.scalarMove hm o (by simpa using ho)) hwrites hr
                      simp [listedWrites, writesVector, hcfg, hm, hnil]
                    · simp [listedWrites, writesVector, hcfg, hv, hstore, hm, hw]

/-- The group of the first operand of a vector instruction is looked up. -/
theorem mnemonicRoles_first {lmul : Option Lmul} {i : StaticInstruction} {roles : List String × List String}
    (h : mnemonicRoles lmul i = .ok roles) (hv : isVectorMnemonic i.mnemonic = true) (hne : i.mnemonic ≠ "vsetvli") :
    ∃ rs, allOperandRegisters lmul i.operands.head?.toList = .ok rs := by
  have hnot : ∀ {l : List String}, (∀ {m}, m ∈ l → isVectorMnemonic m = false) → i.mnemonic ∉ l := by
    intro l hl hm
    rw [hl hm] at hv
    cases hv
  unfold mnemonicRoles at h
  dsimp only at h
  rw [if_neg (hnot @returns_scalar), if_neg (hnot @branches_scalar)] at h
  split at h
  · obtain ⟨rs, hrs, -⟩ := ok_map.mp h
    exact ⟨rs, hrs⟩
  · split at h
    · obtain ⟨rs, hrs, -⟩ := ok_map.mp h
      exact ⟨rs, hrs⟩
    · rw [if_neg (hnot @immediates_scalar), if_neg (hnot @scalarOps_scalar)] at h
      obtain ⟨rs, hrs, -⟩ := ok_bind.mp h
      exact ⟨rs, hrs⟩

/-- **What the frontend records of a supported instruction are the groups of LMUL.** -/
theorem registerRoles_lists {s : State} {i : StaticInstruction} {roles : List String × List String} {r : String}
    (hi : Supported i) (h : registerRoles s.lmul i = .ok roles) (hr : tracked r) : Lists s i roles r := by
  obtain ⟨m, hm, h⟩ := ok_bind.mp h
  cases h
  obtain ⟨hreads, hwrites⟩ := mnemonicRoles_lists hi hm hr
  -- the base of an address is no vector register
  have hbase : r ∉ i.operands.flatMap registersInMemory := by
    intro hmem
    obtain ⟨o, ho, hro⟩ := List.mem_flatMap.mp hmem
    rcases hr with hr | rfl
    · rw [hi.base o ho r hro] at hr
      cases hr
    · unfold registersInMemory at hro
      split at hro
      · cases hro
      · split at hro
        · cases hro
        · next hc =>
          split at hro
          · cases hro
          · rw [← List.mem_singleton.mp hro] at hc
            exact vconfig_not_register (canonicalRegister_mem hc)
  refine ⟨?_, ?_⟩
  · rw [mem_orderedUnique, List.mem_append, ← hreads]
    simp [hbase]
  · rw [mem_orderedUnique, ← hwrites]

/-! ### Runs -/

theorem record_roles {p : Program} {x : Execution} {i : StaticInstruction} {c : List String} {d : Instruction}
    (h : record p x i = .ok (c, d)) :
    ∃ roles, registerRoles x.vectorState.lmul i = .ok roles ∧ d.registerWrites = roles.2 ∧
      d.registerDependencies = writersOf x.lastRegisterWriter roles.1 := by
  obtain ⟨roles, hroles, h⟩ := ok_bind.mp h
  obtain ⟨_, -, h⟩ := ok_bind.mp h
  dsimp only at h
  split at h
  · cases h
  · obtain ⟨_, -, h⟩ := ok_bind.mp h
    cases h
    exact ⟨roles, hroles, rfl, rfl⟩

theorem mem_writersOf {last : String → Option Id} {rs : List String} {r : String} {w : Id} :
    (r, w) ∈ writersOf last rs ↔ r ∈ rs ∧ last r = some w := by
  unfold writersOf
  simp only [List.mem_filterMap, Option.map_eq_some_iff, Prod.mk.injEq]
  constructor
  · rintro ⟨a, ha, b, hb, rfl, rfl⟩
    exact ⟨ha, hb⟩
  · rintro ⟨hr, hw⟩
    exact ⟨r, hr, w, hw, rfl, rfl⟩

/-- The last writer of a tracked register in the run of the groups of LMUL. -/
def LastListed (vs : List Visit) (j : ℕ) (r : String) (i : ℕ) : Prop :=
  IsLast ((vs.take j).map fun v => listedWrites v.state.vectorState v.item) r i

/-- When the groups of LMUL are the ones that an instruction has: the group of LMUL of a
destination is no larger than the one the instruction writes, and a register that an
instruction reads and another wrote before is in a group of LMUL of both. -/
structure GroupsMatch (vs : List Visit) : Prop where
  destinations : ∀ v ∈ vs, writesVector v.item = true →
    groupSize v.state.vectorState.lmul ≤ destinationGroup v.state.vectorState v.item
  sources : ∀ j v, vs[j]? = some v → ∀ r ∈ architecturalReads v.state.vectorState v.item, ∀ i w,
    LastArchitectural vs j r i → vs[i]? = some w →
    r ∈ listedReads v.state.vectorState v.item ∧ r ∈ listedWrites w.state.vectorState w.item

theorem architecturalWrites_tracked {s : State} {i : StaticInstruction} {r : String}
    (h : r ∈ architecturalWrites s i) : tracked r := by
  unfold architecturalWrites at h
  split at h
  · exact .inr (List.mem_singleton.mp h)
  · split at h
    · obtain ⟨o, -, hr⟩ := List.mem_flatMap.mp h
      exact .inl (registerGroup_tracked hr)
    · cases h

/-- What is recorded to be written is written when the groups of the destinations match. -/
theorem listed_architectural {v : Visit} (hgroup : writesVector v.item = true →
      groupSize v.state.vectorState.lmul ≤ destinationGroup v.state.vectorState v.item) :
    ∀ r ∈ listedWrites v.state.vectorState v.item, r ∈ architecturalWrites v.state.vectorState v.item := by
  intro r hr
  unfold listedWrites at hr
  unfold architecturalWrites
  split at hr
  · next hcfg => rw [if_pos hcfg]; exact hr
  · next hcfg =>
    rw [if_neg hcfg]
    split at hr
    · next hw =>
      rw [if_pos hw]
      obtain ⟨o, ho, hro⟩ := List.mem_flatMap.mp hr
      obtain ⟨start, i, hs, h1, h2, h3, rfl⟩ := mem_registerGroup.mp hro
      have hle := hgroup hw
      exact List.mem_flatMap.mpr ⟨o, ho, mem_registerGroup.mpr ⟨start, i, hs, h1, by omega, h3, rfl⟩⟩
    · cases hr

section Run

variable {p : Program} {vs : List Visit} (hstatic : ∀ i ∈ p.static, Supported i)
  (hvs : ∀ k v, vs[k]? = some v → VisitOk p vs k v)
include hstatic hvs

/-- What a visit records to write, of the registers that are tracked. -/
theorem writes_iff {k : ℕ} {v : Visit} {r : String} (hk : vs[k]? = some v) (hr : tracked r) :
    r ∈ v.dynamic.registerWrites ↔ r ∈ listedWrites v.state.vectorState v.item := by
  obtain ⟨hfetched, ⟨c, hrec⟩, -⟩ := hvs k v hk
  obtain ⟨roles, hroles, hw, -⟩ := record_roles hrec
  rw [hw]
  exact (registerRoles_lists (hstatic _ hfetched) hroles hr).writes

/-- The dependencies of a visit are those on the last writers of the groups of LMUL. -/
theorem dependencies_iff {j : ℕ} {v : Visit} {r : String} {i : ℕ} (hj : vs[j]? = some v) (hr : tracked r) :
    (r, i) ∈ v.dynamic.registerDependencies ↔
      r ∈ listedReads v.state.vectorState v.item ∧ LastListed vs j r i := by
  obtain ⟨hfetched, ⟨c, hrec⟩, htables⟩ := hvs j v hj
  obtain ⟨roles, hroles, -, hd⟩ := record_roles hrec
  rw [hd, mem_writersOf, (registerRoles_lists (hstatic _ hfetched) hroles hr).reads, htables.registers r i]
  -- the table is about what the visits before recorded, which is what is listed
  have hzero : r ≠ "zero" := by
    rintro rfl
    have hnone : vectorIndex "zero" = none := vectorIndex_unnamed _ (by simp)
    rcases hr with h | h
    · rw [hnone] at h
      cases h
    · exact absurd h (by decide)
  have hmem : ∀ u ∈ vs.take j,
      (r ∈ writtenRegisters u.dynamic ↔ r ∈ listedWrites u.state.vectorState u.item) := by
    intro u hu
    obtain ⟨k, hk⟩ := List.mem_iff_getElem?.mp (List.mem_of_mem_take hu)
    rw [writtenRegisters, List.mem_filter, writes_iff hstatic hvs hk hr]
    simp [hzero]
  exact and_congr_right fun _ => isLast_congr hmem

omit hstatic in
/-- The group of LMUL of a destination is all of registers that there are. -/
theorem destination_fits {k : ℕ} {v : Visit} {o : String} {start : ℕ} (hk : vs[k]? = some v)
    (hw : writesVector v.item = true) (ho : o ∈ v.item.operands.head?)
    (hs : (canonicalRegister o).bind vectorIndex = some start) :
    start + groupSize v.state.vectorState.lmul ≤ 32 := by
  obtain ⟨-, ⟨c, hrec⟩, -⟩ := hvs k v hk
  obtain ⟨roles, hroles, -, -⟩ := record_roles hrec
  obtain ⟨m, hm, -⟩ := ok_bind.mp hroles
  have hkind : isVectorMnemonic v.item.mnemonic = true ∧ v.item.mnemonic ≠ "vsetvli" := by
    simp only [writesVector, Bool.and_eq_true, decide_eq_true_eq] at hw
    exact ⟨hw.1.1.1, hw.1.1.2⟩
  obtain ⟨rs, hrs⟩ := mnemonicRoles_first hm hkind.1 hkind.2
  rw [show v.item.operands.head? = some o from ho] at hrs
  obtain ⟨groups, hg, -⟩ := ok_bind.mp hrs
  obtain ⟨g, -, hog⟩ := forall₂_left (mapM_ok.mp hg) (List.mem_singleton.mpr rfl)
  exact operandRegisters_bound hog hs

/-- **When the dataflow is the architectural one.** -/
theorem dataflow_groups : Dataflow vs ↔ GroupsMatch vs := by
  constructor
  · intro h
    have hdest : ∀ v ∈ vs, writesVector v.item = true →
        groupSize v.state.vectorState.lmul ≤ destinationGroup v.state.vectorState v.item := by
      intro v hv hw
      obtain ⟨k, hk⟩ := List.mem_iff_getElem?.mp hv
      obtain ⟨hfetched, -, -⟩ := hvs k v hk
      obtain ⟨o, ho, hvec⟩ := (hstatic _ hfetched).destination hw
      obtain ⟨start, hs⟩ := Option.ne_none_iff_exists'.mp hvec
      have hne : v.item.mnemonic ≠ "vsetvli" := by
        intro hcfg
        simp [writesVector, hcfg] at hw
      have hpos : 0 < groupSize v.state.vectorState.lmul := by unfold groupSize; omega
      refine (registerGroup_subset hs hpos (destination_fits hvs hk hw ho hs)).mp fun r hr => ?_
      have hlisted : r ∈ listedWrites v.state.vectorState v.item := by
        rw [listedWrites, if_neg hne, if_pos hw]
        exact List.mem_flatMap.mpr ⟨o, by simpa using ho, hr⟩
      have htr := registerGroup_tracked hr
      have harch := h.writes v hv r ((writes_iff hstatic hvs hk (.inl htr)).mpr hlisted) htr
      rw [architecturalWrites, if_neg hne, if_pos hw] at harch
      obtain ⟨o', ho', hr'⟩ := List.mem_flatMap.mp harch
      obtain rfl : o' = o := by
        have h1 : v.item.operands.head? = some o := ho
        rw [h1] at ho'
        simpa using ho'
      exact hr'
    refine ⟨hdest, fun j v hj r hr i w hlast hw => ?_⟩
    obtain ⟨⟨u, hu, hwritten⟩, -⟩ := isLast_map.mp hlast
    have htr := architecturalWrites_tracked hwritten
    obtain ⟨hreads, hlisted⟩ := (dependencies_iff hstatic hvs hj htr).mp (h.reads j v hj r hr i hlast)
    obtain ⟨⟨u', hu', hw'⟩, -⟩ := isLast_map.mp hlisted
    have huw := getElem?_of_take hu'
    rw [hw] at huw
    cases huw
    exact ⟨hreads, hw'⟩
  · intro h
    refine ⟨fun j v hj r hr i hlast => ?_, fun v hv r hr htr => ?_⟩
    · obtain ⟨⟨u, hu, hwritten⟩, -⟩ := isLast_map.mp hlast
      have htr := architecturalWrites_tracked hwritten
      obtain ⟨hreads, hlisted⟩ := h.sources j v hj r hr i u hlast (getElem?_of_take hu)
      refine (dependencies_iff hstatic hvs hj htr).mpr ⟨hreads, hlast.narrow (fun w hw => ?_) hu hlisted⟩
      have hmem := List.mem_of_mem_take hw
      exact listed_architectural (h.destinations w hmem) r
    · obtain ⟨k, hk⟩ := List.mem_iff_getElem?.mp hv
      exact listed_architectural (h.destinations v hv) r
        ((writes_iff hstatic hvs hk (.inl htr)).mp hr)

end Run

/-- **Exactly when the register dependencies of a trace are the architectural ones.** -/
theorem dataflow_iff {p : Program} {count vlenBits : ℕ} {trace : List Instruction}
    (hstatic : ∀ i ∈ p.static, Supported i) (h : buildDynamicTrace p count vlenBits = .ok trace) :
    (visits p (10000 + count * 256) (initial count vlenBits)).map (·.dynamic) = trace ∧
      (Dataflow (visits p (10000 + count * 256) (initial count vlenBits)) ↔
        GroupsMatch (visits p (10000 + count * 256) (initial count vlenBits))) := by
  obtain ⟨htrace, hvs⟩ := buildDynamicTrace_visits h
  exact ⟨htrace, dataflow_groups hstatic hvs⟩

namespace Sample

def recipes : List (String × List SemanticKind) :=
  [("vsetvli", [.vectorConfig]), ("vle32.v", [.addressGeneration, .vectorLoad]), ("vfadd.vv", [.vectorFpAdd]),
    ("vfredmax.vs", [.vectorReduceMax]), ("vse32.v", [.addressGeneration, .vectorStore]), ("ret", [.ret])]

/-- A vector is loaded, doubled and stored. -/
def doubled : Program where
  static := [⟨"vsetvli", ["a5", "a2", "e32", "m1", "ta", "ma"]⟩, ⟨"vle32.v", ["v8", "0(a0)"]⟩,
    ⟨"vfadd.vv", ["v8", "v8", "v8"]⟩, ⟨"vse32.v", ["v8", "0(a1)"]⟩, ⟨"ret", []⟩]
  labels := []
  recipes := recipes

/-- A reduction of a group of two. -/
def reduced : Program where
  static := [⟨"vsetvli", ["a5", "a2", "e32", "m2", "ta", "ma"]⟩, ⟨"vfredmax.vs", ["v2", "v8", "v10"]⟩, ⟨"ret", []⟩]
  labels := []
  recipes := recipes

end Sample

theorem dataflow_iff_doubled :
    ∃ trace, buildDynamicTrace Sample.doubled 4 128 = .ok trace ∧
      (visits Sample.doubled 11024 (initial 4 128)).map (·.dynamic) = trace ∧
      (Dataflow (visits Sample.doubled 11024 (initial 4 128)) ↔
        GroupsMatch (visits Sample.doubled 11024 (initial 4 128))) := by
  obtain ⟨trace, htrace⟩ := exists_ok (show (buildDynamicTrace Sample.doubled 4 128).toOption.isSome from by
    decide +kernel)
  refine ⟨trace, htrace, dataflow_iff (fun i hi => ?_) htrace⟩
  simp only [Sample.doubled, List.mem_cons, List.not_mem_nil, or_false] at hi
  rcases hi with rfl | rfl | rfl | rfl | rfl
  · exact ⟨by decide +kernel, by decide +kernel, by decide +kernel, by decide +kernel, by decide +kernel, by decide +kernel⟩
  · exact ⟨by decide +kernel, by decide +kernel, by decide +kernel, by decide +kernel,
      fun _ => ⟨"v8", rfl, by decide +kernel⟩, by decide +kernel⟩
  · exact ⟨by decide +kernel, by decide +kernel, by decide +kernel, by decide +kernel,
      fun _ => ⟨"v8", rfl, by decide +kernel⟩, by decide +kernel⟩
  · exact ⟨by decide +kernel, by decide +kernel, by decide +kernel, by decide +kernel, by decide +kernel, by decide +kernel⟩
  · exact ⟨by decide +kernel, by decide +kernel, by decide +kernel, by decide +kernel, by decide +kernel, by decide +kernel⟩

/-- The reduction is recorded to write `v3`. -/
theorem reduction_writes_group :
    ¬ ∀ (p : Program) (count vlenBits : ℕ) (trace : List Instruction), (∀ i ∈ p.static, Supported i) →
      buildDynamicTrace p count vlenBits = .ok trace →
      Dataflow (visits p (10000 + count * 256) (initial count vlenBits)) := by
  intro h
  obtain ⟨trace, htrace⟩ := exists_ok (show (buildDynamicTrace Sample.reduced 4 128).toOption.isSome from by
    decide +kernel)
  have hflow := h Sample.reduced 4 128 trace (fun i hi => ?_) htrace
  · have hsecond : (visits Sample.reduced (10000 + 4 * 256) (initial 4 128))[1]?.map (fun v =>
        (v.dynamic.registerWrites, architecturalWrites v.state.vectorState v.item)) =
          some (["v2", "v3"], ["v2"]) := by decide +kernel
    obtain ⟨v, hv, heq⟩ := Option.map_eq_some_iff.mp hsecond
    obtain ⟨hwritten, harch⟩ := Prod.mk.inj heq
    have hmem := hflow.writes v (List.mem_of_getElem? hv) "v3" (by rw [hwritten]; decide) (by decide +kernel)
    rw [harch] at hmem
    exact absurd hmem (by decide)
  · simp only [Sample.reduced, List.mem_cons, List.not_mem_nil, or_false] at hi
    rcases hi with rfl | rfl | rfl
    · exact ⟨by decide +kernel, by decide +kernel, by decide +kernel, by decide +kernel, by decide +kernel, by decide +kernel⟩
    · exact ⟨by decide +kernel, by decide +kernel, by decide +kernel, by decide +kernel,
        fun _ => ⟨"v2", rfl, by decide +kernel⟩, by decide +kernel⟩
    · exact ⟨by decide +kernel, by decide +kernel, by decide +kernel, by decide +kernel, by decide +kernel, by decide +kernel⟩

end Rvv
end VectorSim
