/-
# Reported and evaluated roles

Two decoders look at an instruction: `registerRoles` reports what it reads and
writes, `evaluate` reads and writes. They agree (`RolesAgree`: states that agree
on what is reported as read have the same effect, nothing else is written, and
a zero idiom does not depend on its register, written or not) iff the
instruction is none of four kinds (`Faithful`, `rolesAgree_iff`): a step of a
register, whose carry stays; an exclusive or taken for an idiom, whose register
is read; a move of one operand; a move to a memory operand with the name of a
register.
-/
import VectorSim.Frontend.X86Words

namespace VectorSim
namespace X86

open Checked

/-! ### Agreement -/

/-- The states agree on what an instruction is reported to read. -/
structure SameReads (i : StaticInstruction) (s s' : ScalarState) : Prop where
  constants : s.constants = s'.constants
  registers : ∀ r ∈ (registerRoles i).reads, s.registers r = s'.registers r
  flags : (registerRoles i).readsFlags = true → s.flags = s'.flags

/-- The state with another value in a register, or none. -/
def ScalarState.set (s : ScalarState) (r : String) (v : Option ℤ) : ScalarState :=
  { s with registers := Function.update s.registers r v }

/-- What is reported of an instruction is what its evaluation reads and writes. -/
structure RolesAgree (i : StaticInstruction) : Prop where
  reads : ∀ s s', SameReads i s s' → evaluate i s = evaluate i s'
  writes : ∀ s s', updateScalarState i s = .ok s' → ∀ r ∉ (registerRoles i).writes, s'.registers r = s.registers r
  writesFlags : ∀ s s', updateScalarState i s = .ok s' → (registerRoles i).writesFlags = false → s'.flags = s.flags
  idiom : isZeroIdiom i = true → ∀ r ∈ i.operands.filterMap canonicalRegister, ∀ s : ScalarState,
    (∀ v v' : ℤ, evaluate i (s.set r v) = evaluate i (s.set r v')) ∧ ∃ e, evaluate i (s.set r none) = .ok e

def scalarMoves : List String := ["movl", "movq", "movslq", "movzbl"]

/-- The operand has a value in some state: it is a number or a register. -/
def readable (token : String) : Bool :=
  if token.toList.head? = some '$' then (parseInteger token).toOption.isSome else (canonicalRegister token).isSome

/-- The instructions whose roles are those of their evaluation. -/
structure Faithful (i : StaticInstruction) : Prop where
  step : i.mnemonic ∈ ["decq", "incq"] → destinationRegister i = none
  idiom : i.mnemonic ∈ ["xorl", "xorq"] → isZeroIdiom i = true → destinationRegister i = none
  single : i.mnemonic ∈ scalarMoves → i.operands.length = 1 → destinationRegister i = none
  move : i.mnemonic ∈ scalarMoves → i.operands.getLast?.any isMemory = true → i.operands.head?.any readable = true →
    destinationRegister i = none

/-! ### What the evaluator reads -/

/-- The operands whose values the evaluator takes. -/
def operandsRead (i : StaticInstruction) : List String :=
  let source := i.operands.head?.toList
  let destination := i.operands.getLast?.toList
  if i.mnemonic ∈ scalarMoves then source
  else if i.mnemonic ∈ ["testq", "cmpq"] then source ++ destination
  else if destinationRegister i = none then []
  else if i.mnemonic ∈ twoOperand then source ++ destination
  else if i.mnemonic ∈ ["decq", "incq", "negq", "notq"] then destination
  else []

theorem value_congr {token : String} {registers registers' : String → Option ℤ}
    (h : ∀ r, canonicalRegister token = some r → registers r = registers' r) :
    scalarOperandValue token registers = scalarOperandValue token registers' := by
  unfold scalarOperandValue
  cases hr : canonicalRegister token with
  | none => rfl
  | some r => simp only [h r hr]

/-- The same effect, where the pair of operands has one. -/
theorem pair_congr {i : StaticInstruction} {f g : String × String → Except X86Error Effect}
    (h : ∀ o, operandPair i = .ok o → f o = g o) : operandPair i >>= f = operandPair i >>= g := by
  cases ho : operandPair i with
  | error e => rfl
  | ok o => exact h o ho

theorem operandsRead_two {i : StaticInstruction} {o : String × String} (ho : operandPair i = .ok o)
    (hi : i.mnemonic ∈ twoOperand) (hregister : canonicalRegister o.2 ≠ none) : operandsRead i = [o.1, o.2] := by
  have hmove : i.mnemonic ∉ scalarMoves := (by decide : ∀ m ∈ twoOperand, m ∉ scalarMoves) _ hi
  have htest : i.mnemonic ∉ ["testq", "cmpq"] := (by decide : ∀ m ∈ twoOperand, m ∉ ["testq", "cmpq"]) _ hi
  unfold operandsRead
  dsimp only
  rw [if_neg hmove, if_neg htest, destinationRegister_of_pair ho, if_neg hregister, if_pos hi, (operandPair_ok ho).1,
    (operandPair_ok ho).2]
  rfl

theorem operandsRead_one {i : StaticInstruction} {o : String × String} (ho : operandPair i = .ok o)
    (hi : i.mnemonic ∈ ["decq", "incq", "negq", "notq"]) (hregister : canonicalRegister o.2 ≠ none) :
    operandsRead i = [o.2] := by
  have hmove : i.mnemonic ∉ scalarMoves :=
    (by decide : ∀ m ∈ ["decq", "incq", "negq", "notq"], m ∉ scalarMoves) _ hi
  have htest : i.mnemonic ∉ ["testq", "cmpq"] :=
    (by decide : ∀ m ∈ ["decq", "incq", "negq", "notq"], m ∉ ["testq", "cmpq"]) _ hi
  have htwo : i.mnemonic ∉ twoOperand := (by decide : ∀ m ∈ ["decq", "incq", "negq", "notq"], m ∉ twoOperand) _ hi
  unfold operandsRead
  dsimp only
  rw [if_neg hmove, if_neg htest, destinationRegister_of_pair ho, if_neg hregister, if_neg htwo, if_pos hi,
    (operandPair_ok ho).2]
  rfl

theorem operandsRead_compare {i : StaticInstruction} {o : String × String} (ho : operandPair i = .ok o)
    (hi : i.mnemonic ∈ ["testq", "cmpq"]) : operandsRead i = [o.1, o.2] := by
  have hmove : i.mnemonic ∉ scalarMoves := (by decide : ∀ m ∈ ["testq", "cmpq"], m ∉ scalarMoves) _ hi
  unfold operandsRead
  dsimp only
  rw [if_neg hmove, if_pos hi, (operandPair_ok ho).1, (operandPair_ok ho).2]
  rfl

theorem addressTerm_congr {registers registers' : String → Option ℤ} {r : Option String}
    (h : ∀ r', r = some r' → registers r' = registers' r') : addressTerm registers r = addressTerm registers' r := by
  unfold addressTerm
  cases r with
  | none => rfl
  | some r => simp only [h r rfl]

/-- An address is that of the registers of its operand. -/
theorem evaluateMemory_congr {token : String} {registers registers' : String → Option ℤ} {constants : List String}
    (h : ∀ r ∈ registersInMemory token, registers r = registers' r) :
    evaluateMemory token registers constants = evaluateMemory token registers' constants := by
  unfold evaluateMemory
  unfold registersInMemory at h
  cases hm : memoryOperand? token with
  | none => rfl
  | some m =>
    rw [hm] at h
    have hbase : addressTerm registers (baseRegister m) = addressTerm registers' (baseRegister m) := by
      refine addressTerm_congr fun r hr => h r ?_
      simp only [baseRegister, Option.filter_eq_some_iff, Option.bind_eq_some_iff] at hr
      obtain ⟨⟨b, hb, hr⟩, -⟩ := hr
      simp only [List.mem_filterMap, List.mem_cons, List.not_mem_nil, or_false, id]
      exact ⟨b, ⟨m.base, Or.inl rfl, hb⟩, hr⟩
    have hindex : addressTerm registers (indexRegister m) = addressTerm registers' (indexRegister m) := by
      refine addressTerm_congr fun r hr => h r ?_
      simp only [indexRegister, Option.bind_eq_some_iff] at hr
      obtain ⟨b, hb, hr⟩ := hr
      simp only [List.mem_filterMap, List.mem_cons, List.not_mem_nil, or_false, id]
      exact ⟨b, ⟨m.index, Or.inr rfl, hb⟩, hr⟩
    simp only [hbase, hindex]

/-- **What is not read does not matter**: the effect is that of the operands' values, of the memory
operand of `leaq` and of the carry that a step of a register keeps. -/
theorem evaluate_congr {i : StaticInstruction} {s s' : ScalarState} (hconstants : s.constants = s'.constants)
    (hoperands : ∀ token ∈ operandsRead i, ∀ r, canonicalRegister token = some r → s.registers r = s'.registers r)
    (hmemory : i.mnemonic = "leaq" → ∀ token ∈ i.operands, ∀ r ∈ registersInMemory token,
      s.registers r = s'.registers r)
    (hcarry : i.mnemonic ∈ ["decq", "incq"] → destinationRegister i ≠ none → s.flags.cf = s'.flags.cf) :
    evaluate i s = evaluate i s' := by
  have hvalue : ∀ token ∈ operandsRead i,
      scalarOperandValue token s.registers = scalarOperandValue token s'.registers :=
    fun token ht => value_congr (hoperands token ht)
  rcases mnemonic_cases i.mnemonic with hi | hi | hi | hi | hi | hi | hi | hi | hi | hi
  · rw [evaluate_move hi, evaluate_move hi]
    refine pair_congr fun o ho => ?_
    have hread : operandsRead i = [o.1] := by simp [operandsRead, scalarMoves, hi, operandPair_ok ho]
    rw [hvalue o.1 (by simp [hread])]
  · rw [evaluate_sum hi, evaluate_sum hi]
    refine pair_congr fun o ho => ?_
    cases hregister : canonicalRegister o.2 with
    | none => rfl
    | some d =>
      have hread := operandsRead_two ho ((by decide : ∀ m ∈ ["addq", "subq"], m ∈ twoOperand) _ hi)
        (by simp [hregister])
      simp only [hvalue o.1 (by simp [hread]), hvalue o.2 (by simp [hread])]
  · rw [evaluate_logic hi, evaluate_logic hi]
    refine pair_congr fun o ho => ?_
    cases hregister : canonicalRegister o.2 with
    | none => rfl
    | some d =>
      have hread := operandsRead_two ho ((by decide : ∀ m ∈ ["andq", "orq", "xorl", "xorq"], m ∈ twoOperand) _ hi)
        (by simp [hregister])
      simp only [hvalue o.1 (by simp [hread]), hvalue o.2 (by simp [hread])]
  · rw [evaluate_shift hi, evaluate_shift hi]
    refine pair_congr fun o ho => ?_
    cases hregister : canonicalRegister o.2 with
    | none => rfl
    | some d =>
      have hread := operandsRead_two ho ((by decide : ∀ m ∈ ["salq", "sarq", "shlq", "shrq"], m ∈ twoOperand) _ hi)
        (by simp [hregister])
      simp only [hvalue o.1 (by simp [hread]), hvalue o.2 (by simp [hread])]
  · rw [evaluate_step hi, evaluate_step hi]
    refine pair_congr fun o ho => ?_
    cases hregister : canonicalRegister o.2 with
    | none => rfl
    | some d =>
      have hread := operandsRead_one ho
        ((by decide : ∀ m ∈ ["decq", "incq"], m ∈ ["decq", "incq", "negq", "notq"]) _ hi) (by simp [hregister])
      have hcf := hcarry hi (by simp [destinationRegister_of_pair ho, hregister])
      simp only [hvalue o.2 (by simp [hread]), hcf]
  · rw [evaluate_negate hi, evaluate_negate hi]
    refine pair_congr fun o ho => ?_
    cases hregister : canonicalRegister o.2 with
    | none => rfl
    | some d =>
      have hread := operandsRead_one ho
        ((by decide : ∀ m ∈ ["negq", "notq"], m ∈ ["decq", "incq", "negq", "notq"]) _ hi) (by simp [hregister])
      simp only [hvalue o.2 (by simp [hread])]
  · rw [evaluate_address hi, evaluate_address hi]
    refine pair_congr fun o ho => ?_
    rw [evaluateMemory_congr (hmemory hi o.1 (List.mem_of_head? (operandPair_ok ho).1)), hconstants]
  · rw [evaluate_test hi, evaluate_test hi]
    refine pair_congr fun o ho => ?_
    have hread := operandsRead_compare ho (by simp [hi])
    simp only [hvalue o.1 (by simp [hread]), hvalue o.2 (by simp [hread])]
  · rw [evaluate_compare hi, evaluate_compare hi]
    refine pair_congr fun o ho => ?_
    have hread := operandsRead_compare ho (by simp [hi])
    simp only [hvalue o.1 (by simp [hread]), hvalue o.2 (by simp [hread])]
  · rw [evaluate_other hi, evaluate_other hi]

/-! ### What the evaluator writes -/

/-- The instructions that write a register. -/
def registerWriters : List String :=
  ["movl", "movq", "movslq", "movzbl", "addq", "subq", "andq", "orq", "xorl", "xorq", "salq", "sarq", "shlq", "shrq",
    "decq", "incq", "negq", "notq", "leaq"]

theorem writeRegister_name {token r : String} {v x : ℤ} (h : writeRegister token x = some (r, v)) :
    canonicalRegister token = some r := by
  simp only [writeRegister, Option.map_eq_some_iff, Prod.mk.injEq] at h
  obtain ⟨r', hr', rfl, -⟩ := h
  exact hr'

theorem shiftEffect_register {mnemonic d r : String} {old v : ℤ} {count : ℕ}
    (h : (shiftEffect mnemonic d old count).register = some (r, v)) : d = r := by
  unfold shiftEffect at h
  split at h <;> cases h
  rfl

theorem negateEffect_register {mnemonic d r : String} {old v : ℤ}
    (h : (negateEffect mnemonic d old).register = some (r, v)) : d = r := by
  unfold negateEffect at h
  split at h <;> cases h <;> rfl

/-- **What is written**: the register of the last operand, by an instruction that writes one. -/
theorem evaluate_register {i : StaticInstruction} {s : ScalarState} {e : Effect} {r : String} {v : ℤ}
    (h : evaluate i s = .ok e) (hr : e.register = some (r, v)) :
    destinationRegister i = some r ∧ i.mnemonic ∈ registerWriters := by
  rcases mnemonic_cases i.mnemonic with hi | hi | hi | hi | hi | hi | hi | hi | hi | hi
  · refine ⟨?_, (by decide : ∀ m ∈ ["movl", "movq", "movslq", "movzbl"], m ∈ registerWriters) _ hi⟩
    rw [evaluate_move hi] at h
    obtain ⟨o, ho, h⟩ := ok_bind.mp h
    obtain ⟨x, -, h⟩ := ok_bind.mp h
    cases h
    rw [destinationRegister_of_pair ho]
    exact writeRegister_name hr
  · refine ⟨?_, (by decide : ∀ m ∈ ["addq", "subq"], m ∈ registerWriters) _ hi⟩
    rw [evaluate_sum hi] at h
    obtain ⟨o, d, ho, hd, h⟩ := effect_of_match h hr
    rw [destinationRegister_of_pair ho]
    obtain ⟨old, -, h⟩ := ok_bind.mp h
    obtain ⟨source, -, h⟩ := ok_bind.mp h
    cases h
    cases hr
    exact hd
  · refine ⟨?_, (by decide : ∀ m ∈ ["andq", "orq", "xorl", "xorq"], m ∈ registerWriters) _ hi⟩
    rw [evaluate_logic hi] at h
    obtain ⟨o, d, ho, hd, h⟩ := effect_of_match h hr
    rw [destinationRegister_of_pair ho]
    obtain ⟨old, -, h⟩ := ok_bind.mp h
    obtain ⟨source, -, h⟩ := ok_bind.mp h
    cases h
    exact writeRegister_name hr
  · refine ⟨?_, (by decide : ∀ m ∈ ["salq", "sarq", "shlq", "shrq"], m ∈ registerWriters) _ hi⟩
    rw [evaluate_shift hi] at h
    obtain ⟨o, d, ho, hd, h⟩ := effect_of_match h hr
    rw [destinationRegister_of_pair ho]
    obtain ⟨count, -, h⟩ := ok_bind.mp h
    obtain ⟨old, -, h⟩ := ok_bind.mp h
    cases h
    rw [hd, shiftEffect_register hr]
  · refine ⟨?_, (by decide : ∀ m ∈ ["decq", "incq"], m ∈ registerWriters) _ hi⟩
    rw [evaluate_step hi] at h
    obtain ⟨o, d, ho, hd, h⟩ := effect_of_match h hr
    rw [destinationRegister_of_pair ho]
    obtain ⟨old, -, h⟩ := ok_bind.mp h
    cases h
    cases hr
    exact hd
  · refine ⟨?_, (by decide : ∀ m ∈ ["negq", "notq"], m ∈ registerWriters) _ hi⟩
    rw [evaluate_negate hi] at h
    obtain ⟨o, d, ho, hd, h⟩ := effect_of_match h hr
    rw [destinationRegister_of_pair ho]
    obtain ⟨old, -, h⟩ := ok_bind.mp h
    cases h
    rw [hd, negateEffect_register hr]
  · refine ⟨?_, by simp [hi, registerWriters]⟩
    rw [evaluate_address hi] at h
    obtain ⟨o, ho, h⟩ := ok_bind.mp h
    obtain ⟨a, -, h⟩ := ok_bind.mp h
    cases h
    simp only [Option.map_eq_some_iff, Prod.mk.injEq] at hr
    obtain ⟨d, hd, rfl, -⟩ := hr
    rw [destinationRegister_of_pair ho, hd]
  · rw [evaluate_test hi] at h
    obtain ⟨o, ho, h⟩ := ok_bind.mp h
    obtain ⟨left, -, h⟩ := ok_bind.mp h
    obtain ⟨right, -, h⟩ := ok_bind.mp h
    cases h
    cases hr
  · rw [evaluate_compare hi] at h
    obtain ⟨o, ho, h⟩ := ok_bind.mp h
    obtain ⟨left, -, h⟩ := ok_bind.mp h
    obtain ⟨right, -, h⟩ := ok_bind.mp h
    cases h
    cases hr
  · rw [evaluate_other hi] at h
    cases h
    cases hr

/-- Only the writers of the flags write them. -/
theorem evaluate_flags {i : StaticInstruction} {s : ScalarState} {e : Effect} (h : evaluate i s = .ok e)
    (hi : i.mnemonic ∉ flagWriters) : e.flags = none := by
  rcases mnemonic_cases i.mnemonic with h' | h' | h' | h' | h' | h' | h' | h' | h' | h'
  · rw [evaluate_move h'] at h
    obtain ⟨o, ho, h⟩ := ok_bind.mp h
    obtain ⟨x, -, h⟩ := ok_bind.mp h
    cases h
    rfl
  · exact absurd ((by decide : ∀ m ∈ ["addq", "subq"], m ∈ flagWriters) _ h') hi
  · exact absurd ((by decide : ∀ m ∈ ["andq", "orq", "xorl", "xorq"], m ∈ flagWriters) _ h') hi
  · exact absurd ((by decide : ∀ m ∈ ["salq", "sarq", "shlq", "shrq"], m ∈ flagWriters) _ h') hi
  · exact absurd ((by decide : ∀ m ∈ ["decq", "incq"], m ∈ flagWriters) _ h') hi
  · rw [evaluate_negate h'] at h
    obtain ⟨o, ho, h⟩ := ok_bind.mp h
    cases hd : canonicalRegister o.2 with
    | none =>
      rw [hd] at h
      cases h
      rfl
    | some d =>
      rw [hd] at h
      obtain ⟨old, -, h⟩ := ok_bind.mp h
      cases h
      have hnot : i.mnemonic ≠ "negq" := by
        intro hneg
        exact hi (by simp [hneg, flagWriters])
      simp [negateEffect, hnot]
  · rw [evaluate_address h'] at h
    obtain ⟨o, ho, h⟩ := ok_bind.mp h
    obtain ⟨a, -, h⟩ := ok_bind.mp h
    cases h
    rfl
  · exact absurd (by simp [h', flagWriters]) hi
  · exact absurd (by simp [h', flagWriters]) hi
  · rw [evaluate_other h'] at h
    cases h
    rfl

/-! ### What is reported -/

section Reported

variable {i : StaticInstruction}

theorem idiom_mnemonic (h : isZeroIdiom i = true) : i.mnemonic ∈ ["xorl", "xorq", "vxorpd", "vxorps"] := by
  unfold isZeroIdiom at h
  simp only [Bool.and_eq_true, decide_eq_true_iff] at h
  exact h.1

theorem not_idiom (h : i.mnemonic ∉ ["xorl", "xorq", "vxorpd", "vxorps"]) : ¬ isZeroIdiom i = true :=
  fun h' => h (idiom_mnemonic h')

theorem operandRoles_compare (hi : i.mnemonic ∈ ["testq", "cmpq"]) :
    operandRoles i = (i.operands.filterMap canonicalRegister, []) := by
  have h1 := (by decide : ∀ m ∈ ["testq", "cmpq"], m ∉ branches ++ ["ret", "vzeroupper", "endbr64"]) _ hi
  unfold operandRoles
  dsimp only
  rw [if_neg h1, if_pos hi]

theorem operandRoles_idiom (h : isZeroIdiom i = true) : operandRoles i = ([], (destinationRegister i).toList) := by
  have hi := idiom_mnemonic h
  have h1 := (by decide : ∀ m ∈ ["xorl", "xorq", "vxorpd", "vxorps"],
    m ∉ branches ++ ["ret", "vzeroupper", "endbr64"]) _ hi
  have h2 := (by decide : ∀ m ∈ ["xorl", "xorq", "vxorpd", "vxorps"], m ∉ ["testq", "cmpq"]) _ hi
  unfold operandRoles
  dsimp only
  rw [if_neg h1, if_neg h2, if_pos h]

theorem operandRoles_move (hi : i.mnemonic ∈ scalarMoves) :
    operandRoles i =
      (sourceRegisters i, if i.operands.getLast?.any isMemory then [] else (destinationRegister i).toList) := by
  have h1 := (by decide : ∀ m ∈ scalarMoves, m ∉ branches ++ ["ret", "vzeroupper", "endbr64"]) _ hi
  have h2 := (by decide : ∀ m ∈ scalarMoves, m ∉ ["testq", "cmpq"]) _ hi
  have h3 := not_idiom ((by decide : ∀ m ∈ scalarMoves, m ∉ ["xorl", "xorq", "vxorpd", "vxorps"]) _ hi)
  have h4 := (by decide : ∀ m ∈ scalarMoves, m ∈ moves) _ hi
  unfold operandRoles
  dsimp only
  rw [if_neg h1, if_neg h2, if_neg h3, if_pos h4]

theorem operandRoles_two (hi : i.mnemonic ∈ twoOperand) (h : ¬ isZeroIdiom i = true) :
    operandRoles i =
      ((destinationRegister i).toList ++ sourceRegisters i, (destinationRegister i).toList) := by
  have h1 := (by decide : ∀ m ∈ twoOperand, m ∉ branches ++ ["ret", "vzeroupper", "endbr64"]) _ hi
  have h2 := (by decide : ∀ m ∈ twoOperand, m ∉ ["testq", "cmpq"]) _ hi
  have h4 := (by decide : ∀ m ∈ twoOperand, m ∉ moves) _ hi
  unfold operandRoles
  dsimp only
  rw [if_neg h1, if_neg h2, if_neg h, if_neg h4, if_pos hi]

theorem operandRoles_one (hi : i.mnemonic ∈ ["decq", "incq", "negq", "notq"]) :
    operandRoles i = ((destinationRegister i).toList, (destinationRegister i).toList) := by
  have h1 := (by decide : ∀ m ∈ ["decq", "incq", "negq", "notq"],
    m ∉ branches ++ ["ret", "vzeroupper", "endbr64"]) _ hi
  have h2 := (by decide : ∀ m ∈ ["decq", "incq", "negq", "notq"], m ∉ ["testq", "cmpq"]) _ hi
  have h3 := not_idiom ((by decide : ∀ m ∈ ["decq", "incq", "negq", "notq"],
    m ∉ ["xorl", "xorq", "vxorpd", "vxorps"]) _ hi)
  have h4 := (by decide : ∀ m ∈ ["decq", "incq", "negq", "notq"], m ∉ moves) _ hi
  have h5 := (by decide : ∀ m ∈ ["decq", "incq", "negq", "notq"], m ∉ twoOperand) _ hi
  unfold operandRoles
  dsimp only
  rw [if_neg h1, if_neg h2, if_neg h3, if_neg h4, if_neg h5, if_pos hi]

theorem operandRoles_address (hi : i.mnemonic = "leaq") :
    operandRoles i = ([], (destinationRegister i).toList) := by
  have h1 : i.mnemonic ∉ branches ++ ["ret", "vzeroupper", "endbr64"] := by rw [hi]; decide
  have h2 : i.mnemonic ∉ ["testq", "cmpq"] := by rw [hi]; decide
  have h3 := not_idiom (show i.mnemonic ∉ ["xorl", "xorq", "vxorpd", "vxorps"] by rw [hi]; decide)
  have h4 : i.mnemonic ∉ moves := by rw [hi]; decide
  have h5 : i.mnemonic ∉ twoOperand := by rw [hi]; decide
  have h6 : i.mnemonic ∉ ["decq", "incq", "negq", "notq"] := by rw [hi]; decide
  unfold operandRoles
  dsimp only
  rw [if_neg h1, if_neg h2, if_neg h3, if_neg h4, if_neg h5, if_neg h6, if_pos hi]

/-- A register that is written is reported, but for the moves to a memory operand. -/
theorem writes_reported {r : String} (hr : destinationRegister i = some r) (hi : i.mnemonic ∈ registerWriters)
    (hmove : i.mnemonic ∈ scalarMoves → i.operands.getLast?.any isMemory = false) :
    r ∈ (registerRoles i).writes := by
  have hcases := (by decide : ∀ m ∈ registerWriters, m ∈ scalarMoves ∨ m ∈ twoOperand ∨
    m ∈ ["decq", "incq", "negq", "notq"] ∨ m = "leaq") _ hi
  unfold registerRoles
  rw [mem_sorted]
  rcases hcases with h | h | h | h
  · simp [operandRoles_move h, hmove h, hr]
  · by_cases hidiom : isZeroIdiom i = true
    · simp [operandRoles_idiom hidiom, hr]
    · simp [operandRoles_two h hidiom, hr]
  · simp [operandRoles_one h, hr]
  · simp [operandRoles_address h, hr]

/-- The first operand is a source, or it is the last as well. -/
theorem source_or_single {token r : String} (ht : token ∈ i.operands.head?) (hr : canonicalRegister token = some r) :
    r ∈ sourceRegisters i ∨ (i.operands.length = 1 ∧ destinationRegister i = some r) := by
  rcases hl : i.operands with _ | ⟨a, _ | ⟨b, l⟩⟩
  · simp [hl] at ht
  · simp only [hl, List.head?_cons, Option.mem_def, Option.some.injEq] at ht
    right
    simp [destinationRegister, hl, ht, hr]
  · simp only [hl, List.head?_cons, Option.mem_def, Option.some.injEq] at ht
    left
    unfold sourceRegisters
    rw [hl, List.dropLast_cons_of_ne_nil (by simp), List.mem_filterMap]
    exact ⟨a, by simp, by rw [ht, hr]⟩

theorem last_register {token r : String} (ht : token ∈ i.operands.getLast?) (hr : canonicalRegister token = some r) :
    destinationRegister i = some r := by
  unfold destinationRegister
  rw [Option.mem_def.mp ht]
  exact hr

/-- Registers that are read are reported, of the instructions whose roles are faithful. -/
theorem Faithful.reported (h : Faithful i) {token r : String} (ht : token ∈ operandsRead i)
    (hr : canonicalRegister token = some r) : r ∈ (registerRoles i).reads := by
  unfold registerRoles
  rw [mem_sorted, List.mem_append]
  right
  unfold operandsRead at ht
  dsimp only at ht
  by_cases h1 : i.mnemonic ∈ scalarMoves
  · rw [if_pos h1, Option.mem_toList] at ht
    rw [operandRoles_move h1]
    rcases source_or_single ht hr with hs | ⟨hone, hd⟩
    · exact hs
    · rw [h.single h1 hone] at hd
      cases hd
  rw [if_neg h1] at ht
  by_cases h2 : i.mnemonic ∈ ["testq", "cmpq"]
  · rw [if_pos h2, List.mem_append, Option.mem_toList, Option.mem_toList] at ht
    rw [operandRoles_compare h2]
    refine List.mem_filterMap.mpr ⟨token, ?_, hr⟩
    rcases ht with ht | ht
    · exact List.mem_of_head? ht
    · exact List.mem_of_getLast? ht
  rw [if_neg h2] at ht
  by_cases h3 : destinationRegister i = none
  · simp [h3] at ht
  rw [if_neg h3] at ht
  by_cases h4 : i.mnemonic ∈ twoOperand
  · have hidiom : ¬ isZeroIdiom i = true := by
      intro hz
      have hx : i.mnemonic ∈ ["xorl", "xorq"] := by
        have hz' := idiom_mnemonic hz
        simp only [List.mem_cons, List.not_mem_nil, or_false] at hz'
        rcases hz' with hz' | hz' | hz' | hz'
        · simp [hz']
        · simp [hz']
        · simp [hz', twoOperand] at h4
        · simp [hz', twoOperand] at h4
      exact h3 (h.idiom hx hz)
    rw [if_pos h4, List.mem_append, Option.mem_toList, Option.mem_toList] at ht
    rw [operandRoles_two h4 hidiom, List.mem_append, Option.mem_toList]
    rcases ht with ht | ht
    · rcases source_or_single ht hr with hs | ⟨-, hd⟩
      · exact Or.inr hs
      · exact Or.inl hd
    · exact Or.inl (last_register ht hr)
  rw [if_neg h4] at ht
  by_cases h5 : i.mnemonic ∈ ["decq", "incq", "negq", "notq"]
  · rw [if_pos h5, Option.mem_toList] at ht
    rw [operandRoles_one h5, Option.mem_toList]
    exact last_register ht hr
  · rw [if_neg h5] at ht
    cases ht

/-! ### Agreement of the faithful instructions -/

theorem Faithful.reads (h : Faithful i) {s s' : ScalarState} (hs : SameReads i s s') : evaluate i s = evaluate i s' := by
  refine evaluate_congr hs.constants (fun token ht r hr => hs.registers r (h.reported ht hr)) ?_ ?_
  · intro _ token ht r hr
    refine hs.registers r ?_
    unfold registerRoles
    rw [mem_sorted, List.mem_append]
    exact Or.inl (List.mem_flatMap.mpr ⟨token, ht, hr⟩)
  · intro hi hd
    exact absurd (h.step hi) hd

theorem readable_of_value {token : String} {registers : String → Option ℤ} {v : ℤ}
    (h : scalarOperandValue token registers = .ok v) : readable token = true := by
  unfold scalarOperandValue at h
  unfold readable
  split at h
  · rw [if_pos ‹_›, h]
    rfl
  · rw [if_neg ‹_›]
    cases hr : canonicalRegister token with
    | none => simp [hr] at h
    | some r => rfl

theorem Faithful.writes (h : Faithful i) {s s' : ScalarState} (hs : updateScalarState i s = .ok s') {r : String}
    (hr : r ∉ (registerRoles i).writes) : s'.registers r = s.registers r := by
  obtain ⟨e, he, rfl⟩ := updateScalarState_ok hs
  cases hw : e.register with
  | none => simp [ScalarState.apply, hw]
  | some w =>
    obtain ⟨d, v⟩ := w
    obtain ⟨hd, hwriter⟩ := evaluate_register he hw
    have hne : r ≠ d := by
      rintro rfl
      refine hr (writes_reported hd hwriter fun hmove => ?_)
      by_contra hmem
      -- the source had a value, so that the roles of a move to memory are faithful only without a register
      rw [evaluate_move hmove] at he
      obtain ⟨o, ho, he⟩ := ok_bind.mp he
      obtain ⟨x, hx, -⟩ := ok_bind.mp he
      have hread : i.operands.head?.any readable = true := by
        rw [(operandPair_ok ho).1]
        exact readable_of_value hx
      rw [h.move hmove (by simpa using hmem) hread] at hd
      cases hd
    simp [ScalarState.apply, hw, Function.update_of_ne hne]

theorem writesFlags_frame {s s' : ScalarState} (hs : updateScalarState i s = .ok s')
    (h : (registerRoles i).writesFlags = false) : s'.flags = s.flags := by
  obtain ⟨e, he, rfl⟩ := updateScalarState_ok hs
  have hnone := evaluate_flags he (by simpa [registerRoles] using h)
  simp [ScalarState.apply, hnone]

/-- A faithful idiom does nothing. -/
theorem Faithful.idle (h : Faithful i) (hidiom : isZeroIdiom i = true) {r : String}
    (hr : r ∈ i.operands.filterMap canonicalRegister) (s : ScalarState) : evaluate i s = .ok {} := by
  have hi := idiom_mnemonic hidiom
  by_cases hx : i.mnemonic ∈ ["xorl", "xorq"]
  · have hd := h.idiom hx hidiom
    have ho : ∃ o, operandPair i = .ok o := by
      cases hl : i.operands with
      | nil => simp [hl] at hr
      | cons a l => exact ⟨(a, (a :: l).getLast (by simp)), by simp [operandPair, hl, List.getLast?_eq_some_getLast]⟩
    obtain ⟨o, ho⟩ := ho
    rw [destinationRegister_of_pair ho] at hd
    rw [evaluate_logic ((by decide : ∀ m ∈ ["xorl", "xorq"], m ∈ ["andq", "orq", "xorl", "xorq"]) _ hx)]
    refine ok_bind.mpr ⟨o, ho, ?_⟩
    simp only [hd]
  · have hv : i.mnemonic ∉ evaluated := by
      simp only [List.mem_cons, List.not_mem_nil, or_false] at hi hx
      rcases hi with hi | hi | hi | hi
      · exact absurd (Or.inl hi) hx
      · exact absurd (Or.inr hi) hx
      · rw [hi]
        decide
      · rw [hi]
        decide
    exact evaluate_other hv

/-! ### Disagreement of the others -/

theorem pair_of_destination {d : String} (h : destinationRegister i = some d) :
    ∃ o, operandPair i = .ok o ∧ canonicalRegister o.2 = some d := by
  cases hl : i.operands with
  | nil => simp [destinationRegister, hl] at h
  | cons a l =>
    have ho : operandPair i = .ok (a, (a :: l).getLast (by simp)) := by
      simp [operandPair, hl, List.getLast?_eq_some_getLast]
    refine ⟨_, ho, ?_⟩
    rw [← destinationRegister_of_pair ho]
    exact h

/-- A step of a register keeps the carry, which is not reported as read. -/
theorem RolesAgree.step (h : RolesAgree i) (hi : i.mnemonic ∈ ["decq", "incq"]) : destinationRegister i = none := by
  by_contra hne
  obtain ⟨d, hd⟩ := Option.ne_none_iff_exists'.mp hne
  obtain ⟨o, ho, hregister⟩ := pair_of_destination hd
  have heval : ∀ f : Flags, evaluate i ⟨fun _ => some 0, f, []⟩ = .ok (stepEffect i.mnemonic d (wrap 0) f.cf) := by
    intro f
    have hvalue : scalarOperandValue o.2 (fun _ => some 0) = .ok 0 := scalarOperandValue_register hregister rfl
    rw [evaluate_step hi, ho, ok_bind]
    refine ⟨o, rfl, ?_⟩
    simp only [hregister]
    exact ok_bind.mpr ⟨0, hvalue, rfl⟩
  have hreads : (registerRoles i).readsFlags = false := by
    have hb := (by decide : ∀ m ∈ ["decq", "incq"], m ∉ conditionalBranches) _ hi
    simpa [registerRoles] using hb
  have hsame := h.reads ⟨fun _ => some 0, {}, []⟩ ⟨fun _ => some 0, { cf := true }, []⟩
    ⟨rfl, fun _ _ => rfl, fun hf => absurd hf (by simp [hreads])⟩
  rw [heval, heval] at hsame
  simp [stepEffect, flagsOf] at hsame

/-- The register of an idiom is read before it is written. -/
theorem RolesAgree.unwritten (h : RolesAgree i) (hi : i.mnemonic ∈ ["xorl", "xorq"]) (hidiom : isZeroIdiom i = true) :
    destinationRegister i = none := by
  by_contra hne
  obtain ⟨d, hd⟩ := Option.ne_none_iff_exists'.mp hne
  obtain ⟨o, ho, hregister⟩ := pair_of_destination hd
  have hmem : d ∈ i.operands.filterMap canonicalRegister :=
    List.mem_filterMap.mpr ⟨o.2, List.mem_of_getLast? (operandPair_ok ho).2, hregister⟩
  obtain ⟨e, he⟩ := (h.idiom hidiom d hmem ⟨fun _ => none, {}, []⟩).2
  rw [evaluate_logic ((by decide : ∀ m ∈ ["xorl", "xorq"], m ∈ ["andq", "orq", "xorl", "xorq"]) _ hi)] at he
  obtain ⟨o', ho', he⟩ := ok_bind.mp he
  rw [ho] at ho'
  cases ho'
  simp only [hregister] at he
  obtain ⟨left, hleft, -⟩ := ok_bind.mp he
  rw [scalarOperandValue_unwritten hregister (by simp [ScalarState.set])] at hleft
  cases hleft

/-- The register that a move writes is reported. -/
theorem RolesAgree.move (h : RolesAgree i) (hi : i.mnemonic ∈ scalarMoves)
    (hmem : i.operands.getLast?.any isMemory = true) (hread : i.operands.head?.any readable = true) :
    destinationRegister i = none := by
  by_contra hne
  obtain ⟨d, hd⟩ := Option.ne_none_iff_exists'.mp hne
  obtain ⟨o, ho, hregister⟩ := pair_of_destination hd
  rw [(operandPair_ok ho).1, Option.any_some] at hread
  obtain ⟨x, hx⟩ : ∃ x, scalarOperandValue o.1 (fun _ => some (-1)) = .ok x := by
    unfold readable at hread
    unfold scalarOperandValue
    split at hread
    · rw [if_pos ‹_›]
      exact exists_ok hread
    · rw [if_neg ‹_›]
      obtain ⟨r, hr⟩ := Option.isSome_iff_exists.mp hread
      exact ⟨-1, by simp only [hr]⟩
  have heval : evaluate i ⟨fun _ => some (-1), {}, []⟩ =
      .ok { register := some (d, movedValue i.mnemonic x % 2 ^ registerBits o.2) } := by
    rw [evaluate_move hi]
    refine ok_bind.mpr ⟨o, ho, ok_bind.mpr ⟨x, hx, ?_⟩⟩
    simp [writeRegister, hregister]
  have hframe := h.writes _ _ (show updateScalarState i _ = .ok _ by rw [updateScalarState, heval]; rfl) d
    (by simp [registerRoles, operandRoles_move hi, hmem])
  -- what is written is not negative
  simp only [ScalarState.apply, Function.update_self, Option.some.injEq] at hframe
  have hnonneg := Int.emod_nonneg (movedValue i.mnemonic x) (show (2 : ℤ) ^ registerBits o.2 ≠ 0 by positivity)
  omega

/-- An operand without a bracket is no memory operand. -/
theorem registersInMemory_nil {token : String} (h : isMemory token = false) : registersInMemory token = [] := by
  have hnone : memoryOperand? token = none := by
    unfold memoryOperand?
    dsimp only
    split
    · next rest hdrop =>
      have hmem : '(' ∈ token.toList := (List.dropWhile_sublist _).mem (hdrop ▸ List.mem_cons_self)
      simp [isMemory, hmem] at h
    · rfl
  simp [registersInMemory, hnone]

/-- The operand of a move is read, also where it is the only one. -/
theorem RolesAgree.single (h : RolesAgree i) (hi : i.mnemonic ∈ scalarMoves) (hone : i.operands.length = 1) :
    destinationRegister i = none := by
  by_contra hne
  obtain ⟨d, hd⟩ := Option.ne_none_iff_exists'.mp hne
  obtain ⟨a, ha⟩ := List.length_eq_one_iff.mp hone
  have hregister : canonicalRegister a = some d := by simpa [destinationRegister, ha] using hd
  have ho : operandPair i = .ok (a, a) := by simp [operandPair, ha]
  have hvalue : scalarOperandValue a (fun _ => some 0) = .ok 0 := scalarOperandValue_register hregister rfl
  by_cases hmem : isMemory a = true
  · have hnone := h.move hi (by simpa [ha] using hmem) (by simpa [ha] using readable_of_value hvalue)
    rw [hnone] at hd
    cases hd
  · -- nothing is reported as read
    have hreads : (registerRoles i).reads = [] := by
      rw [List.eq_nil_iff_forall_not_mem]
      intro r hr
      simp only [registerRoles, mem_sorted, operandRoles_move hi, sourceRegisters, ha, List.flatMap_cons,
        List.flatMap_nil, registersInMemory_nil (by simpa using hmem)] at hr
      simp at hr
    have hflags : (registerRoles i).readsFlags = false := by
      have hb := (by decide : ∀ m ∈ scalarMoves, m ∉ conditionalBranches) _ hi
      simpa [registerRoles] using hb
    have hsame := h.reads ⟨fun _ => none, {}, []⟩ ⟨fun _ => some 0, {}, []⟩
      ⟨rfl, by simp [hreads], fun _ => rfl⟩
    rw [evaluate_move hi, evaluate_move hi, ho] at hsame
    have herror : scalarOperandValue a (fun _ => none) = .error (.readBeforeWrite d) :=
      scalarOperandValue_unwritten hregister rfl
    simp only [Bind.bind, Except.bind, herror, hvalue] at hsame
    cases hsame

end Reported

/-- **Roles agree with the evaluator** iff the instruction is none of the four kinds. -/
theorem rolesAgree_iff (i : StaticInstruction) : RolesAgree i ↔ Faithful i where
  mp h := ⟨h.step, h.unwritten, h.single, h.move⟩
  mpr h := {
    reads := fun _ _ => h.reads
    writes := fun _ _ hs _ => h.writes hs
    writesFlags := fun _ _ => writesFlags_frame
    idiom := fun hidiom _ hr s =>
      ⟨fun _ _ => by rw [h.idle hidiom hr, h.idle hidiom hr], {}, h.idle hidiom hr _⟩ }


/-- `xorl %r9d, %r9d` is reported to read nothing, and cannot be evaluated before `r9` is written. -/
theorem idiom_reads_register : ¬ RolesAgree ⟨"xorl", ["%r9d", "%r9d"]⟩ := by
  intro h
  have hnone := h.unwritten (by decide) (by decide +kernel)
  revert hnone
  decide +kernel

end X86
end VectorSim
