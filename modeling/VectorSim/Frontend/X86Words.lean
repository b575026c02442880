/-
# The x86 evaluator on words

What the evaluator computes with integers, said of 64-bit words: a flag is a
bit, an order or an overflow of the words (`subFlags_word`, `addFlags_word`).
-/
import VectorSim.Frontend.X86

namespace VectorSim
namespace X86

open Checked Words

/-! ### Operands -/

/-- A token keeps its first character, where it is no blank. -/
theorem normalized_head {token : String} {c : Char} {cs : List Char} (h : token.toList = c :: cs)
    (hblank : c.isWhitespace = false) : (normalized token).toList.head? = some c.toLower := by
  have hlast : ∃ l, (cs.reverse ++ [c]).dropWhile Char.isWhitespace = l ++ [c] := by
    have hkept : [c].dropWhile Char.isWhitespace = [c] := List.dropWhile_cons_of_neg (by simp [hblank])
    rw [List.dropWhile_append, hkept]
    split
    · exact ⟨[], rfl⟩
    · exact ⟨_, rfl⟩
  obtain ⟨l, hl⟩ := hlast
  unfold normalized
  dsimp only
  rw [h, List.dropWhile_cons_of_neg (by simp [hblank]), List.reverse_cons, hl]
  simp [show ∀ s : String, s.toLower = s.map Char.toLower from fun _ => rfl]

/-- An immediate is no register. -/
theorem canonicalRegister_immediate {token : String} (h : token.toList.head? = some '$') :
    canonicalRegister token = none := by
  obtain ⟨cs, hcs⟩ := List.head?_eq_some_iff.mp h
  have hhead := normalized_head hcs (by decide)
  obtain ⟨ds, hds⟩ := List.head?_eq_some_iff.mp hhead
  unfold canonicalRegister registerName?
  rw [hds]
  rfl

theorem scalarOperandValue_register {token r : String} {registers : String → Option ℤ} {v : ℤ}
    (h : canonicalRegister token = some r) (hv : registers r = some v) :
    scalarOperandValue token registers = .ok v := by
  unfold scalarOperandValue
  rw [if_neg, h]
  · simp only [hv]
  · intro hdollar
    rw [canonicalRegister_immediate hdollar] at h
    cases h

theorem scalarOperandValue_unwritten {token r : String} {registers : String → Option ℤ}
    (h : canonicalRegister token = some r) (hv : registers r = none) :
    scalarOperandValue token registers = .error (.readBeforeWrite r) := by
  unfold scalarOperandValue
  rw [if_neg, h]
  · simp only [hv]
  · intro hdollar
    rw [canonicalRegister_immediate hdollar] at h
    cases h

/-! ### The evaluator by instruction -/

theorem operandPair_ok {i : StaticInstruction} {o : String × String} (h : operandPair i = .ok o) :
    i.operands.head? = some o.1 ∧ i.operands.getLast? = some o.2 := by
  unfold operandPair at h
  cases hhead : i.operands.head? with
  | none => simp [hhead] at h
  | some a =>
    cases hlast : i.operands.getLast? with
    | none => simp [hhead, hlast] at h
    | some b =>
      simp only [hhead, hlast, Except.ok.injEq] at h
      rw [← h]
      exact ⟨rfl, rfl⟩

theorem pair_of_last {i : StaticInstruction} {b : String} (h : i.operands.getLast? = some b) :
    ∃ a, operandPair i = .ok (a, b) := by
  cases hl : i.operands with
  | nil => simp [hl] at h
  | cons a l =>
    rw [hl] at h
    exact ⟨a, by simp [operandPair, hl, h]⟩

theorem destinationRegister_of_pair {i : StaticInstruction} {o : String × String} (h : operandPair i = .ok o) :
    destinationRegister i = canonicalRegister o.2 := by
  unfold destinationRegister
  rw [(operandPair_ok h).2]
  rfl

theorem updateScalarState_ok {i : StaticInstruction} {s s' : ScalarState} (h : updateScalarState i s = .ok s') :
    ∃ e, evaluate i s = .ok e ∧ s' = s.apply e := by
  unfold updateScalarState at h
  cases he : evaluate i s with
  | error e => simp [he, Except.map] at h
  | ok e =>
    simp only [he, Except.map, Except.ok.injEq] at h
    exact ⟨e, rfl, h.symm⟩

section Evaluate

variable {i : StaticInstruction} {s : ScalarState}

theorem evaluate_move (hi : i.mnemonic ∈ ["movl", "movq", "movslq", "movzbl"]) :
    evaluate i s = (do
      let o ← operandPair i
      let v ← scalarOperandValue o.1 s.registers
      .ok { register := writeRegister o.2 (movedValue i.mnemonic v) }) := by
  unfold evaluate
  rw [if_pos hi]

theorem evaluate_sum (hi : i.mnemonic ∈ ["addq", "subq"]) :
    evaluate i s = (do
      let o ← operandPair i
      match canonicalRegister o.2 with
      | none => .ok {}
      | some d => do
        let old ← scalarOperandValue o.2 s.registers
        let source ← scalarOperandValue o.1 s.registers
        let r := if i.mnemonic = "addq" then addFlags old (wrap source) else subFlags old (wrap source)
        .ok { register := some (d, r.1), flags := some r.2 }) := by
  unfold evaluate
  exact (if_neg ((by decide : ∀ m ∈ ["addq", "subq"], m ∉ ["movl", "movq", "movslq", "movzbl"]) _ hi)).trans <|
    if_pos hi

theorem evaluate_logic (hi : i.mnemonic ∈ ["andq", "orq", "xorl", "xorq"]) :
    evaluate i s = (do
      let o ← operandPair i
      match canonicalRegister o.2 with
      | none => .ok {}
      | some _ => do
        let left ← scalarOperandValue o.2 s.registers
        let right ← scalarOperandValue o.1 s.registers
        let result := logicResult i.mnemonic left right
        .ok { register := writeRegister o.2 result, flags := some (flagsOf result false false) }) := by
  unfold evaluate
  exact (if_neg ((by decide : ∀ m ∈ ["andq", "orq", "xorl", "xorq"], m ∉ ["movl", "movq", "movslq", "movzbl"]) _ hi)).trans <|
    (if_neg ((by decide : ∀ m ∈ ["andq", "orq", "xorl", "xorq"], m ∉ ["addq", "subq"]) _ hi)).trans <|
    if_pos hi

theorem evaluate_shift (hi : i.mnemonic ∈ ["salq", "sarq", "shlq", "shrq"]) :
    evaluate i s = (do
      let o ← operandPair i
      match canonicalRegister o.2 with
      | none => .ok {}
      | some d => do
        let count ← scalarOperandValue o.1 s.registers
        let old ← scalarOperandValue o.2 s.registers
        .ok (shiftEffect i.mnemonic d (wrap old) (count % 64).toNat)) := by
  unfold evaluate
  exact (if_neg ((by decide : ∀ m ∈ ["salq", "sarq", "shlq", "shrq"], m ∉ ["movl", "movq", "movslq", "movzbl"]) _ hi)).trans <|
    (if_neg ((by decide : ∀ m ∈ ["salq", "sarq", "shlq", "shrq"], m ∉ ["addq", "subq"]) _ hi)).trans <|
    (if_neg ((by decide : ∀ m ∈ ["salq", "sarq", "shlq", "shrq"], m ∉ ["andq", "orq", "xorl", "xorq"]) _ hi)).trans <|
    if_pos hi

theorem evaluate_step (hi : i.mnemonic ∈ ["decq", "incq"]) :
    evaluate i s = (do
      let o ← operandPair i
      match canonicalRegister o.2 with
      | none => .ok {}
      | some d => do
        let old ← scalarOperandValue o.2 s.registers
        .ok (stepEffect i.mnemonic d (wrap old) s.flags.cf)) := by
  unfold evaluate
  exact (if_neg ((by decide : ∀ m ∈ ["decq", "incq"], m ∉ ["movl", "movq", "movslq", "movzbl"]) _ hi)).trans <|
    (if_neg ((by decide : ∀ m ∈ ["decq", "incq"], m ∉ ["addq", "subq"]) _ hi)).trans <|
    (if_neg ((by decide : ∀ m ∈ ["decq", "incq"], m ∉ ["andq", "orq", "xorl", "xorq"]) _ hi)).trans <|
    (if_neg ((by decide : ∀ m ∈ ["decq", "incq"], m ∉ ["salq", "sarq", "shlq", "shrq"]) _ hi)).trans <|
    if_pos hi

theorem evaluate_negate (hi : i.mnemonic ∈ ["negq", "notq"]) :
    evaluate i s = (do
      let o ← operandPair i
      match canonicalRegister o.2 with
      | none => .ok {}
      | some d => do
        let old ← scalarOperandValue o.2 s.registers
        .ok (negateEffect i.mnemonic d (wrap old))) := by
  unfold evaluate
  exact (if_neg ((by decide : ∀ m ∈ ["negq", "notq"], m ∉ ["movl", "movq", "movslq", "movzbl"]) _ hi)).trans <|
    (if_neg ((by decide : ∀ m ∈ ["negq", "notq"], m ∉ ["addq", "subq"]) _ hi)).trans <|
    (if_neg ((by decide : ∀ m ∈ ["negq", "notq"], m ∉ ["andq", "orq", "xorl", "xorq"]) _ hi)).trans <|
    (if_neg ((by decide : ∀ m ∈ ["negq", "notq"], m ∉ ["salq", "sarq", "shlq", "shrq"]) _ hi)).trans <|
    (if_neg ((by decide : ∀ m ∈ ["negq", "notq"], m ∉ ["decq", "incq"]) _ hi)).trans <|
    if_pos hi

theorem evaluate_address (hi : i.mnemonic = "leaq") :
    evaluate i s = (do
      let o ← operandPair i
      let a ← evaluateMemory o.1 s.registers s.constants
      .ok { register := (canonicalRegister o.2).map fun d => (d, a.2.1), constants := some a.1 }) := by
  simp [evaluate, hi]

theorem evaluate_test (hi : i.mnemonic = "testq") :
    evaluate i s = (do
      let o ← operandPair i
      let left ← scalarOperandValue o.2 s.registers
      let right ← scalarOperandValue o.1 s.registers
      .ok { flags := some (flagsOf (Int.land left right) false false) }) := by
  simp [evaluate, hi]

theorem evaluate_compare (hi : i.mnemonic = "cmpq") :
    evaluate i s = (do
      let o ← operandPair i
      let source ← scalarOperandValue o.1 s.registers
      let old ← scalarOperandValue o.2 s.registers
      .ok { flags := some (subFlags (wrap old) (wrap source)).2 }) := by
  simp [evaluate, hi]

/-- The instructions that are evaluated. -/
def evaluated : List String :=
  ["movl", "movq", "movslq", "movzbl", "addq", "subq", "andq", "orq", "xorl", "xorq", "salq", "sarq", "shlq", "shrq",
    "decq", "incq", "negq", "notq", "leaq", "testq", "cmpq"]

theorem evaluate_other (hi : i.mnemonic ∉ evaluated) : evaluate i s = .ok {} := by
  simp only [evaluated, List.mem_cons, List.not_mem_nil, or_false, not_or] at hi
  simp [evaluate, hi]

/-- The instructions by how they are evaluated. -/
theorem mnemonic_cases (m : String) :
    m ∈ ["movl", "movq", "movslq", "movzbl"] ∨ m ∈ ["addq", "subq"] ∨ m ∈ ["andq", "orq", "xorl", "xorq"] ∨
      m ∈ ["salq", "sarq", "shlq", "shrq"] ∨ m ∈ ["decq", "incq"] ∨ m ∈ ["negq", "notq"] ∨ m = "leaq" ∨
      m = "testq" ∨ m = "cmpq" ∨ m ∉ evaluated := by
  by_cases h : m ∈ evaluated
  · simp only [evaluated, List.mem_cons, List.not_mem_nil, or_false] at h ⊢
    tauto
  · simp [h]

/-- The effect of an instruction whose last operand is a register, or none. -/
theorem effect_of_match {f : String × String → String → Except X86Error Effect} {e : Effect}
    {w : String × ℤ}
    (h : (operandPair i >>= fun o => match canonicalRegister o.2 with
      | none => Except.ok ({} : Effect)
      | some d => f o d) = .ok e) (hw : e.register = some w) :
    ∃ o d, operandPair i = .ok o ∧ canonicalRegister o.2 = some d ∧ f o d = .ok e := by
  obtain ⟨o, ho, h⟩ := ok_bind.mp h
  cases hd : canonicalRegister o.2 with
  | none =>
    rw [hd] at h
    cases h
    cases hw
  | some d =>
    rw [hd] at h
    exact ⟨o, d, ho, hd, h⟩

end Evaluate

/-! ### Flags -/

/-- The flags of a result, with the carry and the overflow. -/
def wordFlags {w : ℕ} (v : BitVec w) (cf of : Bool) : Flags where
  zf := v = 0
  cf := cf
  sf := v.msb
  of := of

theorem wrap_word (x : ℤ) : wrap x = ((BitVec.ofInt 64 x).toNat : ℤ) := (toNat_ofInt x).symm

/-- A word is what is left of its own value. -/
@[simp] theorem wrap_toNat (a : BitVec 64) : wrap (a.toNat : ℤ) = a.toNat := by
  rw [wrap_word, ofInt_toNat]

theorem testBit_getLsbD (a : BitVec 64) (k : ℕ) : ((a.toNat : ℕ) : ℤ).testBit k = a.getLsbD k := rfl

theorem testBit_toNat (a : BitVec 64) : ((a.toNat : ℕ) : ℤ).testBit 63 = a.msb := by
  rw [testBit_getLsbD, BitVec.msb_eq_getLsbD_last]

theorem flagsOf_word (r : ℤ) (cf of : Bool) : flagsOf r cf of = wordFlags (BitVec.ofInt 64 r) cf of := by
  unfold flagsOf wordFlags
  congr 1
  · exact decide_eq_decide.mpr (emod_eq_zero_iff r)
  · rw [wrap_word, testBit_toNat]

/-- The flags of a difference of two words. -/
theorem subFlags_word (a b : BitVec 64) :
    subFlags a.toNat b.toNat =
      ((((a - b).toNat : ℕ) : ℤ), wordFlags (a - b) (decide (a.toNat < b.toNat)) (a.ssubOverflow b)) := by
  have hresult : wrap ((a.toNat : ℤ) - b.toNat) = ((a - b).toNat : ℤ) := by
    rw [wrap_word, ofInt_sub, ofInt_toNat, ofInt_toNat]
  have hoverflow : (Int.land (Int.xor a.toNat b.toNat) (Int.xor a.toNat (a - b).toNat)).testBit 63 =
      a.ssubOverflow b := by
    rw [BitVec.ssubOverflow_eq, Int.testBit_land, Int.testBit_lxor, Int.testBit_lxor, testBit_toNat, testBit_toNat,
      testBit_toNat]
    cases a.msb <;> cases b.msb <;> cases (a - b).msb <;> rfl
  unfold subFlags
  rw [hresult]
  dsimp only
  rw [hoverflow, flagsOf_word, ofInt_toNat]
  congr 2
  simp

/-- The flags of a sum of two words. -/
theorem addFlags_word (a b : BitVec 64) :
    addFlags a.toNat b.toNat =
      ((((a + b).toNat : ℕ) : ℤ), wordFlags (a + b) (a.uaddOverflow b) (a.saddOverflow b)) := by
  have hresult : wrap ((a.toNat : ℤ) + b.toNat) = ((a + b).toNat : ℤ) := by
    rw [wrap_word, BitVec.ofInt_add, ofInt_toNat, ofInt_toNat]
  have hoverflow : (Int.land (Int.lnot (Int.xor a.toNat b.toNat)) (Int.xor a.toNat (a + b).toNat)).testBit 63 =
      a.saddOverflow b := by
    rw [BitVec.saddOverflow_eq, Int.testBit_land, Int.testBit_lnot, Int.testBit_lxor, Int.testBit_lxor,
      testBit_toNat, testBit_toNat, testBit_toNat]
    cases a.msb <;> cases b.msb <;> cases (a + b).msb <;> rfl
  unfold addFlags
  rw [hresult]
  dsimp only
  rw [hoverflow, flagsOf_word, ofInt_toNat]
  congr 2
  unfold BitVec.uaddOverflow
  refine decide_eq_decide.mpr ⟨fun h => ?_, fun h => ?_⟩ <;> omega

/-! ### The one-operand instructions -/

variable (destination : String) (a : BitVec 64)

theorem stepEffect_incq (cf : Bool) :
    stepEffect "incq" destination a.toNat cf =
      { register := some (destination, (a + 1).toNat)
        flags := some (wordFlags (a + 1) cf (decide (a = BitVec.intMax 64))) } := by
  have hresult : wrap ((a.toNat : ℤ) + 1) = ((a + 1).toNat : ℤ) := by
    rw [wrap_word, BitVec.ofInt_add, ofInt_toNat]
    rfl
  have hmax : (a.toNat : ℤ) = 2 ^ 63 - 1 ↔ a = BitVec.intMax 64 := by
    rw [← BitVec.toNat_inj, BitVec.toNat_intMax]
    omega
  simp only [stepEffect, if_true, hresult, hmax, flagsOf_word, ofInt_toNat]

theorem stepEffect_decq (cf : Bool) :
    stepEffect "decq" destination a.toNat cf =
      { register := some (destination, (a - 1).toNat)
        flags := some (wordFlags (a - 1) cf (decide (a = BitVec.intMin 64))) } := by
  have hresult : wrap ((a.toNat : ℤ) + -1) = ((a - 1).toNat : ℤ) := by
    rw [wrap_word, BitVec.ofInt_add, ofInt_toNat, BitVec.sub_eq_add_neg]
    rfl
  have hmin : (a.toNat : ℤ) = 2 ^ 63 ↔ a = BitVec.intMin 64 := by
    rw [← BitVec.toNat_inj, BitVec.toNat_intMin]
    omega
  simp only [stepEffect, String.reduceEq, if_false, hresult, hmin, flagsOf_word, ofInt_toNat]

theorem negateEffect_negq :
    negateEffect "negq" destination a.toNat =
      { register := some (destination, (-a).toNat)
        flags := some (wordFlags (-a) (decide (a ≠ 0)) (decide (a = BitVec.intMin 64))) } := by
  have hresult : wrap (-(a.toNat : ℤ)) = ((-a).toNat : ℤ) := by
    rw [wrap_word, BitVec.ofInt_neg, ofInt_toNat]
  have hmin : (a.toNat : ℤ) = 2 ^ 63 ↔ a = BitVec.intMin 64 := by
    rw [← BitVec.toNat_inj, BitVec.toNat_intMin]
    omega
  have hzero : (a.toNat : ℤ) ≠ 0 ↔ a ≠ 0 := by
    rw [ne_eq, ne_eq, ← BitVec.toNat_inj, show BitVec.toNat (0 : BitVec 64) = 0 from rfl]
    omega
  simp only [negateEffect, if_true, hresult, hmin, hzero, flagsOf_word, ofInt_toNat]

/-! ### Shifts -/

/-- The word that a shift leaves. -/
def shifted (mnemonic : String) (a : BitVec 64) (count : ℕ) : BitVec 64 :=
  if mnemonic = "salq" ∨ mnemonic = "shlq" then a <<< count
  else if mnemonic = "shrq" then a >>> count
  else a.sshiftRight count

/-- The last bit that a shift moves out. -/
def shiftedOut (mnemonic : String) (a : BitVec 64) (count : ℕ) : Bool :=
  if mnemonic = "salq" ∨ mnemonic = "shlq" then a.getLsbD (64 - count) else a.getLsbD (count - 1)

theorem signed_toInt (a : BitVec 64) :
    (if ((a.toNat : ℕ) : ℤ).testBit 63 then (a.toNat : ℤ) - 2 ^ 64 else (a.toNat : ℤ)) = a.toInt := by
  rw [testBit_toNat, BitVec.msb_eq_decide, BitVec.toInt_eq_toNat_cond]
  simp only [decide_eq_true_iff]
  split <;> split <;> omega

theorem shiftResult_word (mnemonic : String) (count : ℕ) :
    shiftResult mnemonic a.toNat count = (((shifted mnemonic a count).toNat : ℤ), shiftedOut mnemonic a count) := by
  unfold shiftResult shifted shiftedOut
  by_cases hleft : mnemonic = "salq" ∨ mnemonic = "shlq"
  · simp only [hleft, if_true]
    rw [testBit_getLsbD, wrap, BitVec.toNat_shiftLeft, Nat.shiftLeft_eq]
    push_cast
    rfl
  simp only [hleft, if_false]
  by_cases hright : mnemonic = "shrq"
  · simp only [hright, if_true]
    rw [testBit_getLsbD, BitVec.toNat_ushiftRight, Nat.shiftRight_eq_div_pow]
    push_cast
    rfl
  · simp only [hright, if_false]
    rw [signed_toInt, testBit_getLsbD, wrap_word, BitVec.sshiftRight, Int.shiftRight_eq_div_pow]
    push_cast
    rfl

/-- The effect of a shift by a count that is not zero. -/
theorem shiftEffect_word {mnemonic : String} {count : ℕ} (hcount : count ≠ 0) :
    shiftEffect mnemonic destination a.toNat count =
      { register := some (destination, (shifted mnemonic a count).toNat)
        flags := some (wordFlags (shifted mnemonic a count) (shiftedOut mnemonic a count) false) } := by
  simp only [shiftEffect, hcount, if_false, shiftResult_word, flagsOf_word, ofInt_toNat]

/-! ### Instructions of given operands -/

/-- The last operand of an instruction is a register that holds the word `a`; its first, where it is
read, has the value `x`. -/
structure Given (i : StaticInstruction) (s : ScalarState) (source destination register : String) (a : BitVec 64)
    (x : ℤ) : Prop where
  pair : operandPair i = .ok (source, destination)
  writes : canonicalRegister destination = some register
  left : scalarOperandValue destination s.registers = .ok a.toNat
  right : i.mnemonic ∈ ["cmpq", "subq", "testq", "addq"] → scalarOperandValue source s.registers = .ok x

namespace Given

variable {i : StaticInstruction} {s : ScalarState} {source destination register : String} {a : BitVec 64} {x : ℤ}
  (h : Given i s source destination register a x)
include h

theorem evaluate_cmpq (hi : i.mnemonic = "cmpq") :
    evaluate i s = .ok {
      flags := some (wordFlags (a - BitVec.ofInt 64 x) (decide (a.toNat < (BitVec.ofInt 64 x).toNat))
        (a.ssubOverflow (BitVec.ofInt 64 x))) } := by
  have hword := wrap_word x
  generalize BitVec.ofInt 64 x = b at hword ⊢
  simp [evaluate, hi, h.pair, h.left, h.right (by simp [hi]), ok_bind, hword, subFlags_word]

theorem evaluate_subq (hi : i.mnemonic = "subq") :
    evaluate i s = .ok {
      register := some (register, (a - BitVec.ofInt 64 x).toNat)
      flags := some (wordFlags (a - BitVec.ofInt 64 x) (decide (a.toNat < (BitVec.ofInt 64 x).toNat))
        (a.ssubOverflow (BitVec.ofInt 64 x))) } := by
  have hword := wrap_word x
  generalize BitVec.ofInt 64 x = b at hword ⊢
  simp [evaluate, hi, h.pair, h.left, h.writes, h.right (by simp [hi]), ok_bind, hword, subFlags_word]

theorem evaluate_addq (hi : i.mnemonic = "addq") :
    evaluate i s = .ok {
      register := some (register, (a + BitVec.ofInt 64 x).toNat)
      flags := some (wordFlags (a + BitVec.ofInt 64 x) (a.uaddOverflow (BitVec.ofInt 64 x))
        (a.saddOverflow (BitVec.ofInt 64 x))) } := by
  have hword := wrap_word x
  generalize BitVec.ofInt 64 x = b at hword ⊢
  simp [evaluate, hi, h.pair, h.left, h.writes, h.right (by simp [hi]), ok_bind, hword, addFlags_word]

theorem evaluate_testq (hi : i.mnemonic = "testq") :
    evaluate i s = .ok { flags := some (wordFlags (a &&& BitVec.ofInt 64 x) false false) } := by
  simp [evaluate, hi, h.pair, h.left, h.right (by simp [hi]), ok_bind, flagsOf_word, ofInt_land]

theorem evaluate_incq (hi : i.mnemonic = "incq") :
    evaluate i s = .ok {
      register := some (register, (a + 1).toNat)
      flags := some (wordFlags (a + 1) s.flags.cf (decide (a = BitVec.intMax 64))) } := by
  simp [evaluate, hi, h.pair, h.left, h.writes, ok_bind, stepEffect_incq]

theorem evaluate_decq (hi : i.mnemonic = "decq") :
    evaluate i s = .ok {
      register := some (register, (a - 1).toNat)
      flags := some (wordFlags (a - 1) s.flags.cf (decide (a = BitVec.intMin 64))) } := by
  simp [evaluate, hi, h.pair, h.left, h.writes, ok_bind, stepEffect_decq]

theorem evaluate_negq (hi : i.mnemonic = "negq") :
    evaluate i s = .ok {
      register := some (register, (-a).toNat)
      flags := some (wordFlags (-a) (decide (a ≠ 0)) (decide (a = BitVec.intMin 64))) } := by
  simp [evaluate, hi, h.pair, h.left, h.writes, ok_bind, negateEffect_negq]

end Given

end X86
end VectorSim
