/-
# Compare and branch

The flags of a comparison and the conditional jumps that read them, together:
a jump after `cmpq` or `subq` is taken iff its relation holds between the two
operands as signed or unsigned 64-bit words, and after the other arithmetic
instructions iff it holds of what they compare (`compared`, `sumRelation`).
`incq` and `decq` leave the carry as it was, so that the unsigned conditions say
nothing about them.
-/
import VectorSim.Frontend.X86Words

namespace VectorSim
namespace X86

open Checked Words

/-! ### Relations -/

/-- The jumps that read the carry. -/
def carryJumps : List String := ["jb", "jc", "jnae", "jae", "jnb", "jnc", "jbe", "jna", "ja", "jnbe"]

/-- The relation between two words that a jump asks for. -/
def relation (j : String) (a b : BitVec 64) : Prop :=
  if j ∈ ["je", "jz"] then a = b
  else if j ∈ ["jne", "jnz"] then a ≠ b
  else if j ∈ ["jb", "jc", "jnae"] then a.toNat < b.toNat
  else if j ∈ ["jae", "jnb", "jnc"] then b.toNat ≤ a.toNat
  else if j ∈ ["jbe", "jna"] then a.toNat ≤ b.toNat
  else if j ∈ ["ja", "jnbe"] then b.toNat < a.toNat
  else if j ∈ ["jl", "jnge"] then a.toInt < b.toInt
  else if j ∈ ["jge", "jnl"] then b.toInt ≤ a.toInt
  else if j ∈ ["jle", "jng"] then a.toInt ≤ b.toInt
  else if j ∈ ["jg", "jnle"] then b.toInt < a.toInt
  else if j = "jo" then a.toInt - b.toInt < -2 ^ 63 ∨ 2 ^ 63 ≤ a.toInt - b.toInt
  else if j = "jno" then -2 ^ 63 ≤ a.toInt - b.toInt ∧ a.toInt - b.toInt < 2 ^ 63
  else if j = "js" then (a - b).toInt < 0
  else 0 ≤ (a - b).toInt

instance (j : String) (a b : BitVec 64) : Decidable (relation j a b) := by
  unfold relation; infer_instance

/-- What a jump asks of the sum of two words. -/
def sumRelation (j : String) (a b : BitVec 64) : Prop :=
  if j ∈ ["je", "jz"] then a + b = 0
  else if j ∈ ["jne", "jnz"] then a + b ≠ 0
  else if j ∈ ["jb", "jc", "jnae"] then 2 ^ 64 ≤ a.toNat + b.toNat
  else if j ∈ ["jae", "jnb", "jnc"] then a.toNat + b.toNat < 2 ^ 64
  else if j ∈ ["jbe", "jna"] then 2 ^ 64 ≤ a.toNat + b.toNat ∨ a + b = 0
  else if j ∈ ["ja", "jnbe"] then a.toNat + b.toNat < 2 ^ 64 ∧ a + b ≠ 0
  else if j ∈ ["jl", "jnge"] then a.toInt + b.toInt < 0
  else if j ∈ ["jge", "jnl"] then 0 ≤ a.toInt + b.toInt
  else if j ∈ ["jle", "jng"] then a.toInt + b.toInt ≤ 0
  else if j ∈ ["jg", "jnle"] then 0 < a.toInt + b.toInt
  else if j = "jo" then a.toInt + b.toInt < -2 ^ 63 ∨ 2 ^ 63 ≤ a.toInt + b.toInt
  else if j = "jno" then -2 ^ 63 ≤ a.toInt + b.toInt ∧ a.toInt + b.toInt < 2 ^ 63
  else if j = "js" then (a + b).toInt < 0
  else 0 ≤ (a + b).toInt

instance (j : String) (a b : BitVec 64) : Decidable (sumRelation j a b) := by
  unfold sumRelation; infer_instance

/-- What an instruction compares, of its last operand and its first. -/
def compared (mnemonic : String) (a b : BitVec 64) : BitVec 64 × BitVec 64 :=
  if mnemonic = "testq" then (a &&& b, 0)
  else if mnemonic = "negq" then (0, a)
  else if mnemonic = "incq" then (a, -1)
  else if mnemonic = "decq" then (a, 1)
  else (a, b)

/-- The condition of a jump after an instruction. -/
def condition (mnemonic j : String) (a b : BitVec 64) : Prop :=
  if mnemonic = "addq" then sumRelation j a b else relation j (compared mnemonic a b).1 (compared mnemonic a b).2

instance (mnemonic j : String) (a b : BitVec 64) : Decidable (condition mnemonic j a b) := by
  unfold condition; infer_instance

/-! ### Flags of a comparison -/

/-- The flags, but for the carry, are those of the difference. -/
structure Compares (f : Flags) (a b : BitVec 64) : Prop where
  zf : f.zf = decide (a - b = 0)
  sf : f.sf = (a - b).msb
  of : f.of = a.ssubOverflow b

theorem wordFlags_compares {a b : BitVec 64} {cf : Bool} : Compares (wordFlags (a - b) cf (a.ssubOverflow b)) a b :=
  ⟨rfl, rfl, rfl⟩

namespace Compares

variable {f : Flags} {a b : BitVec 64} (h : Compares f a b)
include h

theorem equal : f.zf = true ↔ a = b := by
  rw [h.zf, decide_eq_true_iff]
  rw [← BitVec.toNat_inj, ← BitVec.toNat_inj, BitVec.toNat_sub, show BitVec.toNat (0 : BitVec 64) = 0 from rfl]
  omega

theorem less : (f.sf != f.of) = true ↔ a.toInt < b.toInt := by
  rw [h.sf, h.of, ← slt_eq_sign_overflow, decide_eq_true_iff]

theorem notLess : (f.sf == f.of) = true ↔ b.toInt ≤ a.toInt := by
  rw [← not_lt, ← h.less, bne, Bool.not_eq_true', Bool.not_eq_false]

theorem overflow : f.of = true ↔ a.toInt - b.toInt < -2 ^ 63 ∨ 2 ^ 63 ≤ a.toInt - b.toInt := by
  rw [h.of, BitVec.ssubOverflow, Bool.or_eq_true, decide_eq_true_iff, decide_eq_true_iff]
  exact or_comm

theorem sign : f.sf = true ↔ (a - b).toInt < 0 := by
  rw [h.sf, BitVec.msb_eq_toInt, decide_eq_true_iff]

/-- A jump that does not read the carry is taken iff its relation holds. -/
theorem branch {j : String} (hj : j ∈ conditionalBranches) (hc : j ∉ carryJumps) :
    branchTaken j f = .ok (decide (relation j a b)) := by
  have heq : a = b ↔ a.toInt = b.toInt := BitVec.toInt_inj.symm
  simp only [conditionalBranches, List.mem_cons, List.not_mem_nil, or_false] at hj
  rcases hj with rfl | rfl | rfl | rfl | rfl | rfl | rfl | rfl | rfl | rfl | rfl | rfl | rfl | rfl | rfl | rfl |
    rfl | rfl | rfl | rfl | rfl | rfl | rfl | rfl | rfl | rfl
  all_goals first
    | exact absurd (by decide) hc
    | skip
  all_goals
    simp only [branchTaken, relation, unconditionalBranches, List.mem_cons, List.not_mem_nil, or_false,
      String.reduceEq, or_self, or_true, if_true, if_false]
    refine congrArg Except.ok (Bool.eq_iff_iff.mpr ?_)
    simp only [decide_eq_true_iff, Bool.or_eq_true, Bool.and_eq_true, Bool.not_eq_true', ← Bool.not_eq_true,
      h.equal, h.less, h.notLess, h.overflow, h.sign]
  all_goals try rw [heq]
  all_goals omega

/-- With the carry of the unsigned order every jump is taken iff its relation holds. -/
theorem branch_carry (hcf : f.cf = decide (a.toNat < b.toNat)) {j : String} (hj : j ∈ conditionalBranches) :
    branchTaken j f = .ok (decide (relation j a b)) := by
  by_cases hc : j ∈ carryJumps
  · have heq : a = b ↔ a.toNat = b.toNat := BitVec.toNat_inj.symm
    simp only [carryJumps, List.mem_cons, List.not_mem_nil, or_false] at hc
    rcases hc with rfl | rfl | rfl | rfl | rfl | rfl | rfl | rfl | rfl | rfl
    all_goals
      simp only [branchTaken, relation, unconditionalBranches, List.mem_cons, List.not_mem_nil, or_false,
        String.reduceEq, or_self, or_true, if_true, if_false]
      refine congrArg Except.ok (Bool.eq_iff_iff.mpr ?_)
      simp only [decide_eq_true_iff, Bool.or_eq_true, Bool.and_eq_true, Bool.not_eq_true', ← Bool.not_eq_true,
        h.equal, hcf]
    all_goals try rw [heq]
    all_goals omega
  · exact h.branch hj hc

end Compares

/-- A jump after a sum. -/
theorem branch_sum {a b : BitVec 64} {j : String} (hj : j ∈ conditionalBranches) :
    branchTaken j (wordFlags (a + b) (a.uaddOverflow b) (a.saddOverflow b)) = .ok (decide (sumRelation j a b)) := by
  have hcarry : a.uaddOverflow b = true ↔ 2 ^ 64 ≤ a.toNat + b.toNat := decide_eq_true_iff
  have hless : ((a + b).msb != a.saddOverflow b) = true ↔ a.toInt + b.toInt < 0 := by
    rw [← sum_neg_eq_sign_overflow, decide_eq_true_iff]
  have hnotLess : ((a + b).msb == a.saddOverflow b) = true ↔ 0 ≤ a.toInt + b.toInt := by
    rw [← not_lt, ← hless, bne, Bool.not_eq_true', Bool.not_eq_false]
  have hoverflow : a.saddOverflow b = true ↔ a.toInt + b.toInt < -2 ^ 63 ∨ 2 ^ 63 ≤ a.toInt + b.toInt := by
    rw [BitVec.saddOverflow, Bool.or_eq_true, decide_eq_true_iff, decide_eq_true_iff]
    exact or_comm
  have hsign : (a + b).msb = true ↔ (a + b).toInt < 0 := by rw [BitVec.msb_eq_toInt, decide_eq_true_iff]
  have hzero : a + b = 0 ↔ (a.toNat + b.toNat) % 2 ^ 64 = 0 := by
    rw [← BitVec.toNat_inj, BitVec.toNat_add, show BitVec.toNat (0 : BitVec 64) = 0 from rfl]
  -- the signed values are the unsigned ones, less `2 ^ 64` where the sign is set
  have ha := BitVec.toInt_eq_toNat_cond a
  have hb := BitVec.toInt_eq_toNat_cond b
  simp only [conditionalBranches, List.mem_cons, List.not_mem_nil, or_false] at hj
  rcases hj with rfl | rfl | rfl | rfl | rfl | rfl | rfl | rfl | rfl | rfl | rfl | rfl | rfl | rfl | rfl | rfl |
    rfl | rfl | rfl | rfl | rfl | rfl | rfl | rfl | rfl | rfl
  all_goals
    simp only [branchTaken, sumRelation, wordFlags, unconditionalBranches, List.mem_cons, List.not_mem_nil, or_false,
      String.reduceEq, or_self, or_true, if_true, if_false]
  all_goals
    refine congrArg Except.ok (Bool.eq_iff_iff.mpr ?_)
    simp only [decide_eq_true_iff, Bool.or_eq_true, Bool.and_eq_true, Bool.not_eq_true', ← Bool.not_eq_true,
      hcarry, hless, hnotLess, hoverflow, hsign, hzero, ne_eq]
  all_goals omega

/-! ### Flags of the instructions -/

theorem compares_zero (a : BitVec 64) (cf : Bool) : Compares (wordFlags a cf false) a 0 where
  zf := by simp [wordFlags]
  sf := by simp [wordFlags]
  of := by
    have h := BitVec.ssubOverflow_eq a 0
    simpa [wordFlags] using h

/-- A sum or difference overflows at the largest or the smallest word only, when what is added or
subtracted is one. -/
theorem compares_incq (a : BitVec 64) (cf : Bool) :
    Compares (wordFlags (a + 1) cf (decide (a = BitVec.intMax 64))) a (-1) := by
  have hresult : a - (-1) = a + 1 := by rw [BitVec.sub_eq_add_neg, BitVec.neg_neg]
  have hoverflow : decide (a = BitVec.intMax 64) = a.ssubOverflow (-1) := by
    have hlt := BitVec.toInt_lt (x := a)
    have hle := BitVec.le_toInt (x := a)
    rw [Bool.eq_iff_iff, decide_eq_true_iff, ← BitVec.toInt_inj, BitVec.toInt_intMax, BitVec.ssubOverflow,
      Bool.or_eq_true, decide_eq_true_iff, decide_eq_true_iff, show (-1 : BitVec 64).toInt = -1 from rfl]
    omega
  rw [← hresult, hoverflow]
  exact wordFlags_compares

theorem compares_decq (a : BitVec 64) (cf : Bool) :
    Compares (wordFlags (a - 1) cf (decide (a = BitVec.intMin 64))) a 1 := by
  have hoverflow : decide (a = BitVec.intMin 64) = a.ssubOverflow 1 := by
    have hlt := BitVec.toInt_lt (x := a)
    have hle := BitVec.le_toInt (x := a)
    rw [Bool.eq_iff_iff, decide_eq_true_iff, ← BitVec.toInt_inj, BitVec.toInt_intMin, BitVec.ssubOverflow,
      Bool.or_eq_true, decide_eq_true_iff, decide_eq_true_iff, show (1 : BitVec 64).toInt = 1 from rfl]
    omega
  rw [hoverflow]
  exact wordFlags_compares

theorem compares_negq (a : BitVec 64) (cf : Bool) :
    Compares (wordFlags (-a) cf (decide (a = BitVec.intMin 64))) 0 a := by
  have hresult : 0 - a = -a := BitVec.zero_sub a
  have hoverflow : decide (a = BitVec.intMin 64) = (0 : BitVec 64).ssubOverflow a := by
    have hlt := BitVec.toInt_lt (x := a)
    have hle := BitVec.le_toInt (x := a)
    rw [Bool.eq_iff_iff, decide_eq_true_iff, ← BitVec.toInt_inj, BitVec.toInt_intMin, BitVec.ssubOverflow,
      Bool.or_eq_true, decide_eq_true_iff, decide_eq_true_iff, show (0 : BitVec 64).toInt = 0 from rfl]
    omega
  rw [← hresult, hoverflow]
  exact wordFlags_compares

/-- The instructions that compare. -/
def comparing : List String := ["cmpq", "subq", "testq", "addq", "incq", "decq", "negq"]

/-- **The compare-and-branch law**: after an instruction that compares, every conditional jump whose
flags it defines is taken iff its condition holds of the operands, as signed or unsigned words. -/
theorem branch_law {i : StaticInstruction} {s : ScalarState} {source destination register : String} {a : BitVec 64}
    {x : ℤ} (h : Given i s source destination register a x) (hi : i.mnemonic ∈ comparing) :
    ∃ s', updateScalarState i s = .ok s' ∧
      ∀ j ∈ conditionalBranches, (i.mnemonic ∈ ["incq", "decq"] → j ∉ carryJumps) →
        branchTaken j s'.flags = .ok (decide (condition i.mnemonic j a (BitVec.ofInt 64 x))) := by
  simp only [comparing, List.mem_cons, List.not_mem_nil, or_false] at hi
  rcases hi with hi | hi | hi | hi | hi | hi | hi
  · refine ⟨_, by rw [updateScalarState, h.evaluate_cmpq hi]; rfl, fun j hj hc => ?_⟩
    rw [hi]
    exact wordFlags_compares.branch_carry rfl hj
  · refine ⟨_, by rw [updateScalarState, h.evaluate_subq hi]; rfl, fun j hj hc => ?_⟩
    rw [hi]
    exact wordFlags_compares.branch_carry rfl hj
  · refine ⟨_, by rw [updateScalarState, h.evaluate_testq hi]; rfl, fun j hj hc => ?_⟩
    rw [hi]
    exact (compares_zero _ false).branch_carry (by simp [wordFlags]) hj
  · refine ⟨_, by rw [updateScalarState, h.evaluate_addq hi]; rfl, fun j hj hc => ?_⟩
    rw [hi]
    exact branch_sum hj
  · refine ⟨_, by rw [updateScalarState, h.evaluate_incq hi]; rfl, fun j hj hc => ?_⟩
    rw [hi]
    exact (compares_incq a _).branch hj (hc (by simp [hi]))
  · refine ⟨_, by rw [updateScalarState, h.evaluate_decq hi]; rfl, fun j hj hc => ?_⟩
    rw [hi]
    exact (compares_decq a _).branch hj (hc (by simp [hi]))
  · refine ⟨_, by rw [updateScalarState, h.evaluate_negq hi]; rfl, fun j hj hc => ?_⟩
    rw [hi]
    have hcarry : decide (a ≠ 0) = decide ((0 : BitVec 64).toNat < a.toNat) := by
      rw [decide_eq_decide, ne_eq, ← BitVec.toNat_inj]
      exact Nat.pos_iff_ne_zero.symm
    exact (compares_negq a _).branch_carry hcarry hj

/-- `cmpq $-1, %rcx` with the largest signed word in `rcx`. -/
theorem branch_law_largest :
    ∃ s', updateScalarState ⟨"cmpq", ["$-1", "%rcx"]⟩
        { registers := fun r => if r = "rcx" then some (2 ^ 63 - 1) else none, flags := {}, constants := [] } =
          .ok s' ∧
      ∀ j ∈ conditionalBranches, ("cmpq" ∈ ["incq", "decq"] → j ∉ carryJumps) →
        branchTaken j s'.flags =
          .ok (decide (condition "cmpq" j (BitVec.intMax 64) (BitVec.ofInt 64 (-1)))) :=
  have h : Given ⟨"cmpq", ["$-1", "%rcx"]⟩
      { registers := fun r => if r = "rcx" then some (2 ^ 63 - 1) else none, flags := {}, constants := [] }
      "$-1" "%rcx" "rcx" (BitVec.intMax 64) (-1) :=
    ⟨rfl, by decide +kernel, by decide +kernel, fun _ => by decide +kernel⟩
  branch_law h (by decide)

end X86
end VectorSim
