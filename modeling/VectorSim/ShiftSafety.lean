/-
# Shifts and exclusive or

What a shift and an exclusive or are to leave in their register and in the
flags (`meaning`: counts are taken modulo 64, a count of zero changes nothing,
the carry is the last bit shifted out, the overflow of a shift is defined by a
count of one, the flags of `xorl` are those of its 32 bits), and when the
evaluator leaves just that (`meets_iff`). It never sets the overflow of a
shift, takes the register itself for the count of a shift of one operand, and
the flags of `xorl` from all 64 bits.
-/
import VectorSim.Frontend.X86Words

namespace VectorSim
namespace X86

open Checked Words

/-! ### What the instructions mean -/

/-- What an instruction is to leave in its register and in the flags, the overflow where it is
defined. -/
structure Meaning where
  value : BitVec 64
  zf : Bool
  cf : Bool
  sf : Bool
  of : Option Bool
  deriving DecidableEq, Repr

/-- The overflow of a shift by one. -/
def shiftedOverflow (mnemonic : String) (a : BitVec 64) : Bool :=
  if mnemonic = "salq" ∨ mnemonic = "shlq" then (a <<< 1).msb != a.msb
  else if mnemonic = "shrq" then a.msb
  else false

def shiftMeaning (mnemonic : String) (a : BitVec 64) (count : ℕ) (f : Flags) : Meaning :=
  if count = 0 then ⟨a, f.zf, f.cf, f.sf, some f.of⟩
  else
    let v := shifted mnemonic a count
    ⟨v, v = 0, shiftedOut mnemonic a count, v.msb, if count = 1 then some (shiftedOverflow mnemonic a) else none⟩

/-- The exclusive or of the low `w` bits, extended by zeros. -/
def xorMeaning (w : ℕ) (a b : BitVec 64) : Meaning :=
  let v := (a ^^^ b).setWidth w
  ⟨v.setWidth 64, v = 0, false, v.msb, some false⟩

/-- A shift by a count, a shift of one operand, the exclusive or with a value. -/
inductive Operation
  | shift (count : ℤ)
  | shiftByOne
  | xor (x : ℤ)

def shifts : List String := ["salq", "shlq", "shrq", "sarq"]

/-- The width of an exclusive or. -/
def xorWidth (mnemonic : String) : ℕ := if mnemonic = "xorl" then 32 else 64

def meaning (mnemonic : String) (a : BitVec 64) (f : Flags) : Operation → Meaning
  | .shift count => shiftMeaning mnemonic a (count % 64).toNat f
  | .shiftByOne => shiftMeaning mnemonic a 1 f
  | .xor x => xorMeaning (xorWidth mnemonic) a (BitVec.ofInt 64 x)

/-- The operand forms of the instructions. -/
inductive Form (i : StaticInstruction) (s : ScalarState) (destination : String) : Operation → Prop
  | counted {source : String} {count : ℤ} (hi : i.mnemonic ∈ shifts) (operands : i.operands = [source, destination])
      (value : scalarOperandValue source s.registers = .ok count) : Form i s destination (.shift count)
  | once (hi : i.mnemonic ∈ shifts) (operands : i.operands = [destination]) : Form i s destination .shiftByOne
  | xor {source : String} {x : ℤ} (hi : i.mnemonic ∈ ["xorl", "xorq"]) (operands : i.operands = [source, destination])
      (width : registerBits destination = xorWidth i.mnemonic)
      (value : scalarOperandValue source s.registers = .ok x) : Form i s destination (.xor x)

/-- The state has in the register and in the flags what an instruction is to leave there. -/
structure Leaves (m : Meaning) (register : String) (s : ScalarState) : Prop where
  value : s.registers register = some (m.value.toNat : ℤ)
  zf : s.flags.zf = m.zf
  cf : s.flags.cf = m.cf
  sf : s.flags.sf = m.sf
  of : ∀ o ∈ m.of, s.flags.of = o

/-- The evaluator does what the instruction means. -/
def Meets (m : Meaning) (i : StaticInstruction) (register : String) (s : ScalarState) : Prop :=
  ∃ s', updateScalarState i s = .ok s' ∧ Leaves m register s'

/-- The operations that the evaluator gets right, of a word and the flags before. -/
def Correct (mnemonic : String) (a : BitVec 64) (f : Flags) : Operation → Prop
  | .shift count => count % 64 = 1 → shiftedOverflow mnemonic a = false
  | .shiftByOne =>
    (a.toNat % 64 = 1 ∧ shiftedOverflow mnemonic a = false) ∨ (mnemonic = "sarq" ∧ a = BitVec.allOnes 64) ∨
      (a = 0 ∧ f = { zf := true })
  | .xor x => mnemonic = "xorl" →
    (a.setWidth 32 = (BitVec.ofInt 64 x).setWidth 32 → a = BitVec.ofInt 64 x) ∧
      (a.msb != (BitVec.ofInt 64 x).msb) = (a.getLsbD 31 != (BitVec.ofInt 64 x).getLsbD 31)

/-! ### Shifts by different counts -/

/-- A word that is the same moved left by `c` as by one has no bits that one leaves in it. -/
theorem getLsbD_of_shiftLeft {a : BitVec 64} {c : ℕ} (hc : 2 ≤ c) (h : a <<< c = a <<< 1) (k : ℕ) (hk : k < 63) :
    a.getLsbD k = false := by
  induction k using Nat.strong_induction_on with
  | _ k ih =>
    -- bit `k` is one of the lower bits, or it was moved in
    have hbit := congrArg (fun v => BitVec.getLsbD v (k + 1)) h
    simp only [BitVec.getLsbD_shiftLeft] at hbit
    by_cases hlow : k + 1 < c
    · simpa [hlow, show k + 1 < 64 by omega] using hbit.symm
    · have hbelow := ih (k + 1 - c) (by omega) (by omega)
      simpa [hlow, show k + 1 < 64 by omega, hbelow] using hbit.symm

theorem zero_of_shiftLeft {a : BitVec 64} {c : ℕ} (hc : 2 ≤ c) (h : a <<< c = a <<< 1) : a.toNat % 64 = 0 := by
  have hlow : a.setWidth 6 = 0 := by
    ext k hk
    simpa using getLsbD_of_shiftLeft hc h k (by omega)
  simpa using congrArg BitVec.toNat hlow

theorem zero_of_shiftRight {a : BitVec 64} {c : ℕ} (hc : 2 ≤ c) (h : a >>> c = a >>> 1) : a.toNat ≤ 1 := by
  have hnat := congrArg BitVec.toNat h
  rw [BitVec.toNat_ushiftRight, BitVec.toNat_ushiftRight, Nat.shiftRight_eq_div_pow, Nat.shiftRight_eq_div_pow] at hnat
  have hfour : 2 ^ 2 ≤ 2 ^ c := Nat.pow_le_pow_right (by omega) hc
  have hle : a.toNat / 2 ^ c ≤ a.toNat / 2 ^ 2 := Nat.div_le_div_left hfour (by omega)
  omega

/-- An integer that more halvings leave alone is zero or minus one. -/
theorem eq_of_halved {y k : ℤ} (hk : 2 ≤ k) (h : y / k = y) : y = 0 ∨ y = -1 := by
  have hdiv := Int.mul_ediv_add_emod y k
  have hnonneg := Int.emod_nonneg y (show k ≠ 0 by omega)
  have hlt := Int.emod_lt_of_pos y (show 0 < k by omega)
  rw [h] at hdiv
  rcases lt_trichotomy y (-1) with hneg | rfl | hpos
  · nlinarith
  · exact Or.inr rfl
  · rcases (show y = 0 ∨ 1 ≤ y by omega) with rfl | hone
    · exact Or.inl rfl
    · nlinarith

theorem of_sshiftRight {a : BitVec 64} {c : ℕ} (hc : 2 ≤ c) (h : a.sshiftRight c = a.sshiftRight 1) :
    a.toInt / 2 = 0 ∨ a.toInt / 2 = -1 := by
  have hint := congrArg BitVec.toInt h
  rw [BitVec.toInt_sshiftRight, BitVec.toInt_sshiftRight, Int.shiftRight_eq_div_pow, Int.shiftRight_eq_div_pow] at hint
  obtain ⟨d, rfl⟩ : ∃ d, c = d + 2 := ⟨c - 2, by omega⟩
  have htwo : (2 : ℤ) ≤ 2 ^ (d + 1) := by
    have hone : (1 : ℤ) ≤ 2 ^ d := one_le_pow₀ (by norm_num)
    rw [pow_succ]
    omega
  apply eq_of_halved htwo
  rw [Int.ediv_ediv_of_nonneg (by omega), ← pow_succ']
  exact hint

/-- A word that its own count, two at least, moves as one does: all its bits are set. -/
theorem shifted_eq_one {mnemonic : String} {a : BitVec 64} (hcount : 2 ≤ a.toNat % 64)
    (h : shifted mnemonic a (a.toNat % 64) = shifted mnemonic a 1)
    (hout : shiftedOut mnemonic a (a.toNat % 64) = shiftedOut mnemonic a 1) :
    mnemonic ≠ "salq" ∧ mnemonic ≠ "shlq" ∧ mnemonic ≠ "shrq" ∧ a = BitVec.allOnes 64 := by
  unfold shifted at h
  unfold shiftedOut at hout
  by_cases hleft : mnemonic = "salq" ∨ mnemonic = "shlq"
  · simp only [hleft, if_true] at h
    have hzero := zero_of_shiftLeft hcount h
    omega
  simp only [hleft, if_false] at h hout
  by_cases hright : mnemonic = "shrq"
  · simp only [hright, if_true] at h
    have hle := zero_of_shiftRight hcount h
    omega
  simp only [hright, if_false] at h
  refine ⟨fun he => hleft (Or.inl he), fun he => hleft (Or.inr he), hright, ?_⟩
  have hcases := of_sshiftRight hcount h
  have hcond := BitVec.toInt_eq_toNat_cond a
  have hlt := a.isLt
  -- minus two would carry a bit out by its own count, and none by one
  have htwo : a ≠ BitVec.ofInt 64 (-2) := by
    rintro rfl
    revert hout
    decide
  rw [ne_eq, ← BitVec.toNat_inj] at htwo
  rw [← BitVec.toNat_inj, BitVec.toNat_allOnes]
  have htwo' : (BitVec.ofInt 64 (-2)).toNat = 2 ^ 64 - 2 := by decide
  omega

/-! ### What the evaluator leaves -/

variable {i : StaticInstruction} {s : ScalarState} {destination register : String} {a : BitVec 64}

theorem evaluate_counted {source : String} {count : ℤ} (hi : i.mnemonic ∈ shifts)
    (operands : i.operands = [source, destination]) (hregister : canonicalRegister destination = some register)
    (hword : s.registers register = some (a.toNat : ℤ)) (value : scalarOperandValue source s.registers = .ok count) :
    evaluate i s = .ok (shiftEffect i.mnemonic register a.toNat (count % 64).toNat) := by
  have hleft := scalarOperandValue_register hregister hword
  have hpair : operandPair i = .ok (source, destination) := by simp [operandPair, operands]
  simp only [shifts, List.mem_cons, List.not_mem_nil, or_false] at hi
  rcases hi with hi | hi | hi | hi <;> simp [evaluate, hi, hpair, hleft, hregister, value, ok_bind]

theorem evaluate_once (hi : i.mnemonic ∈ shifts) (operands : i.operands = [destination])
    (hregister : canonicalRegister destination = some register)
    (hword : s.registers register = some (a.toNat : ℤ)) :
    evaluate i s = .ok (shiftEffect i.mnemonic register a.toNat (a.toNat % 64)) := by
  have hleft := scalarOperandValue_register hregister hword
  have hpair : operandPair i = .ok (destination, destination) := by simp [operandPair, operands]
  have hcount : ((a.toNat : ℤ) % 64).toNat = a.toNat % 64 := by omega
  simp only [shifts, List.mem_cons, List.not_mem_nil, or_false] at hi
  rcases hi with hi | hi | hi | hi <;> simp [evaluate, hi, hpair, hleft, hregister, hcount, ok_bind]

theorem evaluate_xor {source : String} {x : ℤ} (hi : i.mnemonic ∈ ["xorl", "xorq"])
    (operands : i.operands = [source, destination]) (hregister : canonicalRegister destination = some register)
    (hword : s.registers register = some (a.toNat : ℤ)) (width : registerBits destination = xorWidth i.mnemonic)
    (value : scalarOperandValue source s.registers = .ok x) :
    evaluate i s = .ok {
      register := some (register, Int.xor a.toNat x % 2 ^ xorWidth i.mnemonic)
      flags := some (wordFlags (a ^^^ BitVec.ofInt 64 x) false false) } := by
  have hleft := scalarOperandValue_register hregister hword
  have hpair : operandPair i = .ok (source, destination) := by simp [operandPair, operands]
  have hflags : flagsOf (Int.xor a.toNat x) false false = wordFlags (a ^^^ BitVec.ofInt 64 x) false false := by
    rw [flagsOf_word, ofInt_xor, ofInt_toNat]
  simp only [List.mem_cons, List.not_mem_nil, or_false] at hi
  rcases hi with hi | hi <;>
    simp [evaluate, hi, hpair, hleft, hregister, value, ok_bind, logicResult, hflags, writeRegister, width]

/-- No shift is made by a count of zero. -/
theorem leaves_unchanged (hword : s.registers register = some (a.toNat : ℤ)) (m : Meaning) (mnemonic : String) :
    Leaves m register (s.apply (shiftEffect mnemonic register a.toNat 0)) ↔
      m.value = a ∧ m.zf = s.flags.zf ∧ m.cf = s.flags.cf ∧ m.sf = s.flags.sf ∧ ∀ o ∈ m.of, s.flags.of = o := by
  have hsame : s.apply (shiftEffect mnemonic register a.toNat 0) = s := rfl
  rw [hsame]
  constructor
  · rintro ⟨hvalue, hzf, hcf, hsf, hof⟩
    rw [hword] at hvalue
    refine ⟨BitVec.eq_of_toNat_eq ?_, hzf.symm, hcf.symm, hsf.symm, hof⟩
    exact_mod_cast (Option.some.inj hvalue).symm
  · rintro ⟨hvalue, hzf, hcf, hsf, hof⟩
    exact ⟨by rw [hvalue, hword], hzf.symm, hcf.symm, hsf.symm, hof⟩

theorem leaves_shifted {count : ℕ} (hcount : count ≠ 0) (m : Meaning) (mnemonic : String) :
    Leaves m register (s.apply (shiftEffect mnemonic register a.toNat count)) ↔
      m.value = shifted mnemonic a count ∧ m.zf = decide (shifted mnemonic a count = 0) ∧
        m.cf = shiftedOut mnemonic a count ∧ m.sf = (shifted mnemonic a count).msb ∧ ∀ o ∈ m.of, false = o := by
  rw [shiftEffect_word register a hcount]
  constructor
  · rintro ⟨hvalue, hzf, hcf, hsf, hof⟩
    simp only [ScalarState.apply, Function.update_self, Option.some.injEq] at hvalue
    refine ⟨BitVec.eq_of_toNat_eq ?_, hzf.symm, hcf.symm, hsf.symm, hof⟩
    exact_mod_cast hvalue.symm
  · rintro ⟨hvalue, hzf, hcf, hsf, hof⟩
    refine ⟨?_, hzf.symm, hcf.symm, hsf.symm, hof⟩
    simp only [ScalarState.apply, Function.update_self, hvalue]

theorem meets_of_evaluate {m : Meaning} {e : Effect} (h : evaluate i s = .ok e) :
    Meets m i register s ↔ Leaves m register (s.apply e) := by
  have hupdate : updateScalarState i s = .ok (s.apply e) := by rw [updateScalarState, h]; rfl
  unfold Meets
  rw [hupdate]
  constructor
  · rintro ⟨s', hs', hleaves⟩
    cases hs'
    exact hleaves
  · exact fun hleaves => ⟨_, rfl, hleaves⟩

/-- A shift by a count leaves what it is to leave, but for the overflow of a shift by one. -/
theorem counted_iff {count : ℕ} (hword : s.registers register = some (a.toNat : ℤ)) (mnemonic : String) :
    Leaves (shiftMeaning mnemonic a count s.flags) register (s.apply (shiftEffect mnemonic register a.toNat count)) ↔
      (count = 1 → shiftedOverflow mnemonic a = false) := by
  by_cases hcount : count = 0
  · subst hcount
    rw [leaves_unchanged hword]
    simp [shiftMeaning]
  · rw [leaves_shifted hcount]
    simp only [shiftMeaning, hcount, if_false, true_and]
    by_cases hone : count = 1
    · simp only [hone, if_true, Option.mem_def, Option.some.injEq, forall_const]
      exact ⟨fun h => (h _ rfl).symm, fun h o ho => by rw [← ho, h]⟩
    · simp [hone]

/-- The word that a shift by one leaves alone. -/
theorem shifted_one_eq_self {mnemonic : String} (hlow : a.toNat % 64 = 0)
    (h : shifted mnemonic a 1 = a) : a = 0 := by
  have hlt := a.isLt
  rw [← BitVec.toNat_inj, show BitVec.toNat (0 : BitVec 64) = 0 from rfl]
  unfold shifted at h
  by_cases hleft : mnemonic = "salq" ∨ mnemonic = "shlq"
  · simp only [hleft, if_true, ← BitVec.toNat_inj, BitVec.toNat_shiftLeft, Nat.shiftLeft_eq] at h
    omega
  simp only [hleft, if_false] at h
  by_cases hright : mnemonic = "shrq"
  · simp only [hright, if_true, ← BitVec.toNat_inj, BitVec.toNat_ushiftRight, Nat.shiftRight_eq_div_pow] at h
    omega
  · have hint : a.toInt / 2 = a.toInt := by
      simp only [hright, if_false, ← BitVec.toInt_inj, BitVec.toInt_sshiftRight, Int.shiftRight_eq_div_pow] at h
      exact_mod_cast h
    have hcond := BitVec.toInt_eq_toNat_cond a
    omega

/-- A shift by one is to leave zero as it is, without carry or overflow. -/
theorem shiftMeaning_zero (mnemonic : String) (f : Flags) :
    shiftMeaning mnemonic 0 1 f = ⟨0, true, false, false, some false⟩ := by
  have hshifted : shifted mnemonic 0 1 = 0 := by simp [shifted]
  have hout : shiftedOut mnemonic 0 1 = false := by simp [shiftedOut]
  have hoverflow : shiftedOverflow mnemonic 0 = false := by simp [shiftedOverflow]
  simp only [shiftMeaning, one_ne_zero, if_false, if_true, hshifted, hout, hoverflow]
  rfl

/-- A shift of all ones by one: the sign stays, and the carry is a one. -/
theorem shiftMeaning_ones (f : Flags) :
    shiftMeaning "sarq" (BitVec.allOnes 64) 1 f = ⟨BitVec.allOnes 64, false, true, true, some false⟩ := by
  rw [shiftMeaning, if_neg one_ne_zero]
  decide

/-- A shift of one operand, by its own count. -/
theorem once_iff {mnemonic : String} (hi : mnemonic ∈ shifts) (hword : s.registers register = some (a.toNat : ℤ)) :
    Leaves (shiftMeaning mnemonic a 1 s.flags) register
        (s.apply (shiftEffect mnemonic register a.toNat (a.toNat % 64))) ↔
      (a.toNat % 64 = 1 ∧ shiftedOverflow mnemonic a = false) ∨ (mnemonic = "sarq" ∧ a = BitVec.allOnes 64) ∨
        (a = 0 ∧ s.flags = { zf := true }) := by
  have hones : (BitVec.allOnes 64).toNat % 64 = 63 := by decide
  have hzero : (0 : BitVec 64).toNat % 64 = 0 := by decide
  rcases (show a.toNat % 64 = 0 ∨ a.toNat % 64 = 1 ∨ 2 ≤ a.toNat % 64 by omega) with hcount | hcount | hcount
  · -- nothing is shifted
    rw [hcount, leaves_unchanged hword]
    constructor
    · rintro ⟨hvalue, hflags⟩
      have ha : a = 0 := shifted_one_eq_self hcount (by simpa [shiftMeaning] using hvalue)
      subst ha
      simp only [shiftMeaning_zero] at hflags
      obtain ⟨hzf, hcf, hsf, hof⟩ := hflags
      refine Or.inr (Or.inr ⟨rfl, ?_⟩)
      rcases hf : s.flags with ⟨zf, cf, sf, of⟩
      rw [hf] at hzf hcf hsf hof
      simp_all
    · rintro (⟨hone, -⟩ | ⟨-, ha⟩ | ⟨ha, hflags⟩)
      · omega
      · rw [ha] at hcount
        omega
      · subst ha
        rw [shiftMeaning_zero, hflags]
        simp
  · -- the count is right
    have ha : a ≠ BitVec.allOnes 64 := by
      rintro rfl
      omega
    have ha0 : a ≠ 0 := by
      rintro rfl
      omega
    rw [hcount, counted_iff hword]
    simp only [ha, ha0, and_false, false_and, or_false, true_and, forall_const]
  · -- the count is its own, and only all ones are the same after as after one
    have ha0 : a ≠ 0 := by
      rintro rfl
      omega
    rw [leaves_shifted (by omega)]
    constructor
    · rintro ⟨hvalue, -, hcf, -, -⟩
      simp only [shiftMeaning, one_ne_zero, if_false] at hvalue hcf
      obtain ⟨hsal, hshl, hshr, ha⟩ := shifted_eq_one hcount hvalue.symm hcf.symm
      simp only [shifts, List.mem_cons, List.not_mem_nil, or_false, hsal, hshl, hshr, false_or] at hi
      exact Or.inr (Or.inl ⟨hi, ha⟩)
    · rintro (⟨hone, -⟩ | ⟨rfl, rfl⟩ | ⟨ha, -⟩)
      · omega
      · rw [shiftMeaning_ones, hones]
        refine ⟨by decide, by decide, by decide, by decide, fun o ho => ?_⟩
        exact Option.some.inj ho
      · exact absurd ha ha0

theorem xorMeaning_value {w : ℕ} (hw : w ≤ 64) (x : ℤ) :
    ((xorMeaning w a (BitVec.ofInt 64 x)).value.toNat : ℤ) = Int.xor a.toNat x % 2 ^ w := by
  have hword : ((a ^^^ BitVec.ofInt 64 x).toNat : ℤ) = Int.xor a.toNat x % 2 ^ 64 := by
    rw [← toNat_ofInt, ofInt_xor, ofInt_toNat]
  have hdvd : (2 : ℤ) ^ w ∣ 2 ^ 64 := pow_dvd_pow 2 hw
  have hsmall : (a ^^^ BitVec.ofInt 64 x).toNat % 2 ^ w < 2 ^ 64 :=
    lt_of_le_of_lt (Nat.mod_le _ _) (BitVec.isLt _)
  simp only [xorMeaning, BitVec.toNat_setWidth]
  rw [Nat.mod_eq_of_lt hsmall, ← Int.emod_emod_of_dvd _ hdvd, ← hword]
  push_cast
  rfl

theorem leaves_xor {w : ℕ} (hw : w ≤ 64) (x : ℤ) :
    Leaves (xorMeaning w a (BitVec.ofInt 64 x)) register
        (s.apply {
          register := some (register, Int.xor a.toNat x % 2 ^ w)
          flags := some (wordFlags (a ^^^ BitVec.ofInt 64 x) false false) }) ↔
      ((a ^^^ BitVec.ofInt 64 x = 0 ↔ (a ^^^ BitVec.ofInt 64 x).setWidth w = 0) ∧
        (a ^^^ BitVec.ofInt 64 x).msb = ((a ^^^ BitVec.ofInt 64 x).setWidth w).msb) := by
  constructor
  · rintro ⟨-, hzf, -, hsf, -⟩
    exact ⟨decide_eq_decide.mp hzf, hsf⟩
  · rintro ⟨hzf, hsf⟩
    refine ⟨?_, decide_eq_decide.mpr hzf, rfl, hsf, fun o ho => Option.some.inj ho⟩
    rw [xorMeaning_value hw]
    simp [ScalarState.apply]

/-- The flags of `xorl` are right where those of 64 bits are those of 32. -/
theorem xor_iff {mnemonic : String} {x : ℤ} :
    Leaves (xorMeaning (xorWidth mnemonic) a (BitVec.ofInt 64 x)) register
        (s.apply {
          register := some (register, Int.xor a.toNat x % 2 ^ xorWidth mnemonic)
          flags := some (wordFlags (a ^^^ BitVec.ofInt 64 x) false false) }) ↔
      (mnemonic = "xorl" →
        (a.setWidth 32 = (BitVec.ofInt 64 x).setWidth 32 → a = BitVec.ofInt 64 x) ∧
          (a.msb != (BitVec.ofInt 64 x).msb) = (a.getLsbD 31 != (BitVec.ofInt 64 x).getLsbD 31)) := by
  unfold xorWidth
  by_cases hi : mnemonic = "xorl"
  · rw [if_pos hi, leaves_xor (by omega)]
    generalize BitVec.ofInt 64 x = b
    have hzero : a ^^^ b = 0 ↔ a = b := BitVec.xor_eq_zero_iff
    have hlow : (a ^^^ b).setWidth 32 = 0 ↔ a.setWidth 32 = b.setWidth 32 := by
      rw [BitVec.setWidth_xor]
      exact BitVec.xor_eq_zero_iff
    have hsign : ((a ^^^ b).setWidth 32).msb = (a.getLsbD 31 != b.getLsbD 31) := by
      simp [BitVec.msb_setWidth]
    rw [hzero, hlow, hsign, BitVec.msb_xor]
    simp only [hi, forall_const]
    refine and_congr_left fun _ => ⟨fun h => h.mpr, fun h => ⟨fun heq => by rw [heq], h⟩⟩
  · rw [if_neg hi, leaves_xor (by omega)]
    simp [hi]

/-- **Shifts and exclusive or**: in each of their forms the evaluator leaves what the instruction is
to leave iff the operation is one it gets right. -/
theorem meets_iff {operation : Operation} (hform : Form i s destination operation)
    (hregister : canonicalRegister destination = some register)
    (hword : s.registers register = some (a.toNat : ℤ)) :
    Meets (meaning i.mnemonic a s.flags operation) i register s ↔ Correct i.mnemonic a s.flags operation := by
  cases hform with
  | counted hi operands value =>
    rw [meets_of_evaluate (evaluate_counted hi operands hregister hword value)]
    refine (counted_iff hword i.mnemonic).trans ?_
    exact imp_congr_left (by omega)
  | once hi operands =>
    rw [meets_of_evaluate (evaluate_once hi operands hregister hword)]
    exact once_iff hi hword
  | xor hi operands width value =>
    rw [meets_of_evaluate (evaluate_xor hi operands hregister hword width value)]
    exact xor_iff

/-- `shrq %rdx` of one operand, with four in `rdx`, is a shift by four. -/
theorem shift_by_own_count :
    ¬ ∀ (i : StaticInstruction) (s : ScalarState) (destination register : String) (a : BitVec 64)
        (operation : Operation), Form i s destination operation → canonicalRegister destination = some register →
      s.registers register = some (a.toNat : ℤ) → Meets (meaning i.mnemonic a s.flags operation) i register s := by
  intro h
  obtain ⟨s', hs', hleaves⟩ := h ⟨"shrq", ["%rdx"]⟩
    { registers := fun r => if r = "rdx" then some 4 else none, flags := {}, constants := [] } "%rdx" "rdx" 4
    .shiftByOne (.once (by decide) rfl) (by decide +kernel) rfl
  have hzero : (updateScalarState ⟨"shrq", ["%rdx"]⟩
      { registers := fun r => if r = "rdx" then some 4 else none, flags := {}, constants := [] }).toOption.map
        (fun s => s.registers "rdx") = some (some 0) := by decide +kernel
  rw [hs', Except.toOption, Option.map_some, Option.some.injEq, hleaves.value] at hzero
  exact absurd hzero (by decide)

/-- `shlq $3, %rdx` with five in `rdx`. -/
theorem meets_iff_tripled :
    Meets (meaning "shlq" 5 {} (.shift 3)) ⟨"shlq", ["$3", "%rdx"]⟩ "rdx"
        { registers := fun r => if r = "rdx" then some 5 else none, flags := {}, constants := [] } ↔
      Correct "shlq" 5 {} (.shift 3) :=
  meets_iff (i := ⟨"shlq", ["$3", "%rdx"]⟩)
    (s := { registers := fun r => if r = "rdx" then some 5 else none, flags := {}, constants := [] })
    (.counted (by decide) rfl (by decide +kernel)) (by decide +kernel) rfl

end X86
end VectorSim
