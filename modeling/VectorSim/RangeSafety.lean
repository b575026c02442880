/-
# Registers as 64-bit words

A run of the x86 frontend is that of a 64-bit machine (`WordRun`): every
register is a word, a write to a 32-bit register is less than `2 ^ 32`, every
address is the word of its base, index and displacement, and the flags of a sum
or difference are those of words. The evaluator reduces what it writes modulo
`2 ^ 64`, but for the address of a memory operand and the element count that a
run starts with, so that a run is one of words iff these are words
(`wordRun_iff`).
-/
import VectorSim.Frontend.X86Runs

namespace VectorSim
namespace X86

open Checked Words

/-! ### The runs of a 64-bit machine -/

/-- Every register is a word. -/
def WordRange (s : ScalarState) : Prop := ∀ r v, s.registers r = some v → 0 ≤ v ∧ v < 2 ^ 64

/-- The names of the 32-bit registers. -/
def doublewords : List String :=
  ["eax", "ebx", "ecx", "edx", "esi", "edi", "ebp", "esp", "r8d", "r9d", "r10d", "r11d", "r12d", "r13d", "r14d",
    "r15d"]

/-- The instructions that write 32-bit registers. -/
def doublewordWriters : List String := ["movl", "movzbl", "xorl"]

/-- The sum of displacement, base and scaled index of a memory operand. -/
def addressSum (token : String) (s : ScalarState) : Option ℤ := do
  let m ← memoryOperand? token
  let base ← (addressTerm s.registers (baseRegister m)).toOption
  let index ← (addressTerm s.registers (indexRegister m)).toOption
  some ((displacement s.constants m.disp).2.1 + base + index * m.scale)

/-- The address of a memory operand: the sum as a word. -/
def effectiveAddress (token : String) (s : ScalarState) : Option (BitVec 64) :=
  (addressSum token s).map (BitVec.ofInt 64)

/-- The memory operands whose addresses are computed. -/
def addressed (i : StaticInstruction) : List String :=
  if i.mnemonic = "leaq" then i.operands.head?.toList else (recordedOperand i).toList

/-- The flags that a sum, a difference or a comparison of words is to leave. -/
def arithmeticFlags (mnemonic : String) (a b : BitVec 64) : Flags :=
  if mnemonic = "addq" then wordFlags (a + b) (a.uaddOverflow b) (a.saddOverflow b)
  else wordFlags (a - b) (decide (a.toNat < b.toNat)) (a.ssubOverflow b)

/-- The turn is that of a 64-bit machine. -/
structure WordTurn (t : Turn) : Prop where
  registers : WordRange t.after.state
  doubleword : t.item.static.mnemonic ∈ doublewordWriters → ∀ token name r v,
    t.item.static.operands.getLast? = some token → registerName? token = some name → name ∈ doublewords →
    canonicalRegister token = some r → t.after.state.registers r = some v → v < 2 ^ 32
  addresses : ∀ token ∈ addressed t.item.static, ∀ a,
    evaluateMemory token t.before.state.registers t.before.state.constants = .ok a →
    ∃ w, effectiveAddress token t.before.state = some w ∧ a.2.1 = (w.toNat : ℤ)
  leaq : t.item.static.mnemonic = "leaq" → ∀ r, destinationRegister t.item.static = some r →
    ∃ token ∈ addressed t.item.static, ∃ w, effectiveAddress token t.before.state = some w ∧
      t.after.state.registers r = some (w.toNat : ℤ)
  flags : t.item.static.mnemonic ∈ ["addq", "subq", "cmpq"] → ∀ o left right,
    operandPair t.item.static = .ok o → (canonicalRegister o.2).isSome →
    scalarOperandValue o.2 t.before.state.registers = .ok left →
    scalarOperandValue o.1 t.before.state.registers = .ok right →
    t.after.state.flags = arithmeticFlags t.item.static.mnemonic (BitVec.ofInt 64 left) (BitVec.ofInt 64 right)

/-- The run is that of a 64-bit machine, from its start on. -/
structure WordRun (p : Program) (count : ℕ) : Prop where
  start : WordRange (initial count).state
  turn : ∀ t ∈ turns p count, WordTurn t

/-- The addresses that a turn computes are words before they are reduced. -/
def AddressesFit (t : Turn) : Prop :=
  ∀ token ∈ addressed t.item.static, ∀ x, addressSum token t.before.state = some x → 0 ≤ x ∧ x < 2 ^ 64

/-! ### Addresses -/

theorem evaluateMemory_sum {token : String} {s : ScalarState} {a : List String × ℤ × Region}
    (h : evaluateMemory token s.registers s.constants = .ok a) : addressSum token s = some a.2.1 := by
  unfold evaluateMemory at h
  unfold addressSum
  cases hm : memoryOperand? token with
  | none => simp [hm] at h
  | some m =>
    simp only [hm] at h
    obtain ⟨base, hbase, h⟩ := ok_bind.mp h
    obtain ⟨index, hindex, h⟩ := ok_bind.mp h
    cases h
    simp [hbase, hindex, Except.toOption]

theorem sum_evaluateMemory {token : String} {s : ScalarState} {x : ℤ} (h : addressSum token s = some x) :
    ∃ a, evaluateMemory token s.registers s.constants = .ok a ∧ a.2.1 = x := by
  unfold addressSum at h
  unfold evaluateMemory
  obtain ⟨m, hm, h⟩ := Option.bind_eq_some_iff.mp h
  obtain ⟨base, hbase, h⟩ := Option.bind_eq_some_iff.mp h
  obtain ⟨index, hindex, h⟩ := Option.bind_eq_some_iff.mp h
  simp only [hm, toOption_ok.mp hbase, toOption_ok.mp hindex]
  exact ⟨_, rfl, Option.some.inj h⟩

/-- An address is its word iff it is in range. -/
theorem word_iff_range (x : ℤ) : x = ((BitVec.ofInt 64 x).toNat : ℤ) ↔ 0 ≤ x ∧ x < 2 ^ 64 := by
  constructor
  · intro h
    have hlt := (BitVec.ofInt 64 x).isLt
    omega
  · rintro ⟨h0, hlt⟩
    exact (toNat_ofInt_of_range h0 hlt).symm

/-! ### What the evaluator writes -/

theorem wrap_range (x : ℤ) : 0 ≤ wrap x ∧ wrap x < 2 ^ 64 :=
  ⟨Int.emod_nonneg x (by norm_num), Int.emod_lt_of_pos x (by norm_num)⟩

theorem registerBits_le (token : String) : registerBits token ≤ 64 := by
  unfold registerBits
  dsimp only
  split <;> omega

theorem writeRegister_range {token r : String} {x v : ℤ} (h : writeRegister token x = some (r, v)) :
    0 ≤ v ∧ v < 2 ^ registerBits token := by
  simp only [writeRegister, Option.map_eq_some_iff, Prod.mk.injEq] at h
  obtain ⟨d, -, -, rfl⟩ := h
  have hpos : (0 : ℤ) < 2 ^ registerBits token := by positivity
  exact ⟨Int.emod_nonneg x hpos.ne', Int.emod_lt_of_pos x hpos⟩

theorem writeRegister_word {token r : String} {x v : ℤ} (h : writeRegister token x = some (r, v)) :
    0 ≤ v ∧ v < 2 ^ 64 := by
  obtain ⟨h0, hlt⟩ := writeRegister_range h
  have hle : (2 : ℤ) ^ registerBits token ≤ 2 ^ 64 := pow_le_pow_right₀ (by norm_num) (registerBits_le token)
  omega

theorem shiftResult_range {mnemonic : String} {old : ℤ} {count : ℕ} (h0 : 0 ≤ old) (hlt : old < 2 ^ 64) :
    0 ≤ (shiftResult mnemonic old count).1 ∧ (shiftResult mnemonic old count).1 < 2 ^ 64 := by
  have hpos : (0 : ℤ) < 2 ^ count := by positivity
  unfold shiftResult
  split
  · exact wrap_range _
  · split
    · exact ⟨Int.ediv_nonneg h0 hpos.le, lt_of_le_of_lt (Int.ediv_le_self _ h0) hlt⟩
    · exact wrap_range _

theorem shiftEffect_range {mnemonic d r : String} {old v : ℤ} {count : ℕ}
    (h : (shiftEffect mnemonic d (wrap old) count).register = some (r, v)) : 0 ≤ v ∧ v < 2 ^ 64 := by
  unfold shiftEffect at h
  split at h
  · cases h
  · simp only [Option.some.injEq, Prod.mk.injEq] at h
    rw [← h.2]
    exact shiftResult_range (wrap_range old).1 (wrap_range old).2

/-- **What is written is a word**, but for an address. -/
theorem evaluate_range {i : StaticInstruction} {s : ScalarState} {e : Effect} {r : String} {v : ℤ}
    (h : evaluate i s = .ok e) (hr : e.register = some (r, v)) (hleaq : i.mnemonic ≠ "leaq") :
    0 ≤ v ∧ v < 2 ^ 64 := by
  rcases mnemonic_cases i.mnemonic with hi | hi | hi | hi | hi | hi | hi | hi | hi | hi
  · rw [evaluate_move hi] at h
    obtain ⟨o, -, h⟩ := ok_bind.mp h
    obtain ⟨x, -, h⟩ := ok_bind.mp h
    cases h
    exact writeRegister_word hr
  · rw [evaluate_sum hi] at h
    obtain ⟨o, d, -, -, h⟩ := effect_of_match h hr
    obtain ⟨old, -, h⟩ := ok_bind.mp h
    obtain ⟨source, -, h⟩ := ok_bind.mp h
    cases h
    simp only [Option.some.injEq, Prod.mk.injEq] at hr
    rw [← hr.2]
    split
    · exact wrap_range _
    · exact wrap_range _
  · rw [evaluate_logic hi] at h
    obtain ⟨o, d, -, -, h⟩ := effect_of_match h hr
    obtain ⟨left, -, h⟩ := ok_bind.mp h
    obtain ⟨right, -, h⟩ := ok_bind.mp h
    cases h
    exact writeRegister_word hr
  · rw [evaluate_shift hi] at h
    obtain ⟨o, d, -, -, h⟩ := effect_of_match h hr
    obtain ⟨count, -, h⟩ := ok_bind.mp h
    obtain ⟨old, -, h⟩ := ok_bind.mp h
    cases h
    exact shiftEffect_range hr
  · rw [evaluate_step hi] at h
    obtain ⟨o, d, -, -, h⟩ := effect_of_match h hr
    obtain ⟨old, -, h⟩ := ok_bind.mp h
    cases h
    cases hr
    exact wrap_range _
  · rw [evaluate_negate hi] at h
    obtain ⟨o, d, -, -, h⟩ := effect_of_match h hr
    obtain ⟨old, -, h⟩ := ok_bind.mp h
    cases h
    unfold negateEffect at hr
    split at hr <;> cases hr <;> exact wrap_range _
  · exact absurd hi hleaq
  · rw [evaluate_test hi] at h
    obtain ⟨o, -, h⟩ := ok_bind.mp h
    obtain ⟨left, -, h⟩ := ok_bind.mp h
    obtain ⟨right, -, h⟩ := ok_bind.mp h
    cases h
    cases hr
  · rw [evaluate_compare hi] at h
    obtain ⟨o, -, h⟩ := ok_bind.mp h
    obtain ⟨left, -, h⟩ := ok_bind.mp h
    obtain ⟨right, -, h⟩ := ok_bind.mp h
    cases h
    cases hr
  · rw [evaluate_other hi] at h
    cases h
    cases hr

/-- A write to a 32-bit register is by its width. -/
theorem evaluate_doubleword {i : StaticInstruction} {s : ScalarState} {e : Effect} {o : String × String} {r : String}
    (h : evaluate i s = .ok e) (hi : i.mnemonic ∈ doublewordWriters) (ho : operandPair i = .ok o)
    (hr : canonicalRegister o.2 = some r) : ∃ x : ℤ, e.register = some (r, x % 2 ^ registerBits o.2) := by
  have hcases := (by decide : ∀ m ∈ doublewordWriters,
    m ∈ ["movl", "movq", "movslq", "movzbl"] ∨ m ∈ ["andq", "orq", "xorl", "xorq"]) _ hi
  rcases hcases with hmove | hlogic
  · rw [evaluate_move hmove] at h
    obtain ⟨o', ho', h⟩ := ok_bind.mp h
    rw [ho] at ho'
    cases ho'
    obtain ⟨x, -, h⟩ := ok_bind.mp h
    cases h
    exact ⟨movedValue i.mnemonic x, by simp [writeRegister, hr]⟩
  · rw [evaluate_logic hlogic] at h
    obtain ⟨o', ho', h⟩ := ok_bind.mp h
    rw [ho] at ho'
    cases ho'
    simp only [hr] at h
    obtain ⟨left, -, h⟩ := ok_bind.mp h
    obtain ⟨right, -, h⟩ := ok_bind.mp h
    cases h
    exact ⟨logicResult i.mnemonic left right, by simp [writeRegister, hr]⟩

theorem registerBits_doubleword {token name : String} (h : registerName? token = some name) (hname : name ∈ doublewords) :
    registerBits token = 32 := by
  have hwidth : ∀ name ∈ doublewords, (name.toList.dropWhile (· = '%')).getLast? = some 'd' ∨
      (name.toList.dropWhile (· = '%')).head? = some 'e' := by decide +kernel
  unfold registerName? at h
  split at h
  · next cs hcs =>
    have hlist : cs = name.toList := by simpa using congrArg String.toList (Option.some.inj h)
    unfold registerBits
    dsimp only
    rw [hcs, List.dropWhile_cons_of_pos (by simp), hlist, if_pos (hwidth name hname)]
  · cases h

theorem value_of_register {token r : String} {registers : String → Option ℤ} {v : ℤ}
    (h : canonicalRegister token = some r) (hv : scalarOperandValue token registers = .ok v) : registers r = some v := by
  cases hr : registers r with
  | none =>
    rw [scalarOperandValue_unwritten h hr] at hv
    cases hv
  | some x =>
    rw [scalarOperandValue_register h hr] at hv
    cases hv
    rfl

/-! ### One turn -/

section OneTurn

variable {p : Program} {t : Turn}

/-- The effect of a turn's instruction. -/
theorem IsTurn.effect (h : IsTurn p t) : ∃ e,
    evaluate t.item.static { t.before.state with constants := t.item.recorded.constants } = .ok e ∧
      t.after.state = { t.before.state with constants := t.item.recorded.constants }.apply e :=
  updateScalarState_ok h.state

/-- An address is computed in the state before the turn. -/
theorem IsTurn.address (h : IsTurn p t) (hi : t.item.static.mnemonic = "leaq") :
    ∃ o x, operandPair t.item.static = .ok o ∧ o.1 ∈ addressed t.item.static ∧
      addressSum o.1 t.before.state = some x ∧
      (canonicalRegister o.2 = none → t.after.state.registers = t.before.state.registers) ∧
      ∀ r, canonicalRegister o.2 = some r → t.after.state.registers = Function.update t.before.state.registers r x := by
  obtain ⟨e, he, hafter⟩ := h.effect
  have hconstants : t.item.recorded.constants = t.before.state.constants := by
    have hmemory := (record_parts h.recorded).1
    simp only [memoryOf, recordedOperand, hi, if_true, Except.ok.injEq, Prod.mk.injEq] at hmemory
    exact hmemory.1.symm
  rw [evaluate_address hi] at he
  obtain ⟨o, ho, he⟩ := ok_bind.mp he
  obtain ⟨a, ha, he⟩ := ok_bind.mp he
  cases he
  simp only [hconstants] at ha
  refine ⟨o, a.2.1, ho, by simp [addressed, hi, (operandPair_ok ho).1], evaluateMemory_sum ha,
    fun hr => ?_, fun r hr => ?_⟩
  · rw [hafter]
    simp [ScalarState.apply, hr]
  · rw [hafter]
    simp [ScalarState.apply, hr]

theorem wordTurn_of_fit (h : IsTurn p t) (hrange : WordRange t.before.state) (hfit : AddressesFit t) : WordTurn t := by
  obtain ⟨e, he, hafter⟩ := h.effect
  constructor
  · -- the register that is written has a word, as the others had before
    intro r v hv
    by_cases hleaq : t.item.static.mnemonic = "leaq"
    · obtain ⟨o, x, ho, hmem, hsum, hkeep, hupdate⟩ := h.address hleaq
      have hx := hfit o.1 hmem x hsum
      cases hd : canonicalRegister o.2 with
      | none =>
        rw [hkeep hd] at hv
        exact hrange r v hv
      | some d =>
        rw [hupdate d hd, Function.update_apply] at hv
        split at hv
        · cases hv
          exact hx
        · exact hrange r v hv
    · rw [hafter] at hv
      cases hw : e.register with
      | none =>
        simp only [ScalarState.apply, hw] at hv
        exact hrange r v hv
      | some w =>
        simp only [ScalarState.apply, hw, Function.update_apply] at hv
        split at hv
        · cases hv
          exact evaluate_range he hw hleaq
        · exact hrange r v hv
  · intro hi token name r v hlast hname hmem hr hv
    obtain ⟨a, ho⟩ := pair_of_last hlast
    obtain ⟨x, hx⟩ := evaluate_doubleword he hi ho hr
    rw [hafter] at hv
    simp only [ScalarState.apply, hx, Function.update_self, registerBits_doubleword hname hmem] at hv
    cases hv
    exact Int.emod_lt_of_pos x (by norm_num)
  · intro token ht a ha
    have hsum := evaluateMemory_sum ha
    have hx := hfit token ht _ hsum
    exact ⟨_, by rw [effectiveAddress, hsum]; rfl, (word_iff_range _).mpr hx⟩
  · intro hleaq r hr
    obtain ⟨o, x, ho, hmem, hsum, -, hupdate⟩ := h.address hleaq
    rw [destinationRegister_of_pair ho] at hr
    refine ⟨o.1, hmem, _, by rw [effectiveAddress, hsum]; rfl, ?_⟩
    rw [hupdate r hr, Function.update_self, ← (word_iff_range x).mpr (hfit o.1 hmem x hsum)]
  · intro hi o left right ho hregister hleft hright
    obtain ⟨register, hr⟩ := Option.isSome_iff_exists.mp hregister
    obtain ⟨h0, hlt⟩ := hrange register left (value_of_register hr hleft)
    have hgiven : Given t.item.static { t.before.state with constants := t.item.recorded.constants } o.1 o.2 register
        (BitVec.ofInt 64 left) right :=
      ⟨ho, hr, by rw [toNat_ofInt_of_range h0 hlt]; exact hleft, fun _ => hright⟩
    rw [hafter]
    simp only [List.mem_cons, List.not_mem_nil, or_false] at hi
    rcases hi with hi | hi | hi
    · have heval := hgiven.evaluate_addq hi
      rw [he] at heval
      cases heval
      simp [ScalarState.apply, arithmeticFlags, hi]
    · have heval := hgiven.evaluate_subq hi
      rw [he] at heval
      cases heval
      simp [ScalarState.apply, arithmeticFlags, hi]
    · have heval := hgiven.evaluate_cmpq hi
      rw [he] at heval
      cases heval
      simp [ScalarState.apply, arithmeticFlags, hi]

theorem fit_of_wordTurn (h : WordTurn t) : AddressesFit t := by
  intro token ht x hx
  obtain ⟨a, ha, rfl⟩ := sum_evaluateMemory hx
  obtain ⟨w, hw, hword⟩ := h.addresses token ht a ha
  have hlt := w.isLt
  omega

end OneTurn

/-! ### Runs -/

/-- The registers at the start are words, but for the count. -/
theorem initial_range (count : ℕ) : WordRange (initial count).state ↔ count < 2 ^ 64 := by
  constructor
  · intro h
    have hcount := h "rdx" count rfl
    omega
  · intro h r v hv
    simp only [initial, initialRegisters] at hv
    split at hv
    · cases hv
      decide
    · cases hv
      decide
    · cases hv
      omega
    · cases hv
      decide
    · cases hv
      decide
    · cases hv

/-- **A run is that of a 64-bit machine** iff the count it starts with is a word and so is every sum
of an address. -/
theorem wordRun_iff (p : Program) (count : ℕ) :
    WordRun p count ↔ count < 2 ^ 64 ∧ ∀ t ∈ turns p count, AddressesFit t := by
  constructor
  · intro h
    exact ⟨(initial_range count).mp h.start, fun t ht => fit_of_wordTurn (h.turn t ht)⟩
  · rintro ⟨hcount, hfit⟩
    have hstart := (initial_range count).mpr hcount
    have hinv := turns_invariant (I := fun x => WordRange x.state) hstart
      (fun t h hfit hrange => (wordTurn_of_fit h hrange hfit).registers) hfit
    exact ⟨hstart, fun t ht => wordTurn_of_fit (isTurn ht) (hinv t ht).1 (hfit t ht)⟩

/-- `leaq -8(%rax), %rcx` at the start, with nothing in `rax`. -/
theorem leaq_below_zero :
    ¬ WordRun ⟨[⟨"leaq", ["-8(%rax)", "%rcx"]⟩], [], [(("leaq", "memory_load"), [.scalarAlu])]⟩ 16 := by
  intro h
  have hfirst : ((turns ⟨[⟨"leaq", ["-8(%rax)", "%rcx"]⟩], [], [(("leaq", "memory_load"), [.scalarAlu])]⟩ 16).head?.bind
      fun t => t.after.state.registers "rcx") = some (-8) := by decide +kernel
  obtain ⟨t, ht, hrcx⟩ := Option.bind_eq_some_iff.mp hfirst
  have hrange := (h.turn t (List.mem_of_head? ht)).registers "rcx" (-8) hrcx
  omega

end X86
end VectorSim
