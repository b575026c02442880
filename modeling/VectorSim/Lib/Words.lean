/-
# Integers as machine words

An interpreter that keeps its registers as unbounded integers computes with
words of `w` bits when it reduces what it writes modulo `2 ^ w`. The word of an
integer is `BitVec.ofInt w`; its bits are those of the integer, and the
operations of the integers go over to those of the words. The signed order of
two words is what the sign and the overflow of their difference say
(`slt_eq_sign_overflow`).
-/
import Mathlib.Data.Int.Bitwise
import Mathlib.Tactic

namespace Words

variable {w : ℕ}

/-! ### Bits -/

theorem getLsbD_ofInt (x : ℤ) (k : ℕ) : (BitVec.ofInt w x).getLsbD k = (decide (k < w) && x.testBit k) := by
  cases x with
  | ofNat n =>
    rw [show (Int.ofNat n : ℤ) = (n : ℤ) from rfl, BitVec.ofInt_natCast, BitVec.getLsbD_ofNat]
    rfl
  | negSucc n =>
    rw [BitVec.ofInt_negSucc_eq_not_ofNat, BitVec.getLsbD_not, BitVec.getLsbD_ofNat]
    by_cases hk : k < w
    · simp [hk, Int.testBit]
    · simp [hk]

theorem ofInt_land (x y : ℤ) : BitVec.ofInt w (Int.land x y) = BitVec.ofInt w x &&& BitVec.ofInt w y := by
  ext k hk
  simp [← BitVec.getLsbD_eq_getElem, getLsbD_ofInt, hk]

theorem ofInt_xor (x y : ℤ) : BitVec.ofInt w (Int.xor x y) = BitVec.ofInt w x ^^^ BitVec.ofInt w y := by
  ext k hk
  simp [← BitVec.getLsbD_eq_getElem, getLsbD_ofInt, hk]

/-! ### Reduction -/

/-- The integer of a word. -/
theorem toNat_ofInt (x : ℤ) : ((BitVec.ofInt w x).toNat : ℤ) = x % 2 ^ w := by
  have hpos : (0 : ℤ) < 2 ^ w := by positivity
  rw [BitVec.toNat_ofInt]
  push_cast
  exact Int.toNat_of_nonneg (Int.emod_nonneg _ hpos.ne')

theorem ofInt_toNat (a : BitVec w) : BitVec.ofInt w (a.toNat : ℤ) = a := by
  rw [BitVec.ofInt_natCast, BitVec.ofNat_toNat, BitVec.setWidth_eq]

/-- An integer in range is that of its word. -/
theorem toNat_ofInt_of_range {x : ℤ} (h0 : 0 ≤ x) (h : x < 2 ^ w) : ((BitVec.ofInt w x).toNat : ℤ) = x := by
  rw [toNat_ofInt, Int.emod_eq_of_lt h0 h]

theorem emod_eq_zero_iff (x : ℤ) : x % 2 ^ w = 0 ↔ BitVec.ofInt w x = 0#w := by
  rw [← toNat_ofInt]
  constructor
  · intro h
    apply BitVec.eq_of_toNat_eq
    rw [BitVec.toNat_ofNat, Nat.zero_mod]
    exact_mod_cast h
  · intro h
    rw [h]
    simp

theorem ofInt_sub (x y : ℤ) : BitVec.ofInt w (x - y) = BitVec.ofInt w x - BitVec.ofInt w y := by
  rw [sub_eq_add_neg, BitVec.ofInt_add, BitVec.ofInt_neg, BitVec.sub_eq_add_neg]

/-! ### The signed order -/

/-- The sign of a difference is that of the exact difference, unless it overflows. -/
theorem msb_sub (a b : BitVec w) (h : a.ssubOverflow b = false) : (a - b).msb = decide (a.toInt < b.toInt) := by
  have hexact := BitVec.toInt_sub_of_not_ssubOverflow (x := a) (y := b) (by simp [h])
  rw [BitVec.msb_eq_toInt, hexact]
  exact decide_eq_decide.mpr ⟨fun h => by omega, fun h => by omega⟩

theorem msb_add (a b : BitVec w) (h : a.saddOverflow b = false) : (a + b).msb = decide (a.toInt + b.toInt < 0) := by
  have hexact := BitVec.toInt_add_of_not_saddOverflow (x := a) (y := b) (by simp [h])
  rw [BitVec.msb_eq_toInt, hexact]

/-- **The signed order of two words**, by the sign and the overflow of their difference. -/
theorem slt_eq_sign_overflow (a b : BitVec w) :
    decide (a.toInt < b.toInt) = ((a - b).msb != a.ssubOverflow b) := by
  cases hov : a.ssubOverflow b with
  | false => simp [msb_sub a b hov]
  | true =>
    -- the words have different signs, and the difference has that of the second
    have heq := BitVec.ssubOverflow_eq a b
    rw [hov] at heq
    have ha := BitVec.msb_eq_toInt (x := a)
    have hb := BitVec.msb_eq_toInt (x := b)
    cases hma : a.msb <;> cases hmb : b.msb <;> cases hmd : (a - b).msb <;> simp [hma, hmb, hmd] at heq ha hb ⊢ <;>
      omega

/-- The sign of the exact sum of two words, by the sign and the overflow of their sum. -/
theorem sum_neg_eq_sign_overflow (a b : BitVec w) :
    decide (a.toInt + b.toInt < 0) = ((a + b).msb != a.saddOverflow b) := by
  cases hov : a.saddOverflow b with
  | false => simp [msb_add a b hov]
  | true =>
    have heq := BitVec.saddOverflow_eq a b
    rw [hov] at heq
    have ha := BitVec.msb_eq_toInt (x := a)
    have hb := BitVec.msb_eq_toInt (x := b)
    cases hma : a.msb <;> cases hmb : b.msb <;> cases hmd : (a + b).msb <;> simp [hma, hmb, hmd] at heq ha hb ⊢ <;>
      omega

end Words
