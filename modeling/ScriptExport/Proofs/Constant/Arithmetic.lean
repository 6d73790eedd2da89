import Mathlib.Data.Int.Bitwise
import ScriptExport.Constant.Arithmetic

/-!
# What the operators mean

The operators of constant expressions on integers (`UnaryOp.meaning`, `BinaryOp.meaning`): the
mathematical result where it is a 64-bit value, bit operations on infinite two's complement, and a
left shift that keeps the low 64 bits. The operators on 64-bit values compute exactly that:
`UnaryOp.apply_toInt` and `BinaryOp.apply_toInt`.
-/

namespace ScriptExport.Constant

/-- The integer, if it is a signed 64-bit value. -/
def fit? (n : ℤ) : Option ℤ :=
  if -2 ^ 63 ≤ n ∧ n < 2 ^ 63 then some n else none

/-- The result of a prefixed operator. -/
def UnaryOp.meaning (op : UnaryOp) (a : ℤ) : Option ℤ :=
  match op with
  | negate => fit? (-a)
  | plus => some a
  | complement => some (Int.lnot a)

/-- The result of an infixed operator. -/
def BinaryOp.meaning (op : BinaryOp) (a b : ℤ) : Option ℤ :=
  match op with
  | add => fit? (a + b)
  | sub => fit? (a - b)
  | mul => fit? (a * b)
  | div => if b = 0 then none else fit? (a.tdiv b)
  -- a remainder comes with its quotient
  | mod => if b = 0 then none else (fit? (a.tdiv b)).map fun _ => a.tmod b
  | shiftLeft => if 0 ≤ b ∧ b < 64 then some ((a * 2 ^ b.toNat).bmod (2 ^ 64)) else none
  | shiftRight => if 0 ≤ b ∧ b < 64 then some (a / 2 ^ b.toNat) else none
  | bitAnd => some (Int.land a b)
  | bitXor => some (Int.xor a b)
  | bitOr => some (Int.lor a b)

/-! ## Bits -/

/-- Integers with the same bits are equal. -/
theorem testBit_ext {m n : ℤ} (h : ∀ k, m.testBit k = n.testBit k) : m = n := by
  -- far enough out, the bits show the sign
  have hsign : ∀ a b : ℕ, ¬ ∀ k, a.testBit k = !b.testBit k := by
    intro a b hab
    have ha := Nat.testBit_lt_two_pow (Nat.lt_of_le_of_lt (Nat.le_max_left a b) Nat.lt_two_pow_self)
    have hb := Nat.testBit_lt_two_pow (Nat.lt_of_le_of_lt (Nat.le_max_right a b) Nat.lt_two_pow_self)
    have := hab (max a b)
    rw [ha, hb] at this
    cases this
  cases m with
  | ofNat a =>
    cases n with
    | ofNat b => exact congrArg Int.ofNat (Nat.eq_of_testBit_eq h)
    | negSucc b => exact absurd h (hsign a b)
  | negSucc a =>
    cases n with
    | ofNat b => exact absurd (fun k => (h k).symm) (hsign b a)
    | negSucc b =>
      refine congrArg Int.negSucc (Nat.eq_of_testBit_eq fun k => ?_)
      have hk : (!a.testBit k) = !b.testBit k := h k
      exact Bool.not_inj hk

variable (a b : Int64)

/-- The bits of a 64-bit value, with its sign bit from place 63 on. -/
theorem testBit_toInt (k : ℕ) : a.toInt.testBit k = a.toBitVec.getLsbD (min k 63) := by
  have hlt : a.toBitVec.toNat < 2 ^ 64 := a.toBitVec.isLt
  have hsign : a.toBitVec.getLsbD 63 = a.toBitVec.msb := (BitVec.msb_eq_getLsbD_last _).symm
  have hout : ∀ i, 64 ≤ i → a.toBitVec.toNat.testBit i = false := fun i hi =>
    Nat.testBit_lt_two_pow (Nat.lt_of_lt_of_le hlt (Nat.pow_le_pow_right (by decide) hi))
  have htoInt : a.toInt = a.toBitVec.toInt := rfl
  rw [htoInt, BitVec.toInt_eq_msb_cond]
  cases hmsb : a.toBitVec.msb with
  | false =>
    show a.toBitVec.toNat.testBit k = _
    by_cases hk : k < 64
    · rw [Nat.min_eq_left (by omega), BitVec.testBit_toNat]
    · rw [Nat.min_eq_right (by omega), hsign, hmsb, hout k (by omega)]
  | true =>
    have hneg : (a.toBitVec.toNat : ℤ) - ((2 ^ 64 : ℕ) : ℤ) =
        Int.negSucc (2 ^ 64 - (a.toBitVec.toNat + 1)) := by
      rw [Int.negSucc_eq]
      omega
    rw [if_pos rfl, hneg]
    show (!(2 ^ 64 - (a.toBitVec.toNat + 1)).testBit k) = _
    rw [Nat.testBit_two_pow_sub_succ hlt]
    by_cases hk : k < 64
    · rw [Nat.min_eq_left (by omega), BitVec.testBit_toNat]
      simp [hk]
    · rw [Nat.min_eq_right (by omega), hsign, hmsb]
      simp [hk]

theorem toInt_complement : (~~~a).toInt = Int.lnot a.toInt := by
  refine testBit_ext fun k => ?_
  have hk : min k 63 < 64 := by omega
  rw [Int.testBit_lnot, testBit_toInt, testBit_toInt, Int64.toBitVec_not]
  simp [hk]

theorem toInt_and : (a &&& b).toInt = Int.land a.toInt b.toInt := by
  refine testBit_ext fun k => ?_
  rw [Int.testBit_land, testBit_toInt, testBit_toInt, testBit_toInt, Int64.toBitVec_and,
    BitVec.getLsbD_and]

theorem toInt_xor : (a ^^^ b).toInt = Int.xor a.toInt b.toInt := by
  refine testBit_ext fun k => ?_
  rw [Int.testBit_lxor, testBit_toInt, testBit_toInt, testBit_toInt, Int64.toBitVec_xor,
    BitVec.getLsbD_xor]

theorem toInt_or : (a ||| b).toInt = Int.lor a.toInt b.toInt := by
  refine testBit_ext fun k => ?_
  rw [Int.testBit_lor, testBit_toInt, testBit_toInt, testBit_toInt, Int64.toBitVec_or,
    BitVec.getLsbD_or]

/-! ## Operators -/

/-- A checked number is one that fits. -/
theorem checked_toInt (n : ℤ) : (checked n).map Int64.toInt = fit? n := by
  unfold checked fit?
  have hmin : Int64.minValue.toInt = -2 ^ 63 := rfl
  have hmax : Int64.maxValue.toInt = 2 ^ 63 - 1 := rfl
  by_cases hn : -2 ^ 63 ≤ n ∧ n < 2 ^ 63
  · rw [if_pos hn, if_pos (by omega)]
    exact congrArg some (Int64.toInt_ofInt_of_le hn.1 hn.2)
  · rw [if_neg hn, if_neg (by omega)]
    rfl

theorem exact_toInt (n : ℤ) : (BinaryOp.exact n).toOption.map Int64.toInt = fit? n := by
  rw [← checked_toInt]
  unfold BinaryOp.exact
  cases checked n <;> rfl

theorem UnaryOp.apply_toInt (op : UnaryOp) (a : Int64) :
    (op.apply a).map Int64.toInt = op.meaning a.toInt := by
  cases op with
  | negate => exact checked_toInt _
  | plus => rfl
  | complement => exact congrArg some (toInt_complement a)

/-- A shift of a 64-bit value by a distance from 0 to 63, and no other. -/
theorem shiftDistance_toInt (f : ℕ → Int64) (g : ℕ → ℤ) (h : ∀ n < 64, (f n).toInt = g n) :
    ((BinaryOp.shiftDistance b).map f).toOption.map Int64.toInt =
      if 0 ≤ b.toInt ∧ b.toInt < 64 then some (g b.toInt.toNat) else none := by
  unfold BinaryOp.shiftDistance
  by_cases hb : 0 ≤ b.toInt ∧ b.toInt < 64
  · rw [if_pos hb, if_pos hb]
    exact congrArg some (h _ (by omega))
  · rw [if_neg hb, if_neg hb]
    rfl

/-- A quotient or remainder, which exists for a divisor other than zero. -/
theorem unlessZero_toInt {x : Except Fault Int64} {y : Option ℤ}
    (h : x.toOption.map Int64.toInt = y) :
    (if b = 0 then Except.error Fault.divisionByZero else x).toOption.map Int64.toInt =
      if b.toInt = 0 then none else y := by
  have hzero : b = 0 ↔ b.toInt = 0 := Int64.toInt_inj.symm
  by_cases hb : b = 0
  · rw [if_pos hb, if_pos (hzero.mp hb)]
    rfl
  · rw [if_neg hb, if_neg (mt hzero.mpr hb)]
    exact h

theorem toInt_ofInt_shiftRight (n : ℕ) :
    (Int64.ofInt (a.toInt / 2 ^ n)).toInt = a.toInt / 2 ^ n := by
  have hle := a.le_toInt
  have hlt := a.toInt_lt
  have hpow : (0 : ℤ) < 2 ^ n := Int.pow_pos (by decide)
  generalize (2 : ℤ) ^ n = d at hpow
  refine Int64.toInt_ofInt_of_le ?_ ?_
  · rw [Int.le_ediv_iff_mul_le hpow]
    omega
  · rw [Int.ediv_lt_iff_lt_mul hpow]
    omega

theorem toInt_ofInt_tmod : (Int64.ofInt (a.toInt.tmod b.toInt)).toInt = a.toInt.tmod b.toInt := by
  have hle := a.le_toInt
  have hlt := a.toInt_lt
  have habs : (a.toInt.tmod b.toInt).natAbs ≤ a.toInt.natAbs := by
    rw [Int.natAbs_tmod]
    exact Nat.mod_le _ _
  refine Int64.toInt_ofInt_of_le (by omega) ?_
  -- a remainder has the sign of the dividend
  rcases Int.le_total 0 a.toInt with ha | ha
  · omega
  · have hneg := Int.tmod_nonneg b.toInt (Int.neg_nonneg_of_nonpos ha)
    rw [Int.neg_tmod] at hneg
    omega

/-- Operators compute what they mean, where it fits. -/
theorem BinaryOp.apply_toInt (op : BinaryOp) (a b : Int64) :
    (op.apply a b).toOption.map Int64.toInt = op.meaning a.toInt b.toInt := by
  cases op with
  | add => exact exact_toInt _
  | sub => exact exact_toInt _
  | mul => exact exact_toInt _
  | div => exact unlessZero_toInt b (exact_toInt _)
  | mod =>
    refine unlessZero_toInt b ?_
    rw [← exact_toInt]
    cases BinaryOp.exact (a.toInt.tdiv b.toInt) with
    | error => rfl
    | ok => exact congrArg some (toInt_ofInt_tmod a b)
  | shiftLeft => exact shiftDistance_toInt b _ _ fun n _ => Int64.toInt_ofInt
  | shiftRight => exact shiftDistance_toInt b _ _ fun n _ => toInt_ofInt_shiftRight a n
  | bitAnd => exact congrArg some (toInt_and a b)
  | bitXor => exact congrArg some (toInt_xor a b)
  | bitOr => exact congrArg some (toInt_or a b)

end ScriptExport.Constant
