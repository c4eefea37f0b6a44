import Tinycc.IR.Value

namespace Tinycc
open BitVec

section

variable (a b : BitVec 64)
include a b

@[simp] theorem loWord_add : loWord (a + b) = loWord a + loWord b :=
  setWidth_add a b (by decide)

@[simp] theorem loWord_sub : loWord (a - b) = loWord a - loWord b := by
  have hneg : (-b).setWidth 32 = -b.setWidth 32 := setWidth_neg_of_le (by decide)
  rw [BitVec.sub_eq_add_neg, BitVec.sub_eq_add_neg, loWord_add]
  exact congrArg _ hneg

@[simp] theorem loWord_mul : loWord (a * b) = loWord a * loWord b :=
  setWidth_mul a b (by decide)

@[simp] theorem loWord_and : loWord (a &&& b) = loWord a &&& loWord b :=
  setWidth_and

@[simp] theorem loWord_or : loWord (a ||| b) = loWord a ||| loWord b :=
  setWidth_or

@[simp] theorem loWord_xor : loWord (a ^^^ b) = loWord a ^^^ loWord b :=
  setWidth_xor

end

@[simp] theorem loWord_shiftLeft (a : BitVec 64) (k : ℕ) : loWord (a <<< k) = loWord a <<< k :=
  setWidth_shiftLeft_of_le (by decide)

@[simp] theorem loWord_ofWord (x : BitVec 32) : loWord (ofWord x) = x := by
  apply eq_of_toNat_eq
  simp only [loWord, ofWord, truncate_eq_setWidth, toNat_setWidth]
  omega

@[simp] theorem loWord_signExtend (x : BitVec 32) : loWord (x.signExtend 64) = x := by
  apply eq_of_getLsbD_eq
  intro i hi
  have h64 : i < 64 := by omega
  simp [loWord, getElem_signExtend, hi, h64]

@[simp] theorem hiWord_ofWord (x : BitVec 32) : hiWord (ofWord x) = 0#32 := by
  apply eq_of_toNat_eq
  simp only [hiWord, ofWord, truncate_eq_setWidth, toNat_setWidth,
    toNat_ushiftRight, Nat.shiftRight_eq_div_pow, toNat_ofNat]
  omega

theorem getLsbD_ofWord (y : BitVec 32) (i : ℕ) : (ofWord y).getLsbD i = y.getLsbD i := by
  change (y.setWidth 64).getLsbD i = y.getLsbD i
  rw [getLsbD_setWidth]
  by_cases hi : i < 64
  · simp [hi]
  · rw [getLsbD_of_ge y i (by omega)]
    simp

theorem getLsbD_loWord (x : BitVec 64) {i : ℕ} (hi : i < 32) :
    (loWord x).getLsbD i = x.getLsbD i := by
  change (x.setWidth 32).getLsbD i = x.getLsbD i
  simp [hi]

theorem toNat_ofWord (x : BitVec 32) : (ofWord x).toNat = x.toNat := by
  simp only [ofWord, truncate_eq_setWidth, toNat_setWidth]
  omega

theorem toNat_loWord_of_lt {v : BitVec 64} (h : v.toNat < 4294967296) :
    (loWord v).toNat = v.toNat := by
  simp only [loWord, truncate_eq_setWidth, toNat_setWidth]
  omega

theorem toNat_and_31 (b : BitVec 32) : (b &&& 31#32).toNat = b.toNat % 32 := by
  exact Nat.and_two_pow_sub_one_eq_mod b.toNat 5

theorem and_signBit_ne_zero (x : BitVec 32) : x &&& 0x80000000#32 ≠ 0#32 ↔ x.msb = true := by
  rw [show (0x80000000#32) = BitVec.twoPow 32 31 from rfl, and_twoPow,
    msb_eq_getLsbD_last]
  cases hx : x.getLsbD 31 with
  | false => simp
  | true => simp [BitVec.twoPow]

theorem operand_of_isImmediate {World : Type} {M : ValueSem World} {s : IROperand}
    {σ : Vreg → BitVec 64} {w : World} (h : s.isImmediate = true) :
    M.operand s σ w = s.getImm64 := by
  unfold IROperand.isImmediate at h
  unfold ValueSem.operand IROperand.getImm64
  cases hl : s.isLval with
  | true => simp [hl] at h
  | false => cases hd : s.data <;> first | rfl | simp [hl, hd] at h

end Tinycc
