import Mathlib.Data.BitVec
import Mathlib.Data.Nat.Bitwise

namespace Tinycc.Lib
open BitVec

variable {w : ℕ}

/-- The number in the bits from `msb` down to `lsb`. -/
def slice (x : BitVec w) (msb lsb : ℕ) : ℕ := (x.extractLsb msb lsb).toNat

theorem slice_eq (x : BitVec w) (msb lsb : ℕ) :
    slice x msb lsb = x.toNat / 2 ^ lsb % 2 ^ (msb - lsb + 1) := by
  rw [slice, BitVec.extractLsb, extractLsb'_toNat, Nat.shiftRight_eq_div_pow]

theorem nat_and_mask (n k l : ℕ) : n &&& (2 ^ k - 1) * 2 ^ l = n / 2 ^ l % 2 ^ k * 2 ^ l := by
  apply Nat.eq_of_testBit_eq
  intro i
  rw [Nat.testBit_and, Nat.testBit_mul_two_pow, Nat.testBit_mul_two_pow,
    Nat.testBit_mod_two_pow, Nat.testBit_div_two_pow]
  by_cases hi : l ≤ i
  · simp [hi, Bool.and_comm]
  · simp [hi]

variable {m v x m' : BitVec w}

theorem and_eq_iff_slice (x : BitVec w) (msb lsb : ℕ) {n : ℕ}
    (hm : m.toNat = (2 ^ (msb - lsb + 1) - 1) * 2 ^ lsb) (hv : v.toNat = n * 2 ^ lsb) :
    x &&& m = v ↔ slice x msb lsb = n := by
  rw [← toNat_inj, toNat_and, hm, hv, nat_and_mask, slice_eq]
  exact Nat.mul_left_inj (Nat.two_pow_pos lsb).ne'

theorem and_eq_of_and_eq (h : x &&& m = v) (hm : m &&& m' = m') :
    x &&& m' = v &&& m' := by
  rw [← h, BitVec.and_assoc, hm]

theorem extractLsb'_of_and_eq (h : x &&& m = v) {start len : ℕ}
    (hm : m.extractLsb' start len = BitVec.allOnes len) :
    x.extractLsb' start len = v.extractLsb' start len := by
  rw [← h, extractLsb'_and, hm, and_allOnes]

theorem and_ne_of_and_eq {v' : BitVec w} (h : x &&& m = v) (hne : v &&& m' ≠ v' &&& m) :
    x &&& m' ≠ v' := by
  intro h'
  apply hne
  rw [← h, ← h', BitVec.and_assoc, BitVec.and_assoc, BitVec.and_comm m m']

theorem and_eq_iff_parts (x m₁ m₂ : BitVec w) (hm : m = m₁ ||| m₂) (hv : v &&& m = v) :
    x &&& m = v ↔ x &&& m₁ = v &&& m₁ ∧ x &&& m₂ = v &&& m₂ := by
  subst hm
  constructor
  · rintro rfl
    constructor
    · ext i hi
      simp only [getElem_and, getElem_or]
      cases x[i] <;> cases m₁[i] <;> cases m₂[i] <;> rfl
    · ext i hi
      simp only [getElem_and, getElem_or]
      cases x[i] <;> cases m₁[i] <;> cases m₂[i] <;> rfl
  · rintro ⟨h₁, h₂⟩
    rw [← hv, and_or_distrib_left, h₁, h₂, ← and_or_distrib_left]

theorem toNat_shr_and (x : BitVec w) (msb lsb : ℕ) (hm : m.toNat = 2 ^ (msb - lsb + 1) - 1) :
    ((x >>> lsb) &&& m).toNat = slice x msb lsb := by
  rw [toNat_and, toNat_ushiftRight, hm, Nat.and_two_pow_sub_one_eq_mod,
    Nat.shiftRight_eq_div_pow, slice_eq]

theorem toNat_and_low (x : BitVec w) (msb : ℕ) (hm : m.toNat = 2 ^ (msb + 1) - 1) :
    (x &&& m).toNat = slice x msb 0 := by
  rw [toNat_and, hm, Nat.and_two_pow_sub_one_eq_mod, slice_eq, pow_zero, Nat.div_one,
    Nat.sub_zero]

theorem toNat_shl_or_of_lt {y : BitVec w} {k : ℕ} (hx : x.toNat * 2 ^ k < 2 ^ w)
    (hy : y.toNat < 2 ^ k) :
    (x <<< k ||| y).toNat = x.toNat * 2 ^ k + y.toNat := by
  rw [toNat_or, toNat_shiftLeft, Nat.shiftLeft_eq, Nat.mod_eq_of_lt hx,
    ← Nat.shiftLeft_eq, ← Nat.shiftLeft_add_eq_or_of_lt hy]

end Tinycc.Lib
