import Tinycc.Lib.BitRuns

/-!
# The bit builtins of the runtime library

The counting builtins work without a loop.  A lowest set bit, or the ones from the highest set bit
down, is multiplied by a constant whose top bits then index a table; the set bits are counted by
sums of ever wider fields.
-/

namespace Tinycc.Runtime
open BitVec

open Tinycc.Lib

def table132 : List ℕ :=
  [0, 1, 28, 2, 29, 14, 24, 3, 30, 22, 20, 15, 25, 17, 4, 8,
    31, 27, 13, 23, 21, 19, 16, 7, 26, 12, 18, 6, 11, 5, 10, 9]

def table232 : List ℕ :=
  [31, 22, 30, 21, 18, 10, 29, 2, 20, 17, 15, 13, 9, 6, 28, 1,
    23, 19, 11, 3, 16, 14, 7, 24, 12, 4, 8, 25, 5, 26, 27, 0]

def table164 : List ℕ :=
  [0, 1, 2, 53, 3, 7, 54, 27, 4, 38, 41, 8, 34, 55, 48, 28,
    62, 5, 39, 46, 44, 42, 22, 9, 24, 35, 59, 56, 49, 18, 29, 11,
    63, 52, 6, 26, 37, 40, 33, 47, 61, 45, 43, 21, 23, 58, 17, 10,
    51, 25, 36, 32, 60, 20, 57, 16, 50, 31, 19, 15, 30, 14, 13, 12]

def table264 : List ℕ :=
  [63, 16, 62, 7, 15, 36, 61, 3, 6, 14, 22, 26, 35, 47, 60, 2,
    9, 5, 28, 11, 13, 21, 42, 19, 25, 31, 34, 40, 46, 52, 59, 1,
    17, 8, 37, 4, 23, 27, 48, 10, 29, 12, 43, 20, 32, 41, 53, 18,
    38, 24, 49, 30, 44, 33, 54, 39, 50, 45, 55, 51, 56, 57, 58, 0]

section Macros

variable {w : ℕ}

def ctzBy (table : List ℕ) (factor : BitVec w) (shift : ℕ) (x : BitVec w) : ℕ :=
  table.getD (((x &&& -x) * factor) >>> shift).toNat 0

def ffsBy (table : List ℕ) (factor : BitVec w) (shift : ℕ) (x : BitVec w) : ℕ :=
  table.getD (((x &&& -x) * factor) >>> shift).toNat 0 + if x ≠ 0 then 1 else 0

def clzBy (shr : BitVec w → ℕ → BitVec w) (steps table : List ℕ) (factor : BitVec w) (shift : ℕ)
    (x : BitVec w) : ℕ :=
  table.getD (((steps.foldl (fun x s => x ||| shr x s) x) * factor) >>> shift).toNat 0

def popcountBy (m1 m2 m4 factor : BitVec w) (shift : ℕ) (x m : BitVec w) : ℕ :=
  let x := x - ((x >>> 1) &&& m1)
  let x := (x &&& m2) + ((x >>> 2) &&& m2)
  let x := (x + (x >>> 4)) &&& m4
  (((x * factor) >>> shift) &&& m).toNat

end Macros

def ffs : BitVec 32 → ℕ := ffsBy table132 0x077cb531#32 27

def ffsll : BitVec 64 → ℕ := ffsBy table164 0x022fdd63cc95386d#64 58

def clz : BitVec 32 → ℕ :=
  clzBy (fun x s => x >>> s) [1, 2, 4, 8, 16] table232 0x07c4acdd#32 27

def clzll : BitVec 64 → ℕ :=
  clzBy (fun x s => x >>> s) [1, 2, 4, 8, 16, 32] table264 0x03f79d71b4cb0a89#64 58

def ctz : BitVec 32 → ℕ := ctzBy table132 0x077cb531#32 27

def ctzll : BitVec 64 → ℕ := ctzBy table164 0x022fdd63cc95386d#64 58

/-- The operand is an `int`, so `CLZI` smears it with the shift that copies the sign bit. -/
def clrsb (x : BitVec 32) : ℕ :=
  let x := if x.slt 0 then ~~~x else x
  let x := x <<< 1
  clzBy (fun x s => x.sshiftRight s) [1, 2, 4, 8, 16] table232 0x07c4acdd#32 27 x

def clrsbll (x : BitVec 64) : ℕ :=
  let x := if x.slt 0 then ~~~x else x
  let x := x <<< 1
  clzBy (fun x s => x.sshiftRight s) [1, 2, 4, 8, 16, 32] table264 0x03f79d71b4cb0a89#64 58 x

def popcounti (x m : BitVec 32) : ℕ :=
  popcountBy 0x55555555#32 0x33333333#32 0xf0f0f0f#32 0x01010101#32 24 x m

def popcountl (x m : BitVec 64) : ℕ :=
  popcountBy 0x5555555555555555#64 0x3333333333333333#64 0xf0f0f0f0f0f0f0f#64
    0x0101010101010101#64 56 x m

def popcount (x : BitVec 32) : ℕ := popcounti x 0x3f#32

def popcountll (x : BitVec 64) : ℕ := popcountl x 0x7f#64

def parity (x : BitVec 32) : ℕ := popcounti x 0x01#32

def parityll (x : BitVec 64) : ℕ := popcountl x 0x01#64

/-! ## The table look-ups -/

section Tables

variable {w : ℕ} {x factor : BitVec w} {table steps : List ℕ} {shift : ℕ}

section

variable (htable : ∀ t < w, table.getD ((BitVec.twoPow w t * factor) >>> shift).toNat 0 = t)
include htable

theorem ctzBy_eq (hx : x ≠ 0#w) :
    ctzBy table factor shift x = trailingZeros x := by
  obtain ⟨t, ht⟩ := exists_isLowest hx
  rw [ctzBy, ht.and_neg, ht.trailingZeros]
  exact htable t (lt_of_getLsbD ht.set)

theorem ffsBy_eq (h0 : table.getD 0 0 = 0) :
    ffsBy table factor shift x = if x = 0#w then 0 else 1 + trailingZeros x := by
  by_cases hx : x = 0#w
  · subst hx
    rw [ffsBy, zero_and, zero_mul, zero_ushiftRight, toNat_zero, h0]
    rfl
  · rw [← ctzBy_eq htable hx]
    simp [ffsBy, ctzBy, hx, Nat.add_comm]

end

/-- What a table of `clzBy` holds: at the ones from bit `t` down the number of bits above, and at
zero one less than the width. -/
def ClzTable (table : List ℕ) (factor : BitVec w) (shift : ℕ) : Prop :=
  (∀ t < w, table.getD ((BitVec.ofNat w (2 ^ (t + 1) - 1) * factor) >>> shift).toNat 0
    = w - 1 - t) ∧ table.getD 0 0 = w - 1

instance (table : List ℕ) (factor : BitVec w) (shift : ℕ) :
    Decidable (ClzTable table factor shift) := by
  unfold ClzTable
  infer_instance

/-- The steps smear every number over its whole width. -/
def Smears (shr : BitVec w → ℕ → BitVec w) (steps : List ℕ) : Prop :=
  ∀ x, ∃ s, w ≤ s ∧ Smeared s x (steps.foldl (fun x s => x ||| shr x s) x)

variable {shr : BitVec w → ℕ → BitVec w}

section

variable (htable : ClzTable table factor shift)
include htable

theorem clzBy_eq (hshr : Smears shr steps)
    (hx : x ≠ 0#w) : clzBy shr steps table factor shift x = leadingZeros x := by
  obtain ⟨t, ht⟩ := exists_isHighest hx
  obtain ⟨s, hs, hsmear⟩ := hshr x
  rw [clzBy, ht.smeared hsmear hs, ht.leadingZeros]
  exact htable.1 t ht.lt

theorem clzBy_zero (hshr : Smears shr steps) :
    clzBy shr steps table factor shift (0#w) = w - 1 := by
  obtain ⟨s, _, hsmear⟩ := hshr 0#w
  rw [clzBy, smeared_zero hsmear]
  simpa using htable.2

theorem clrsb_eq (hshr : Smears shr steps) :
    clzBy shr steps table factor shift ((if x.slt 0#w then ~~~x else x) <<< 1)
      = redundantSignBits x := by
  rw [redundantSignBits_eq]
  have hslt : x.slt 0#w = x.msb := slt_zero_eq_msb
  rw [hslt]
  by_cases hx : (if x.msb then ~~~x else x) <<< 1 = 0#w
  · rw [if_pos hx, hx, clzBy_zero htable hshr]
  · rw [if_neg hx, clzBy_eq htable hshr hx]

end

end Tables

theorem table132_get : ∀ t < 32,
    table132.getD ((BitVec.twoPow 32 t * 0x077cb531#32) >>> 27).toNat 0 = t := by decide

theorem table164_get : ∀ t < 64,
    table164.getD ((BitVec.twoPow 64 t * 0x022fdd63cc95386d#64) >>> 58).toNat 0 = t := by decide

theorem table232_clzTable : ClzTable table232 0x07c4acdd#32 27 := by decide

theorem table264_clzTable : ClzTable table264 0x03f79d71b4cb0a89#64 58 := by decide

theorem smears32 : Smears (fun (x : BitVec 32) s => x >>> s) [1, 2, 4, 8, 16] := fun x =>
  ⟨32, le_rfl, (smeared_self x).shift.shift.shift.shift.shift⟩

theorem smears64 : Smears (fun (x : BitVec 64) s => x >>> s) [1, 2, 4, 8, 16, 32] := fun x =>
  ⟨64, le_rfl, (smeared_self x).shift.shift.shift.shift.shift.shift⟩

theorem smears_signed32 :
    Smears (fun (x : BitVec 32) s => x.sshiftRight s) [1, 2, 4, 8, 16] := fun x =>
  ⟨32, le_rfl, (smeared_self x).sshift.sshift.sshift.sshift.sshift⟩

theorem smears_signed64 :
    Smears (fun (x : BitVec 64) s => x.sshiftRight s) [1, 2, 4, 8, 16, 32] := fun x =>
  ⟨64, le_rfl, (smeared_self x).sshift.sshift.sshift.sshift.sshift.sshift⟩

/-! ## The sums of fields -/

section Sums

variable {n : ℕ}

theorem mod_two_pow_and {a m w : ℕ} (hm : m < 2 ^ w) : a % 2 ^ w &&& m = a &&& m := by
  rw [← Nat.and_two_pow_sub_one_eq_mod, Nat.and_assoc, Nat.and_comm _ m,
    Nat.and_two_pow_sub_one_of_lt_two_pow hm]

theorem popcountBy_eq {m1 m2 m4 factor x m : BitVec (8 * (n + 1))} (hn : n < 31)
    (h1 : m1.toNat = evenMask 1 (4 * (n + 1))) (h2 : m2.toNat = evenMask 2 (2 * (n + 1)))
    (h4 : m4.toNat = evenMask 4 (n + 1)) (hfactor : factor.toNat = fieldOnes 8 (n + 1)) :
    popcountBy m1 m2 m4 factor (8 * n) x m = popCount x &&& m.toNat := by
  have hw1 : x.toNat < 2 ^ (2 * (4 * (n + 1))) := by
    rw [show 2 * (4 * (n + 1)) = 8 * (n + 1) by omega]
    exact x.isLt
  have hx1 : (x - ((x >>> 1) &&& m1)).toNat = pairSum 1 (4 * (n + 1)) x.toNat := by
    have hle : ((x >>> 1) &&& m1).toNat ≤ x.toNat := by
      exact Nat.and_le_left.trans (Nat.div_le_self ..)
    rw [toNat_sub_of_le hle, toNat_and, h1]
    exact sub_odd_eq_pairSum hw1
  unfold popcountBy
  dsimp only
  generalize x - ((x >>> 1) &&& m1) = x1 at hx1 ⊢
  have hx2 : ((x1 &&& m2) + ((x1 >>> 2) &&& m2)).toNat = pairSum 2 (2 * (n + 1)) x1.toNat := by
    have hlt := pairSum_lt (k := 2) (by decide) (2 * (n + 1)) x1.toNat
    rw [show 2 * 2 * (2 * (n + 1)) = 8 * (n + 1) by omega] at hlt
    rw [toNat_add, toNat_and, toNat_and, toNat_ushiftRight,
      Nat.shiftRight_eq_div_pow, h2]
    exact Nat.mod_eq_of_lt hlt
  generalize (x1 &&& m2) + ((x1 >>> 2) &&& m2) = x2 at hx2 ⊢
  -- the fields are wide enough for their sums
  have hle1 : fieldsLe 2 2 (4 * (n + 1)) x1.toNat := by
    rw [hx1]
    exact fieldsLe_pairSum (by decide) (fieldsLe_one ..)
  have hle2 : fieldsLe 4 4 (2 * (n + 1)) x2.toNat := by
    rw [hx2]
    refine fieldsLe_pairSum (k := 2) (b := 2) (by decide) ?_
    rwa [show 2 * (2 * (n + 1)) = 4 * (n + 1) by omega]
  have hx4 : ((x2 + x2 >>> 4) &&& m4).toNat = pairSum 4 (n + 1) x2.toNat := by
    rw [toNat_and, toNat_add, mod_two_pow_and m4.isLt, toNat_ushiftRight,
      Nat.shiftRight_eq_div_pow, h4]
    exact add_shift_and_eq_pairSum (by decide) hle2 x2.isLt
  generalize (x2 + x2 >>> 4) &&& m4 = x4 at hx4 ⊢
  have hle4 : fieldsLe 8 8 (n + 1) x4.toNat := by
    rw [hx4]
    exact fieldsLe_pairSum (by decide) hle2
  have hsum : fieldSum 8 (n + 1) x4.toNat = popCount x := by
    calc fieldSum 8 (n + 1) x4.toNat = fieldSum 4 (2 * (n + 1)) x2.toNat := by
          rw [hx4]
          exact fieldSum_pairSum (k := 4) (by decide) ..
      _ = fieldSum 2 (2 * (2 * (n + 1))) x1.toNat := by
          rw [hx2]
          exact fieldSum_pairSum (k := 2) (by decide) ..
      _ = fieldSum 1 (2 * (4 * (n + 1))) x.toNat := by
          rw [hx1, show 2 * (2 * (n + 1)) = 4 * (n + 1) by omega]
          exact fieldSum_pairSum (k := 1) (by decide) ..
      _ = popCount x := by
          rw [popCount_eq_fieldSum, show 2 * (4 * (n + 1)) = 8 * (n + 1) by omega]
  -- the product has the sum of all bytes in its top byte
  have htop := mul_fieldOnes_top (k := 8) (n := n) (y := x4.toNat)
    (lt_of_le_of_lt (fieldSum_le hle4) (by omega))
  rw [toNat_and, toNat_ushiftRight, toNat_mul, Nat.shiftRight_eq_div_pow,
    hfactor, htop, hsum]

end Sums

theorem popCount_le {w : ℕ} (x : BitVec w) : popCount x ≤ w := by
  have hle := List.countP_le_length (p := x.getLsbD) (l := List.range w)
  rwa [List.length_range] at hle

theorem popcounti_eq (x m : BitVec 32) : popcounti x m = popCount x &&& m.toNat :=
  popcountBy_eq (n := 3) (by decide) (by decide) (by decide) (by decide) (by decide)

theorem popcountl_eq (x m : BitVec 64) : popcountl x m = popCount x &&& m.toNat :=
  popcountBy_eq (n := 7) (by decide) (by decide) (by decide) (by decide) (by decide)

/-- Each builtin returns the number its name stands for. -/
theorem bitBuiltins_correct :
    (∀ x : BitVec 32, (x ≠ 0 → clz x = leadingZeros x ∧ ctz x = trailingZeros x) ∧
      (ffs x = if x = 0 then 0 else 1 + trailingZeros x) ∧
      popcount x = popCount x ∧ parity x = popCount x % 2 ∧ clrsb x = redundantSignBits x) ∧
    (∀ x : BitVec 64, (x ≠ 0 → clzll x = leadingZeros x ∧ ctzll x = trailingZeros x) ∧
      (ffsll x = if x = 0 then 0 else 1 + trailingZeros x) ∧
      popcountll x = popCount x ∧ parityll x = popCount x % 2 ∧
      clrsbll x = redundantSignBits x) := by
  constructor
  · intro x
    have hle := popCount_le x
    refine ⟨fun hx => ⟨clzBy_eq table232_clzTable smears32 hx, ctzBy_eq table132_get hx⟩,
      ffsBy_eq table132_get rfl, ?_, ?_, clrsb_eq table232_clzTable smears_signed32⟩
    · rw [popcount, popcounti_eq]
      exact (Nat.and_two_pow_sub_one_eq_mod _ 6).trans (Nat.mod_eq_of_lt (by omega))
    · rw [parity, popcounti_eq]
      exact Nat.and_two_pow_sub_one_eq_mod _ 1
  · intro x
    have hle := popCount_le x
    refine ⟨fun hx => ⟨clzBy_eq table264_clzTable smears64 hx, ctzBy_eq table164_get hx⟩,
      ffsBy_eq table164_get rfl, ?_, ?_, clrsb_eq table264_clzTable smears_signed64⟩
    · rw [popcountll, popcountl_eq]
      exact (Nat.and_two_pow_sub_one_eq_mod _ 7).trans (Nat.mod_eq_of_lt (by omega))
    · rw [parityll, popcountl_eq]
      exact Nat.and_two_pow_sub_one_eq_mod _ 1

theorem bitBuiltins_correct_twelve : (12 : BitVec 32) ≠ 0 ∧
    clz 12 = leadingZeros (12 : BitVec 32) ∧ ctz 12 = trailingZeros (12 : BitVec 32) :=
  ⟨by decide, (bitBuiltins_correct.1 12).1 (by decide)⟩

end Tinycc.Runtime
