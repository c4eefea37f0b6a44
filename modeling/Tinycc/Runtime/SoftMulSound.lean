import Tinycc.Runtime.SoftAddSound
import Tinycc.Runtime.SoftMul

namespace Tinycc
open Rounding FloatFormat
open BitVec hiding not_not not_or add_mul zero_mul mul_one

section NormalForm

variable {f : FloatFormat} {w : ℕ}

/-- A finite nonzero number with the leading bit of its significand in the implicit place; the
exponent of a subnormal one goes below 1. -/
structure NormalForm (f : FloatFormat) (n : ℕ) (exp : ℤ) (sig : ℕ) : Prop where
  ge : 2 ^ f.fracBits ≤ sig
  lt : sig < 2 * 2 ^ f.fracBits
  mag_eq : f.mag (n % f.signBit) = sig * 2 ^ (exp - f.bias - f.fracBits)

variable {n : ℕ} {exp : ℤ} {mant : BitVec w}

theorem scaleSubnormal_spec (hw : f.fracBits + 1 < w) (k : ℕ)
    (hlt : mant.toNat < 2 * 2 ^ f.fracBits) (hfuel : 2 ^ f.fracBits ≤ mant.toNat * 2 ^ k)
    (hmag : f.mag (n % f.signBit) = mant.toNat * 2 ^ (exp - f.bias - f.fracBits)) :
    ∃ exp' mant', scaleSubnormal ((1 : BitVec w) <<< f.fracBits) (k + 1) exp mant =
        some (exp', mant') ∧ NormalForm f n exp' mant'.toNat := by
  have htest : ∀ m : BitVec w, m.toNat < 2 * 2 ^ f.fracBits →
      (m &&& ((1 : BitVec w) <<< f.fracBits) = 0 ↔ m.toNat < 2 ^ f.fracBits) := by
    intro m hm
    have hbit := and_one_shiftLeft_ne_zero (n := f.fracBits) (by omega) m
    have hdiv : m.toNat / 2 ^ f.fracBits < 2 := (Nat.div_lt_iff_lt_mul (by positivity)).mpr hm
    rw [← not_iff_not, ← ne_eq, hbit, Nat.mod_eq_of_lt hdiv, Nat.not_lt,
      ← Nat.one_le_div_iff (by positivity)]
    omega
  induction k generalizing exp mant with
  | zero =>
    rw [scaleSubnormal, if_neg ((htest mant hlt).not.mpr (by omega))]
    exact ⟨exp, mant, rfl, by omega, hlt, hmag⟩
  | succ k ih =>
    rw [scaleSubnormal]
    split
    case isTrue hzero =>
      have hsmall := (htest mant hlt).mp hzero
      have hroom : 2 ^ (f.fracBits + 1) < 2 ^ w := Nat.pow_lt_pow_right (by norm_num) hw
      have hshift : (mant <<< 1).toNat = 2 * mant.toNat := by
        rw [toNat_shiftLeft, Nat.shiftLeft_eq, Nat.mod_eq_of_lt (by rw [pow_succ] at hroom; omega)]
        ring
      apply ih (by omega)
      · rw [hshift, mul_comm 2, mul_assoc, ← pow_succ']
        exact hfuel
      · rw [hmag, hshift, show exp - 1 - f.bias - f.fracBits = exp - f.bias - f.fracBits - 1 by ring,
          zpow_sub_one₀ (by norm_num)]
        push_cast
        ring
    case isFalse hne =>
      have := (htest mant hlt).not.mp hne
      exact ⟨exp, mant, rfl, by omega, hlt, hmag⟩

theorem unpackNormal_spec (hw : f.fracBits + 1 < w) {sign : Bool}
    (h : Fields f n sign exp mant.toNat) (hne : n % f.signBit ≠ 0) :
    ∃ exp' mant', unpackNormal f.fracBits exp mant = some (exp', mant') ∧
      NormalForm f n exp' mant'.toNat := by
  have hsig := h.significand
  have hlt : mant.toNat < 2 ^ f.fracBits := h.mant_eq ▸ Nat.mod_lt _ (by positivity)
  have hexp := h.exp_eq
  rw [unpackNormal]
  by_cases hzero : exp = 0
  · have hmant : mant.toNat ≠ 0 := fun h0 => hne (h.zero_iff.mp ⟨hzero, h0⟩)
    rw [if_pos hzero, if_pos hzero] at hsig
    simp only [hzero, ne_eq, not_true_eq_false, if_false]
    obtain ⟨k, rfl⟩ : ∃ k, w = k + 1 := ⟨w - 1, by omega⟩
    apply scaleSubnormal_spec hw k (by omega)
    · exact (Nat.pow_le_pow_right (by norm_num) (by omega)).trans
        (Nat.le_mul_of_pos_left _ (Nat.pos_of_ne_zero hmant))
    · exact_mod_cast hsig.mag_eq
  · rw [if_neg hzero, if_neg hzero] at hsig
    simp only [hzero, ne_eq, not_false_eq_true, if_true]
    refine ⟨_, _, rfl, ?_, ?_, ?_⟩
    · rw [toNat_or_implicit (by omega) hlt]
      omega
    · rw [toNat_or_implicit (by omega) hlt]
      omega
    · have hnonneg : (exp.toNat : ℤ) = exp := Int.toNat_of_nonneg (by rw [hexp]; positivity)
      rw [toNat_or_implicit (by omega) hlt, hsig.mag_eq, ulp, hnonneg]

end NormalForm

section Products

/-- `r` is the rounded product of the numbers `a` and `b` encode. -/
def IsProduct (f : FloatFormat) (a b r : ℕ) : Prop :=
  f.IsRounding (f.value a * f.value b) (f.negative a ^^ f.negative b) r

variable {f : FloatFormat}

variable {n a b : ℕ} {ea eb : ℤ}

theorem isRounding_congr {x y : ℚ} {neg : Bool} (h : f.IsRounding x neg n) (habs : |x| = |y|) :
    f.IsRounding y neg n :=
  ⟨h.lt, h.negative_eq, habs ▸ h.nearest⟩

theorem abs_value_mul (f : FloatFormat) (a b : ℕ) :
    |f.value a * f.value b| = f.mag (a % f.signBit) * f.mag (b % f.signBit) := by
  rw [abs_mul, f.abs_value, f.abs_value]

theorem isRounding_signedZero (f : FloatFormat) (neg : Bool)
    (hn : n = if neg then f.signBit else 0) : f.IsRounding 0 neg n := by
  apply isRounding_of_toNat (k := 0) (by rw [hn, add_zero]) (Nat.zero_le _)
  have hinf : 0 < f.infinity := Nat.mul_pos (by have := f.expMax_pos; omega) (by positivity)
  simpa using isNearestEven_mag hinf

theorem isProduct_zero {r : ℕ} (h : a % f.signBit = 0 ∨ b % f.signBit = 0)
    (hr : r = if f.negative a ^^ f.negative b then f.signBit else 0) : IsProduct f a b r := by
  have hzero : f.value a * f.value b = 0 := by
    rw [mul_eq_zero, f.value_eq_zero_iff, f.value_eq_zero_iff]
    exact h
  rw [IsProduct, hzero]
  exact isRounding_signedZero f _ hr

theorem mul_eq_of_scale {x y : ℚ} {A B : ℕ} (hx : x = A * 2 ^ (ea - f.bias - f.fracBits))
    (hy : y = B * 2 ^ (eb - f.bias - f.fracBits)) :
    x * y = (A * B : ℕ) * 2 ^ (ea + eb - 2 * f.bias - 2 * f.fracBits) := by
  rw [hx, hy, show ea + eb - 2 * f.bias - 2 * f.fracBits =
    ea - f.bias - f.fracBits + (eb - f.bias - f.fracBits) by ring, zpow_add₀ (by norm_num)]
  push_cast
  ring

theorem NormalForm.mul_bounds {A B : ℕ} (ha : NormalForm f a ea A) (hb : NormalForm f b eb B) :
    2 ^ (2 * f.fracBits) ≤ A * B ∧ A * B < 2 ^ (2 * f.fracBits + 2) := by
  have hge := Nat.mul_le_mul ha.ge hb.ge
  have hlt := Nat.mul_lt_mul'' ha.lt hb.lt
  have hlow : 2 ^ (2 * f.fracBits) = 2 ^ f.fracBits * 2 ^ f.fracBits := by ring
  have hhigh : 2 ^ (2 * f.fracBits + 2) = 2 * 2 ^ f.fracBits * (2 * 2 ^ f.fracBits) := by ring
  rw [hlow, hhigh]
  exact ⟨hge, hlt⟩

end Products

theorem toNat_lowWord (x : BitVec 64) : (lowWord x).toNat = x.toNat % 4294967296 :=
  toNat_setWidth 32 x

theorem toNat_highWord (x : BitVec 64) : (highWord x).toNat = x.toNat / 4294967296 := by
  rw [highWord, toNat_setWidth, toNat_ushiftRight]
  omega

theorem words_toNat (x : BitVec 64) :
    (highWord x).toNat * 4294967296 + (lowWord x).toNat = x.toNat := by
  rw [toNat_highWord]
  exact Nat.div_add_mod' _ _

theorem toNat_widen (x : BitVec 32) : (x.setWidth 64).toNat = x.toNat := by
  rw [toNat_setWidth, Nat.mod_eq_of_lt (by omega)]

theorem toNat_widen_mul (x y : BitVec 32) :
    (x.setWidth 64 * y.setWidth 64).toNat = x.toNat * y.toNat := by
  have hlt : x.toNat * y.toNat ≤ 4294967295 * 4294967295 :=
    Nat.mul_le_mul (by have := x.isLt; omega) (by have := y.isLt; omega)
  rw [toNat_mul, toNat_widen, toNat_widen, Nat.mod_eq_of_lt (by omega)]

theorem columns_eq (p00 p01 p10 p11 : ℕ) :
    (p11 + p01 / 4294967296 + p10 / 4294967296 +
        (p00 / 4294967296 + p01 % 4294967296 + p10 % 4294967296) / 4294967296) *
        18446744073709551616 +
      ((p00 / 4294967296 + p01 % 4294967296 + p10 % 4294967296) % 4294967296 * 4294967296 +
        p00 % 4294967296) =
      p11 * 18446744073709551616 + (p01 + p10) * 4294967296 + p00 := by
  omega

theorem toNat_shl_or {w : ℕ} (x y : BitVec w) {k : ℕ} (hk : k ≤ w) (hy : y.toNat < 2 ^ k) :
    ((x <<< k) ||| y).toNat = x.toNat % 2 ^ (w - k) * 2 ^ k + y.toNat := by
  have hpow : 2 ^ w = 2 ^ (w - k) * 2 ^ k := by rw [← pow_add, Nat.sub_add_cancel hk]
  rw [toNat_or, toNat_shiftLeft, Nat.shiftLeft_eq, hpow, Nat.mul_mod_mul_right,
    ← Nat.shiftLeft_eq, ← Nat.shiftLeft_add_eq_or_of_lt hy]

theorem mul64wide_spec (a b : BitVec 64) :
    (mul64wide a b).1.toNat * 18446744073709551616 + (mul64wide a b).2.toNat =
      a.toNat * b.toNat := by
  have hab : a.toNat * b.toNat < 18446744073709551616 * 18446744073709551616 :=
    Nat.mul_lt_mul'' a.isLt b.isLt
  have hsplit : a.toNat * b.toNat =
      (highWord a).toNat * (highWord b).toNat * 18446744073709551616 +
      ((lowWord a).toNat * (highWord b).toNat + (highWord a).toNat * (lowWord b).toNat) *
        4294967296 + (lowWord a).toNat * (lowWord b).toNat := by
    have ha := Nat.div_add_mod' a.toNat 4294967296
    have hb := Nat.div_add_mod' b.toNat 4294967296
    rw [toNat_highWord, toNat_highWord, toNat_lowWord, toNat_lowWord]
    calc a.toNat * b.toNat
        = (a.toNat / 4294967296 * 4294967296 + a.toNat % 4294967296) *
          (b.toNat / 4294967296 * 4294967296 + b.toNat % 4294967296) := by rw [ha, hb]
      _ = _ := by ring
  rw [hsplit, ← columns_eq] at hab ⊢
  simp only [mul64wide]
  generalize lowWord a = a0 at hab ⊢
  generalize highWord a = a1 at hab ⊢
  generalize lowWord b = b0 at hab ⊢
  generalize highWord b = b1 at hab ⊢
  have hp00 : a0.toNat * b0.toNat ≤ 4294967295 * 4294967295 :=
    Nat.mul_le_mul (by have := a0.isLt; omega) (by have := b0.isLt; omega)
  rw [toNat_shl_or _ _ (by decide) (by rw [toNat_widen]; exact BitVec.isLt _)]
  simp only [toNat_add, toNat_widen, toNat_highWord, toNat_lowWord, toNat_widen_mul]
  generalize a0.toNat * b1.toNat = p01 at hab ⊢
  generalize a1.toNat * b0.toNat = p10 at hab ⊢
  generalize a1.toNat * b1.toNat = p11 at hab ⊢
  -- no column overflows its word, because the whole product fits
  rw [Nat.mod_eq_of_lt (show p11 + p01 / 4294967296 < 2 ^ 64 by omega),
    Nat.mod_eq_of_lt (show p11 + p01 / 4294967296 + p10 / 4294967296 < 2 ^ 64 by omega)]
  omega

theorem significand_words {h1 h0 l1 U D : ℕ} (hUD : U * D = 4294967296) (hh1 : h1 < D) :
    (h1 % D * U + h0 / D) * 4294967296 + (h0 % D * U + l1 / D) =
      (h1 * 4294967296 + h0) * U + l1 / D := by
  -- the product's upper bits, put together from the four words
  have hsplit := Nat.div_add_mod h0 D
  rw [Nat.mod_eq_of_lt hh1]
  calc (h1 * U + h0 / D) * 4294967296 + (h0 % D * U + l1 / D)
      = h1 * U * 4294967296 + (D * (h0 / D) + h0 % D) * U + l1 / D := by rw [← hUD]; ring
    _ = _ := by rw [hsplit]; ring

theorem product_div_mod (h l1 : ℕ) {l0 U G : ℕ} (hUG : 2 * (U * G) = 4294967296) (hl0 : l0 < 4294967296) :
    (h * 18446744073709551616 + (l1 * 4294967296 + l0)) / (G * 4294967296) = h * U * 2 + l1 / G ∧
    (h * 18446744073709551616 + (l1 * 4294967296 + l0)) % (G * 4294967296) =
      l1 % G * 4294967296 + l0 := by
  have hG : 0 < G := Nat.pos_of_ne_zero fun h => by simp [h] at hUG
  have hsplit := Nat.div_add_mod l1 G
  have hmod := Nat.mod_lt l1 hG
  have hlow : l1 % G * 4294967296 + l0 < G * 4294967296 := by
    omega
  have hsum : h * 18446744073709551616 + (l1 * 4294967296 + l0) =
      G * 4294967296 * (h * U * 2 + l1 / G) + (l1 % G * 4294967296 + l0) := by
    calc h * 18446744073709551616 + (l1 * 4294967296 + l0)
        = h * (4294967296 * 4294967296) + ((G * (l1 / G) + l1 % G) * 4294967296 + l0) := by
          rw [hsplit]
      _ = h * (2 * (U * G) * 4294967296) + ((G * (l1 / G) + l1 % G) * 4294967296 + l0) := by
          rw [hUG]
      _ = _ := by ring
  rw [hsum, Nat.mul_add_div (by positivity), Nat.mul_add_mod, Nat.div_eq_of_lt hlow,
    Nat.mod_eq_of_lt hlow]
  exact ⟨rfl, rfl⟩

theorem guard_fields (M q r : ℕ) :
    (M + q / 2) * 2 ^ (1 + 2) + ((if q % 2 = 1 then 1 else 0) * 2 ^ 2 + if r ≠ 0 then 1 else 0) =
      4 * (M * 2 + q) + if r = 0 then 0 else 1 := by
  rcases Nat.mod_two_eq_zero_or_one q with hq | hq <;> by_cases hr : r = 0 <;> simp [hq, hr] <;>
    omega

/-- Cutting the product down keeps its upper bits, the guard bit, and whether anything is lost. -/
theorem productSignificand_spec (prodHi prodLo : BitVec 64) {up : ℕ} (hup : up ≤ 31)
    (hlt : prodHi.toNat * 2 ^ up < 1152921504606846976) :
    (productSignificand up prodHi prodLo).toNat =
      guardSticky (prodHi.toNat * 18446744073709551616 + prodLo.toNat) (63 - up) := by
  obtain ⟨U, hU⟩ : ∃ U, U = 2 ^ up := ⟨_, rfl⟩
  obtain ⟨G, hG⟩ : ∃ G, G = 2 ^ (31 - up) := ⟨_, rfl⟩
  have hD : 2 ^ (32 - up) = 2 * G := by
    rw [hG, ← pow_succ']
    congr 1
    omega
  have hUD : U * (2 * G) = 4294967296 := by
    rw [hU, ← hD, ← pow_add, Nat.add_sub_cancel' (by omega)]
    norm_num
  have hcut : 2 ^ (63 - up) = G * 4294967296 := by
    rw [hG, show (4294967296 : ℕ) = 2 ^ 32 by norm_num, ← pow_add]
    congr 1
    omega
  have hprod : prodHi.toNat = (highWord prodHi).toNat * 4294967296 + (lowWord prodHi).toNat ∧
      prodLo.toNat = (highWord prodLo).toNat * 4294967296 + (lowWord prodLo).toNat :=
    ⟨(words_toNat _).symm, (words_toNat _).symm⟩
  simp only [productSignificand]
  rw [guardSticky, hcut, hprod.2]
  rw [hprod.1, ← hU] at hlt
  rw [hprod.1]
  generalize highWord prodHi = h1 at hlt ⊢
  generalize lowWord prodHi = h0 at hlt ⊢
  generalize highWord prodLo = l1
  generalize lowWord prodLo = l0
  have hGpos : 0 < G := by rw [hG]; positivity
  have hshr : ∀ y : BitVec 32, (y >>> (32 - up)).toNat = y.toNat / (2 * G) ∧
      (y >>> (32 - up)).toNat < 2 ^ up := by
    intro y
    rw [toNat_shr, hD]
    refine ⟨rfl, ?_⟩
    rw [Nat.div_lt_iff_lt_mul (by omega), ← hU, hUD]
    exact y.isLt
  have hh1 : h1.toNat < 2 * G := by
    have hle : h1.toNat * U * 4294967296 ≤ (h1.toNat * 4294967296 + h0.toNat) * U := by
      rw [mul_right_comm]
      exact Nat.mul_le_mul_right _ (by omega)
    by_contra hge
    have := Nat.mul_le_mul_right U (not_lt.mp hge)
    rw [mul_comm (2 * G)] at this
    omega
  have hLo := toNat_shl_or h0 (l1 >>> (32 - up)) (by omega) (hshr l1).2
  have hHi := toNat_shl_or h1 (h0 >>> (32 - up)) (by omega) (hshr h0).2
  rw [hD, ← hU, (hshr _).1] at hLo hHi
  have hmant := toNat_shl_or (w := 64) (BitVec.setWidth 64 (h1 <<< up ||| h0 >>> (32 - up)))
    (BitVec.setWidth 64 (h0 <<< up ||| l1 >>> (32 - up))) (by decide : 32 ≤ 64)
    (by rw [toNat_widen]; exact BitVec.isLt _)
  rw [toNat_widen, toNat_widen, Nat.mod_eq_of_lt (BitVec.isLt _), hHi, hLo,
    show 2 ^ 32 = 4294967296 by norm_num, significand_words hUD hh1] at hmant
  obtain ⟨hdiv, hmod⟩ := product_div_mod (h1.toNat * 4294967296 + h0.toNat) l1.toNat
    (by linarith : 2 * (U * G) = 4294967296) l0.isLt
  rw [hdiv, hmod]
  -- the three fields of the result
  generalize (BitVec.setWidth 64 (h1 <<< up ||| h0 >>> (32 - up))) <<< 32 |||
    BitVec.setWidth 64 (h0 <<< up ||| l1 >>> (32 - up)) = mant at hmant ⊢
  have hhalf : l1.toNat / (2 * G) = l1.toNat / G / 2 := by rw [Nat.div_div_eq_div_mul, mul_comm]
  have hmant3 : (mant <<< 3).toNat =
      ((h1.toNat * 4294967296 + h0.toNat) * U + l1.toNat / G / 2) * 2 ^ (1 + 2) := by
    rw [toNat_shiftLeft, Nat.shiftLeft_eq, hmant, hhalf, Nat.mod_eq_of_lt (by omega)]
  have hguard : (l1 >>> (31 - up)) &&& 1 ≠ 0 ↔ l1.toNat / G % 2 = 1 := by
    rw [← toNat_ne_iff_ne, toNat_and, toNat_shr, ← hG, show (1 : BitVec 32).toNat = 1 from rfl]
    simp
  have hsticky : (l0 ≠ 0 ∨ l1 &&& (((1 : BitVec 32) <<< (31 - up)) - 1) ≠ 0) ↔
      l1.toNat % G * 4294967296 + l0.toNat ≠ 0 := by
    rw [← toNat_ne_iff_ne, ← toNat_ne_iff_ne, toNat_and_mask (by omega), ← hG,
      show (0 : BitVec 32).toNat = 0 from rfl]
    omega
  have hfields := or_fields (s := (h1.toNat * 4294967296 + h0.toNat) * U + l1.toNat / G / 2)
    (e := if l1.toNat / G % 2 = 1 then 1 else 0)
    (c := if l1.toNat % G * 4294967296 + l0.toNat ≠ 0 then 1 else 0) (p := 2) (q := 1)
    (by split <;> decide) (by split <;> decide)
  have hguard2 : (truthWord 64 (decide ((l1 >>> (31 - up)) &&& 1 ≠ 0)) <<< 2).toNat =
      (if l1.toNat / G % 2 = 1 then 1 else 0) * 2 ^ 2 := by
    rw [toNat_shiftLeft, toNat_truthWord (by decide), if_congr hguard rfl rfl]
    split <;> rfl
  rw [toNat_or, toNat_or, hmant3, hguard2, toNat_truthWord (by decide),
    if_congr hsticky rfl rfl, hfields]
  exact guard_fields _ _ _

section Double

variable {n a b r : ℕ} {aSign bSign : Bool} {aExp bExp : ℤ} {aMant bMant : BitVec 64}

theorem stands_guardSticky {f : FloatFormat} {m : ℕ} (h : 2 ^ (f.fracBits + 1) * 2 ^ n ≤ m) :
    Stands f (4 * (m / 2 ^ n)) (guardSticky m n) := by
  refine .inr (.inr ⟨sameCuts_guardSticky m n, ?_⟩)
  have hdiv := (Nat.le_div_iff_mul_le (by positivity)).mpr h
  rw [show 2 ^ (f.fracBits + 3) = 4 * 2 ^ (f.fracBits + 1) by ring]
  exact (Nat.mul_le_mul_left 4 hdiv).trans (Nat.le_add_right _ _)

theorem guardSticky_scale (f : FloatFormat) (m n : ℕ) (e : ℤ) :
    (4 * (m / 2 ^ n) : ℚ) * packScale f e = m * 2 ^ (e - n - f.bias - f.fracBits - 1) := by
  rw [packScale, show e - f.bias - f.fracBits - 3 = e - n - f.bias - f.fracBits - 1 + (n - 2) by ring,
    zpow_add₀ (by norm_num), zpow_sub₀ (by norm_num) (n : ℤ)]
  field_simp
  norm_num
  ring

theorem abs_natCast_mul_zpow (m : ℕ) {s t : ℤ} (h : s = t) : |(m * 2 ^ s : ℚ)| = m * 2 ^ t := by
  rw [h, abs_of_nonneg (by positivity)]

theorem binary64_bias : binary64.bias = 1023 := by decide

theorem dmulGeneral_isProduct (ha : Fields binary64 a aSign aExp aMant.toNat)
    (hb : Fields binary64 b bSign bExp bMant.toNat) (hane : a % binary64.signBit ≠ 0)
    (hbne : b % binary64.signBit ≠ 0) :
    ∃ r, dmulGeneral (aSign ^^ bSign) aExp bExp aMant bMant = some r ∧
      IsProduct binary64 a b r.toNat := by
  obtain ⟨ea, A, hunpackA, hA⟩ := unpackNormal_spec (by decide) ha hane
  obtain ⟨eb, B, hunpackB, hB⟩ := unpackNormal_spec (by decide) hb hbne
  have hprod := mul64wide_spec A B
  obtain ⟨hge, hlt⟩ := hA.mul_bounds hB
  have hmag := mul_eq_of_scale hA.mag_eq hB.mag_eq
  rw [ha.sign_eq, hb.sign_eq]
  change unpackNormal 52 aExp aMant = _ at hunpackA
  change unpackNormal 52 bExp bMant = _ at hunpackB
  simp only [dmulGeneral, hunpackA, hunpackB, Option.bind_eq_bind, Option.bind_some]
  rw [← hprod] at hmag hge hlt
  generalize (mul64wide A B).1 = prodHi at *
  generalize (mul64wide A B).2 = prodLo at *
  change 2 ^ 104 ≤ _ at hge
  change _ < 2 ^ 106 at hlt
  have htest : highWord prodHi &&& ((1 : BitVec 32) <<< 9) ≠ 0 ↔ 2 ^ 41 ≤ prodHi.toNat := by
    rw [and_one_shiftLeft_ne_zero (by decide), toNat_highWord]
    omega
  have hroom : prodHi.toNat * 2 ^ 11 < 1152921504606846976 ∧
      prodHi.toNat * 2 ^ 12 < 1152921504606846976 := by omega
  -- the leading bit of the product is at one of two places
  split
  case isTrue hcarry =>
    have hfull : 2 ^ (52 + 1) * 2 ^ 52 ≤
        prodHi.toNat * 18446744073709551616 + prodLo.toNat := by
      have := htest.mp hcarry
      omega
    have hspec := productSignificand_spec prodHi prodLo (by decide : 11 ≤ 31) hroom.1
    have hstands : Stands binary64 _ (productSignificand 11 prodHi prodLo).toNat :=
      hspec ▸ stands_guardSticky (f := binary64) (n := 52) hfull
    obtain ⟨r, hr, hround⟩ := sfpRoundPackDouble_spec _ (ea + eb - 1023 + 1) hstands
    refine ⟨r, hr, isRounding_congr hround ?_⟩
    rw [abs_value_mul, hmag, guardSticky_scale, binary64_bias]
    apply abs_natCast_mul_zpow
    rw [show binary64.fracBits = 52 from rfl]
    ring
  case isFalse hnocarry =>
    have hfull : 2 ^ (52 + 1) * 2 ^ 51 ≤
        prodHi.toNat * 18446744073709551616 + prodLo.toNat := by omega
    have hspec := productSignificand_spec prodHi prodLo (by decide : 12 ≤ 31) hroom.2
    have hstands : Stands binary64 _ (productSignificand 12 prodHi prodLo).toNat :=
      hspec ▸ stands_guardSticky (f := binary64) (n := 51) hfull
    obtain ⟨r, hr, hround⟩ := sfpRoundPackDouble_spec _ (ea + eb - 1023) hstands
    refine ⟨r, hr, isRounding_congr hround ?_⟩
    rw [abs_value_mul, hmag, guardSticky_scale, binary64_bias]
    apply abs_natCast_mul_zpow
    rw [show binary64.fracBits = 52 from rfl]
    push_cast
    ring

theorem isProduct_powerOfTwo {f : FloatFormat} {ea eb e S : ℕ}
    (ha : Significand f a ea (2 ^ f.fracBits)) (hb : Significand f b eb S) (hS : 2 ^ f.fracBits ≤ S)
    (he : (e + 1 : ℤ) = ea + eb - f.bias) (hfin : e + 1 < f.expMax)
    (hr : r = (if f.negative a ^^ f.negative b then f.signBit else 0) + (e * 2 ^ f.fracBits + S)) :
    IsProduct f a b r := by
  have hlt := hb.lt
  have hinf : e * 2 ^ f.fracBits + S < f.infinity := by
    have := Nat.mul_le_mul_right (2 ^ f.fracBits) (show e + 1 + 1 ≤ f.expMax from hfin)
    rw [add_mul, add_mul] at this
    rw [infinity]
    omega
  have hmag : |f.value a * f.value b| = f.mag (e * 2 ^ f.fracBits + S) := by
    rw [abs_value_mul, ha.mag_eq, hb.mag_eq, f.mag_eq hlt.le (.inr hS), ulp,
      ulp, ulp]
    have hexp : ((e + 1 : ℕ) : ℤ) - f.bias - f.fracBits =
        f.fracBits + (ea - f.bias - f.fracBits) + (eb - f.bias - f.fracBits) := by
      push_cast
      linarith
    rw [hexp, zpow_add₀ (by norm_num), zpow_add₀ (by norm_num), zpow_natCast]
    push_cast
    ring
  apply isRounding_of_toNat hr hinf.le
  rw [hmag]
  exact isNearestEven_mag hinf

theorem IsProduct.symm {f : FloatFormat} (h : IsProduct f a b r) : IsProduct f b a r := by
  rw [IsProduct] at h ⊢
  rwa [mul_comm, Bool.xor_comm]

theorem Fields.significand_normal {f : FloatFormat} {mant : ℕ} {sign : Bool} {exp : ℤ}
    (h : Fields f n sign exp mant) (hexp : exp ≠ 0) :
    Significand f n exp.toNat (2 ^ f.fracBits + mant) ∧ (exp.toNat : ℤ) = exp := by
  have hsig := h.significand
  rw [if_neg hexp, if_neg hexp] at hsig
  exact ⟨hsig, Int.toNat_of_nonneg (by rw [h.exp_eq]; positivity)⟩

theorem makeDouble_isProduct (ha : Fields binary64 a aSign aExp 0)
    (hb : Fields binary64 b bSign bExp bMant.toNat) (haexp : aExp ≠ 0) (hbexp : bExp ≠ 0)
    (hlow : 0 < aExp + bExp - 1023) (hhigh : aExp + bExp - 1023 < 0x7FF) :
    IsProduct binary64 a b (makeDouble (aSign ^^ bSign) (aExp + bExp - 1023) bMant).toNat := by
  obtain ⟨hsa, hea⟩ := ha.significand_normal haexp
  obtain ⟨hsb, heb⟩ := hb.significand_normal hbexp
  have hmant : bMant.toNat % 2 ^ 52 = bMant.toNat :=
    Nat.mod_eq_of_lt (by rw [hb.mant_eq]; exact Nat.mod_lt _ (by positivity))
  obtain ⟨e, he⟩ : ∃ e : ℕ, aExp + bExp - 1023 = (e + 1 : ℕ) :=
    ⟨(aExp + bExp - 1023).toNat - 1, by omega⟩
  have hpack := packLaws_double.make (aSign ^^ bSign) bMant (e + 1)
    (by change e + 1 ≤ 2047; omega)
  rw [← he] at hpack
  apply isProduct_powerOfTwo hsa hsb (Nat.le_add_right _ _) (e := e)
  · rw [binary64_bias]
    omega
  · change e + 1 < 2047
    omega
  · rw [hpack, ha.sign_eq, hb.sign_eq]
    change _ + ((e + 1) * 2 ^ 52 + bMant.toNat % 2 ^ 52) = _ + (e * 2 ^ 52 + (2 ^ 52 + bMant.toNat))
    rw [hmant]
    omega

theorem dmulPowerOfTwo_isProduct {r : BitVec 64} (ha : Fields binary64 a aSign aExp aMant.toNat)
    (hb : Fields binary64 b bSign bExp bMant.toNat)
    (h : dmulPowerOfTwo (aSign ^^ bSign) aExp bExp aMant bMant = some r) :
    IsProduct binary64 a b r.toNat := by
  simp only [dmulPowerOfTwo] at h
  split at h
  case isFalse => cases h
  case isTrue hcond =>
    obtain ⟨haexp, hbexp, hlow, hhigh⟩ := hcond
    split at h
    case isTrue hzero =>
      cases h
      rw [hzero] at ha
      exact makeDouble_isProduct ha hb haexp hbexp hlow hhigh
    case isFalse =>
      split at h
      case isTrue hzero =>
        cases h
        rw [hzero] at hb
        rw [Bool.xor_comm, add_comm aExp]
        exact (makeDouble_isProduct hb ha hbexp haexp (by omega) (by omega)).symm
      case isFalse => cases h

theorem IsProduct.unique {f : FloatFormat} {s : ℕ} (hr : IsProduct f a b r)
    (hs : IsProduct f a b s) : r = s := by
  have hmag := hr.nearest.unique hs.nearest
  have hneg := hr.negative_eq.trans hs.negative_eq.symm
  have hrlt := hr.lt
  have hslt := hs.lt
  rw [negative, negative, decide_eq_decide] at hneg
  have hsplit : ∀ n, n < 2 * f.signBit →
      n = n % f.signBit + if f.signBit ≤ n then f.signBit else 0 := by
    intro n hn
    split
    case isTrue hle =>
      rw [Nat.mod_eq_sub_mod hle, Nat.mod_eq_of_lt (by omega)]
      omega
    case isFalse hlt =>
      rw [Nat.mod_eq_of_lt (by omega)]
      rfl
  rw [hsplit r hrlt, hsplit s hslt, hmag, if_congr hneg rfl rfl]

theorem aeabiDmul_isProduct (a b : BitVec 64) (ha : binary64.IsFinite a.toNat)
    (hb : binary64.IsFinite b.toNat) :
    ∃ r, aeabiDmul a b = some r ∧ IsProduct binary64 a.toNat b.toNat r.toNat := by
  have hfa := double_fields a
  have hfb := double_fields b
  have haexp : doubleExp a ≠ 0x7FF := (hfa.exp_lt ha).ne
  have hbexp : doubleExp b ≠ 0x7FF := (hfb.exp_lt hb).ne
  rw [aeabiDmul]
  simp only [haexp, hbexp, if_false, eq_zero_iff_toNat, hfa.zero_iff, hfb.zero_iff]
  split
  case isTrue hz =>
    refine ⟨_, rfl, isProduct_zero hz ?_⟩
    rw [hfa.sign_eq, hfb.sign_eq]
    exact toNat_signedZero packLaws_double _
  case isFalse hz =>
    rw [not_or] at hz
    cases hshort : dmulPowerOfTwo (doubleSign a ^^ doubleSign b) (doubleExp a) (doubleExp b)
        (doubleMant a) (doubleMant b) with
    | some r => exact ⟨r, rfl, dmulPowerOfTwo_isProduct hfa hfb hshort⟩
    | none => exact dmulGeneral_isProduct hfa hfb hz.1 hz.2

theorem dmulPowerOfTwo_eq_general (a b r : BitVec 64)
    (h : dmulPowerOfTwo (doubleSign a ^^ doubleSign b) (doubleExp a) (doubleExp b) (doubleMant a)
      (doubleMant b) = some r) :
    dmulGeneral (doubleSign a ^^ doubleSign b) (doubleExp a) (doubleExp b) (doubleMant a)
      (doubleMant b) = some r := by
  have hfa := double_fields a
  have hfb := double_fields b
  have hexp : doubleExp a ≠ 0 ∧ doubleExp b ≠ 0 := by
    by_contra hzero
    simp only [dmulPowerOfTwo] at h
    rw [if_neg (fun hcond => hzero ⟨hcond.1, hcond.2.1⟩)] at h
    cases h
  obtain ⟨s, hs, hgeneral⟩ := dmulGeneral_isProduct hfa hfb
    (fun hz => hexp.1 (hfa.zero_iff.mpr hz).1) (fun hz => hexp.2 (hfb.zero_iff.mpr hz).1)
  rw [hs, eq_of_toNat_eq (hgeneral.unique (dmulPowerOfTwo_isProduct hfa hfb h))]

end Double

section Single

theorem binary32_bias : binary32.bias = 127 := by decide

theorem clz32_spec {x : BitVec 32} (hx : x ≠ 0) :
    ∃ n : ℕ, clz32 x = n ∧ n ≤ 31 ∧ 2 ^ 31 ≤ x.toNat * 2 ^ n ∧ x.toNat * 2 ^ n < 2 ^ 32 := by
  obtain ⟨hval, htop, hle⟩ := clzNormalise_spec hx
  refine ⟨(clzNormalise x).2, by rw [clz32, if_neg hx], hle, ?_, ?_⟩
  · rw [← hval]
    exact htop
  · rw [← hval]
    exact BitVec.isLt _

theorem clz64_spec {x : BitVec 64} (hx : x ≠ 0) :
    ∃ n : ℕ, clz64 x = n ∧ n ≤ 63 ∧ 2 ^ 63 ≤ x.toNat * 2 ^ n ∧ x.toNat * 2 ^ n < 2 ^ 64 := by
  have hhigh : ((x >>> 32).setWidth 32).toNat = x.toNat / 4294967296 := toNat_highWord x
  have hlow : (x.setWidth 32).toNat = x.toNat % 4294967296 := toNat_lowWord x
  simp only [clz64]
  split
  case isTrue hne =>
    obtain ⟨n, hn, hle, hge, hlt⟩ := clz32_spec hne
    rw [hhigh] at hge hlt
    refine ⟨n, hn, by omega, ?_, ?_⟩
    · calc 2 ^ 63 = 4294967296 * 2 ^ 31 := by norm_num
        _ ≤ 4294967296 * (x.toNat / 4294967296 * 2 ^ n) := Nat.mul_le_mul_left _ hge
        _ = 4294967296 * (x.toNat / 4294967296) * 2 ^ n := by ring
        _ ≤ x.toNat * 2 ^ n := Nat.mul_le_mul_right _ (by omega)
    · -- the shifted high word has room for one more
      have hpow : 2 ^ 32 = 2 ^ (32 - n) * 2 ^ n := by rw [← pow_add, Nat.sub_add_cancel (by omega)]
      have hsucc : x.toNat / 4294967296 < 2 ^ (32 - n) := by
        rw [hpow] at hlt
        exact Nat.lt_of_mul_lt_mul_right hlt
      calc x.toNat * 2 ^ n < 4294967296 * (x.toNat / 4294967296 + 1) * 2 ^ n :=
            Nat.mul_lt_mul_of_pos_right (by omega) (by positivity)
        _ ≤ 4294967296 * 2 ^ (32 - n) * 2 ^ n := by gcongr; omega
        _ = 4294967296 * 2 ^ 32 := by rw [hpow, mul_assoc]
        _ = 2 ^ 64 := by norm_num
  case isFalse hzero =>
    rw [not_not, ← toNat_inj, hhigh] at hzero
    have hsmall : x.toNat % 4294967296 = x.toNat := Nat.mod_eq_of_lt (by
      have : x.toNat / 4294967296 = 0 := hzero
      omega)
    have hne : x.setWidth 32 ≠ 0 := fun h => hx (eq_of_toNat_eq (by
      rw [← hsmall, ← hlow, h]
      rfl))
    obtain ⟨n, hn, hle, hge, hlt⟩ := clz32_spec hne
    rw [hlow, hsmall] at hge hlt
    refine ⟨32 + n, by rw [hn]; push_cast; ring, by omega, ?_, ?_⟩
    · rw [pow_add, mul_left_comm]
      omega
    · rw [pow_add, mul_left_comm]
      omega

variable {n : ℕ}

theorem fmulAdjust_spec {product : BitVec 64} (hprod : product.toNat < 2 ^ 48)
    (hge : 2 ^ 63 ≤ product.toNat * 2 ^ n) (hlt : product.toNat * 2 ^ n < 2 ^ 64) :
    SameCuts 2 (product.toNat * 2 ^ ((n : ℤ) - 17) : ℚ) (fmulAdjust (n - 17) product).toNat ∧
      2 ^ 46 ≤ (fmulAdjust (n - 17) product).toNat ∧
      (fmulAdjust (n - 17) product).toNat < 2 ^ 47 := by
  have hn : 16 ≤ n := by
    by_contra hsmall
    have : 2 ^ n ≤ 2 ^ 15 := Nat.pow_le_pow_right (by norm_num) (by omega)
    have : product.toNat * 2 ^ n < 2 ^ 48 * 2 ^ 15 :=
      Nat.mul_lt_mul_of_lt_of_le hprod this (by norm_num)
    omega
  rw [fmulAdjust]
  by_cases hfirst : n = 16
  · -- the leading bit is one place too high
    rw [if_neg (by omega), if_pos (by omega), hfirst]
    rw [hfirst] at hge hlt
    have hshr : (sfpShrSticky64 product (-((16 : ℕ) - 17))).toNat = shrSticky product.toNat 1 :=
      toNat_sfpShrSticky (by decide) product 1
    rw [hshr]
    refine ⟨?_, ?_, ?_⟩
    · have := (SameCuts.refl (2 ^ (1 + 1)) (product.toNat : ℚ)).shrSticky
      norm_num at this ⊢
      rwa [div_eq_mul_one_div] at this
    · exact le_shrSticky (m := product.toNat) (n := 1) (b := 2 ^ 45) (by omega)
    · exact shrSticky_lt (m := product.toNat) (n := 1) (b := 2 ^ 46) (by omega)
  · obtain ⟨k, rfl⟩ : ∃ k, n = 17 + k := ⟨n - 17, by omega⟩
    have hk : ((17 + k : ℕ) : ℤ) - 17 = k := by
      push_cast
      ring
    rw [pow_add, mul_left_comm] at hge hlt
    have hval : (if (0 : ℤ) < k then product <<< (k : ℤ).toNat else
        if (k : ℤ) < 0 then sfpShrSticky64 product (-k) else product).toNat =
          product.toNat * 2 ^ k := by
      rw [if_neg (show ¬ (k : ℤ) < 0 by omega)]
      split
      · rw [toNat_shiftLeft, Nat.shiftLeft_eq, Int.toNat_natCast, Nat.mod_eq_of_lt (by omega)]
      · rw [show k = 0 by omega, pow_zero, mul_one]
    rw [hk, hval]
    refine ⟨?_, by omega, by omega⟩
    push_cast
    exact SameCuts.refl _ _

theorem Significand.pos {f : FloatFormat} {e sig : ℕ} (h : Significand f n e sig)
    (hne : n % f.signBit ≠ 0) : 0 < sig := by
  rw [Nat.pos_iff_ne_zero]
  intro hzero
  have hmag := h.mag_eq
  rw [hzero, Nat.cast_zero, zero_mul, ← f.mag_zero, f.mag_strictMono.injective.eq_iff] at hmag
  exact hne hmag

theorem rescale (x : ℚ) (d e : ℤ) (k : ℕ) : x * 2 ^ d / 2 ^ k * 2 ^ (e + k - d) = x * 2 ^ e := by
  rw [zpow_sub₀ (by norm_num) (e + k), zpow_add₀ (by norm_num) e, zpow_natCast]
  field_simp

theorem fmulGeneral_isProduct {a b : ℕ} {aSign bSign : Bool} {aExp bExp : ℤ} {aMant bMant : BitVec 32}
    (ha : Fields binary32 a aSign aExp aMant.toNat) (hb : Fields binary32 b bSign bExp bMant.toNat)
    (hane : a % binary32.signBit ≠ 0) (hbne : b % binary32.signBit ≠ 0) :
    ∃ r, fmulGeneral (aSign ^^ bSign) aExp bExp aMant bMant = some r ∧
      IsProduct binary32 a b r.toNat := by
  obtain ⟨ea, A, hA, hea, haMant⟩ := ha.operand (by decide)
  obtain ⟨eb, B, hB, heb, hbMant⟩ := hb.operand (by decide)
  rw [ha.sign_eq, hb.sign_eq]
  change (if aExp ≠ 0 then aMant ||| ((1 : BitVec 32) <<< 23) else aMant).toNat = _ at haMant
  change (if bExp ≠ 0 then bMant ||| ((1 : BitVec 32) <<< 23) else bMant).toNat = _ at hbMant
  simp only [fmulGeneral, hea, heb]
  generalize (if aExp ≠ 0 then aMant ||| ((1 : BitVec 32) <<< 23) else aMant) = am at haMant ⊢
  generalize (if bExp ≠ 0 then bMant ||| ((1 : BitVec 32) <<< 23) else bMant) = bm at hbMant ⊢
  have hprod := toNat_widen_mul am bm
  rw [haMant, hbMant] at hprod
  generalize am.setWidth 64 * bm.setWidth 64 = product at hprod ⊢
  have hsmall : product.toNat < 2 ^ 48 := by
    have : A * B < 2 * 2 ^ 23 * (2 * 2 ^ 23) := Nat.mul_lt_mul'' hA.lt hB.lt
    omega
  have hmag := mul_eq_of_scale hA.mag_eq hB.mag_eq
  rw [← hprod] at hmag
  have hne : product ≠ 0 := fun h => by
    rw [h] at hprod
    exact (Nat.mul_pos (hA.pos hane) (hB.pos hbne)).ne hprod
  obtain ⟨n, hclz, -, hge, hlt⟩ := clz64_spec hne
  have hadj : (46 : ℤ) - (63 - clz64 product) = n - 17 := by
    rw [hclz]
    ring
  rw [hadj]
  obtain ⟨hcuts, hge', hlt'⟩ := fmulAdjust_spec hsmall hge hlt
  generalize fmulAdjust (n - 17) product = adjusted at hcuts hge' hlt' ⊢
  have hshr : (sfpShrSticky64 adjusted (46 - (23 + 3))).toNat = shrSticky adjusted.toNat 20 :=
    toNat_sfpShrSticky (by decide) adjusted 20
  have hmge : 2 * 2 ^ 25 ≤ shrSticky adjusted.toNat 20 := le_shrSticky (by omega)
  have hmlt : shrSticky adjusted.toNat 20 < 2 * 2 ^ 26 := shrSticky_lt (by omega)
  have hmant : ((sfpShrSticky64 adjusted (46 - (23 + 3))).setWidth 32).toNat =
      shrSticky adjusted.toNat 20 := by
    rw [toNat_setWidth, hshr, Nat.mod_eq_of_lt (by omega)]
  have hstands : Stands binary32 (product.toNat * 2 ^ ((n : ℤ) - 17) / 2 ^ 20)
      ((sfpShrSticky64 adjusted (46 - (23 + 3))).setWidth 32).toNat := by
    rw [hmant]
    refine .inr (.inl ⟨SameCuts.shrSticky ?_, ?_⟩)
    · have := hcuts.coarsen (2 ^ 20)
      norm_num at this ⊢
      exact this
    · change 2 ^ 25 ≤ _
      omega
  obtain ⟨r, hr, hround⟩ := sfpRoundPackFloat_spec
    (binary32.negative a ^^ binary32.negative b) (ea + eb - 127 - (n - 17)) hstands
  refine ⟨r, hr, isRounding_congr hround ?_⟩
  rw [abs_value_mul, hmag, packScale, binary32_bias, show binary32.fracBits = 23 from rfl]
  have hexp : (ea : ℤ) + eb - 127 - (n - 17) - 127 - (23 : ℕ) - 3 =
      (ea : ℤ) + eb - 2 * 127 - 2 * (23 : ℕ) + (20 : ℕ) - (n - 17) := by
    ring
  rw [hexp, rescale, abs_of_nonneg (by positivity)]

theorem aeabiFmul_isProduct (a b : BitVec 32) (ha : binary32.IsFinite a.toNat)
    (hb : binary32.IsFinite b.toNat) :
    ∃ r, aeabiFmul a b = some r ∧ IsProduct binary32 a.toNat b.toNat r.toNat := by
  have hfa := float_fields a
  have hfb := float_fields b
  have haexp : floatExp a ≠ 0xFF := (hfa.exp_lt ha).ne
  have hbexp : floatExp b ≠ 0xFF := (hfb.exp_lt hb).ne
  rw [aeabiFmul]
  simp only [isNanF, isInfF, isZeroF, haexp, hbexp, false_and, decide_false, Bool.false_eq_true,
    if_false, eq_zero_iff_toNat, hfa.zero_iff, hfb.zero_iff, decide_eq_true_eq]
  split
  case isTrue hz =>
    refine ⟨_, rfl, isProduct_zero hz ?_⟩
    rw [hfa.sign_eq, hfb.sign_eq]
    exact toNat_signedZero packLaws_float _
  case isFalse hz =>
    rw [not_or] at hz
    exact fmulGeneral_isProduct hfa hfb hz.1 hz.2

end Single

/-- The software multiplications of finite numbers are correctly rounded, and the shortcut of the
double one agrees with its general path. -/
theorem softMul_correct :
    (∀ a b : BitVec 64, binary64.IsFinite a.toNat → binary64.IsFinite b.toNat →
      (∃ r, aeabiDmul a b = some r ∧ IsProduct binary64 a.toNat b.toNat r.toNat) ∧
      ∀ r, dmulPowerOfTwo (doubleSign a ^^ doubleSign b) (doubleExp a) (doubleExp b) (doubleMant a)
          (doubleMant b) = some r →
        dmulGeneral (doubleSign a ^^ doubleSign b) (doubleExp a) (doubleExp b) (doubleMant a)
          (doubleMant b) = some r) ∧
    ∀ a b : BitVec 32, binary32.IsFinite a.toNat → binary32.IsFinite b.toNat →
      ∃ r, aeabiFmul a b = some r ∧ IsProduct binary32 a.toNat b.toNat r.toNat :=
  ⟨fun a b ha hb => ⟨aeabiDmul_isProduct a b ha hb, dmulPowerOfTwo_eq_general a b⟩,
    aeabiFmul_isProduct⟩

/-- The smallest subnormal times a half, and 1.5 times -1 by the shortcut. -/
theorem softMul_correct_subnormal :
    (∃ r, aeabiDmul 0x0000000000000001 0x3FE0000000000000 = some r ∧
      IsProduct binary64 0x0000000000000001 0x3FE0000000000000 r.toNat) ∧
    ∃ r, aeabiFmul 0x3FC00000 0xBF800000 = some r ∧ IsProduct binary32 0x3FC00000 0xBF800000 r.toNat :=
  ⟨(softMul_correct.1 0x0000000000000001 0x3FE0000000000000 (by decide) (by decide)).1,
    softMul_correct.2 0x3FC00000 0xBF800000 (by decide) (by decide)⟩

end Tinycc
