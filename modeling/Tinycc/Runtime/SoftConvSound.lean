import Mathlib.Data.Rat.Floor
import Tinycc.Runtime.SoftConv
import Tinycc.Runtime.SoftMulSound

namespace Tinycc
open Rounding FloatFormat
open BitVec hiding not_not add_mul zero_mul mul_zero mul_one one_mul

theorem getLsbD_lowWord (x : BitVec 64) (i : ℕ) :
    (lowWord x).getLsbD i = (decide (i < 32) && x.getLsbD i) := by
  rw [lowWord, getLsbD_setWidth]

theorem getLsbD_highWord (x : BitVec 64) (i : ℕ) :
    (highWord x).getLsbD i = x.getLsbD (32 + i) := by
  rw [highWord, getLsbD_setWidth, getLsbD_ushiftRight]
  by_cases hi : i < 32
  · rw [decide_eq_true hi, Bool.true_and]
  · rw [getLsbD_of_ge x (32 + i) (by omega), Bool.and_false]

theorem aeabiLlsr_eq (a : BitVec 64) {b : ℕ} (hb : b < 64) : aeabiLlsr a b = a >>> b := by
  rw [aeabiLlsr]
  apply eq_of_getLsbD_eq
  intro i hi
  by_cases hbig : 32 ≤ b
  · rw [if_pos hbig, getLsbD_append, getLsbD_ushiftRight, getLsbD_ushiftRight,
      getLsbD_highWord, show 32 + (b - 32 + i) = b + i by omega]
    split
    · rfl
    · rw [getLsbD_of_ge a (b + i) (by omega)]
      exact getLsbD_zero
  · rw [if_neg hbig]
    by_cases hzero : b = 0
    · rw [if_neg (not_not.mpr hzero), hzero, ushiftRight_zero]
    · rw [if_pos hzero, getLsbD_append, getLsbD_or, getLsbD_shiftLeft,
        getLsbD_ushiftRight, getLsbD_ushiftRight, getLsbD_ushiftRight,
        getLsbD_highWord, getLsbD_highWord, getLsbD_lowWord]
      by_cases hlow : i < 32
      · rw [if_pos hlow]
        by_cases hin : b + i < 32
        · simp [hin, show i < 32 - b by omega]
        · simp [hin, hlow, show ¬ i < 32 - b by omega, show 32 + (i - (32 - b)) = b + i by omega]
      · rw [if_neg hlow, show 32 + (b + (i - 32)) = b + i by omega]

theorem aeabiLlsl_eq (a : BitVec 64) {b : ℕ} (hb : b < 64) : aeabiLlsl a b = a <<< b := by
  rw [aeabiLlsl]
  apply eq_of_getLsbD_eq
  intro i hi
  by_cases hbig : 32 ≤ b
  · rw [if_pos hbig, getLsbD_append, getLsbD_shiftLeft, getLsbD_shiftLeft, getLsbD_lowWord]
    by_cases hlow : i < 32
    · rw [if_pos hlow, decide_eq_true (show i < b by omega), Bool.not_true, Bool.and_false]
      exact getLsbD_zero
    · rw [if_neg hlow, show i - 32 - (b - 32) = i - b by omega]
      simp [hi, show i - 32 < 32 by omega, show i - b < 32 by omega,
        show i - 32 < b - 32 ↔ i < b by omega]
  · rw [if_neg hbig]
    by_cases hzero : b = 0
    · rw [if_neg (not_not.mpr hzero), hzero, shiftLeft_zero]
    · rw [if_pos hzero, getLsbD_append, getLsbD_or, getLsbD_shiftLeft, getLsbD_shiftLeft,
        getLsbD_shiftLeft, getLsbD_ushiftRight, getLsbD_highWord, getLsbD_lowWord, getLsbD_lowWord]
      by_cases hlow : i < 32
      · simp [hlow, hi, show i - b < 32 by omega]
      · rw [if_neg hlow]
        by_cases hin : i - 32 < b
        · simp [hin, hi, show 32 - b + (i - 32) = i - b by omega,
            show i - b < 32 by omega, show ¬ i < b by omega]
        · simp [hin, hi, show i - 32 < 32 by omega, show ¬ 32 - b + (i - 32) < 32 by omega,
            show 32 + (i - 32 - b) = i - b by omega, show ¬ i < b by omega]

/-- `p` is the place of the leading bit of `v`. -/
structure LeadingBit (v p : ℕ) : Prop where
  ge : 2 ^ p ≤ v
  lt : v < 2 ^ (p + 1)

theorem leadingBit_of_shifted {v n k : ℕ} (hn : n ≤ k) (hge : 2 ^ k ≤ v * 2 ^ n)
    (hlt : v * 2 ^ n < 2 ^ (k + 1)) : LeadingBit v (k - n) := by
  have hpos : 0 < 2 ^ n := by positivity
  refine ⟨?_, ?_⟩
  · rw [show 2 ^ k = 2 ^ (k - n) * 2 ^ n by rw [← pow_add, Nat.sub_add_cancel hn]] at hge
    exact Nat.le_of_mul_le_mul_right hge hpos
  · rw [show 2 ^ (k + 1) = 2 ^ (k - n + 1) * 2 ^ n by rw [← pow_add]; congr 1; omega] at hlt
    exact Nat.lt_of_mul_lt_mul_right hlt

theorem clz32_leadingBit {x : BitVec 32} (hx : x ≠ 0) :
    ∃ p : ℕ, 31 - clz32 x = p ∧ p ≤ 31 ∧ LeadingBit x.toNat p := by
  obtain ⟨n, hn, hle, hge, hlt⟩ := clz32_spec hx
  exact ⟨31 - n, by omega, by omega, leadingBit_of_shifted hle hge hlt⟩

theorem armeabiMsb64_eq (x : BitVec 64) : armeabiMsb64 x = 63 - clz64 x := by
  rw [armeabiMsb64, clz64, highWord, lowWord, armeabiClz32, armeabiClz32]
  split
  · rfl
  · ring

theorem armeabiMsb64_leadingBit {x : BitVec 64} (hx : x ≠ 0) :
    ∃ p : ℕ, armeabiMsb64 x = p ∧ p ≤ 63 ∧ LeadingBit x.toNat p := by
  obtain ⟨n, hn, hle, hge, hlt⟩ := clz64_spec hx
  rw [armeabiMsb64_eq]
  exact ⟨63 - n, by omega, by omega, leadingBit_of_shifted hle hge hlt⟩

/-- The pattern `n` is the rounding of the integer `z`. -/
def RoundsInteger (f : FloatFormat) (z : ℤ) (n : ℕ) : Prop := f.IsRounding z (decide (z < 0)) n

theorem roundsInteger_zero (f : FloatFormat) : RoundsInteger f 0 0 := by
  rw [RoundsInteger]
  simpa using isRounding_signedZero f false rfl

theorem roundsInteger_ite {w v : ℕ} {f : FloatFormat} {a : BitVec w} {r : BitVec v} {z : ℤ}
    (hz : a = 0 → z = 0) (h : a ≠ 0 → RoundsInteger f z r.toNat) :
    RoundsInteger f z (if a = 0 then 0 else r).toNat := by
  split
  · next h0 =>
    rw [hz h0]
    exact roundsInteger_zero f
  · next h0 => exact h h0

theorem roundsInteger_natCast {f : FloatFormat} {m n : ℕ} (h : f.IsRounding (m : ℤ) false n) :
    RoundsInteger f m n := by
  exact h

theorem toNat_absWord {w : ℕ} (a : BitVec w) : (absWord a).toNat = a.toInt.natAbs := by
  rw [absWord]
  split
  case isTrue hneg =>
    have hsub : ((0 : BitVec w) - a).toNat = (2 ^ w - a.toNat) % 2 ^ w := by simp
    rw [toInt_eq_toNat_cond] at hneg ⊢
    rw [hsub]
    split at hneg
    · omega
    · rw [Nat.mod_eq_of_lt (by omega)]
      omega
  case isFalse hnonneg =>
    rw [toInt_eq_toNat_cond] at hnonneg ⊢
    split at hnonneg
    · omega
    · omega

theorem absWord_ne_zero {w : ℕ} {a : BitVec w} (ha : a ≠ 0) : absWord a ≠ 0 := by
  intro h
  have habs := toNat_absWord a
  rw [h, show (0 : BitVec w).toNat = 0 by simp] at habs
  exact ha (eq_of_toInt_eq (by simp; omega))

theorem abs_toInt {w : ℕ} (a : BitVec w) : |((a.toInt : ℤ) : ℚ)| = ((absWord a).toNat : ℚ) := by
  rw [toNat_absWord, Nat.cast_natAbs, Int.cast_abs]

section Words

theorem wordToFloat_isRounding (sign : Bool) {v : BitVec 32} (hv : v ≠ 0) {x : ℚ}
    (hx : |x| = v.toNat) :
    ∃ r, wordToFloat sign v = some r ∧ binary32.IsRounding x sign r.toNat := by
  obtain ⟨p, hp, hple, hbit⟩ := clz32_leadingBit hv
  have hfrac : binary32.fracBits = 23 := rfl
  -- whatever the shift, the significand stands for the word times `2 ^ (26 - p)`
  have hround : ∀ {mant : BitVec 32}, Stands binary32 (v.toNat * 2 ^ (26 - p : ℤ)) mant.toNat →
      ∃ r, sfpRoundPackFloat sign (127 + (31 - clz32 v)) mant = some r ∧
        binary32.IsRounding x sign r.toNat := by
    intro mant hstands
    obtain ⟨r, hr, hrounding⟩ := sfpRoundPackFloat_spec sign (127 + (31 - clz32 v)) hstands
    refine ⟨r, hr, isRounding_congr hrounding ?_⟩
    have hscale : (v.toNat * 2 ^ (26 - p : ℤ) : ℚ) * packScale binary32 (127 + p) = v.toNat := by
      rw [packScale, binary32_bias, hfrac, mul_assoc, ← zpow_add₀ (by norm_num),
        show (26 - p + (127 + p - 127 - (23 : ℕ) - 3) : ℤ) = 0 by push_cast; ring, zpow_zero, mul_one]
    rw [hp, hscale, hx, abs_of_nonneg (by positivity)]
  rw [wordToFloat]
  rw [hp] at hround ⊢
  apply hround
  split
  case isTrue hup =>
    obtain ⟨k, hk⟩ : ∃ k : ℕ, (26 - p : ℤ) = k := ⟨26 - p, by omega⟩
    have hpow : 2 ^ (p + 1) * 2 ^ k = 2 ^ 27 := by
      rw [← pow_add]
      congr 1
      omega
    have hlt : v.toNat * 2 ^ k < 2 ^ 32 := by
      have := Nat.mul_lt_mul_of_pos_right hbit.lt (show 0 < 2 ^ k by positivity)
      omega
    refine .inl ?_
    rw [show (23 + 3 - p : ℤ) = k by omega, hk, Int.toNat_natCast, toNat_shiftLeft,
      Nat.shiftLeft_eq, Nat.mod_eq_of_lt hlt]
    push_cast
    rfl
  case isFalse hdown =>
    obtain ⟨k, hk⟩ : ∃ k : ℕ, (p : ℤ) - 26 = k := ⟨p - 26, by omega⟩
    rw [show -(23 + 3 - p : ℤ) = k by omega, show (26 - p : ℤ) = -k by omega, sfpShrSticky32,
      toNat_sfpShrSticky (by decide), zpow_neg, zpow_natCast]
    refine .inr (.inl ⟨?_, ?_⟩)
    · have := sameCuts_divSticky (K := ℚ) v.toNat (show 0 < 2 ^ k by positivity)
      push_cast at this
      exact this
    · rw [pow_succ']
      apply le_shrSticky
      calc 2 * 2 ^ 24 * 2 ^ k ≤ 2 ^ 26 * 2 ^ k := Nat.mul_le_mul_right _ (by norm_num)
        _ = 2 ^ p := by rw [← pow_add]; congr 1; omega
        _ ≤ v.toNat := hbit.ge

theorem aeabiI2f_rounds (a : BitVec 32) :
    ∃ r, aeabiI2f a = some r ∧ RoundsInteger binary32 a.toInt r.toNat := by
  rw [aeabiI2f]
  by_cases hzero : a = 0
  · rw [hzero]
    exact ⟨0, rfl, roundsInteger_zero _⟩
  · rw [if_neg hzero]
    exact wordToFloat_isRounding _ (absWord_ne_zero hzero) (abs_toInt a)

theorem aeabiUi2f_rounds (a : BitVec 32) :
    ∃ r, aeabiUi2f a = some r ∧ RoundsInteger binary32 a.toNat r.toNat := by
  rw [aeabiUi2f]
  by_cases hzero : a = 0
  · rw [hzero]
    exact ⟨0, rfl, roundsInteger_zero _⟩
  · rw [if_neg hzero]
    obtain ⟨r, hr, h⟩ := wordToFloat_isRounding false hzero (x := (a.toNat : ℤ)) (by simp)
    exact ⟨r, hr, roundsInteger_natCast h⟩

variable {f : FloatFormat}

theorem mag_leadingBit {v p e : ℕ} (hbit : LeadingBit v p) (hp : p ≤ f.fracBits) (he : 0 < e) :
    f.mag (e * 2 ^ f.fracBits + v * 2 ^ (f.fracBits - p) % 2 ^ f.fracBits) =
      v * 2 ^ ((e : ℤ) - f.bias - p) := by
  obtain ⟨e, rfl⟩ : ∃ n, e = n + 1 := ⟨e - 1, by omega⟩
  have hpos : 0 < 2 ^ (f.fracBits - p) := by positivity
  have hpow : 2 ^ f.fracBits = 2 ^ p * 2 ^ (f.fracBits - p) := by
    rw [← pow_add, Nat.add_sub_cancel' hp]
  have hge : 2 ^ f.fracBits ≤ v * 2 ^ (f.fracBits - p) := by
    rw [hpow]
    exact Nat.mul_le_mul_right _ hbit.ge
  have hlt : v * 2 ^ (f.fracBits - p) < 2 * 2 ^ f.fracBits := by
    rw [hpow, ← mul_assoc, ← pow_succ']
    exact Nat.mul_lt_mul_of_pos_right hbit.lt hpos
  have hmod : v * 2 ^ (f.fracBits - p) % 2 ^ f.fracBits =
      v * 2 ^ (f.fracBits - p) - 2 ^ f.fracBits := by
    rw [Nat.mod_eq_sub_mod hge, Nat.mod_eq_of_lt (by omega)]
  rw [hmod, show (e + 1) * 2 ^ f.fracBits + (v * 2 ^ (f.fracBits - p) - 2 ^ f.fracBits) =
      e * 2 ^ f.fracBits + v * 2 ^ (f.fracBits - p) by rw [add_mul]; omega,
    f.mag_eq hlt.le (.inr hge), ulp]
  push_cast
  rw [mul_assoc, ← zpow_natCast, ← zpow_add₀ (by norm_num)]
  congr 2
  push_cast [Nat.cast_sub hp]
  ring

theorem isRounding_of_mag {x : ℚ} {sign : Bool} {n k : ℕ}
    (hn : n = (if sign then f.signBit else 0) + k) (hk : k < f.infinity) (hmag : |x| = f.mag k) :
    f.IsRounding x sign n :=
  isRounding_of_toNat hn hk.le (by rw [hmag]; exact isNearestEven_mag hk)

theorem field_lt_infinity {e c : ℕ} (he : e < f.expMax) (hc : c < 2 ^ f.fracBits) :
    e * 2 ^ f.fracBits + c < f.infinity := by
  have := Nat.mul_le_mul_right (2 ^ f.fracBits) (show e + 1 ≤ f.expMax from he)
  rw [infinity]
  rw [add_mul] at this
  omega

theorem toNat_fraction (v : BitVec 32) {p : ℕ} (hp : p ≤ 31) :
    (aeabiLlsl (v.setWidth 64) (52 - p : ℤ).toNat &&& 0x000FFFFFFFFFFFFF).toNat =
      v.toNat * 2 ^ (52 - p) % 2 ^ 52 := by
  rw [aeabiLlsl_eq _ (by omega), toNat_and,
    show (0x000FFFFFFFFFFFFF : BitVec 64).toNat = 2 ^ 52 - 1 from rfl,
    Nat.and_two_pow_sub_one_eq_mod, toNat_shiftLeft, toNat_widen, Nat.shiftLeft_eq,
    Nat.mod_mod_of_dvd _ (Nat.pow_dvd_pow 2 (by norm_num)),
    show (52 - p : ℤ).toNat = 52 - p by omega]

theorem wordToDouble_isRounding (sign : Bool) {v : BitVec 32} (hv : v ≠ 0) {x : ℚ}
    (hx : |x| = v.toNat) : binary64.IsRounding x sign (wordToDouble sign v).toNat := by
  obtain ⟨p, hp, hple, hbit⟩ := clz32_leadingBit hv
  have hmake := packLaws_double.make sign
    (aeabiLlsl (v.setWidth 64) (52 - p : ℤ).toNat &&& 0x000FFFFFFFFFFFFF) (1023 + p)
    (show 1023 + p ≤ 2047 by omega)
  rw [show binary64.fracBits = 52 from rfl, toNat_fraction v hple, Nat.mod_mod] at hmake
  rw [wordToDouble]
  rw [hp]
  refine isRounding_of_mag hmake ?_ ?_
  · exact field_lt_infinity (f := binary64) (show 1023 + p < 2047 by omega) (Nat.mod_lt _ (by decide))
  · have := mag_leadingBit (f := binary64) (e := 1023 + p) hbit (show p ≤ 52 by omega) (by omega)
    rw [show binary64.fracBits = 52 from rfl, binary64_bias] at this
    rw [hx, this, show ((1023 + p : ℕ) - 1023 - p : ℤ) = 0 by push_cast; ring, zpow_zero, mul_one]

theorem aeabiI2d_rounds (a : BitVec 32) : RoundsInteger binary64 a.toInt (aeabiI2d a).toNat :=
  roundsInteger_ite (by simp +contextual) fun h =>
    wordToDouble_isRounding _ (absWord_ne_zero h) (abs_toInt a)

theorem aeabiUi2d_rounds (a : BitVec 32) : RoundsInteger binary64 a.toNat (aeabiUi2d a).toNat :=
  roundsInteger_ite (by simp +contextual) fun h =>
    roundsInteger_natCast (wordToDouble_isRounding false h (by simp))

end Words

section Pairs

variable {f : FloatFormat} {w : ℕ}

theorem toNat_orFields (hwidth : w = f.expBits + f.fracBits + 1) {sign : Bool} {signWord : BitVec w}
    (hsign : signWord.toNat = sign.toNat * f.signBit) {e : ℕ} (he : e < 2 ^ f.expBits)
    (mant : BitVec w) :
    (signWord ||| (BitVec.ofInt w e <<< f.fracBits) |||
      (mant &&& (((1 : BitVec w) <<< f.fracBits) - 1))).toNat =
      (if sign then f.signBit else 0) + (e * 2 ^ f.fracBits + mant.toNat % 2 ^ f.fracBits) := by
  have hfield : e * 2 ^ f.fracBits < 2 ^ w := by
    have := Nat.mul_lt_mul_of_pos_right he (show 0 < 2 ^ f.fracBits by positivity)
    rw [← pow_add] at this
    exact this.trans (Nat.pow_lt_pow_right (by norm_num) (by omega))
  have hew : e < 2 ^ w := he.trans (Nat.pow_lt_pow_right (by norm_num) (by omega))
  rw [toNat_or, toNat_or, toNat_and_mask (by omega), hsign, ofInt_natCast,
    toNat_shiftLeft, toNat_ofNat, Nat.mod_eq_of_lt hew, Nat.shiftLeft_eq,
    Nat.mod_eq_of_lt hfield, signBit, or_fields he (Nat.mod_lt _ (by positivity))]
  cases sign <;> simp

theorem roundsAt_natCast {v p e : ℕ} (hbit : LeadingBit v p) (hp : f.fracBits < p)
    (he : (e + 1 : ℤ) = f.bias + p) :
    f.RoundsAt e (roundDiv v (2 ^ (p - f.fracBits))) v := by
  have hulp : f.ulp (e + 1) = ((2 ^ (p - f.fracBits) : ℕ) : ℚ) := by
    rw [ulp, show ((e + 1 : ℕ) : ℤ) - f.bias - f.fracBits = (p - f.fracBits : ℕ) by
      push_cast [Nat.cast_sub hp.le]; omega]
    push_cast
    rfl
  have hpow : 2 ^ f.fracBits * 2 ^ (p - f.fracBits) = 2 ^ p := by
    rw [← pow_add, Nat.add_sub_cancel' hp.le]
  refine ⟨?_, .inr ?_, ?_⟩
  · rw [hulp]
    exact isRoundEven_roundDiv v (by positivity)
  · rw [hulp]
    exact_mod_cast hpow.le.trans hbit.ge
  · rw [hulp, mul_assoc]
    have hlt := hbit.lt
    rw [pow_succ', ← hpow] at hlt
    exact_mod_cast hlt

/-- The round of `armeabi.c` is division to nearest even. -/
theorem roundUp_iff {v s : ℕ} (hs : 0 < s) {mag : BitVec 64} (hv : mag.toNat = v) (hs64 : s < 64)
    {mant : BitVec w} (hw : 0 < w) (hmant : mant.toNat = v / 2 ^ s) :
    ((1 : BitVec 64) <<< (s - 1) < mag &&& (((1 : BitVec 64) <<< s) - 1) ∨
      mag &&& (((1 : BitVec 64) <<< s) - 1) = (1 : BitVec 64) <<< (s - 1) ∧ mant &&& 1 ≠ 0) ↔
    (2 ^ s < 2 * (v % 2 ^ s) ∨ 2 * (v % 2 ^ s) = 2 ^ s ∧ v / 2 ^ s % 2 = 1) := by
  have hhalf : 2 ^ s = 2 * 2 ^ (s - 1) := by rw [← pow_succ', Nat.sub_add_cancel hs]
  have hodd : mant &&& 1 ≠ 0 ↔ v / 2 ^ s % 2 = 1 := by
    have := and_one_shiftLeft_ne_zero (n := 0) hw mant
    rwa [shiftLeft_zero, pow_zero, Nat.div_one, hmant] at this
  rw [hodd, lt_def, ← toNat_inj, toNat_and_mask hs64, toNat_one_shiftLeft (by omega),
    hv]
  omega

theorem magToBits_isRounding (hwidth : w = f.expBits + f.fracBits + 1) (hw : w ≤ 64)
    (hexp : f.bias + 65 ≤ f.expMax) {sign : Bool} {signWord : BitVec w}
    (hsign : signWord.toNat = sign.toNat * f.signBit) {mag : BitVec 64} (hmag : mag ≠ 0) {x : ℚ}
    (hx : |x| = mag.toNat) :
    f.IsRounding x sign (magToBits f.fracBits f.bias signWord mag).toNat := by
  obtain ⟨p, hp, hple, hbit⟩ := armeabiMsb64_leadingBit hmag
  obtain ⟨b, hb⟩ : ∃ b : ℕ, f.bias = b + 1 := by
    have := f.bias_eq
    exact ⟨(f.bias - 1).toNat, by omega⟩
  have hmax : f.expMax = 2 ^ f.expBits - 1 := rfl
  have hpos : 0 < 2 ^ f.fracBits := by positivity
  have hfields := @toNat_orFields f w hwidth sign signWord hsign
  rw [magToBits]
  rw [hp, show f.bias + p = (b + 1 + p : ℕ) by push_cast; omega]
  split
  case isTrue hsmall =>
    have hsmall' : p ≤ f.fracBits := by omega
    have hmant : (mag.setWidth w <<< ((f.fracBits : ℤ) - p).toNat).toNat % 2 ^ f.fracBits =
        mag.toNat * 2 ^ (f.fracBits - p) % 2 ^ f.fracBits := by
      rw [toNat_shiftLeft, Nat.shiftLeft_eq, toNat_setWidth,
        Nat.mod_mod_of_dvd _ (Nat.pow_dvd_pow 2 (by omega)),
        Nat.mod_eq_of_lt (hbit.lt.trans_le (Nat.pow_le_pow_right (by norm_num) (by omega))),
        show ((f.fracBits : ℤ) - p).toNat = f.fracBits - p by omega]
    have hn := hfields (show b + 1 + p < 2 ^ f.expBits by omega)
      (mag.setWidth w <<< ((f.fracBits : ℤ) - p).toNat)
    rw [hmant] at hn
    refine isRounding_of_mag hn (field_lt_infinity (by omega) (Nat.mod_lt _ hpos)) ?_
    rw [hx, mag_leadingBit hbit hsmall' (by omega),
      show ((b + 1 + p : ℕ) : ℤ) - f.bias - p = 0 by push_cast; omega, zpow_zero, mul_one]
  case isFalse hlarge =>
    have hlarge' : f.fracBits < p := by omega
    rw [show ((p : ℤ) - f.fracBits).toNat = p - f.fracBits by omega]
    obtain ⟨s, hs⟩ : ∃ s, s = p - f.fracBits := ⟨_, rfl⟩
    rw [← hs]
    have hpow : 2 ^ p = 2 ^ f.fracBits * 2 ^ s := by rw [← pow_add]; congr 1; omega
    -- the quotient has its leading bit in the implicit place
    have hqge : 2 ^ f.fracBits ≤ mag.toNat / 2 ^ s := by
      rw [Nat.le_div_iff_mul_le (by positivity), ← hpow]
      exact hbit.ge
    have hqlt : mag.toNat / 2 ^ s < 2 * 2 ^ f.fracBits := by
      rw [Nat.div_lt_iff_lt_mul (by positivity), mul_assoc, ← hpow, ← pow_succ']
      exact hbit.lt
    have hroom : 2 * (2 * 2 ^ f.fracBits) ≤ 2 ^ w := by
      rw [← pow_succ', ← pow_succ']
      have := f.expBits_gt
      exact Nat.pow_le_pow_right (by norm_num) (by omega)
    have hmant : ((mag >>> s).setWidth w).toNat = mag.toNat / 2 ^ s := by
      rw [toNat_setWidth, toNat_shr, Nat.mod_eq_of_lt (by omega)]
    have hcond := roundUp_iff (w := w) (show 0 < s by omega) (rfl : mag.toNat = mag.toNat)
      (by omega) (by omega) hmant
    have hround := (roundsAt_natCast hbit hlarge' (show ((b + p : ℕ) : ℤ) + 1 = f.bias + p by
      push_cast; omega))
    rw [← hs] at hround
    -- either way the fields are those of the rounded quotient
    have hresult : ∀ r, r = roundDiv mag.toNat (2 ^ s) → ∀ n,
        n = (if sign then f.signBit else 0) + ((b + p) * 2 ^ f.fracBits + r) →
        f.IsRounding x sign n := by
      intro r hr n hn
      have hrle := hround.le
      have hk : (b + p) * 2 ^ f.fracBits + r ≤ f.infinity := by
        have := Nat.mul_le_mul_right (2 ^ f.fracBits) (show b + p + 2 ≤ f.expMax by omega)
        rw [infinity]
        rw [add_mul] at this
        omega
      refine isRounding_of_toNat hn hk ?_
      have hnear := hround.isNearestEven
      rw [← hr, min_eq_left hk] at hnear
      rw [hx]
      exact hnear
    have hplain := hfields (show b + 1 + p < 2 ^ f.expBits by omega)
    by_cases hup : 2 ^ s < 2 * (mag.toNat % 2 ^ s) ∨
        2 * (mag.toNat % 2 ^ s) = 2 ^ s ∧ mag.toNat / 2 ^ s % 2 = 1
    · rw [if_pos (hcond.mpr hup)]
      have hr : roundDiv mag.toNat (2 ^ s) = mag.toNat / 2 ^ s + 1 := if_pos hup
      have hadd : ((mag >>> s).setWidth w + 1).toNat = mag.toNat / 2 ^ s + 1 := by
        rw [toNat_add, hmant, show (1 : BitVec w).toNat = 1 from toNat_one (by omega),
          Nat.mod_eq_of_lt (by omega)]
      have hcarry : (mag >>> s).setWidth w + 1 = (1 : BitVec w) <<< (f.fracBits + 1) ↔
          mag.toNat / 2 ^ s + 1 = 2 * 2 ^ f.fracBits := by
        have := f.expBits_gt
        rw [← toNat_inj, hadd, toNat_one_shiftLeft (by omega), pow_succ']
      apply hresult _ hr.symm
      by_cases htop : mag.toNat / 2 ^ s + 1 = 2 * 2 ^ f.fracBits
      · rw [if_pos (hcarry.mpr htop), htop]
        have hn := hfields (show b + 1 + p + 1 < 2 ^ f.expBits by omega) ((1 : BitVec w) <<< f.fracBits)
        rw [toNat_one_shiftLeft (by omega), Nat.mod_self] at hn
        push_cast at hn ⊢
        rw [hn]
        ring
      · rw [if_neg (hcarry.not.mpr htop), hplain, Nat.mod_eq_sub_mod (by omega),
          Nat.mod_eq_of_lt (by omega), show b + 1 + p = b + p + 1 by ring, add_mul (b + p)]
        omega
    · rw [if_neg (hcond.not.mpr hup)]
      have hr : roundDiv mag.toNat (2 ^ s) = mag.toNat / 2 ^ s := if_neg hup
      apply hresult _ hr.symm
      rw [hplain, Nat.mod_eq_sub_mod (by omega), Nat.mod_eq_of_lt (by omega),
        show b + 1 + p = b + p + 1 by ring, add_mul (b + p)]
      omega

theorem aeabiUl2f_rounds (a : BitVec 64) : RoundsInteger binary32 a.toNat (aeabiUl2f a).toNat :=
  roundsInteger_ite (by simp +contextual) fun h => roundsInteger_natCast
    (@magToBits_isRounding binary32 32 rfl (by decide) (by decide) false 0 rfl a h _ (by simp))

theorem aeabiUl2d_rounds (a : BitVec 64) : RoundsInteger binary64 a.toNat (aeabiUl2d a).toNat :=
  roundsInteger_ite (by simp +contextual) fun h => roundsInteger_natCast
    (@magToBits_isRounding binary64 64 rfl (by decide) (by decide) false 0 rfl a h _ (by simp))

theorem toNat_signWord (c : Prop) [Decidable c] {s : BitVec w} {n : ℕ} (hs : s.toNat = n) :
    (if c then s else 0).toNat = (decide c).toNat * n := by
  by_cases hc : c
  · simp [hc, hs]
  · simp [hc]

theorem aeabiL2f_rounds (a : BitVec 64) : RoundsInteger binary32 a.toInt (aeabiL2f a).toNat :=
  roundsInteger_ite (by simp +contextual) fun h =>
    @magToBits_isRounding binary32 32 rfl (by decide) (by decide) _ _ (toNat_signWord _ rfl) _
      (absWord_ne_zero h) _ (abs_toInt a)

theorem aeabiL2d_rounds (a : BitVec 64) : RoundsInteger binary64 a.toInt (aeabiL2d a).toNat :=
  roundsInteger_ite (by simp +contextual) fun h =>
    @magToBits_isRounding binary64 64 rfl (by decide) (by decide) _ _ (toNat_signWord _ rfl) _
      (absWord_ne_zero h) _ (abs_toInt a)

end Pairs

section ToInteger

variable {f : FloatFormat} {w : ℕ}

/-- The result is the number truncated toward zero, wherever the signed type has it. -/
def TruncatesSigned (f : FloatFormat) (n : ℕ) (r : BitVec w) : Prop :=
  f.IsFinite n → -2 ^ (w - 1) ≤ truncate (f.value n) → truncate (f.value n) < 2 ^ (w - 1) →
    r.toInt = truncate (f.value n)

def TruncatesUnsigned (f : FloatFormat) (n : ℕ) (r : BitVec w) : Prop :=
  f.IsFinite n → 0 ≤ truncate (f.value n) → truncate (f.value n) < 2 ^ w →
    (r.toNat : ℤ) = truncate (f.value n)

theorem truncate_value (f : FloatFormat) (n : ℕ) :
    truncate (f.value n) =
      if f.negative n then -⌊f.mag (n % f.signBit)⌋ else ⌊f.mag (n % f.signBit)⌋ := by
  have hnonneg := f.mag_nonneg (n % f.signBit)
  rw [value]
  split
  · rw [neg_one_mul, truncate_neg hnonneg]
  · rw [one_mul, truncate_of_nonneg hnonneg]

def fixMag (frac sig a : ℕ) : ℕ :=
  if frac ≤ a then sig * 2 ^ (a - frac) else sig / 2 ^ (frac - a)

theorem fixMag_bounds {frac sig : ℕ} (hge : 2 ^ frac ≤ sig) (hlt : sig < 2 * 2 ^ frac) (a : ℕ) :
    2 ^ a ≤ fixMag frac sig a ∧ fixMag frac sig a < 2 ^ (a + 1) := by
  rw [fixMag]
  split
  case isTrue hle =>
    have hpow : 2 ^ a = 2 ^ frac * 2 ^ (a - frac) := by rw [← pow_add, Nat.add_sub_cancel' hle]
    constructor
    · rw [hpow]
      exact Nat.mul_le_mul_right _ hge
    · rw [pow_succ', hpow, ← mul_assoc]
      exact Nat.mul_lt_mul_of_pos_right hlt (by positivity)
  case isFalse hlt' =>
    have hpow : 2 ^ frac = 2 ^ a * 2 ^ (frac - a) := by
      rw [← pow_add, Nat.add_sub_cancel' (by omega)]
    constructor
    · rw [Nat.le_div_iff_mul_le (by positivity), ← hpow]
      exact hge
    · rw [Nat.div_lt_iff_lt_mul (by positivity), pow_succ', mul_assoc, ← hpow]
      exact hlt

theorem toNat_fixShift {m : ℕ} {shl shr : BitVec m → ℕ → BitVec m}
    (hshl : ∀ x b, b < m → shl x b = x <<< b) (hshr : ∀ x b, b < m → shr x b = x >>> b)
    {frac : ℕ} {mant : BitVec m} (hge : 2 ^ frac ≤ mant.toNat) (hlt : mant.toNat < 2 * 2 ^ frac)
    (hfrac : frac < m) {a : ℕ} (ha : a < m) :
    (fixShift shl shr frac mant a).toNat = fixMag frac mant.toNat a := by
  have hbounds := fixMag_bounds hge hlt a
  rw [fixShift]
  rw [fixMag] at *
  by_cases hle : frac ≤ a
  · rw [if_pos hle] at hbounds
    rw [if_pos (show (0 : ℤ) ≤ a - frac by omega), if_pos hle,
      show ((a : ℤ) - frac).toNat = a - frac by omega, hshl _ _ (by omega),
      toNat_shiftLeft, Nat.shiftLeft_eq, Nat.mod_eq_of_lt]
    exact hbounds.2.trans_le (Nat.pow_le_pow_right (by norm_num) (by omega))
  · rw [if_neg (show ¬ (0 : ℤ) ≤ a - frac by omega), if_neg hle,
      show (-((a : ℤ) - frac)).toNat = frac - a by omega, hshr _ _ (by omega),
      toNat_shr]

variable {n mant : ℕ} {sign : Bool} {exp : ℤ}

section

variable (h : Fields f n sign exp mant)
include h

theorem Fields.floor_mag_of_lt (hbias : 2 ≤ f.bias)
    (hexp : exp < f.bias) : ⌊f.mag (n % f.signBit)⌋ = 0 := by
  have hsig := h.significand
  obtain ⟨e, he⟩ : ∃ e : ℕ, e = if exp = 0 then 1 else exp.toNat := ⟨_, rfl⟩
  obtain ⟨sig, hs⟩ : ∃ sig : ℕ, sig = if exp = 0 then mant else 2 ^ f.fracBits + mant := ⟨_, rfl⟩
  rw [← he, ← hs] at hsig
  have hle : (e : ℤ) + 1 ≤ f.bias := by
    rw [he]
    split <;> omega
  rw [Int.floor_eq_zero_iff]
  refine ⟨f.mag_nonneg _, ?_⟩
  have hlt : (sig : ℚ) < 2 * 2 ^ f.fracBits := by exact_mod_cast hsig.lt
  calc f.mag (n % f.signBit) = sig * f.ulp e := hsig.mag_eq
    _ < 2 * 2 ^ f.fracBits * f.ulp e := mul_lt_mul_of_pos_right hlt (f.ulp_pos e)
    _ = 2 ^ ((e : ℤ) + 1 - f.bias) := by
        rw [ulp, ← pow_succ', ← zpow_natCast, ← zpow_add₀ (by norm_num)]
        congr 1
        push_cast
        ring
    _ ≤ 1 := zpow_le_one_of_nonpos₀ (by norm_num) (by omega)

theorem Fields.floor_mag (hbias : 2 ≤ f.bias) {a : ℕ}
    (ha : exp = f.bias + a) :
    ⌊f.mag (n % f.signBit)⌋ = fixMag f.fracBits (2 ^ f.fracBits + mant) a := by
  have hsig := h.significand
  have hne : exp ≠ 0 := by omega
  rw [if_neg hne, if_neg hne] at hsig
  obtain ⟨sig, hs⟩ : ∃ sig : ℕ, sig = 2 ^ f.fracBits + mant := ⟨_, rfl⟩
  rw [← hs] at hsig ⊢
  rw [hsig.mag_eq, ulp, show ((exp.toNat : ℕ) : ℤ) - f.bias - f.fracBits =
    (a : ℤ) - f.fracBits by omega, fixMag]
  split
  case isTrue hle =>
    exact_mod_cast Int.floor_natCast (R := ℚ) (sig * 2 ^ (a - f.fracBits))
  case isFalse hlt =>
    rw [show (a : ℤ) - f.fracBits = -((f.fracBits - a : ℕ) : ℤ) by
      push_cast [Nat.cast_sub (Nat.le_of_not_le hlt)]; ring, zpow_neg, ← div_eq_mul_inv]
    exact_mod_cast Rat.floor_natCast_div_natCast sig (2 ^ (f.fracBits - a))

theorem Fields.mant_lt : mant < 2 ^ f.fracBits :=
  h.mant_eq ▸ Nat.mod_lt _ (by positivity)

theorem Fields.fixMag_bounds (a : ℕ) :
    2 ^ a ≤ fixMag f.fracBits (2 ^ f.fracBits + mant) a ∧
      fixMag f.fracBits (2 ^ f.fracBits + mant) a < 2 ^ (a + 1) := by
  have hmant := h.mant_lt
  exact Tinycc.fixMag_bounds (by omega) (by omega) a

end

theorem toInt_of_lt (hw : 0 < w) {x : BitVec w} (hx : x.toNat < 2 ^ (w - 1)) :
    x.toInt = x.toNat ∧ (-x).toInt = -x.toNat := by
  have hpow : 2 ^ w = 2 * 2 ^ (w - 1) := by rw [← pow_succ', Nat.sub_add_cancel hw]
  have hpos : x.toInt = x.toNat := by
    rw [toInt_eq_toNat_cond, if_pos (by omega)]
  refine ⟨hpos, ?_⟩
  rw [toInt_neg, hpos]
  apply Int.bmod_eq_of_le
  · omega
  · omega

theorem fixSigned_truncates (hw : 1 < w) (h : Fields f n sign exp mant) (hbias : 2 ≤ f.bias)
    {magnitude : ℤ → BitVec w}
    (hmag : ∀ a : ℕ, a < w - 1 →
      (magnitude a).toNat = fixMag f.fracBits (2 ^ f.fracBits + mant) a) :
    TruncatesSigned f n (fixSigned f.expMax f.bias sign exp magnitude) := by
  intro hfin hge hlt
  have hexp := h.exp_lt hfin
  rw [truncate_value, ← h.sign_eq] at *
  rw [fixSigned, if_neg hexp.ne]
  by_cases hsmall : exp < f.bias
  · rw [h.floor_mag_of_lt hbias hsmall]
    by_cases hzero : exp = 0
    · simp [if_pos hzero]
    · simp [show exp - f.bias < 0 by omega]
  · obtain ⟨a, ha⟩ : ∃ a : ℕ, exp = f.bias + a := ⟨(exp - f.bias).toNat, by omega⟩
    have hbounds := h.fixMag_bounds a
    rw [h.floor_mag hbias ha] at hge hlt ⊢
    rw [if_neg (show exp ≠ 0 by omega), show exp - f.bias = a by omega]
    rw [if_neg (show ¬ (a : ℤ) < 0 by omega)]
    by_cases hbig : w - 1 ≤ a
    · -- only the least integer can still be the result
      have hpow : 2 ^ (w - 1) ≤ 2 ^ a := Nat.pow_le_pow_right (by norm_num) hbig
      have hpow' : (2 ^ (w - 1) : ℤ) ≤ fixMag f.fracBits (2 ^ f.fracBits + mant) a := by
        exact_mod_cast hpow.trans hbounds.1
      rw [if_pos (by omega)]
      cases sign with
      | false =>
        simp only [Bool.false_eq_true, if_false] at hlt
        omega
      | true =>
        simp only [if_true] at hge ⊢
        rw [toInt_intMin_of_pos (by omega)]
        omega
    · have hpow : 2 ^ (a + 1) ≤ 2 ^ (w - 1) := Nat.pow_le_pow_right (by norm_num) (by omega)
      have hval := hmag a (by omega)
      obtain ⟨hpos, hneg⟩ := toInt_of_lt (x := magnitude a) (by omega) (by omega)
      rw [if_neg (by omega), ← hval]
      cases sign with
      | false => exact hpos
      | true => exact hneg

theorem fixUnsigned_truncates (h : Fields f n sign exp mant) (hbias : 2 ≤ f.bias)
    {magnitude : ℤ → BitVec w}
    (hmag : ∀ a : ℕ, a < w → (magnitude a).toNat = fixMag f.fracBits (2 ^ f.fracBits + mant) a) :
    TruncatesUnsigned f n (fixUnsigned f.expMax f.bias sign exp magnitude) := by
  intro hfin hge hlt
  have hexp := h.exp_lt hfin
  have hfloor : 0 ≤ ⌊f.mag (n % f.signBit)⌋ := Int.floor_nonneg.mpr (f.mag_nonneg _)
  rw [truncate_value, ← h.sign_eq] at *
  rw [fixUnsigned, if_neg hexp.ne]
  cases sign with
  | true =>
    simp only [if_true] at hge ⊢
    rw [show ⌊f.mag (n % f.signBit)⌋ = 0 by omega]
    simp
  | false =>
    simp only [Bool.false_eq_true, if_false] at hge hlt ⊢
    by_cases hsmall : exp < f.bias
    · rw [h.floor_mag_of_lt hbias hsmall]
      by_cases hzero : exp = 0
      · simp [if_pos hzero]
      · simp [show exp - f.bias < 0 by omega]
    · obtain ⟨a, ha⟩ : ∃ a : ℕ, exp = f.bias + a := ⟨(exp - f.bias).toNat, by omega⟩
      have hbounds := h.fixMag_bounds a
      rw [h.floor_mag hbias ha] at hlt ⊢
      rw [if_neg (show exp ≠ 0 by omega), show exp - f.bias = a by omega]
      rw [if_neg (show ¬ (a : ℤ) < 0 by omega)]
      have hlt' : fixMag f.fracBits (2 ^ f.fracBits + mant) a < 2 ^ w := by exact_mod_cast hlt
      have ha' : a < w := (Nat.pow_lt_pow_iff_right (by norm_num)).mp (hbounds.1.trans_lt hlt')
      rw [if_neg (by omega), hmag a ha']

theorem toNat_floatSig (bits : BitVec 32) :
    (floatSig bits).toNat = 2 ^ 23 + (floatMant bits).toNat :=
  toNat_or_implicit (by decide) (float_fields bits).mant_lt

theorem toNat_doubleSig (bits : BitVec 64) :
    (doubleSig bits).toNat = 2 ^ 52 + (doubleMant bits).toNat :=
  toNat_or_implicit (by decide) (double_fields bits).mant_lt

theorem toNat_fixShift_float (hw : 23 < w) (bits : BitVec 32) {mant : BitVec w}
    (hmant : mant.toNat = (floatSig bits).toNat) {a : ℕ} (ha : a < w) :
    (fixShift (· <<< ·) (· >>> ·) 23 mant a).toNat =
      fixMag 23 (2 ^ 23 + (floatMant bits).toNat) a := by
  have hlt : (floatMant bits).toNat < 2 ^ 23 := (float_fields bits).mant_lt
  rw [toNat_floatSig] at hmant
  rw [toNat_fixShift (fun _ _ _ => rfl) (fun _ _ _ => rfl) (by omega) (by omega) hw ha, hmant]

theorem toNat_fixShift_double (bits : BitVec 64) {a : ℕ} (ha : a < 64) :
    (fixShift aeabiLlsl aeabiLlsr 52 (doubleSig bits) a).toNat =
      fixMag 52 (2 ^ 52 + (doubleMant bits).toNat) a := by
  have hlt : (doubleMant bits).toNat < 2 ^ 52 := (double_fields bits).mant_lt
  have hsig := toNat_doubleSig bits
  rw [toNat_fixShift (fun _ _ => aeabiLlsl_eq _) (fun _ _ => aeabiLlsr_eq _) (by omega) (by omega)
    (by decide) ha, hsig]

theorem toNat_fixShift_double_low (bits : BitVec 64) {a : ℕ} (ha : a < 32) :
    ((fixShift aeabiLlsl aeabiLlsr 52 (doubleSig bits) a).setWidth 32).toNat =
      fixMag 52 (2 ^ 52 + (doubleMant bits).toNat) a := by
  have hbounds : _ ∧ fixMag 52 (2 ^ 52 + (doubleMant bits).toNat) a < 2 ^ (a + 1) :=
    (double_fields bits).fixMag_bounds a
  have hpow : 2 ^ (a + 1) ≤ 2 ^ 32 := Nat.pow_le_pow_right (by norm_num) (by omega)
  rw [toNat_setWidth, toNat_fixShift_double bits (by omega), Nat.mod_eq_of_lt (by omega)]

theorem aeabiF2iz_truncates (a : BitVec 32) : TruncatesSigned binary32 a.toNat (aeabiF2iz a) :=
  fixSigned_truncates (by decide) (float_fields a) (by decide) fun _ ha =>
    toNat_fixShift_float (by decide) a rfl (by omega)

theorem aeabiF2uiz_truncates (a : BitVec 32) :
    TruncatesUnsigned binary32 a.toNat (aeabiF2uiz a) :=
  fixUnsigned_truncates (float_fields a) (by decide) fun _ ha =>
    toNat_fixShift_float (by decide) a rfl ha

theorem aeabiF2lz_truncates (a : BitVec 32) : TruncatesSigned binary32 a.toNat (aeabiF2lz a) :=
  fixSigned_truncates (by decide) (float_fields a) (by decide) fun _ ha =>
    toNat_fixShift_float (by decide) a (toNat_widen _) (by omega)

theorem aeabiF2ulz_truncates (a : BitVec 32) :
    TruncatesUnsigned binary32 a.toNat (aeabiF2ulz a) := by
  refine fixUnsigned_truncates (float_fields a) (by decide) fun k hk => ?_
  rw [if_neg (by omega)]
  exact toNat_fixShift_float (by decide) a (toNat_widen _) hk

theorem aeabiD2iz_truncates (a : BitVec 64) : TruncatesSigned binary64 a.toNat (aeabiD2iz a) :=
  fixSigned_truncates (by decide) (double_fields a) (by decide) fun _ ha =>
    toNat_fixShift_double_low a (by omega)

theorem aeabiD2uiz_truncates (a : BitVec 64) :
    TruncatesUnsigned binary64 a.toNat (aeabiD2uiz a) :=
  fixUnsigned_truncates (double_fields a) (by decide) fun _ ha => toNat_fixShift_double_low a ha

theorem aeabiD2lz_truncates (a : BitVec 64) : TruncatesSigned binary64 a.toNat (aeabiD2lz a) :=
  fixSigned_truncates (by decide) (double_fields a) (by decide) fun _ ha =>
    toNat_fixShift_double a (by omega)

theorem aeabiD2ulz_truncates (a : BitVec 64) :
    TruncatesUnsigned binary64 a.toNat (aeabiD2ulz a) := by
  refine fixUnsigned_truncates (double_fields a) (by decide) fun k hk => ?_
  rw [if_neg (by omega)]
  exact toNat_fixShift_double a hk

end ToInteger

section Formats

variable {f : FloatFormat} {n mant : ℕ} {sign : Bool} {exp : ℤ}

/-- The pattern `r` of the wider format is the number of `a`. -/
structure Widens (a r : ℕ) : Prop where
  isFinite : binary64.IsFinite r
  value_eq : binary64.value r = binary32.value a
  negative_eq : binary64.negative r = binary32.negative a

theorem signed_split {k : ℕ} (hn : n = (if sign then f.signBit else 0) + k) (hk : k < f.signBit) :
    n % f.signBit = k ∧ f.negative n = sign := by
  rw [hn, negative]
  cases sign
  · simpa using ⟨Nat.mod_eq_of_lt hk, hk⟩
  · simpa using Nat.mod_eq_of_lt hk

section

variable (h : Fields f n sign exp mant)
include h

theorem Fields.split :
    n % f.signBit = exp.toNat * 2 ^ f.fracBits + mant := by
  rw [h.exp_eq, h.mant_eq]
  exact (Nat.div_add_mod' _ _).symm

theorem Fields.nan_iff :
    f.IsNan n ↔ exp = f.expMax ∧ mant ≠ 0 := by
  have hlt : n % f.signBit < f.signBit := Nat.mod_lt _ (by rw [signBit]; positivity)
  have hmant := h.mant_lt
  have hexp := h.exp_eq
  obtain ⟨e, rfl⟩ : ∃ e : ℕ, exp = e := ⟨_, hexp⟩
  have hle : e ≤ f.expMax := by
    have : n % f.signBit / 2 ^ f.fracBits < 2 ^ f.expBits := by
      rw [Nat.div_lt_iff_lt_mul (by positivity), ← pow_add]
      exact hlt
    rw [expMax]
    omega
  rw [FloatFormat.IsNan, h.split, infinity, Int.toNat_natCast, Nat.cast_inj]
  constructor
  · intro hgt
    have heq : e = f.expMax := by
      by_contra hne
      have := Nat.mul_le_mul_right (2 ^ f.fracBits) (show e + 1 ≤ f.expMax by omega)
      rw [add_mul] at this
      omega
    subst heq
    omega
  · rintro ⟨rfl, hne⟩
    omega

theorem Fields.infinite_iff :
    n % f.signBit = f.infinity ↔ exp = f.expMax ∧ mant = 0 := by
  have hpos : 0 < 2 ^ f.fracBits := by positivity
  have hexp := h.exp_eq
  constructor
  · intro hinf
    have hmod := h.mant_eq
    rw [hinf, infinity, Nat.mul_div_cancel _ hpos] at hexp
    rw [hinf, infinity, Nat.mul_mod_left] at hmod
    exact ⟨hexp, hmod⟩
  · rintro ⟨he, rfl⟩
    rw [h.split, he, Int.toNat_natCast, add_zero, infinity]

end

theorem toNat_doubleWords (sign : Bool) {e : ℕ} (he : e < 2 ^ 11) {fracHi lo : BitVec 32}
    (hfrac : fracHi.toNat < 2 ^ 20) :
    (doubleWords sign e fracHi lo).toNat = (if sign then binary64.signBit else 0) +
      (e * 2 ^ 52 + (fracHi.toNat * 2 ^ 32 + lo.toNat)) := by
  have hsign : (truthWord 32 sign <<< 31).toNat = sign.toNat * 2 ^ (11 + 20) := by
    cases sign <;> decide
  have hexp : (BitVec.ofInt 32 (e : ℤ) <<< 20).toNat = e * 2 ^ 20 := by
    rw [ofInt_natCast, toNat_shiftLeft, toNat_ofNat,
      Nat.mod_eq_of_lt (show e < 2 ^ 32 by omega), Nat.shiftLeft_eq, Nat.mod_eq_of_lt (by omega)]
  rw [doubleWords, toNat_append, ← Nat.shiftLeft_add_eq_or_of_lt lo.isLt,
    toNat_or, toNat_or, hsign, hexp, or_fields he hfrac, Nat.shiftLeft_eq]
  change _ = (if sign then 2 ^ 63 else 0) + _
  cases sign
  · simp
    ring
  · simp
    ring

theorem fraction_words {m : BitVec 32} (hm : m.toNat < 2 ^ 23) :
    (m >>> 3).toNat < 2 ^ 20 ∧
      (m >>> 3).toNat * 2 ^ 32 + (m <<< 29).toNat = m.toNat * 2 ^ 29 := by
  rw [toNat_ushiftRight, toNat_shiftLeft]
  omega

theorem widens_of_significand {a r e sig p : ℕ} {sign : Bool} (hsig : Significand binary32 a e sig)
    (hbit : LeadingBit sig p) (hp : p ≤ 23) (he : e < 255) (hsign : sign = binary32.negative a)
    (hr : r = (if sign then binary64.signBit else 0) +
      ((e + 873 + p) * 2 ^ 52 + sig * 2 ^ (52 - p) % 2 ^ 52)) : Widens a r := by
  have hmag := mag_leadingBit (f := binary64) (e := e + 873 + p) hbit (show p ≤ 52 by omega) (by omega)
  have hfin := field_lt_infinity (f := binary64) (show e + 873 + p < 2047 by omega)
    (Nat.mod_lt (sig * 2 ^ (52 - p)) (show 0 < 2 ^ 52 by positivity))
  have hinf := infinity_add_lt binary64
  rw [show binary64.fracBits = 52 from rfl] at *
  obtain ⟨hmod, hneg⟩ := signed_split hr (by omega)
  refine ⟨by rw [FloatFormat.IsFinite, hmod]; exact hfin, ?_, hneg.trans hsign⟩
  have hscale : (2 : ℚ) ^ (((e + 873 + p : ℕ) : ℤ) - 1023 - p) = binary32.ulp e := by
    rw [ulp, binary32_bias, show binary32.fracBits = 23 from rfl]
    congr 1
    push_cast
    ring
  rw [value, value, hneg, hsign, hmod, hmag, binary64_bias, hscale,
    hsig.mag_eq]

theorem aeabiF2dBits_widens (a : BitVec 32) (hfin : binary32.IsFinite a.toNat) :
    Widens a.toNat (aeabiF2dBits a).toNat := by
  have h := float_fields a
  have hsig := h.significand
  have hmant : (floatMant a).toNat < 2 ^ 23 := h.mant_lt
  have hexp := h.exp_lt hfin
  rw [show (binary32.expMax : ℤ) = 255 from rfl] at hexp
  have hexp0 := h.exp_eq
  have hzero := h.zero_iff
  rw [aeabiF2dBits]
  dsimp only
  rw [if_neg hexp.ne]
  by_cases hnil : floatExp a = 0 ∧ floatMant a = 0
  · rw [if_pos hnil]
    have hmod : a.toNat % binary32.signBit = 0 := hzero.mp ⟨hnil.1, by rw [hnil.2]; rfl⟩
    have hwords := @toNat_doubleWords (floatSign a) 0 (by decide) 0 0 (by decide)
    rw [show ((0 : ℕ) : ℤ) = 0 from rfl] at hwords
    obtain ⟨hmod', hneg⟩ := signed_split (f := binary64) hwords (by decide)
    have hval : binary64.mag ((doubleWords (floatSign a) 0 0 0).toNat % binary64.signBit) = 0 := by
      rw [hmod']
      exact binary64.mag_zero
    refine ⟨?_, ?_, hneg.trans h.sign_eq⟩
    · rw [FloatFormat.IsFinite, hmod']
      decide
    · rw [value, value, hval, hmod, binary32.mag_zero, mul_zero, mul_zero]
  · rw [if_neg hnil]
    by_cases hsub : floatExp a = 0
    · rw [if_pos hsub]
      rw [if_pos hsub, if_pos hsub] at hsig
      have hne : floatMant a ≠ 0 := fun h => hnil ⟨hsub, h⟩
      -- a subnormal single is a normal double: its leading bit becomes the implicit one
      obtain ⟨p, hp, _, hbit⟩ := clz32_leadingBit hne
      have hple : p ≤ 22 := by
        have := (Nat.pow_lt_pow_iff_right (by norm_num)).mp (hbit.ge.trans_lt hmant)
        omega
      rw [hp, show (1023 - 127 + 1 + p - 23 : ℤ) = (1 + 873 + p : ℕ) by push_cast; ring]
      refine widens_of_significand hsig hbit (by omega) (by omega) h.sign_eq ?_
      obtain ⟨d, hd⟩ : ∃ d, d = aeabiLlsl ((floatMant a).setWidth 64) (52 - p : ℤ).toNat &&&
        0x000FFFFFFFFFFFFF := ⟨_, rfl⟩
      have hdval : d.toNat = (floatMant a).toNat * 2 ^ (52 - p) % 2 ^ 52 := by
        rw [hd, toNat_fraction _ (by omega)]
      rw [← hd, toNat_doubleWords _ (by omega) (by rw [toNat_highWord]; omega), toNat_highWord,
        toNat_lowWord]
      omega
    · rw [if_neg hsub]
      rw [if_neg hsub, if_neg hsub] at hsig
      obtain ⟨e, he⟩ : ∃ e : ℕ, floatExp a = e := ⟨_, hexp0⟩
      obtain ⟨hlt, hwords⟩ := fraction_words hmant
      have hbit : LeadingBit (2 ^ binary32.fracBits + (floatMant a).toNat) 23 :=
        ⟨Nat.le_add_right _ _, by change 2 ^ 23 + _ < 2 ^ 24; omega⟩
      rw [he] at hexp ⊢
      refine widens_of_significand hsig hbit le_rfl (by omega) h.sign_eq ?_
      rw [show (e - 127 + 1023 : ℤ) = (e + 873 + 23 : ℕ) by push_cast; ring,
        toNat_doubleWords _ (by omega) hlt]
      change _ = _ + (_ + (2 ^ 23 + (floatMant a).toNat) * 2 ^ 29 % 2 ^ 52)
      omega

theorem aeabiF2dBits_top (a : BitVec 32) (hexp : floatExp a = 0xFF) :
    (aeabiF2dBits a).toNat % binary64.signBit =
        binary64.infinity + (floatMant a).toNat * 2 ^ 29 ∧
      binary64.negative (aeabiF2dBits a).toNat = binary32.negative a.toNat := by
  have h := float_fields a
  obtain ⟨hlt, hwords⟩ := fraction_words h.mant_lt
  have hsplit := @toNat_doubleWords (floatSign a) 2047 (by decide) _ (floatMant a <<< 29) hlt
  rw [hwords] at hsplit
  rw [aeabiF2dBits]
  rw [if_pos hexp, ← h.sign_eq]
  apply signed_split hsplit
  change _ < 2 ^ 63
  omega

theorem aeabiF2dBits_special (a : BitVec 32) :
    (a.toNat % binary32.signBit = binary32.infinity →
      (aeabiF2dBits a).toNat % binary64.signBit = binary64.infinity ∧
        binary64.negative (aeabiF2dBits a).toNat = binary32.negative a.toNat) ∧
    (binary32.IsNan a.toNat → binary64.IsNan (aeabiF2dBits a).toNat) := by
  have h := float_fields a
  constructor
  · intro hinf
    obtain ⟨hexp, hmant⟩ := h.infinite_iff.mp hinf
    obtain ⟨hmod, hneg⟩ := aeabiF2dBits_top a hexp
    rw [hmant, zero_mul] at hmod
    exact ⟨hmod, hneg⟩
  · intro hnan
    obtain ⟨hexp, hne⟩ := h.nan_iff.mp hnan
    rw [FloatFormat.IsNan, (aeabiF2dBits_top a hexp).1]
    omega

theorem aeabiD2f_top (a : BitVec 64) (hexp : doubleExp a = 0x7FF) :
    ∃ r, aeabiD2f a = some r ∧ r.toNat % binary32.signBit =
        binary32.infinity + (doubleMant a).toNat / 2 ^ 29 ∧
      binary32.negative r.toNat = binary64.negative a.toNat := by
  have h := double_fields a
  have hmant : (doubleMant a).toNat < 2 ^ 52 := h.mant_lt
  have hsign : (truthWord 32 (doubleSign a) <<< 31).toNat = (doubleSign a).toNat * 2 ^ (8 + 23) := by
    cases doubleSign a <;> decide
  have hfrac : (lowWord (aeabiLlsr (doubleMant a) 29) &&& 0x007FFFFF).toNat =
      (doubleMant a).toNat / 2 ^ 29 := by
    rw [aeabiLlsr_eq _ (by decide), toNat_and, toNat_lowWord, toNat_ushiftRight,
      show (0x007FFFFF : BitVec 32).toNat = 2 ^ 23 - 1 from rfl, Nat.and_two_pow_sub_one_eq_mod]
    omega
  rw [aeabiD2f]
  rw [if_pos hexp, ← h.sign_eq]
  refine ⟨_, rfl, ?_⟩
  apply signed_split
  · rw [toNat_or, toNat_or, hsign, hfrac,
      show (0x7F800000 : BitVec 32).toNat = 255 * 2 ^ 23 from rfl, or_fields (by decide) (by omega)]
    cases doubleSign a <;> rfl
  · change 255 * 2 ^ 23 + _ < 2 ^ 31
    omega

theorem aeabiD2f_special (a : BitVec 64) :
    (a.toNat % binary64.signBit = binary64.infinity →
      ∃ r, aeabiD2f a = some r ∧ r.toNat % binary32.signBit = binary32.infinity ∧
        binary32.negative r.toNat = binary64.negative a.toNat) ∧
    (binary64.IsNan a.toNat → ∃ r, aeabiD2f a = some r ∧
      (binary32.IsNan r.toNat ↔ a.toNat % 2 ^ 52 / 2 ^ 29 ≠ 0)) := by
  have h := double_fields a
  constructor
  · intro hinf
    obtain ⟨hexp, hmant⟩ := h.infinite_iff.mp hinf
    obtain ⟨r, hr, hmod, hneg⟩ := aeabiD2f_top a hexp
    rw [hmant, Nat.zero_div] at hmod
    exact ⟨r, hr, hmod, hneg⟩
  · intro hnan
    obtain ⟨hexp, _⟩ := h.nan_iff.mp hnan
    obtain ⟨r, hr, hmod, _⟩ := aeabiD2f_top a hexp
    have hmant : (doubleMant a).toNat = a.toNat % 2 ^ 52 := by
      rw [h.mant_eq]
      exact Nat.mod_mod_of_dvd _ (Nat.pow_dvd_pow 2 (by decide))
    refine ⟨r, hr, ?_⟩
    rw [FloatFormat.IsNan, hmod]
    omega

theorem isRounding_tiny {x y : ℚ} {r : ℕ} (h : f.IsRounding x sign r) (hx : |x| < f.ulp 1 / 2)
    (hy : |y| < f.ulp 1 / 2) : f.IsRounding y sign r := by
  -- below half of the smallest single the sticky bit does not matter
  have hzero := h.nearest.unique (isNearestEven_zero (abs_nonneg x) hx)
  refine ⟨h.lt, h.negative_eq, ?_⟩
  rw [hzero]
  exact isNearestEven_zero (abs_nonneg y) hy

theorem narrow_tiny {m : ℚ} (hm : |m| < 2 ^ 26) :
    |m * packScale binary32 (1 - 1023 + 127)| < binary32.ulp 1 / 2 := by
  have hpow : (0 : ℚ) < packScale binary32 (1 - 1023 + 127) := by
    rw [packScale]
    positivity
  rw [abs_mul, abs_of_pos hpow]
  calc |m| * packScale binary32 (1 - 1023 + 127)
      < 2 ^ 26 * packScale binary32 (1 - 1023 + 127) := mul_lt_mul_of_pos_right hm hpow
    _ = 2 ^ (-1022 : ℤ) := by
        rw [packScale, ← zpow_natCast,
          ← zpow_add₀ (by norm_num)]
        congr 1
    _ < 2 ^ (-150 : ℤ) := zpow_lt_zpow_right₀ (by norm_num) (by norm_num)
    _ = binary32.ulp 1 / 2 := by
        rw [ulp, binary32_bias, show binary32.fracBits = 23 from rfl,
          show (((1 : ℕ) : ℤ) - 127 - (23 : ℕ)) = -150 + 1 by norm_num]
        norm_num

theorem aeabiD2f_rounds (a : BitVec 64) (hfin : binary64.IsFinite a.toNat) :
    ∃ r, aeabiD2f a = some r ∧
      binary32.IsRounding (binary64.value a.toNat) (binary64.negative a.toNat) r.toNat := by
  have h := double_fields a
  have hexp := h.exp_lt hfin
  rw [show (binary64.expMax : ℤ) = 2047 from rfl] at hexp
  obtain ⟨e, sig, hsig, he, hword⟩ := h.operand (show 52 < 64 by decide)
  rw [aeabiD2f]
  rw [if_neg hexp.ne, ← h.sign_eq]
  by_cases hnil : doubleExp a = 0 ∧ doubleMant a = 0
  · have hmod : a.toNat % binary64.signBit = 0 := h.zero_iff.mp ⟨hnil.1, by rw [hnil.2]; rfl⟩
    rw [if_pos hnil, (binary64.value_eq_zero_iff _).mpr hmod]
    refine ⟨_, rfl, isRounding_signedZero binary32 _ ?_⟩
    cases doubleSign a <;> rfl
  · rw [if_neg hnil, he]
    obtain ⟨m, hm⟩ : ∃ m, m = if doubleExp a ≠ 0 then doubleMant a ||| (1 <<< 52) else doubleMant a :=
      ⟨_, rfl⟩
    rw [← hm]
    have hmval : m.toNat = sig := hm ▸ hword
    have hlt : sig < 2 ^ 53 := hsig.lt
    have hshift : (sfpShrSticky64 m (52 - (23 + 3))).toNat = shrSticky sig 26 := by
      rw [show (52 - (23 + 3) : ℤ) = (26 : ℕ) by norm_num, sfpShrSticky64,
        toNat_sfpShrSticky (by decide), hmval]
    have hslt : shrSticky sig 26 < 2 * 2 ^ 26 := shrSticky_lt (by omega)
    have hnew : (lowWord (sfpShrSticky64 m (52 - (23 + 3)))).toNat = shrSticky sig 26 := by
      rw [toNat_lowWord, hshift, Nat.mod_eq_of_lt (by omega)]
    -- the value is the significand at the scale the rounding core is given
    have hvalue : |binary64.value a.toNat| =
        |(sig / 2 ^ 26 : ℚ) * packScale binary32 (e - 1023 + 127)| := by
      rw [binary64.abs_value, hsig.mag_eq, abs_of_nonneg (by rw [packScale]; positivity),
        ulp, packScale, binary64_bias, binary32_bias, show binary64.fracBits = 52 from rfl,
        show binary32.fracBits = 23 from rfl, div_mul_eq_mul_div, mul_div_assoc, ← zpow_natCast,
        ← zpow_sub₀ (by norm_num)]
      congr 2
      ring
    by_cases hlow : 2 ^ 52 ≤ sig
    · have hstands : Stands binary32 (sig / 2 ^ 26 : ℚ)
          (lowWord (sfpShrSticky64 m (52 - (23 + 3)))).toNat := by
        rw [hnew]
        refine .inr (.inl ⟨?_, ?_⟩)
        · have := sameCuts_divSticky (K := ℚ) sig (show 0 < 2 ^ 26 by positivity)
          exact this
        · change 2 * 2 ^ 24 ≤ _
          exact le_shrSticky (by omega)
      obtain ⟨r, hr, hround⟩ := sfpRoundPackFloat_spec (doubleSign a) (e - 1023 + 127) hstands
      exact ⟨r, hr, isRounding_congr hround hvalue.symm⟩
    · -- a subnormal double: both the cut significand and the whole one round to zero
      have he1 : e = 1 := by
        rcases hsig.low with h | h
        · exact h
        · exact absurd h hlow
      obtain ⟨r, hr, hround⟩ := sfpRoundPackFloat_spec (doubleSign a) (e - 1023 + 127)
        (.inl rfl : Stands binary32 _ (lowWord (sfpShrSticky64 m (52 - (23 + 3)))).toNat)
      refine ⟨r, hr, isRounding_tiny hround ?_ ?_⟩
      · rw [he1, hnew]
        apply narrow_tiny
        have : shrSticky sig 26 < 2 * 2 ^ 25 := shrSticky_lt (by omega)
        exact_mod_cast this
      · rw [hvalue, he1]
        apply narrow_tiny
        rw [abs_of_nonneg (by positivity), div_lt_iff₀ (by positivity)]
        have : sig < 2 ^ 26 * 2 ^ 26 := by omega
        exact_mod_cast this

end Formats

/-- The conversions between the number types are correct, but a double NaN becomes a NaN only if one
of the upper 23 bits of its fraction is set. -/
theorem softConversions_correct (a : BitVec 32) (b : BitVec 64) :
    (∃ r, aeabiI2f a = some r ∧ RoundsInteger binary32 a.toInt r.toNat) ∧
    (∃ r, aeabiUi2f a = some r ∧ RoundsInteger binary32 a.toNat r.toNat) ∧
    RoundsInteger binary64 a.toInt (aeabiI2d a).toNat ∧
    RoundsInteger binary64 a.toNat (aeabiUi2d a).toNat ∧
    RoundsInteger binary32 b.toInt (aeabiL2f b).toNat ∧
    RoundsInteger binary32 b.toNat (aeabiUl2f b).toNat ∧
    RoundsInteger binary64 b.toInt (aeabiL2d b).toNat ∧
    RoundsInteger binary64 b.toNat (aeabiUl2d b).toNat ∧
    TruncatesSigned binary32 a.toNat (aeabiF2iz a) ∧
    TruncatesUnsigned binary32 a.toNat (aeabiF2uiz a) ∧
    TruncatesSigned binary32 a.toNat (aeabiF2lz a) ∧
    TruncatesUnsigned binary32 a.toNat (aeabiF2ulz a) ∧
    TruncatesSigned binary64 b.toNat (aeabiD2iz b) ∧
    TruncatesUnsigned binary64 b.toNat (aeabiD2uiz b) ∧
    TruncatesSigned binary64 b.toNat (aeabiD2lz b) ∧
    TruncatesUnsigned binary64 b.toNat (aeabiD2ulz b) ∧
    (binary32.IsFinite a.toNat → Widens a.toNat (aeabiF2dBits a).toNat) ∧
    (a.toNat % binary32.signBit = binary32.infinity →
      (aeabiF2dBits a).toNat % binary64.signBit = binary64.infinity ∧
        binary64.negative (aeabiF2dBits a).toNat = binary32.negative a.toNat) ∧
    (binary32.IsNan a.toNat → binary64.IsNan (aeabiF2dBits a).toNat) ∧
    (binary64.IsFinite b.toNat → ∃ r, aeabiD2f b = some r ∧
      binary32.IsRounding (binary64.value b.toNat) (binary64.negative b.toNat) r.toNat) ∧
    (b.toNat % binary64.signBit = binary64.infinity →
      ∃ r, aeabiD2f b = some r ∧ r.toNat % binary32.signBit = binary32.infinity ∧
        binary32.negative r.toNat = binary64.negative b.toNat) ∧
    (binary64.IsNan b.toNat → ∃ r, aeabiD2f b = some r ∧
      (binary32.IsNan r.toNat ↔ b.toNat % 2 ^ 52 / 2 ^ 29 ≠ 0)) :=
  ⟨aeabiI2f_rounds a, aeabiUi2f_rounds a, aeabiI2d_rounds a, aeabiUi2d_rounds a,
    aeabiL2f_rounds b, aeabiUl2f_rounds b, aeabiL2d_rounds b, aeabiUl2d_rounds b,
    aeabiF2iz_truncates a, aeabiF2uiz_truncates a, aeabiF2lz_truncates a, aeabiF2ulz_truncates a,
    aeabiD2iz_truncates b, aeabiD2uiz_truncates b, aeabiD2lz_truncates b, aeabiD2ulz_truncates b,
    aeabiF2dBits_widens a, (aeabiF2dBits_special a).1, (aeabiF2dBits_special a).2,
    aeabiD2f_rounds b, aeabiD2f_special b⟩

/-- One third narrowed; a quiet NaN stays one. -/
theorem softConversions_correct_third :
    (∃ r, aeabiD2f 0x3FD5555555555555 = some r ∧
      binary32.IsRounding (binary64.value 0x3FD5555555555555) false r.toNat) ∧
    ∃ r, aeabiD2f 0x7FF8000000000000 = some r ∧ binary32.IsNan r.toNat := by
  obtain ⟨_, _, _, _, _, _, _, _, _, _, _, _, _, _, _, _, _, _, _, hround, _, _⟩ :=
    softConversions_correct 0 0x3FD5555555555555
  obtain ⟨_, _, _, _, _, _, _, _, _, _, _, _, _, _, _, _, _, _, _, _, _, hnan⟩ :=
    softConversions_correct 0 0x7FF8000000000000
  obtain ⟨r, hr, hiff⟩ := hnan (by decide)
  exact ⟨hround (by decide), r, hr, hiff.mpr (by decide)⟩

/-- A NaN whose payload is all in the low bits becomes an infinity. -/
theorem aeabiD2f_loses_nan :
    binary64.IsNan (0x7FF0000000000001 : BitVec 64).toNat ∧
      aeabiD2f 0x7FF0000000000001 = some 0x7F800000 ∧
      ¬ binary32.IsNan (0x7F800000 : BitVec 32).toNat := by
  refine ⟨by decide, by decide, by decide⟩

/-- Widening and narrowing again gives every float back, a NaN with its fraction. -/
theorem aeabiD2f_aeabiF2dBits (a : BitVec 32) : aeabiD2f (aeabiF2dBits a) = some a := by
  have h := float_fields a
  have hd := double_fields (aeabiF2dBits a)
  obtain ⟨r, hr, hmod, hneg⟩ : ∃ r, aeabiD2f (aeabiF2dBits a) = some r ∧
      r.toNat % 2 ^ 31 = a.toNat % 2 ^ 31 ∧
      binary32.negative r.toNat = binary32.negative a.toNat := by
    by_cases hfin : binary32.IsFinite a.toNat
    · have hw := aeabiF2dBits_widens a hfin
      obtain ⟨r, hr, hround⟩ := aeabiD2f_rounds _ hw.isFinite
      have hnear := hround.nearest
      rw [hw.value_eq, abs_value] at hnear
      exact ⟨r, hr, hnear.unique (isNearestEven_mag hfin),
        hround.negative_eq.trans hw.negative_eq⟩
    · have hge : 255 * 2 ^ 23 ≤ a.toNat % 2 ^ 31 := not_lt.mp hfin
      have hexp : floatExp a = 255 := h.exp_eq.trans
        (congrArg _ (show a.toNat % 2 ^ 31 / 2 ^ 23 = 255 by omega))
      have hmant : (floatMant a).toNat = a.toNat % 2 ^ 31 % 2 ^ 23 := h.mant_eq
      obtain ⟨hmod, hneg⟩ := aeabiF2dBits_top a hexp
      have htop := aeabiD2f_top (aeabiF2dBits a)
      rw [hd.exp_eq, hd.mant_eq, hmod, hmant,
        show binary64.infinity = 2047 * 2 ^ 52 from rfl] at htop
      obtain ⟨r, hr, hmod', hneg'⟩ := htop
        (congrArg _ (show (2047 * 2 ^ 52 + _) / 2 ^ 52 = 2047 by omega))
      refine ⟨r, hr, hmod'.trans ?_, hneg'.trans hneg⟩
      change 255 * 2 ^ 23 + (2047 * 2 ^ 52 + _) % 2 ^ 52 / 2 ^ 29 = _
      omega
  have hsign : (2 ^ 31 ≤ r.toNat ↔ 2 ^ 31 ≤ a.toNat) := decide_eq_decide.mp hneg
  rw [hr, eq_of_toNat_eq (show r.toNat = a.toNat by omega)]

end Tinycc
