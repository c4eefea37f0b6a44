import Tinycc.Lib.FloatFormat
import Tinycc.Runtime.DivmodSound
import Tinycc.Runtime.SoftCommon

namespace Tinycc
open Rounding FloatFormat
open BitVec hiding not_not add_mul zero_mul mul_one one_mul

def binary64 : FloatFormat := ⟨52, 11, by decide, by decide⟩

def binary32 : FloatFormat := ⟨23, 8, by decide, by decide⟩

section Words

variable {w : ℕ}

theorem toNat_one_shiftLeft {n : ℕ} (h : n < w) : ((1 : BitVec w) <<< n).toNat = 2 ^ n := by
  have hone : (1 : BitVec w).toNat = 1 := toNat_one (by omega)
  rw [toNat_shiftLeft, hone, Nat.one_shiftLeft,
    Nat.mod_eq_of_lt (Nat.pow_lt_pow_right (by norm_num) h)]

theorem toNat_truthWord (h : 0 < w) (p : Prop) [Decidable p] :
    (truthWord w (decide p)).toNat = if p then 1 else 0 := by
  by_cases hp : p
  · simpa [truthWord, hp] using toNat_one h
  · simp [truthWord, hp]

theorem toNat_and_mask {n : ℕ} (h : n < w) (m : BitVec w) :
    (m &&& (((1 : BitVec w) <<< n) - 1)).toNat = m.toNat % 2 ^ n := by
  have hone : (1 : BitVec w).toNat = 1 := toNat_one (by omega)
  have hpos : 0 < 2 ^ n := by positivity
  have hmask : (((1 : BitVec w) <<< n) - 1).toNat = 2 ^ n - 1 := by
    rw [toNat_sub_of_le (by rw [le_def, toNat_one_shiftLeft h]; omega),
      toNat_one_shiftLeft h, hone]
  rw [toNat_and, hmask, Nat.and_two_pow_sub_one_eq_mod]

theorem and_one_shiftLeft_ne_zero {n : ℕ} (h : n < w) (m : BitVec w) :
    m &&& ((1 : BitVec w) <<< n) ≠ 0 ↔ m.toNat / 2 ^ n % 2 = 1 := by
  rw [← toNat_ne_iff_ne, toNat_and, toNat_one_shiftLeft h, Nat.and_two_pow]
  have := Nat.testBit_eq_decide_div_mod_eq (x := m.toNat) (i := n)
  rw [this]
  by_cases hbit : m.toNat / 2 ^ n % 2 = 1 <;> simp [hbit]

theorem toNat_shr_or_truthWord (h : 0 < w) (m : BitVec w) (n : ℕ) {p : Prop} [Decidable p]
    (hp : p ↔ m.toNat % 2 ^ n ≠ 0) :
    ((m >>> n) ||| truthWord w (decide p)).toNat = shrSticky m.toNat n := by
  rw [toNat_or, toNat_shr, toNat_truthWord h, shrSticky, divSticky]
  by_cases hzero : m.toNat % 2 ^ n = 0
  · rw [if_neg (hp.not.mpr (not_not.mpr hzero)), if_pos hzero]
  · rw [if_pos (hp.mpr hzero), if_neg hzero]

theorem toNat_truthWord_ne_zero (h : 0 < w) (m : BitVec w) {n : ℕ} (hn : w ≤ n) :
    (truthWord w (decide (m ≠ 0))).toNat = shrSticky m.toNat n := by
  have hm : m.toNat < 2 ^ n := m.isLt.trans_le (Nat.pow_le_pow_right (by norm_num) hn)
  rw [toNat_truthWord h, shrSticky, divSticky, Nat.div_eq_of_lt hm, Nat.mod_eq_of_lt hm, Nat.zero_or]
  by_cases hzero : m.toNat = 0
  · rw [if_pos hzero, if_neg (not_not.mpr (eq_of_toNat_eq (by simpa using hzero)))]
  · rw [if_neg hzero, if_pos (fun h => hzero (by simp [h]))]

theorem toNat_sfpShrSticky (h : 0 < w) (m : BitVec w) (n : ℕ) :
    (sfpShrSticky m n).toNat = shrSticky m.toNat n := by
  rw [sfpShrSticky]
  split
  case isTrue hle =>
    obtain rfl : n = 0 := by omega
    rw [shrSticky_zero]
  case isFalse hpos =>
    split
    case isTrue hbig =>
      exact toNat_truthWord_ne_zero h m (by omega)
    case isFalse hsmall =>
      apply toNat_shr_or_truthWord h
      rw [← toNat_ne_iff_ne, toNat_and_mask (by omega)]
      simp

theorem toNat_shr_or_and_one (h : 0 < w) (m : BitVec w) :
    ((m >>> 1) ||| (m &&& 1)).toNat = shrSticky m.toNat 1 := by
  have hone : (1 : BitVec w).toNat = 1 := toNat_one h
  rw [toNat_or, toNat_shr, toNat_and, hone, shrSticky, divSticky]
  rcases Nat.mod_two_eq_zero_or_one m.toNat with h | h <;> simp [h]

end Words

section Stands

variable {f : FloatFormat} {x : ℚ} {m : ℕ}

/-- The significand `m` with its guard bits decides how `x` rounds: it is `x`, or it has been cut
with a sticky bit that no shift will bring above the guard bits. -/
def Stands (f : FloatFormat) (x : ℚ) (m : ℕ) : Prop :=
  x = m ∨ SameCuts 2 x m ∧ 2 ^ (f.fracBits + 2) ≤ m ∨ SameCuts 4 x m ∧ 2 ^ (f.fracBits + 3) ≤ m

theorem Stands.sameCuts (h : Stands f x m) : SameCuts 4 x m := by
  rcases h with rfl | ⟨h, _⟩ | ⟨h, _⟩
  · exact SameCuts.refl _ _
  · have := h.coarsen 2
    norm_num at this
    exact this
  · exact h

theorem Stands.halve (h : Stands f x m) (hm : 2 ^ (f.fracBits + 4) ≤ m) :
    Stands f (x / 2) (shrSticky m 1) := by
  have hcuts : SameCuts 2 (x / 2 ^ 1) (shrSticky m 1 : ℚ) := by
    apply SameCuts.shrSticky
    exact h.sameCuts
  have hge : 2 * 2 ^ (f.fracBits + 1) ≤ shrSticky m 1 := by
    apply le_shrSticky
    have : 2 ^ (f.fracBits + 4) = 4 * (2 * 2 ^ (f.fracBits + 1)) := by ring
    omega
  exact .inr (.inl ⟨hcuts, by rwa [pow_succ']⟩)

theorem Stands.double (h : Stands f x m) (hm : m < 2 ^ (f.fracBits + 3)) :
    Stands f (2 * x) (2 * m : ℕ) := by
  rcases h with rfl | ⟨h, hge⟩ | ⟨_, hge⟩
  · exact .inl (by push_cast; ring)
  · have hcuts := h.mul_left (c := 2) (by norm_num)
    norm_num at hcuts
    refine .inr (.inr ⟨by push_cast; exact hcuts, ?_⟩)
    rw [pow_succ']
    omega
  · omega

end Stands

section Normalise

variable {f : FloatFormat} {w : ℕ} {x : ℚ}

/-- What a normalising loop leaves of a significand that stands for `x` at exponent `exp`. -/
def Rescaled (f : FloatFormat) (x : ℚ) (exp exp' : ℤ) (m : ℕ) : Prop :=
  ∃ x' : ℚ, Stands f x' m ∧ x' * 2 ^ exp' = x * 2 ^ exp

variable {limit : BitVec w}

theorem shiftDown_spec {halve : BitVec w → BitVec w}
    (hhalve : ∀ m, (halve m).toNat = shrSticky m.toNat 1)
    (hlimit : limit.toNat = 2 ^ (f.fracBits + 4)) (n : ℕ) (exp : ℤ) {mant : BitVec w}
    (hstands : Stands f x mant.toNat) (hpos : 0 < mant.toNat)
    (hfuel : mant.toNat < 2 ^ (f.fracBits + 4) * 2 ^ n) :
    ∃ exp' mant', shiftDown limit halve (n + 1) exp mant = some (exp', mant') ∧
      0 < mant'.toNat ∧ mant'.toNat < 2 ^ (f.fracBits + 4) ∧
      Rescaled f x exp exp' mant'.toNat := by
  induction n generalizing exp mant x with
  | zero =>
    have : ¬ limit ≤ mant := by
      rw [le_def]
      omega
    rw [shiftDown, if_neg this]
    exact ⟨exp, mant, rfl, hpos, by omega, x, hstands, rfl⟩
  | succ n ih =>
    rw [shiftDown]
    split
    case isTrue hle =>
      rw [le_def, hlimit] at hle
      have hstep := hstands.halve hle
      rw [← hhalve] at hstep
      have hlt : (halve mant).toNat < 2 ^ (f.fracBits + 4) * 2 ^ n := by
        rw [hhalve, show 2 ^ (f.fracBits + 4) * 2 ^ n = 2 * (2 ^ (f.fracBits + 3) * 2 ^ n) by ring]
        apply shrSticky_lt
        rw [show 2 * (2 ^ (f.fracBits + 3) * 2 ^ n) * 2 ^ 1 = 2 ^ (f.fracBits + 4) * 2 ^ (n + 1) by
          ring]
        exact hfuel
      have hpos' : 0 < (halve mant).toNat := by
        rw [hhalve]
        have : 2 * 2 ^ (f.fracBits + 1) ≤ shrSticky mant.toNat 1 := by
          apply le_shrSticky
          have : 2 ^ (f.fracBits + 4) = 4 * (2 * 2 ^ (f.fracBits + 1)) := by ring
          omega
        have : 0 < 2 ^ (f.fracBits + 1) := by positivity
        omega
      obtain ⟨exp', mant', heq, hpos', hlt', x', hx', hscale⟩ := ih _ hstep hpos' hlt
      refine ⟨exp', mant', heq, hpos', hlt', x', hx', ?_⟩
      rw [hscale, zpow_add_one₀ (by norm_num)]
      ring
    case isFalse hgt =>
      rw [le_def] at hgt
      exact ⟨exp, mant, rfl, hpos, by omega, x, hstands, rfl⟩

theorem shiftUp_spec (hlimit : limit.toNat = 2 ^ (f.fracBits + 3)) (n : ℕ) (exp : ℤ)
    {mant : BitVec w} (hstands : Stands f x mant.toNat) (hlt : mant.toNat < 2 ^ (f.fracBits + 4))
    (hw : f.fracBits + 4 < w) (hfuel : 2 ^ (f.fracBits + 3) ≤ mant.toNat * 2 ^ n) :
    ∃ exp' mant', shiftUp limit (n + 1) exp mant = some (exp', mant') ∧
      2 ^ (f.fracBits + 3) ≤ mant'.toNat ∧ mant'.toNat < 2 ^ (f.fracBits + 4) ∧
      Rescaled f x exp exp' mant'.toNat := by
  induction n generalizing exp mant x with
  | zero =>
    have : ¬ mant < limit := by
      rw [lt_def]
      omega
    rw [shiftUp, if_neg this]
    exact ⟨exp, mant, rfl, by omega, hlt, x, hstands, rfl⟩
  | succ n ih =>
    rw [shiftUp]
    split
    case isTrue hsmall =>
      rw [lt_def, hlimit] at hsmall
      have hpow : 2 ^ (f.fracBits + 4) = 2 * 2 ^ (f.fracBits + 3) := by ring
      have hroom : 2 ^ (f.fracBits + 4) < 2 ^ w := Nat.pow_lt_pow_right (by norm_num) hw
      have hshift : (mant <<< 1).toNat = 2 * mant.toNat := by
        rw [toNat_shiftLeft, Nat.shiftLeft_eq, Nat.mod_eq_of_lt (by omega)]
        ring
      have hstep := hstands.double hsmall
      rw [← hshift] at hstep
      obtain ⟨exp', mant', heq, hge, hlt', x', hx', hscale⟩ :=
        ih _ hstep (by omega) (by rw [hshift, mul_comm 2, mul_assoc, ← pow_succ']; exact hfuel)
      refine ⟨exp', mant', heq, hge, hlt', x', hx', ?_⟩
      rw [hscale, zpow_sub_one₀ (by norm_num)]
      ring
    case isFalse hbig =>
      rw [lt_def] at hbig
      exact ⟨exp, mant, rfl, by omega, hlt, x, hstands, rfl⟩

end Normalise

section RoundPack

variable {w : ℕ}

theorem toNat_roundGuardBits (hw : 4 < w) {m : BitVec w} (hm : m.toNat + 8 < 2 ^ w) :
    (roundGuardBits m).toNat = roundOff m.toNat := by
  have hlsb := and_one_shiftLeft_ne_zero (n := 3) (by omega) m
  have hrem := toNat_and_mask (n := 3) (by omega) m
  have htwo := toNat_one_shiftLeft (w := w) (n := 2) (by omega)
  have hthree := toNat_one_shiftLeft (w := w) (n := 3) (by omega)
  have hcond : ((1 : BitVec w) <<< 2 < m &&& (((1 : BitVec w) <<< 3) - (1 : BitVec w)) ∨
      m &&& (((1 : BitVec w) <<< 3) - (1 : BitVec w)) = (1 : BitVec w) <<< 2 ∧
        m &&& ((1 : BitVec w) <<< 3) ≠ 0) ↔
      (4 < m.toNat % 8 ∨ m.toNat % 8 = 4 ∧ m.toNat / 8 % 2 = 1) := by
    rw [hlsb, lt_def, ← toNat_inj (y := (1 : BitVec w) <<< 2), hrem, htwo]
    norm_num
  rw [roundGuardBits, toNat_shr, roundOff]
  by_cases hup : 4 < m.toNat % 8 ∨ m.toNat % 8 = 4 ∧ m.toNat / 8 % 2 = 1
  · rw [if_pos (hcond.mpr hup), if_pos hup, toNat_add, Nat.mod_eq_of_lt (by omega)]
    omega
  · rw [if_neg (hcond.not.mpr hup), if_neg hup]
    rfl

/-- What the rounding needs of a format's packing and of its shift by one. -/
structure PackLaws (f : FloatFormat) (halve : BitVec w → BitVec w)
    (make : Bool → ℤ → BitVec w → BitVec w) : Prop where
  width : w = f.expBits + f.fracBits + 1
  expBits_ge : 4 ≤ f.expBits
  halve : ∀ m, (halve m).toNat = shrSticky m.toNat 1
  make : ∀ sign m, ∀ exp : ℕ, exp ≤ f.expMax → (make sign exp m).toNat =
    (if sign then f.signBit else 0) + (exp * 2 ^ f.fracBits + m.toNat % 2 ^ f.fracBits)

variable {f : FloatFormat} {halve : BitVec w → BitVec w} {make : Bool → ℤ → BitVec w → BitVec w}

theorem infinity_add_lt (f : FloatFormat) : f.infinity + 2 ^ f.fracBits ≤ f.signBit := by
  have hpos : 0 < 2 ^ f.expBits := by positivity
  rw [infinity, expMax, signBit, pow_add, ← Nat.succ_mul,
    Nat.succ_eq_add_one, Nat.sub_add_cancel hpos]

theorem isRounding_of_toNat {x : ℚ} {sign : Bool} {n k : ℕ}
    (hn : n = (if sign then f.signBit else 0) + k) (hk : k ≤ f.infinity)
    (hround : f.IsNearestEven |x| k) : f.IsRounding x sign n := by
  have hinf := infinity_add_lt f
  have hpos : 0 < 2 ^ f.fracBits := by positivity
  have hmod : n % f.signBit = k := by
    rw [hn]
    cases sign
    · simpa using Nat.mod_eq_of_lt (by omega)
    · simpa using Nat.mod_eq_of_lt (by omega)
  refine ⟨?_, ?_, by rw [hmod]; exact hround⟩
  · cases sign <;> simp at hn <;> omega
  · cases sign <;> simp [negative] at hn ⊢ <;> omega

theorem toNat_make_zero (laws : PackLaws f halve make) (sign : Bool) {exp : ℕ}
    (hexp : exp ≤ f.expMax) : (make sign exp 0).toNat =
      (if sign then f.signBit else 0) + exp * 2 ^ f.fracBits := by
  rw [laws.make sign 0 exp hexp]
  simp

theorem toNat_signedZero (laws : PackLaws f halve make) (sign : Bool) :
    (make sign 0 0).toNat = if sign then f.signBit else 0 := by
  simpa using toNat_make_zero laws sign (Nat.zero_le f.expMax)

theorem eq_zero_iff_toNat {w : ℕ} (m : BitVec w) : m = 0 ↔ m.toNat = 0 := by
  rw [← toNat_inj]
  simp

theorem toNat_packRounded_zero (laws : PackLaws f halve make) (sign : Bool) (mant : BitVec w)
    (hmant : mant.toNat ≤ 2 ^ f.fracBits) :
    (packRounded f.fracBits f.expMax make sign 0 mant).toNat =
      (if sign then f.signBit else 0) + mant.toNat := by
  have hpos : 0 < 2 ^ f.fracBits := by positivity
  have hexpMax := f.expMax_pos
  have hbit := and_one_shiftLeft_ne_zero (n := f.fracBits) (by have := laws.width; omega) mant
  rw [packRounded]
  simp only [ne_eq, not_true_eq_false, false_and, if_false, if_true]
  rcases hmant.lt_or_eq with hlt | heq
  · rw [if_neg (hbit.not.mpr (by rw [Nat.div_eq_of_lt hlt]; decide)), if_neg (by omega)]
    have := laws.make sign mant 0 (Nat.zero_le _)
    rw [Nat.cast_zero] at this
    rw [this, Nat.mod_eq_of_lt hlt, zero_mul, zero_add]
  · rw [if_pos (hbit.mpr (by rw [heq, Nat.div_self hpos])), if_neg (by omega)]
    have := laws.make sign mant 1 (by omega)
    rw [Nat.cast_one] at this
    rw [this, heq, Nat.mod_self, one_mul, add_zero]

theorem toNat_packRounded_succ (laws : PackLaws f halve make) (sign : Bool) (e : ℕ)
    (mant : BitVec w) (hge : 2 ^ f.fracBits ≤ mant.toNat) (hle : mant.toNat ≤ 2 * 2 ^ f.fracBits) :
    (packRounded f.fracBits f.expMax make sign (e + 1 : ℕ) mant).toNat =
      (if sign then f.signBit else 0) + min (e * 2 ^ f.fracBits + mant.toNat) f.infinity := by
  -- a normal number, a carry into the next binade, or overflow
  have hpos : 0 < 2 ^ f.fracBits := by positivity
  have hwidth := laws.width
  have hexpBits := laws.expBits_ge
  have hbit := and_one_shiftLeft_ne_zero (n := f.fracBits + 1) (by omega) mant
  rw [shiftLeft_add] at hbit
  rw [packRounded, infinity]
  have hne : ((e + 1 : ℕ) : ℤ) ≠ 0 := by omega
  simp only [hne, if_false, ne_eq, not_false_eq_true, true_and]
  rcases hle.lt_or_eq with hlt | heq
  · have hcarry : ¬ mant &&& ((1 : BitVec w) <<< f.fracBits) <<< 1 ≠ 0 :=
      hbit.not.mpr (by rw [Nat.div_eq_of_lt (by rw [pow_succ']; exact hlt)]; decide)
    simp only [hcarry, if_false]
    split
    case isTrue hover =>
      have := Nat.mul_le_mul_right (2 ^ f.fracBits) (show f.expMax ≤ e + 1 by omega)
      rw [add_mul] at this
      rw [toNat_make_zero laws sign le_rfl, min_eq_right (by omega)]
    case isFalse hfin =>
      have := Nat.mul_le_mul_right (2 ^ f.fracBits) (show e + 1 + 1 ≤ f.expMax by omega)
      rw [add_mul, add_mul] at this
      have hmod : mant.toNat % 2 ^ f.fracBits = mant.toNat - 2 ^ f.fracBits := by
        rw [Nat.mod_eq_sub_mod hge, Nat.mod_eq_of_lt (by omega)]
      rw [laws.make sign mant (e + 1) (by omega), add_mul]
      omega
  · have hcarry : mant &&& ((1 : BitVec w) <<< f.fracBits) <<< 1 ≠ 0 :=
      hbit.mpr (by rw [heq, pow_succ', Nat.div_self (by omega)])
    have hshift : (mant >>> 1).toNat = 2 ^ f.fracBits := by
      rw [toNat_shr]
      omega
    simp only [hcarry, not_false_eq_true, if_true]
    split
    case isTrue hover =>
      have := Nat.mul_le_mul_right (2 ^ f.fracBits) (show f.expMax ≤ e + 2 by omega)
      rw [add_mul] at this
      rw [toNat_make_zero laws sign le_rfl, min_eq_right (by omega)]
    case isFalse hfin =>
      have := Nat.mul_le_mul_right (2 ^ f.fracBits) (show e + 2 ≤ f.expMax by omega)
      rw [add_mul] at this
      have hmake := laws.make sign (mant >>> 1) (e + 1 + 1) (by omega)
      push_cast at hmake ⊢
      rw [hmake, hshift, Nat.mod_self]
      rw [add_mul, add_mul]
      omega

theorem roundsAt_normal {x : ℚ} {m e : ℕ} (hcuts : SameCuts 4 x (m : ℚ))
    (hge : 2 ^ (f.fracBits + 3) ≤ m) (hlt : m < 2 ^ (f.fracBits + 4)) :
    f.RoundsAt e (roundOff m) (x / 8 * f.ulp (e + 1)) := by
  have hulp := f.ulp_pos (e + 1)
  have hge' : (2 ^ f.fracBits : ℚ) ≤ x / 8 := by
    have := (hcuts.le_iff (2 ^ (f.fracBits + 1) : ℕ)).mpr (by
      have : 4 * 2 ^ (f.fracBits + 1) ≤ m := by
        rw [show 4 * 2 ^ (f.fracBits + 1) = 2 ^ (f.fracBits + 3) by ring]
        exact hge
      exact_mod_cast this)
    push_cast [pow_succ] at this
    linarith
  have hlt' : x / 8 < 2 * 2 ^ f.fracBits := by
    have := (hcuts (2 ^ (f.fracBits + 2) : ℕ)).1.mpr (by
      have : m < 4 * 2 ^ (f.fracBits + 2) := by
        rw [show 4 * 2 ^ (f.fracBits + 2) = 2 ^ (f.fracBits + 4) by ring]
        exact hlt
      exact_mod_cast this)
    push_cast [pow_succ] at this
    linarith
  refine ⟨?_, .inr (by gcongr), by gcongr⟩
  rw [mul_div_assoc, div_self hulp.ne', mul_one]
  exact isRoundEven_roundOff hcuts

theorem roundsAt_subnormal {x : ℚ} {m : ℕ} (hcuts : SameCuts 4 x (m : ℚ))
    (hlt : m < 2 ^ (f.fracBits + 3)) : f.RoundsAt 0 (roundOff m) (x / 8 * f.ulp 1) := by
  have hulp := f.ulp_pos 1
  have hnonneg : 0 ≤ x := by
    have := (hcuts.le_iff 0).mpr (by simp)
    simpa using this
  have hlt' : x / 8 < 2 ^ f.fracBits := by
    have := (hcuts (2 ^ (f.fracBits + 1) : ℕ)).1.mpr (by
      have : m < 4 * 2 ^ (f.fracBits + 1) := by
        rw [show 4 * 2 ^ (f.fracBits + 1) = 2 ^ (f.fracBits + 3) by ring]
        exact hlt
      exact_mod_cast this)
    push_cast [pow_succ] at this
    linarith
  refine ⟨?_, .inl ⟨rfl, by positivity⟩, ?_⟩
  · rw [mul_div_assoc, div_self hulp.ne', mul_one]
    exact isRoundEven_roundOff hcuts
  · apply mul_lt_mul_of_pos_right _ hulp
    linarith

theorem roundOff_bounds (m : ℕ) : m / 8 ≤ roundOff m ∧ roundOff m ≤ m / 8 + 1 := by
  rw [roundOff]
  split <;> omega

def packScale (f : FloatFormat) (exp : ℤ) : ℚ := 2 ^ (exp - f.bias - f.fracBits - 3)

theorem packScale_eq (f : FloatFormat) (exp : ℤ) :
    packScale f exp = 2 ^ exp * packScale f 0 := by
  rw [packScale, packScale, ← zpow_add₀ (by norm_num)]
  congr 1
  ring

theorem packScale_natCast (f : FloatFormat) (e : ℕ) : packScale f e = f.ulp e / 8 := by
  rw [packScale, ulp, zpow_sub₀ (by norm_num)]
  norm_num

section

variable (laws : PackLaws f halve make)
include laws

theorem add_eight_lt {m : ℕ} (h : m < 2 ^ (f.fracBits + 4)) :
    m + 8 < 2 ^ w := by
  have hwidth := laws.width
  have hexpBits := laws.expBits_ge
  have h8 : 2 ^ 3 < 2 ^ (f.fracBits + 4) := Nat.pow_lt_pow_right (by norm_num) (by omega)
  have hle : 2 ^ (f.fracBits + 5) ≤ 2 ^ w := Nat.pow_le_pow_right (by norm_num) (by omega)
  rw [pow_succ] at hle
  omega

theorem pack_normal (sign : Bool) (e : ℕ) {mant : BitVec w} {x : ℚ}
    (hcuts : SameCuts 4 x (mant.toNat : ℚ)) (hge : 2 ^ (f.fracBits + 3) ≤ mant.toNat)
    (hlt : mant.toNat < 2 ^ (f.fracBits + 4)) :
    f.IsRounding (x * packScale f (e + 1 : ℕ)) sign
      (packRounded f.fracBits f.expMax make sign (e + 1 : ℕ) (roundGuardBits mant)).toNat := by
  have hwidth := laws.width
  have hexpBits := laws.expBits_ge
  have hround := roundsAt_normal (e := e) hcuts hge hlt
  have hroom := add_eight_lt laws hlt
  have hbounds := roundOff_bounds mant.toNat
  have hpow : 2 ^ (f.fracBits + 3) = 8 * 2 ^ f.fracBits ∧
    2 ^ (f.fracBits + 4) = 8 * (2 * 2 ^ f.fracBits) := ⟨by ring, by ring⟩
  have hpack := toNat_packRounded_succ laws sign e (roundGuardBits mant)
    (by rw [toNat_roundGuardBits (by omega) hroom]; omega)
    (by rw [toNat_roundGuardBits (by omega) hroom]; omega)
  rw [toNat_roundGuardBits (by omega) hroom] at hpack
  have hnonneg : 0 ≤ x / 8 * f.ulp (e + 1) := by
    have := f.ulp_pos (e + 1)
    rcases hround.low with ⟨_, h⟩ | h
    · exact h
    · exact le_trans (by positivity) h
  have hscale : x * packScale f (e + 1 : ℕ) = x / 8 * f.ulp (e + 1) := by
    rw [packScale_natCast]
    ring
  apply isRounding_of_toNat hpack (min_le_right _ _)
  rw [hscale, abs_of_nonneg hnonneg]
  exact hround.isNearestEven

theorem pack_subnormal (sign : Bool) {exp : ℤ} (hexp : exp ≤ 0)
    {mant : BitVec w} {x : ℚ} (hcuts : SameCuts 4 x (mant.toNat : ℚ))
    (hlt : mant.toNat < 2 ^ (f.fracBits + 4)) :
    f.IsRounding (x * packScale f exp) sign
      (packRounded f.fracBits f.expMax make sign 0
        (roundGuardBits (sfpShrSticky mant (1 - exp)))).toNat := by
  have hwidth := laws.width
  have hexpBits := laws.expBits_ge
  obtain ⟨n, rfl⟩ : ∃ n : ℕ, exp = -n := ⟨exp.natAbs, by omega⟩
  have hshift : 1 - -(n : ℤ) = (n + 1 : ℕ) := by
    push_cast
    ring
  rw [hshift]
  obtain ⟨m, hm⟩ : ∃ m, m = sfpShrSticky mant (n + 1 : ℕ) := ⟨_, rfl⟩
  have hmval : m.toNat = shrSticky mant.toNat (n + 1) := by
    rw [hm, toNat_sfpShrSticky (by omega)]
  -- the shift by `n + 1` leaves guard and sticky bits that still tell the rounding
  have hcuts' : SameCuts 4 (x / 2 ^ (n + 1)) (m.toNat : ℚ) := by
    have hfine : SameCuts (2 ^ (n + 1 + 1)) x (mant.toNat : ℚ) := by
      have := hcuts.coarsen (2 ^ n)
      push_cast at this
      rwa [show (2 ^ (n + 1 + 1) : ℚ) = 4 * 2 ^ n by ring]
    have := hfine.shrSticky.coarsen 2
    rw [← hmval] at this
    norm_num at this
    exact this
  have hmlt : m.toNat < 2 ^ (f.fracBits + 3) := by
    rw [hmval, pow_succ']
    apply shrSticky_lt
    have hone : 1 ≤ 2 ^ n := Nat.one_le_two_pow
    calc mant.toNat < 2 ^ (f.fracBits + 4) * 1 := by omega
      _ ≤ 2 ^ (f.fracBits + 4) * 2 ^ n := Nat.mul_le_mul_left _ hone
      _ = _ := by ring
  have hround := roundsAt_subnormal hcuts' hmlt
  have hroom := add_eight_lt laws (hmlt.trans (Nat.pow_lt_pow_right (by norm_num) (by omega)))
  have hbounds := roundOff_bounds m.toNat
  have hpow : 2 ^ (f.fracBits + 3) = 8 * 2 ^ f.fracBits := by ring
  have hrle : roundOff m.toNat ≤ 2 ^ f.fracBits := by omega
  have hpack := toNat_packRounded_zero laws sign (roundGuardBits m)
    (by rw [toNat_roundGuardBits (by omega) hroom]; exact hrle)
  rw [toNat_roundGuardBits (by omega) hroom] at hpack
  have hinf : 2 ^ f.fracBits ≤ f.infinity :=
    Nat.le_mul_of_pos_left _ (by have := f.expMax_pos; omega)
  have hnonneg : 0 ≤ x / 2 ^ (n + 1) / 8 * f.ulp 1 := by
    rcases hround.low with ⟨_, h⟩ | h
    · exact h
    · exact le_trans (by have := f.ulp_pos 1; positivity) h
  -- a subnormal counts in units of the smallest exponent
  have hscale : x * packScale f (-n) = x / 2 ^ (n + 1) / 8 * f.ulp 1 := by
    have hone := packScale_natCast f 1
    rw [packScale_eq, Nat.cast_one] at hone
    have hulp : f.ulp 1 = 16 * packScale f 0 := by linarith
    rw [packScale_eq, zpow_neg, zpow_natCast, hulp]
    field_simp
    ring
  rw [← hm]
  apply isRounding_of_toNat hpack (by omega)
  rw [hscale, abs_of_nonneg hnonneg]
  have := hround.isNearestEven
  rwa [zero_mul, zero_add, min_eq_left (by omega)] at this

theorem sfpRoundPack_spec (sign : Bool) (exp : ℤ) {mant : BitVec w}
    {x : ℚ} (hstands : Stands f x mant.toNat) :
    ∃ r, sfpRoundPack f.fracBits f.expMax halve make sign exp mant = some r ∧
      f.IsRounding (x * packScale f exp) sign r.toNat := by
  have hwidth := laws.width
  have hexpBits := laws.expBits_ge
  rw [sfpRoundPack]
  by_cases hzero : mant = 0
  · have hx : x = 0 := by
      have hpos : 0 < 2 ^ (f.fracBits + 2) ∧ 0 < 2 ^ (f.fracBits + 3) := ⟨by positivity, by positivity⟩
      have hm : mant.toNat = 0 := by simp [hzero]
      rw [hm] at hstands
      rcases hstands with rfl | ⟨_, hge⟩ | ⟨_, hge⟩
      · simp
      · omega
      · omega
    have hmake := toNat_make_zero laws sign (Nat.zero_le f.expMax)
    rw [zero_mul] at hmake
    rw [if_pos hzero]
    refine ⟨_, rfl, isRounding_of_toNat hmake (Nat.zero_le _) ?_⟩
    rw [hx, zero_mul]
    have hinf : 0 < f.infinity := Nat.mul_pos (by have := f.expMax_pos; omega) (by positivity)
    simpa using isNearestEven_mag hinf
  · rw [if_neg hzero]
    have hpos : 0 < mant.toNat := Nat.pos_of_ne_zero fun h => hzero (eq_of_toNat_eq (by simpa using h))
    obtain ⟨n, rfl⟩ : ∃ n, w = n + 1 := ⟨w - 1, by omega⟩
    have hlimit := toNat_one_shiftLeft (w := n + 1) (n := f.fracBits + 3) (by omega)
    have hlimit' := toNat_one_shiftLeft (w := n + 1) (n := f.fracBits + 3 + 1) (by omega)
    rw [shiftLeft_add] at hlimit'
    have hfuel : mant.toNat < 2 ^ (f.fracBits + 4) * 2 ^ n :=
      mant.isLt.trans_le (by rw [← pow_add]; exact Nat.pow_le_pow_right (by norm_num) (by omega))
    -- the two loops bring the significand between its bounds and keep the value
    obtain ⟨exp₁, mant₁, hdown, hpos₁, hlt₁, x₁, hstands₁, hscale₁⟩ :=
      shiftDown_spec laws.halve hlimit' n exp hstands hpos hfuel
    have hfuel₁ : 2 ^ (f.fracBits + 3) ≤ mant₁.toNat * 2 ^ n :=
      (Nat.pow_le_pow_right (by norm_num) (by omega)).trans (Nat.le_mul_of_pos_left _ hpos₁)
    obtain ⟨exp₂, mant₂, hup, hge₂, hlt₂, x₂, hstands₂, hscale₂⟩ :=
      shiftUp_spec hlimit n exp₁ hstands₁ hlt₁ (by omega) hfuel₁
    have hvalue : x * packScale f exp = x₂ * packScale f exp₂ := by
      rw [packScale_eq, packScale_eq f exp₂, ← mul_assoc, ← mul_assoc, hscale₂, hscale₁]
    simp only [hdown, hup, Option.bind_eq_bind, Option.bind_some]
    rw [hvalue]
    split
    case isTrue hsub =>
      exact ⟨_, rfl, pack_subnormal laws sign hsub hstands₂.sameCuts hlt₂⟩
    case isFalse hnormal =>
      obtain ⟨e, rfl⟩ : ∃ e : ℕ, exp₂ = (e + 1 : ℕ) := ⟨exp₂.toNat - 1, by omega⟩
      exact ⟨_, rfl, pack_normal laws sign e hstands₂.sameCuts hge₂ hlt₂⟩

end

end RoundPack

section Fields

/-- The three fields of a pattern, as the accessors read them. -/
structure Fields (f : FloatFormat) (n : ℕ) (sign : Bool) (exp : ℤ) (mant : ℕ) : Prop where
  lt : n < 2 * f.signBit
  sign_eq : sign = f.negative n
  exp_eq : exp = (n % f.signBit / 2 ^ f.fracBits : ℕ)
  mant_eq : mant = n % f.signBit % 2 ^ f.fracBits

/-- The significand of a finite number, and the exponent field whose unit it counts. -/
structure Significand (f : FloatFormat) (n : ℕ) (exp sig : ℕ) : Prop where
  exp_pos : 0 < exp
  lt : sig < 2 * 2 ^ f.fracBits
  low : exp = 1 ∨ 2 ^ f.fracBits ≤ sig
  mag_eq : f.mag (n % f.signBit) = sig * f.ulp exp

variable {f : FloatFormat} {n mant : ℕ} {sign : Bool} {exp : ℤ}

section

variable (h : Fields f n sign exp mant)
include h

theorem Fields.exp_lt (hfin : f.IsFinite n) : exp < f.expMax := by
  rw [h.exp_eq]
  exact_mod_cast (Nat.div_lt_iff_lt_mul (by positivity)).mpr hfin

theorem Fields.zero_iff :
    exp = 0 ∧ mant = 0 ↔ n % f.signBit = 0 := by
  have hsplit := Nat.div_add_mod (n % f.signBit) (2 ^ f.fracBits)
  rw [h.exp_eq, h.mant_eq]
  constructor
  · rintro ⟨hexp, hmant⟩
    rw [Int.natCast_eq_zero] at hexp
    rw [hexp] at hsplit
    omega
  · intro hzero
    rw [hzero]
    simp

theorem Fields.significand :
    Significand f n (if exp = 0 then 1 else exp.toNat)
      (if exp = 0 then mant else 2 ^ f.fracBits + mant) := by
  have hpos : 0 < 2 ^ f.fracBits := by positivity
  have hlt : mant < 2 ^ f.fracBits := h.mant_eq ▸ Nat.mod_lt _ hpos
  have hexp := h.exp_eq
  by_cases hzero : exp = 0
  · rw [if_pos hzero, if_pos hzero]
    refine ⟨by omega, by omega, .inl rfl, ?_⟩
    rw [mag, if_pos (by omega), ← h.mant_eq]
  · have hnat : exp.toNat = n % f.signBit / 2 ^ f.fracBits := by rw [hexp, Int.toNat_natCast]
    have hne : n % f.signBit / 2 ^ f.fracBits ≠ 0 := fun h => hzero (by rw [hexp, h]; rfl)
    rw [if_neg hzero, if_neg hzero, hnat]
    refine ⟨Nat.pos_of_ne_zero hne, by omega, .inr (by omega), ?_⟩
    rw [mag, if_neg hne, ← h.mant_eq]

end

theorem isRounding_self (hlt : n < 2 * f.signBit) (hfin : f.IsFinite n) :
    f.IsRounding (f.value n) (f.negative n) n :=
  ⟨hlt, rfl, by rw [f.abs_value]; exact isNearestEven_mag hfin⟩

end Fields

theorem or_fields {s e c p q : ℕ} (he : e < 2 ^ q) (hc : c < 2 ^ p) :
    s * 2 ^ (q + p) ||| e * 2 ^ p ||| c = s * 2 ^ (q + p) + (e * 2 ^ p + c) := by
  have he' : e * 2 ^ p < 2 ^ (q + p) := by
    rw [pow_add]
    exact Nat.mul_lt_mul_of_pos_right he (by positivity)
  have hsum : s * 2 ^ (q + p) + e * 2 ^ p = (s * 2 ^ q + e) <<< p := by
    rw [Nat.shiftLeft_eq]
    ring
  rw [← Nat.shiftLeft_eq s, ← Nat.shiftLeft_add_eq_or_of_lt he', Nat.shiftLeft_eq, hsum,
    ← Nat.shiftLeft_add_eq_or_of_lt hc, ← hsum, add_assoc]

theorem packLaws_double :
    PackLaws binary64 (fun mant => (mant >>> 1) ||| (mant &&& 1)) makeDouble where
  width := rfl
  expBits_ge := by decide
  halve := toNat_shr_or_and_one (by decide)
  make := by
    intro sign m exp hexp
    have hexp' : exp < 2 ^ 11 := Nat.lt_of_le_pred (by decide) hexp
    have hsign : ((if sign then 1 else 0 : BitVec 64) <<< 63).toNat = sign.toNat * 2 ^ (11 + 52) := by
      cases sign <;> decide
    have hfield : ((BitVec.ofInt 64 exp &&& 0x7FF) <<< 52).toNat = exp * 2 ^ 52 := by
      have hand : (BitVec.ofInt 64 (exp : ℤ) &&& 0x7FF).toNat = exp := by
        rw [ofInt_natCast, toNat_and, toNat_ofNat,
          Nat.mod_eq_of_lt (show exp < 2 ^ 64 by omega),
          show (0x7FF : BitVec 64).toNat = 2 ^ 11 - 1 from rfl, Nat.and_two_pow_sub_one_eq_mod,
          Nat.mod_eq_of_lt hexp']
      rw [toNat_shiftLeft, hand, Nat.shiftLeft_eq, Nat.mod_eq_of_lt (by omega)]
    have hmant : (m &&& 0x000FFFFFFFFFFFFF).toNat = m.toNat % 2 ^ 52 := by
      rw [toNat_and, show (0x000FFFFFFFFFFFFF : BitVec 64).toNat = 2 ^ 52 - 1 from rfl,
        Nat.and_two_pow_sub_one_eq_mod]
    rw [makeDouble, toNat_or, toNat_or, hsign, hfield, hmant,
      or_fields hexp' (Nat.mod_lt _ (by decide))]
    cases sign <;> rfl

theorem packLaws_float :
    PackLaws binary32 (fun mant => sfpShrSticky32 mant 1) makeFloat where
  width := rfl
  expBits_ge := by decide
  halve := fun m => toNat_sfpShrSticky (by decide) m 1
  make := by
    intro sign m exp hexp
    have hexp' : exp < 2 ^ 8 := Nat.lt_of_le_pred (by decide) hexp
    have hsign : ((if sign then 1 else 0 : BitVec 32) <<< 31).toNat = sign.toNat * 2 ^ (8 + 23) := by
      cases sign <;> decide
    have hfield : (BitVec.ofInt 32 exp <<< 23).toNat = exp * 2 ^ 23 := by
      rw [ofInt_natCast, toNat_shiftLeft, toNat_ofNat,
        Nat.mod_eq_of_lt (show exp < 2 ^ 32 by omega), Nat.shiftLeft_eq,
        Nat.mod_eq_of_lt (by omega)]
    have hmant : (m &&& 0x007FFFFF).toNat = m.toNat % 2 ^ 23 := by
      rw [toNat_and, show (0x007FFFFF : BitVec 32).toNat = 2 ^ 23 - 1 from rfl,
        Nat.and_two_pow_sub_one_eq_mod]
    rw [makeFloat, toNat_or, toNat_or, hsign, hfield, hmant,
      or_fields hexp' (Nat.mod_lt _ (by decide))]
    cases sign <;> rfl

theorem shiftRight_and_one_ne_zero {w k : ℕ} (hw : 0 < w) (bits : BitVec w)
    (h : bits.toNat < 2 * 2 ^ k) : (bits >>> k) &&& 1 ≠ 0 ↔ 2 ^ k ≤ bits.toNat := by
  have hone : (1 : BitVec w).toNat = 1 := toNat_one hw
  rw [← toNat_ne_iff_ne, toNat_and, toNat_shr, hone, Nat.and_one_is_mod]
  have hpos : 0 < 2 ^ k := by positivity
  have hlt : bits.toNat / 2 ^ k < 2 := (Nat.div_lt_iff_lt_mul hpos).mpr h
  rw [Nat.mod_eq_of_lt hlt, ← Nat.one_le_div_iff hpos, Nat.one_le_iff_ne_zero]
  simp

theorem double_fields (bits : BitVec 64) : Fields binary64 bits.toNat (doubleSign bits)
    (doubleExp bits) (doubleMant bits).toNat where
  lt := bits.isLt
  sign_eq := decide_eq_decide.mpr (shiftRight_and_one_ne_zero (by decide) bits bits.isLt)
  exp_eq := by
    rw [doubleExp, toNat_and, toNat_shr]
    norm_cast
    rw [show (0x7FF : BitVec 64).toNat = 2 ^ 11 - 1 from rfl, Nat.and_two_pow_sub_one_eq_mod]
    change bits.toNat / 2 ^ 52 % 2 ^ 11 = bits.toNat % 2 ^ 63 / 2 ^ 52
    omega
  mant_eq := by
    rw [doubleMant, toNat_and, show (0x000FFFFFFFFFFFFF : BitVec 64).toNat = 2 ^ 52 - 1 from rfl,
      Nat.and_two_pow_sub_one_eq_mod]
    change bits.toNat % 2 ^ 52 = bits.toNat % 2 ^ 63 % 2 ^ 52
    omega

theorem float_fields (bits : BitVec 32) : Fields binary32 bits.toNat (floatSign bits)
    (floatExp bits) (floatMant bits).toNat where
  lt := bits.isLt
  sign_eq := decide_eq_decide.mpr (shiftRight_and_one_ne_zero (by decide) bits bits.isLt)
  exp_eq := by
    rw [floatExp, toNat_and, toNat_shr]
    norm_cast
    rw [show (0xFF : BitVec 32).toNat = 2 ^ 8 - 1 from rfl, Nat.and_two_pow_sub_one_eq_mod]
    change bits.toNat / 2 ^ 23 % 2 ^ 8 = bits.toNat % 2 ^ 31 / 2 ^ 23
    omega
  mant_eq := by
    rw [floatMant, toNat_and, show (0x007FFFFF : BitVec 32).toNat = 2 ^ 23 - 1 from rfl,
      Nat.and_two_pow_sub_one_eq_mod]
    change bits.toNat % 2 ^ 23 = bits.toNat % 2 ^ 31 % 2 ^ 23
    omega

theorem sfpRoundPackDouble_spec (sign : Bool) (exp : ℤ) {mant : BitVec 64} {x : ℚ}
    (hstands : Stands binary64 x mant.toNat) : ∃ r, sfpRoundPackDouble sign exp mant = some r ∧
      binary64.IsRounding (x * packScale binary64 exp) sign r.toNat :=
  sfpRoundPack_spec packLaws_double sign exp hstands

theorem sfpRoundPackFloat_spec (sign : Bool) (exp : ℤ) {mant : BitVec 32} {x : ℚ}
    (hstands : Stands binary32 x mant.toNat) : ∃ r, sfpRoundPackFloat sign exp mant = some r ∧
      binary32.IsRounding (x * packScale binary32 exp) sign r.toNat :=
  sfpRoundPack_spec packLaws_float sign exp hstands

end Tinycc
