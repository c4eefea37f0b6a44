import Mathlib.Data.Rat.Floor
import Tinycc.Runtime.SoftCommonSound

/-!
# The rounding functions `floor` and `floorf`

Both clear the fraction bits of the pattern, and for a negative number add one to the lowest bit
that is left.  The sum runs over the whole pattern, so a carry out of the fraction enters the
exponent.
-/

namespace Tinycc
open Nat FloatFormat
open BitVec hiding one_mul

/-- The body `floor` and `floorf` share, with the constants of the format. -/
def floorBy {w : ℕ} (fracBits : ℕ) (expMask : BitVec w) (bias : ℤ) (minusOne : BitVec w)
    (u : BitVec w) : BitVec w :=
  let exp : ℤ := ((u >>> fracBits) &&& expMask).toNat - bias
  let sign := u >>> (w - 1)
  -- NaN or infinity
  if exp = bias + 1 then u
  -- already an integer
  else if (fracBits : ℤ) ≤ exp then u
  else if exp < 0 then if sign ≠ 0 then minusOne else 0
  else
    let mask := ~~~(((1 : BitVec w) <<< (fracBits - exp.toNat)) - 1)
    let truncated := u &&& mask
    if truncated = u then u
    else if sign ≠ 0 then truncated + ((1 : BitVec w) <<< (fracBits - exp.toNat))
    else truncated

def floor (u : BitVec 64) : BitVec 64 := floorBy 52 0x7FF 1023 0xBFF0000000000000 u

def floorf (u : BitVec 32) : BitVec 32 := floorBy 23 0xFF 127 0xBF800000 u

/-- The pattern `n'` is that of the greatest integer not above the value of `n`. -/
def IsFloor (f : FloatFormat) (n n' : ℕ) : Prop := f.IsFinite n' ∧ f.value n' = ⌊f.value n⌋

section Magnitudes

variable {f : FloatFormat} {m k : ℕ}

theorem infinity_lt_signBit (f : FloatFormat) : f.infinity < f.signBit := by
  have hpos : 0 < 2 ^ f.fracBits := by positivity
  have hexp : 0 < 2 ^ f.expBits := by positivity
  rw [infinity, signBit, expMax, pow_add]
  exact Nat.mul_lt_mul_of_pos_right (by omega) hpos

theorem value_of_lt (hm : m < f.signBit) : f.value m = f.mag m := by
  have hneg : f.negative m = false := decide_eq_false (Nat.not_le.mpr hm)
  rw [value, hneg, mod_eq_of_lt hm]
  simp

theorem value_add_signBit (hm : m < f.signBit) : f.value (f.signBit + m) = -f.mag m := by
  have hneg : f.negative (f.signBit + m) = true := decide_eq_true (Nat.le_add_right ..)
  rw [value, hneg, add_mod_left, mod_eq_of_lt hm]
  simp

theorem isFinite_add_signBit (hm : m < f.infinity) : f.IsFinite (f.signBit + m) := by
  rw [FloatFormat.IsFinite, add_mod_left, mod_eq_of_lt (hm.trans (infinity_lt_signBit f))]
  exact hm

theorem isFinite_of_lt (hm : m < f.infinity) : f.IsFinite m := by
  rw [FloatFormat.IsFinite, mod_eq_of_lt (hm.trans (infinity_lt_signBit f))]
  exact hm

theorem bias_pos (f : FloatFormat) : 0 < f.bias := by
  have h2 : 2 ^ 1 ≤ 2 ^ (f.expBits - 1) :=
    Nat.pow_le_pow_right (by decide) (by have := f.expBits_gt; omega)
  have hcast : ((2 ^ 1 : ℕ) : ℤ) ≤ ((2 ^ (f.expBits - 1) : ℕ) : ℤ) := by exact_mod_cast h2
  rw [bias]
  push_cast at hcast
  omega

theorem mag_eq_significand (hm : 0 < m / 2 ^ f.fracBits) {d : ℕ}
    (hd : m % 2 ^ f.fracBits + d ≤ 2 ^ f.fracBits) :
    f.mag (m + d) = (2 ^ f.fracBits + m % 2 ^ f.fracBits + d : ℕ) * f.ulp (m / 2 ^ f.fracBits) := by
  obtain ⟨e, he⟩ : ∃ e, m / 2 ^ f.fracBits = e + 1 := ⟨_, (succ_pred_eq_of_pos hm).symm⟩
  have hsplit := div_add_mod' m (2 ^ f.fracBits)
  rw [he, Nat.succ_mul] at hsplit
  have hmd : m + d = e * 2 ^ f.fracBits + (2 ^ f.fracBits + m % 2 ^ f.fracBits + d) := by omega
  rw [he, ← f.mag_eq (by omega) (.inr (by omega)), ← hmd]

theorem exists_mag_trunc (hk : k ≤ f.fracBits)
    (hexp : ((m / 2 ^ f.fracBits : ℕ) : ℤ) + k = f.bias + f.fracBits) :
    ∃ q : ℕ, f.mag m = q + (m % 2 ^ k : ℕ) / (2 : ℚ) ^ k ∧ f.mag (m - m % 2 ^ k) = q ∧
      f.mag (m - m % 2 ^ k + 2 ^ k) = q + 1 := by
  obtain ⟨j, hj⟩ := Nat.exists_eq_add_of_le hk
  have hpow : 2 ^ f.fracBits = 2 ^ k * 2 ^ j := by rw [hj, pow_add]
  have hkpos : 0 < 2 ^ k := by positivity
  have hsplit := div_add_mod m (2 ^ k)
  have htrunc : m - m % 2 ^ k = 2 ^ k * (m / 2 ^ k) := by omega
  have hdiv : (m - m % 2 ^ k) / 2 ^ f.fracBits = m / 2 ^ f.fracBits := by
    rw [htrunc, hpow, Nat.mul_div_mul_left _ _ hkpos, Nat.div_div_eq_div_mul]
  have hrest : (m - m % 2 ^ k) % 2 ^ f.fracBits = 2 ^ k * (m / 2 ^ k % 2 ^ j) := by
    rw [htrunc, hpow, mul_mod_mul_left]
  have hroom : 2 ^ k * (m / 2 ^ k % 2 ^ j) + 2 ^ k ≤ 2 ^ f.fracBits := by
    rw [hpow]
    exact Nat.mul_le_mul_left _ (mod_lt _ (by positivity))
  have hbias := bias_pos f
  have hmag := fun d => mag_eq_significand (f := f) (m := m - m % 2 ^ k) (d := d)
    (by rw [hdiv]; omega)
  have hulp : f.ulp (m / 2 ^ f.fracBits) = ((2 : ℚ) ^ k)⁻¹ := by
    rw [ulp, ← zpow_natCast, ← zpow_neg]
    congr 1
    omega
  rw [hdiv, hrest, hulp] at hmag
  have hne : (2 : ℚ) ^ k ≠ 0 := by positivity
  have hq : ∀ d : ℕ, ((2 ^ f.fracBits + 2 ^ k * (m / 2 ^ k % 2 ^ j) + d : ℕ) : ℚ) * ((2 : ℚ) ^ k)⁻¹
      = (2 ^ j + m / 2 ^ k % 2 ^ j : ℕ) + d / (2 : ℚ) ^ k := by
    intro d
    rw [hpow]
    push_cast
    field_simp
  refine ⟨2 ^ j + m / 2 ^ k % 2 ^ j, ?_, ?_, ?_⟩
  · rw [← hq, ← hmag _ (by omega), Nat.sub_add_cancel (mod_le ..)]
  · have h0 := hmag 0 (by omega)
    rw [hq, add_zero, Nat.cast_zero, zero_div, add_zero] at h0
    exact h0
  · rw [hmag _ hroom, hq]
    push_cast
    rw [div_self hne]

theorem exists_mag_eq_natCast (hexp : f.bias + f.fracBits ≤ (m / 2 ^ f.fracBits : ℕ)) :
    ∃ q : ℕ, f.mag m = q := by
  have hbias := bias_pos f
  obtain ⟨j, hj⟩ : ∃ j : ℕ, ((m / 2 ^ f.fracBits : ℕ) : ℤ) = f.bias + f.fracBits + j :=
    ⟨((m / 2 ^ f.fracBits : ℕ) - (f.bias + f.fracBits)).toNat, by omega⟩
  have hmag := mag_eq_significand (f := f) (m := m) (d := 0) (by omega)
    (mod_lt _ (by positivity)).le
  rw [add_zero, add_zero, ulp,
    show ((m / 2 ^ f.fracBits : ℕ) : ℤ) - f.bias - f.fracBits = j by omega] at hmag
  exact ⟨(2 ^ f.fracBits + m % 2 ^ f.fracBits) * 2 ^ j, by rw [hmag]; push_cast; rfl⟩

theorem mag_bias : f.mag (f.bias.toNat * 2 ^ f.fracBits) = 1 := by
  have hbias := bias_pos f
  have hpos : 0 < 2 ^ f.fracBits := by positivity
  have hmag := mag_eq_significand (f := f) (m := f.bias.toNat * 2 ^ f.fracBits) (d := 0)
    (by rw [Nat.mul_div_cancel _ hpos]; omega) (by rw [mul_mod_left]; omega)
  rw [Nat.mul_div_cancel _ hpos, mul_mod_left, add_zero, add_zero, add_zero, ulp,
    show (f.bias.toNat : ℤ) - f.bias - f.fracBits = -(f.fracBits : ℤ) by omega, zpow_neg] at hmag
  rw [hmag]
  push_cast
  exact mul_inv_cancel₀ (by positivity)

theorem mag_lt_one (hexp : ((m / 2 ^ f.fracBits : ℕ) : ℤ) < f.bias) : f.mag m < 1 := by
  rw [← mag_bias]
  refine f.mag_strictMono ?_
  exact (Nat.div_lt_iff_lt_mul (by positivity)).mp (by omega)

end Magnitudes

section Patterns

variable {f : FloatFormat} {n m k : ℕ}

theorem isFloor_self (hfin : f.IsFinite n) (hint : ∃ q : ℕ, f.mag (n % f.signBit) = q) :
    IsFloor f n n := by
  obtain ⟨q, hq⟩ := hint
  refine ⟨hfin, ?_⟩
  rw [value, hq]
  split
  · rw [show (-1 : ℚ) * q = ((-q : ℤ) : ℚ) by push_cast; ring, Int.floor_intCast]
  · rw [one_mul, Int.floor_natCast, Int.cast_natCast]

/-- The exponent field of a finite pattern between one and the integers. -/
structure Fractional (f : FloatFormat) (m k : ℕ) : Prop where
  lt : m < f.signBit
  exp : ((m / 2 ^ f.fracBits : ℕ) : ℤ) + k = f.bias + f.fracBits
  le : k ≤ f.fracBits
  pos : 0 < k

theorem Fractional.lt_infinity (h : Fractional f m k) (hfrac : (f.fracBits : ℤ) ≤ f.bias) :
    m - m % 2 ^ k + 2 ^ k < f.infinity := by
  have hexp := h.exp
  have hkpos := h.pos
  have hle : m - m % 2 ^ k + 2 ^ k ≤ (m / 2 ^ f.fracBits + 1) * 2 ^ f.fracBits := by
    obtain ⟨j, hj⟩ := Nat.exists_eq_add_of_le h.le
    have hsplit := div_add_mod m (2 ^ k)
    have hup : m / 2 ^ k < (m / 2 ^ f.fracBits + 1) * 2 ^ j := by
      rw [hj, pow_add, ← Nat.div_div_eq_div_mul]
      exact (Nat.div_lt_iff_lt_mul (by positivity)).mp (lt_succ_self _)
    calc m - m % 2 ^ k + 2 ^ k = 2 ^ k * (m / 2 ^ k + 1) := by
          rw [Nat.mul_succ]
          omega
      _ ≤ 2 ^ k * ((m / 2 ^ f.fracBits + 1) * 2 ^ j) := Nat.mul_le_mul_left _ hup
      _ = (m / 2 ^ f.fracBits + 1) * 2 ^ f.fracBits := by
          rw [hj]
          ring
  refine hle.trans_lt (Nat.mul_lt_mul_of_pos_right ?_ (by positivity))
  have hmax := f.bias_eq
  omega

theorem Fractional.isFloor_of_lt (h : Fractional f m k) (hfrac : (f.fracBits : ℤ) ≤ f.bias) :
    IsFloor f m (m - m % 2 ^ k) := by
  obtain ⟨q, hm, htrunc, _⟩ := exists_mag_trunc h.le h.exp
  have hfin : m - m % 2 ^ k < f.infinity := by
    have := h.lt_infinity hfrac
    omega
  refine ⟨isFinite_of_lt hfin, ?_⟩
  rw [value_of_lt h.lt, value_of_lt (hfin.trans (infinity_lt_signBit f)), htrunc, hm,
    ← Int.cast_natCast q, Int.floor_intCast_add, Int.cast_inj, left_eq_add, Int.floor_eq_zero_iff]
  have hlt : ((m % 2 ^ k : ℕ) : ℚ) < (2 ^ k : ℕ) := Nat.cast_lt.mpr (mod_lt _ (by positivity))
  exact ⟨by positivity, (div_lt_one (by positivity)).mpr (by exact_mod_cast hlt)⟩

theorem Fractional.isFloor_neg (h : Fractional f m k) (hfrac : (f.fracBits : ℤ) ≤ f.bias)
    (hne : m % 2 ^ k ≠ 0) : IsFloor f (f.signBit + m) (f.signBit + (m - m % 2 ^ k + 2 ^ k)) := by
  obtain ⟨q, hm, _, hnext⟩ := exists_mag_trunc h.le h.exp
  have hfin := h.lt_infinity hfrac
  refine ⟨isFinite_add_signBit hfin, ?_⟩
  have hlt : ((m % 2 ^ k : ℕ) : ℚ) < (2 ^ k : ℕ) := Nat.cast_lt.mpr (mod_lt _ (by positivity))
  have hfloor : ⌊-(q + (m % 2 ^ k : ℕ) / (2 : ℚ) ^ k)⌋ = -(q + 1 : ℤ) := by
    have h1 : ((m % 2 ^ k : ℕ) : ℚ) / 2 ^ k < 1 :=
      (div_lt_one (by positivity)).mpr (by exact_mod_cast hlt)
    have h2 : 0 < ((m % 2 ^ k : ℕ) : ℚ) / 2 ^ k := by positivity
    rw [Int.floor_eq_iff]
    push_cast
    constructor
    · linarith
    · linarith
  rw [value_add_signBit h.lt, value_add_signBit (hfin.trans (infinity_lt_signBit f)), hnext, hm,
    hfloor]
  push_cast
  rfl

theorem isFloor_zero (hlt : m < f.signBit) (hexp : ((m / 2 ^ f.fracBits : ℕ) : ℤ) < f.bias) :
    IsFloor f m 0 := by
  have hinf : 0 < f.infinity := by
    have := f.expMax_pos
    rw [infinity]
    positivity
  refine ⟨isFinite_of_lt hinf, ?_⟩
  rw [value_of_lt hlt, value_of_lt (hinf.trans (infinity_lt_signBit f)), f.mag_zero,
    Int.floor_eq_zero_iff.mpr ⟨f.mag_nonneg m, mag_lt_one hexp⟩, Int.cast_zero]

theorem isFloor_minusOne_iff (hlt : m < f.signBit)
    (hexp : ((m / 2 ^ f.fracBits : ℕ) : ℤ) < f.bias) :
    IsFloor f (f.signBit + m) (f.signBit + f.bias.toNat * 2 ^ f.fracBits) ↔ m ≠ 0 := by
  have hinf : f.bias.toNat * 2 ^ f.fracBits < f.infinity := by
    have := f.bias_eq
    exact Nat.mul_lt_mul_of_pos_right (by omega) (by positivity)
  have hone := mag_lt_one hexp
  rw [IsFloor, value_add_signBit hlt, value_add_signBit (hinf.trans (infinity_lt_signBit f)),
    mag_bias, and_iff_right (isFinite_add_signBit hinf), ← Int.cast_one, ← Int.cast_neg,
    Int.cast_inj, eq_comm, Int.floor_eq_iff]
  push_cast
  constructor
  · rintro ⟨_, hneg⟩ rfl
    rw [f.mag_zero] at hneg
    linarith
  · intro hne
    have hpos := f.mag_strictMono (Nat.pos_of_ne_zero hne)
    rw [f.mag_zero] at hpos
    exact ⟨by linarith, by linarith⟩

end Patterns

section Words

variable {w k : ℕ}

theorem toNat_and_not_mask (hk : k < w) (u : BitVec w) :
    (u &&& ~~~(((1 : BitVec w) <<< k) - 1)).toNat = u.toNat - u.toNat % 2 ^ k := by
  have hmask : ∀ i < w, (((1 : BitVec w) <<< k) - 1).getLsbD i = decide (i < k) := by
    intro i hi
    have hand := toNat_and_mask hk (BitVec.allOnes w)
    rw [allOnes_and] at hand
    rw [← testBit_toNat, hand, testBit_mod_two_pow]
    simp [hi]
  have hshift : u &&& ~~~(((1 : BitVec w) <<< k) - 1) = (u >>> k) <<< k := by
    refine eq_of_getLsbD_eq fun i hi => ?_
    rw [getLsbD_and, getLsbD_not, hmask i hi, getLsbD_shiftLeft]
    by_cases hlt : i < k
    · simp [hlt]
    · simp [hlt, hi, show k + (i - k) = i by omega]
  have hle := div_mul_le_self u.toNat (2 ^ k)
  have hsplit := div_add_mod' u.toNat (2 ^ k)
  rw [hshift, toNat_shiftLeft, toNat_shr, Nat.shiftLeft_eq, mod_eq_of_lt (hle.trans_lt u.isLt)]
  omega

end Words

section Floor

variable {f : FloatFormat} {u expMask minusOne : BitVec (f.expBits + f.fracBits + 1)}

theorem toNat_expField (hmask : expMask.toNat = 2 ^ f.expBits - 1) :
    ((u >>> f.fracBits) &&& expMask).toNat = u.toNat % f.signBit / 2 ^ f.fracBits := by
  rw [toNat_and, toNat_shr, hmask,
    and_two_pow_sub_one_eq_mod, signBit, pow_add, mod_mul_left_div_self]

theorem exists_magnitude (hneg : f.signBit ≤ u.toNat) :
    ∃ m, u.toNat = f.signBit + m ∧ m < f.signBit := by
  obtain ⟨m, hm⟩ := Nat.exists_eq_add_of_le hneg
  have hu := u.isLt
  change u.toNat < f.signBit * 2 at hu
  exact ⟨m, hm, by omega⟩

theorem signField_ne_zero_iff :
    u >>> (f.expBits + f.fracBits + 1 - 1) ≠ 0 ↔ f.signBit ≤ u.toNat := by
  rw [← toNat_ne_iff_ne, toNat_shr, Nat.add_sub_cancel]
  change u.toNat / f.signBit ≠ 0 ↔ f.signBit ≤ u.toNat
  rw [Nat.ne_zero_iff_zero_lt, Nat.div_pos_iff]
  exact and_iff_right (Nat.two_pow_pos _)

theorem isFloor_trunc {k : ℕ} {low : BitVec (f.expBits + f.fracBits + 1)}
    (hlow : low = (1 : BitVec _) <<< k) (hfin : f.IsFinite u.toNat)
    (hfrac : (f.fracBits : ℤ) ≤ f.bias) (hk : Fractional f (u.toNat % f.signBit) k) :
    IsFloor f u.toNat (if u &&& ~~~(low - 1) = u then u
      else if f.signBit ≤ u.toNat then (u &&& ~~~(low - 1)) + low
      else u &&& ~~~(low - 1)).toNat := by
  have hkw : k < f.expBits + f.fracBits + 1 := by
    have := hk.le
    omega
  have htrunc := toNat_and_not_mask hkw u
  rw [← hlow] at htrunc
  have hdvd : 2 ^ k ∣ f.signBit := pow_dvd_pow 2 (by omega)
  have hmod : u.toNat % f.signBit % 2 ^ k = u.toNat % 2 ^ k := mod_mod_of_dvd _ hdvd
  have hle := mod_le u.toNat (2 ^ k)
  by_cases hzero : u.toNat % 2 ^ k = 0
  · have hu : u &&& ~~~(low - 1) = u := by
      apply eq_of_toNat_eq
      rw [htrunc, hzero, Nat.sub_zero]
    rw [if_pos hu]
    refine isFloor_self hfin ?_
    obtain ⟨q, hq, _⟩ := exists_mag_trunc hk.le hk.exp
    exact ⟨q, by rw [hq, hmod, hzero]; simp⟩
  · have hu : u &&& ~~~(low - 1) ≠ u := by
      intro heq
      rw [heq] at htrunc
      omega
    rw [if_neg hu]
    by_cases hneg : f.signBit ≤ u.toNat
    · obtain ⟨m, hm, hlt⟩ := exists_magnitude hneg
      have hmsign : u.toNat % f.signBit = m := by
        rw [hm, add_mod_left, mod_eq_of_lt hlt]
      rw [hmsign] at hk hmod
      have hinf := (hk.lt_infinity hfrac).trans (infinity_lt_signBit f)
      have hsum : ((u &&& ~~~(low - 1)) + low).toNat
          = f.signBit + (m - m % 2 ^ k + 2 ^ k) := by
        have hmle := mod_le m (2 ^ k)
        rw [toNat_add, htrunc, hlow, toNat_one_shiftLeft hkw, pow_succ,
          ← signBit, mod_eq_of_lt (by omega)]
        omega
      rw [if_pos hneg, hsum, hm]
      exact hk.isFloor_neg hfrac (by rwa [hmod])
    · have hmsign : u.toNat % f.signBit = u.toNat := mod_eq_of_lt (by omega)
      rw [hmsign] at hk
      rw [if_neg hneg, htrunc]
      exact hk.isFloor_of_lt hfrac

/-- The result is the floor, unless the argument is negative zero. -/
theorem floorBy_iff (hfin : f.IsFinite u.toNat) (hfrac : (f.fracBits : ℤ) ≤ f.bias)
    (hmask : expMask.toNat = 2 ^ f.expBits - 1)
    (hone : minusOne.toNat = f.signBit + f.bias.toNat * 2 ^ f.fracBits) :
    IsFloor f u.toNat (floorBy f.fracBits expMask f.bias minusOne u).toNat ↔
      u.toNat ≠ f.signBit := by
  have hexpMax : ((u.toNat % f.signBit / 2 ^ f.fracBits : ℕ) : ℤ) < f.expMax :=
    Nat.cast_lt.mpr ((Nat.div_lt_iff_lt_mul (by positivity)).mpr hfin)
  have hbias := f.bias_eq
  have hpos := bias_pos f
  have hself := isFloor_self (f := f) (n := u.toNat) hfin
  have hsignBit : 0 < f.signBit := Nat.two_pow_pos _
  have hzero : u.toNat = f.signBit → u.toNat % f.signBit / 2 ^ f.fracBits = 0 := by
    intro h
    rw [h, mod_self, Nat.zero_div]
  rw [floorBy, toNat_expField hmask]
  rw [if_neg (by omega)]
  split
  · next hint =>
    exact iff_of_true (hself (exists_mag_eq_natCast (by omega))) fun h => by
      omega
  split
  · next hsmall =>
    by_cases hneg : f.signBit ≤ u.toNat
    · obtain ⟨m, hm, hlt⟩ := exists_magnitude hneg
      rw [hm, add_mod_left, mod_eq_of_lt hlt] at hsmall
      rw [if_pos (signField_ne_zero_iff.mpr hneg), hone, hm, isFloor_minusOne_iff hlt (by omega)]
      omega
    · rw [mod_eq_of_lt (by omega)] at hsmall
      rw [if_neg (mt signField_ne_zero_iff.mp hneg)]
      exact iff_of_true (isFloor_zero (by omega) (by omega)) (by omega)
  · next hint hsmall =>
    refine iff_of_true ?_ fun h => by
      omega
    simp only [signField_ne_zero_iff]
    exact isFloor_trunc rfl hfin hfrac ⟨mod_lt _ hsignBit, by omega, by omega, by omega⟩

end Floor

/-- A finite pattern is rounded to the greatest integer below it, unless it is negative zero, which
is not taken for a zero. -/
theorem floor_iff (x : BitVec 64) (y : BitVec 32) (hx : binary64.IsFinite x.toNat)
    (hy : binary32.IsFinite y.toNat) :
    (IsFloor binary64 x.toNat (floor x).toNat ↔ x ≠ 0x8000000000000000) ∧
    (IsFloor binary32 y.toNat (floorf y).toNat ↔ y ≠ 0x80000000) := by
  constructor
  · have h := @floorBy_iff binary64 x 0x7FF 0xBFF0000000000000 hx (by decide) (by decide) (by decide)
    exact h.trans (toNat_ne_iff_ne (y := 0x8000000000000000#64))
  · have h := @floorBy_iff binary32 y 0xFF 0xBF800000 hy (by decide) (by decide) (by decide)
    exact h.trans (toNat_ne_iff_ne (y := 0x80000000#32))

/-- Minus one and a half, in both formats. -/
theorem floor_iff_oneAndAHalf :
    binary64.IsFinite 0xBFF8000000000000 ∧ binary32.IsFinite 0xBFC00000 ∧
    IsFloor binary64 0xBFF8000000000000 (floor 0xBFF8000000000000).toNat ∧
    IsFloor binary32 0xBFC00000 (floorf 0xBFC00000).toNat := by
  have h := floor_iff 0xBFF8000000000000 0xBFC00000 (by decide) (by decide)
  exact ⟨by decide, by decide, h.1.mpr (by decide), h.2.mpr (by decide)⟩

/-- Negative zero is rounded to minus one. -/
theorem floor_negativeZero :
    binary64.IsFinite 0x8000000000000000 ∧ binary64.value 0x8000000000000000 = 0 ∧
    floor 0x8000000000000000 = 0xBFF0000000000000 ∧
    ¬ IsFloor binary64 0x8000000000000000 (floor 0x8000000000000000).toNat ∧
    floorf 0x80000000 = 0xBF800000 := by
  refine ⟨by decide, (binary64.value_eq_zero_iff _).mpr (by decide), by decide, ?_, by decide⟩
  intro h
  have hiff := @floorBy_iff binary64 0x8000000000000000 0x7FF 0xBFF0000000000000 (by decide)
    (by decide) (by decide) (by decide)
  exact hiff.mp h rfl

end Tinycc
