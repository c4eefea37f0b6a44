import Tinycc.Runtime.SoftAdd
import Tinycc.Runtime.SoftCommonSound

namespace Tinycc
open Rounding FloatFormat
open BitVec hiding not_not two_mul sub_neg sub_eq_add_neg and_self zero_mul mul_zero mul_one

section Sums

/-- The sign of a rounded sum: that of the exact sum, and for an exact zero minus only when both
operands are negative. -/
def sumSign (x : ℚ) (aNeg bNeg : Bool) : Bool := if x = 0 then aNeg && bNeg else decide (x < 0)

/-- `r` is the rounded sum of the numbers `a` and `b` encode. -/
def IsSum (f : FloatFormat) (a b r : ℕ) : Prop :=
  f.IsRounding (f.value a + f.value b)
    (sumSign (f.value a + f.value b) (f.negative a) (f.negative b)) r

/-- `r` is the rounded difference; subtracting changes the sign of a zero too. -/
def IsDifference (f : FloatFormat) (a b r : ℕ) : Prop :=
  f.IsRounding (f.value a - f.value b)
    (sumSign (f.value a - f.value b) (f.negative a) (!f.negative b)) r

variable {f : FloatFormat}

theorem IsSum.symm {a b r : ℕ} (h : IsSum f a b r) : IsSum f b a r := by
  rw [IsSum, sumSign] at h ⊢
  rwa [add_comm, Bool.and_comm]

def signFactor (neg : Bool) : ℚ := if neg then -1 else 1

theorem abs_signFactor_mul (neg : Bool) (x : ℚ) : |signFactor neg * x| = |x| := by
  cases neg <;> simp [signFactor]

theorem signFactor_not (neg : Bool) : signFactor (!neg) = -signFactor neg := by
  cases neg <;> simp [signFactor]

variable {x : ℚ}

theorem sumSign_pos (neg aNeg bNeg : Bool) (hx : 0 < x) :
    sumSign (signFactor neg * x) aNeg bNeg = neg := by
  cases neg <;> simp [sumSign, signFactor, hx.ne', hx, hx.le]

theorem sumSign_same (neg : Bool) (hx : 0 ≤ x) :
    sumSign (signFactor neg * x) neg neg = neg := by
  rcases hx.eq_or_lt with rfl | hlt
  · simp [sumSign]
  · exact sumSign_pos neg neg neg hlt

theorem isRounding_signFactor {neg : Bool} {n : ℕ} (h : f.IsRounding x neg n) :
    f.IsRounding (signFactor neg * x) neg n :=
  ⟨h.lt, h.negative_eq, by rw [abs_signFactor_mul]; exact h.nearest⟩

theorem isRounding_zero (f : FloatFormat) : f.IsRounding 0 false 0 := by
  have hinf : 0 < f.infinity := Nat.mul_pos (by have := f.expMax_pos; omega) (by positivity)
  have hsign : 0 < f.signBit := by
    rw [FloatFormat.signBit]
    positivity
  refine ⟨by omega, ?_, ?_⟩
  · simp [FloatFormat.negative]
    omega
  · simpa using isNearestEven_mag hinf

end Sums

section Aligned

variable {f : FloatFormat} {w : ℕ} {roundPack : Bool → ℤ → BitVec w → Option (BitVec w)}

/-- What `sfp_round_pack_double` and its float twin do. -/
def RoundPackSpec (f : FloatFormat) (roundPack : Bool → ℤ → BitVec w → Option (BitVec w)) : Prop :=
  ∀ (sign : Bool) (exp : ℤ) (mant : BitVec w) (x : ℚ), Stands f x mant.toNat →
    ∃ r, roundPack sign exp mant = some r ∧ f.IsRounding (x * packScale f exp) sign r.toNat

theorem addAligned_comm (exp : ℤ) (aSign bSign : Bool) (aMant bMant : BitVec w) :
    addAligned roundPack exp aSign bSign aMant bMant =
      addAligned roundPack exp bSign aSign bMant aMant := by
  rw [addAligned, addAligned]
  by_cases hsign : aSign = bSign
  · rw [if_pos hsign, if_pos hsign.symm, BitVec.add_comm, hsign]
  · rw [if_neg hsign, if_neg (Ne.symm hsign)]
    simp only [le_def]
    rcases Nat.lt_trichotomy aMant.toNat bMant.toNat with hlt | heq | hlt
    · simp only [hlt.le, if_true, not_le.mpr hlt, if_false]
    · obtain rfl := eq_of_toNat_eq heq
      simp
    · simp only [hlt.le, if_true, not_le.mpr hlt, if_false]

/-- An aligned operand: exact, or cut far below a normal operand on the other side. -/
structure Aligned (f : FloatFormat) (A : ℕ) (y : ℚ) (m : ℕ) : Prop where
  cuts : SameCuts 2 y m
  exact_or : y = m ∨ 2 ^ f.fracBits ≤ A ∧ m < 2 ^ f.fracBits
  le : m ≤ 16 * 2 ^ f.fracBits

variable {A m : ℕ} {y : ℚ}

theorem aligned_shrSticky {B ea eb : ℕ} (hB : B < 2 * 2 ^ f.fracBits)
    (hA : ea = 1 ∨ 2 ^ f.fracBits ≤ A) (hb : 0 < eb) (hle : eb ≤ ea) :
    Aligned f A (8 * B / 2 ^ (ea - eb)) (shrSticky (8 * B) (ea - eb)) := by
  obtain ⟨d, hd⟩ : ∃ d, d = ea - eb := ⟨_, rfl⟩
  rw [← hd]
  have hcuts : SameCuts 2 (8 * B / 2 ^ d : ℚ) (shrSticky (8 * B) d) := by
    have := SameCuts.refl (2 ^ (d + 1)) ((8 * B : ℕ) : ℚ)
    have := this.shrSticky
    push_cast at this
    exact this
  have hdpos : 1 ≤ 2 ^ d := Nat.one_le_two_pow
  refine ⟨hcuts, ?_, ?_⟩
  · by_cases hsmall : d ≤ 3
    · -- the three guard bits take the whole shift
      left
      obtain ⟨k, hk⟩ : ∃ k, 3 = d + k := ⟨3 - d, by omega⟩
      have h8 : 8 * B = B * 2 ^ k * 2 ^ d := by
        rw [mul_assoc, ← pow_add, add_comm k, ← hk]
        ring
      rw [shrSticky, divSticky, h8, Nat.mul_mod_left, if_pos rfl, Nat.or_zero,
        Nat.mul_div_cancel _ (by positivity)]
      have h8' : (8 * B : ℚ) = B * 2 ^ k * 2 ^ d := by exact_mod_cast h8
      rw [h8', mul_div_assoc, div_self (by positivity), mul_one]
      push_cast
      rfl
    · right
      refine ⟨by omega, ?_⟩
      obtain ⟨q, hq⟩ := f.two_pow_fracBits_even
      rw [hq, ← two_mul]
      apply shrSticky_lt
      have h16 : 2 ^ 4 ≤ 2 ^ d := Nat.pow_le_pow_right (by norm_num) (by omega)
      calc 8 * B < 2 * q * 16 := by omega
        _ ≤ 2 * q * 2 ^ d := Nat.mul_le_mul_left _ h16
  · have := shrSticky_lt (m := 8 * B) (n := d) (b := 8 * 2 ^ f.fracBits)
      (lt_of_lt_of_le (show 8 * B < 2 * (8 * 2 ^ f.fracBits) * 1 by omega)
        (Nat.mul_le_mul_left _ hdpos))
    omega

theorem Aligned.nonneg (h : Aligned f A y m) : 0 ≤ y := by
  have := (h.cuts.le_iff 0).mpr (by simp)
  simpa using this

theorem Aligned.stands_add (h : Aligned f A y m) :
    Stands f (8 * A + y) (8 * A + m : ℕ) := by
  rcases h.exact_or with rfl | ⟨hA, _⟩
  · exact .inl (by push_cast; ring)
  · refine .inr (.inl ⟨?_, ?_⟩)
    · have := h.cuts.add_left (4 * A)
      push_cast at this ⊢
      rwa [show (2 * (4 * A) : ℚ) = 8 * A by ring] at this
    · rw [show 2 ^ (f.fracBits + 2) = 4 * 2 ^ f.fracBits by ring]
      omega

theorem Aligned.stands_sub (h : Aligned f A y m) (hle : m ≤ 8 * A) :
    Stands f (8 * A - y) (8 * A - m : ℕ) := by
  -- bits are lost only where little cancels
  rcases h.exact_or with rfl | ⟨hA, hm⟩
  · exact .inl (by push_cast [hle]; ring)
  · refine .inr (.inl ⟨?_, ?_⟩)
    · have := h.cuts.sub_left (4 * A)
      push_cast [hle] at this ⊢
      rwa [show (2 * (4 * A) : ℚ) = 8 * A by ring] at this
    · rw [show 2 ^ (f.fracBits + 2) = 4 * 2 ^ f.fracBits by ring]
      omega

theorem Aligned.sub_sign (h : Aligned f A y m) :
    (0 < 8 * A - y ↔ m < 8 * A) ∧ (8 * A - y < 0 ↔ 8 * A < m) := by
  obtain ⟨hlow, hhigh⟩ := h.cuts (4 * A)
  push_cast at hlow hhigh
  rw [show (2 * (4 * A) : ℚ) = 8 * A by ring] at hlow hhigh
  rw [sub_pos, hlow, sub_neg, hhigh]
  exact ⟨by exact_mod_cast Iff.rfl, by exact_mod_cast Iff.rfl⟩

theorem addAligned_spec (hpack : RoundPackSpec f roundPack) (hw : f.fracBits + 5 < w)
    (hA : A < 2 * 2 ^ f.fracBits) {aMant bMant : BitVec w} (ha : aMant.toNat = 8 * A)
    (hb : Aligned f A y bMant.toNat) (exp : ℤ) (aSign bSign : Bool) {s : ℚ}
    (hs : s = (signFactor aSign * (8 * A) + signFactor bSign * y) * packScale f exp) :
    ∃ r, addAligned roundPack exp aSign bSign aMant bMant = some r ∧
      f.IsRounding s (sumSign s aSign bSign) r.toNat := by
  have hscale : 0 < packScale f exp := by
    rw [packScale]
    positivity
  have hroom : 64 * 2 ^ f.fracBits ≤ 2 ^ w := by
    rw [show 64 * 2 ^ f.fracBits = 2 ^ (f.fracBits + 6) by ring]
    exact Nat.pow_le_pow_right (by norm_num) hw
  have hble := hb.le
  rw [addAligned]
  by_cases hsign : aSign = bSign
  · subst hsign
    have hsum : (aMant + bMant).toNat = 8 * A + bMant.toNat := by
      rw [toNat_add, ha, Nat.mod_eq_of_lt (by omega)]
    have hstands := hb.stands_add
    rw [← hsum] at hstands
    obtain ⟨r, hr, hround⟩ := hpack aSign exp (aMant + bMant) _ hstands
    rw [if_pos rfl]
    have hs' : s = signFactor aSign * ((8 * A + y) * packScale f exp) := by
      rw [hs]
      ring
    have hnonneg : 0 ≤ (8 * A + y) * packScale f exp := by
      have := hb.nonneg
      positivity
    rw [hs', sumSign_same aSign hnonneg]
    exact ⟨r, hr, isRounding_signFactor hround⟩
  · have hopp : signFactor bSign = -signFactor aSign := by
      revert hsign
      cases aSign <;> cases bSign <;> decide
    have hs' : s = signFactor aSign * ((8 * A - y) * packScale f exp) := by
      rw [hs, hopp]
      ring
    rw [if_neg hsign]
    obtain ⟨hpos, hneg⟩ := hb.sub_sign
    simp only [le_def, ha]
    rcases Nat.lt_trichotomy bMant.toNat (8 * A) with hlt | heq | hgt
    · have hsub : (aMant - bMant).toNat = 8 * A - bMant.toNat := by
        rw [toNat_sub_of_le (by rw [le_def, ha]; exact hlt.le), ha]
      have hne : aMant - bMant ≠ 0 := fun h => by
        rw [h] at hsub
        simp at hsub
        omega
      have hstands := hb.stands_sub hlt.le
      rw [← hsub] at hstands
      obtain ⟨r, hr, hround⟩ := hpack aSign exp (aMant - bMant) _ hstands
      simp only [hlt.le, if_true, hne, if_false]
      rw [hs', sumSign_pos _ _ _ (mul_pos (hpos.mpr hlt) hscale)]
      exact ⟨r, hr, isRounding_signFactor hround⟩
    · have hzero : aMant - bMant = 0 := by
        rw [eq_of_toNat_eq (ha.trans heq.symm)]
        simp
      have hx : (8 * A - y : ℚ) = 0 :=
        le_antisymm (not_lt.mp (hpos.not.mpr (by omega))) (not_lt.mp (hneg.not.mpr (by omega)))
      simp only [heq.le, if_true, hzero]
      rw [hs', hx, zero_mul, mul_zero]
      refine ⟨0, rfl, ?_⟩
      have hfalse : sumSign 0 aSign bSign = false := by
        revert hsign
        cases aSign <;> cases bSign <;> decide
      rw [hfalse]
      simpa using isRounding_zero f
    · -- the operand that exceeds the other one was not cut
      have hsub : (bMant - aMant).toNat = bMant.toNat - 8 * A := by
        rw [toNat_sub_of_le (by rw [le_def, ha]; exact hgt.le), ha]
      have hne : bMant - aMant ≠ 0 := fun h => by
        rw [h] at hsub
        simp at hsub
        omega
      have hexact : y = bMant.toNat := by
        rcases hb.exact_or with h | ⟨hA', hm⟩
        · exact h
        · omega
      have hstands : Stands f (y - 8 * A) (bMant - aMant).toNat := by
        left
        rw [hsub, hexact]
        push_cast [hgt.le]
        ring
      obtain ⟨r, hr, hround⟩ := hpack bSign exp (bMant - aMant) _ hstands
      simp only [not_le.mpr hgt, if_false, hne]
      have hs'' : s = signFactor bSign * ((y - 8 * A) * packScale f exp) := by
        rw [hs', hopp]
        ring
      have hgt' : 0 < y - 8 * A := by
        have := hneg.mpr hgt
        linarith
      rw [hs'', sumSign_pos _ _ _ (mul_pos hgt' hscale)]
      exact ⟨r, hr, isRounding_signFactor hround⟩

end Aligned

section Finite

variable {f : FloatFormat} {w : ℕ} {roundPack : Bool → ℤ → BitVec w → Option (BitVec w)}

theorem value_eq_signFactor (f : FloatFormat) (n : ℕ) :
    f.value n = signFactor (f.negative n) * f.mag (n % f.signBit) := rfl

variable {aMant bMant m : BitVec w}

theorem addAligned_isSum (hpack : RoundPackSpec f roundPack) (hw : f.fracBits + 5 < w)
    {a b ea eb A B : ℕ} (ha : Significand f a ea A) (hb : Significand f b eb B) (hle : eb ≤ ea)
    (haMant : aMant.toNat = 8 * A) (hbMant : bMant.toNat = shrSticky (8 * B) (ea - eb)) :
    ∃ r, addAligned roundPack ea (f.negative a) (f.negative b) aMant bMant = some r ∧
      IsSum f a b r.toNat := by
  have halign := aligned_shrSticky hb.lt ha.low hb.exp_pos hle
  rw [← hbMant] at halign
  apply addAligned_spec hpack hw ha.lt haMant halign
  have hulp : f.ulp ea = 2 ^ (ea - eb) * f.ulp eb := by
    rw [← ulp_add, Nat.add_sub_cancel' hle]
  rw [value_eq_signFactor, value_eq_signFactor, ha.mag_eq, hb.mag_eq, packScale_natCast, hulp]
  field_simp

theorem toNat_or_implicit {p : ℕ} (hp : p < w) (hm : m.toNat < 2 ^ p) :
    (m ||| ((1 : BitVec w) <<< p)).toNat = 2 ^ p + m.toNat := by
  rw [toNat_or, toNat_one_shiftLeft hp, Nat.or_comm]
  have := Nat.shiftLeft_add_eq_or_of_lt hm 1
  rw [Nat.one_shiftLeft] at this
  exact this.symm

theorem Fields.operand {n : ℕ} {sign : Bool} {exp : ℤ} {mant : BitVec w}
    (h : Fields f n sign exp mant.toNat) (hw : f.fracBits < w) :
    ∃ e sig : ℕ, Significand f n e sig ∧ (if exp ≠ 0 then exp else 1) = (e : ℤ) ∧
      (if exp ≠ 0 then mant ||| ((1 : BitVec w) <<< f.fracBits) else mant).toNat = sig := by
  have hsig := h.significand
  have hlt : mant.toNat < 2 ^ f.fracBits := h.mant_eq ▸ Nat.mod_lt _ (by positivity)
  have hexp := h.exp_eq
  refine ⟨_, _, hsig, ?_, ?_⟩
  · by_cases hzero : exp = 0
    · simp [hzero]
    · rw [if_pos hzero, if_neg hzero, Int.toNat_of_nonneg (by rw [hexp]; positivity)]
  · by_cases hzero : exp = 0
    · rw [if_neg (not_not.mpr hzero), if_pos hzero]
    · rw [if_pos hzero, if_neg hzero, toNat_or_implicit hw hlt]

theorem toNat_shiftLeft_three (hw : f.fracBits + 5 < w) {sig : ℕ} (hm : m.toNat = sig)
    (hsig : sig < 2 * 2 ^ f.fracBits) : (m <<< 3).toNat = 8 * sig := by
  have hroom : 64 * 2 ^ f.fracBits ≤ 2 ^ w := by
    rw [show 64 * 2 ^ f.fracBits = 2 ^ (f.fracBits + 6) by ring]
    exact Nat.pow_le_pow_right (by norm_num) hw
  rw [toNat_shiftLeft, Nat.shiftLeft_eq, hm, Nat.mod_eq_of_lt (by omega)]
  ring

theorem addFinite_spec (hpack : RoundPackSpec f roundPack) (hw : f.fracBits + 5 < w)
    {align : BitVec w → ℤ → BitVec w}
    (halign : ∀ (m : BitVec w) (n : ℕ), 0 < n → (align m n).toNat = shrSticky m.toNat n) {a b : ℕ}
    {aSign bSign : Bool} {aExp bExp : ℤ} (ha : Fields f a aSign aExp aMant.toNat)
    (hb : Fields f b bSign bExp bMant.toNat) :
    ∃ r, addFinite f.fracBits align roundPack aSign bSign aExp bExp aMant bMant = some r ∧
      IsSum f a b r.toNat := by
  obtain ⟨ea, A, hasig, hea, haMant⟩ := ha.operand (by omega)
  obtain ⟨eb, B, hbsig, heb, hbMant⟩ := hb.operand (by omega)
  replace haMant := toNat_shiftLeft_three hw haMant hasig.lt
  replace hbMant := toNat_shiftLeft_three hw hbMant hbsig.lt
  rw [addFinite]
  simp only [hea, heb, ha.sign_eq, hb.sign_eq]
  split
  case isTrue hgt =>
    have hdiff : (ea : ℤ) - eb = (ea - eb : ℕ) := by omega
    apply addAligned_isSum hpack hw hasig hbsig (by omega) haMant
    rw [hdiff, halign _ _ (by omega), hbMant]
  case isFalse hle =>
    split
    case isTrue hlt =>
      have hdiff : -((ea : ℤ) - eb) = (eb - ea : ℕ) := by omega
      rw [addAligned_comm]
      obtain ⟨r, hr, hsum⟩ := addAligned_isSum hpack hw hbsig hasig (by omega) hbMant
        (show (align _ (-((ea : ℤ) - eb))).toNat = _ by
          rw [hdiff, halign _ _ (by omega), haMant])
      exact ⟨r, hr, hsum.symm⟩
    case isFalse hge =>
      apply addAligned_isSum hpack hw hasig hbsig (by omega) haMant
      rw [hbMant, show ea - eb = 0 by omega, shrSticky_zero]

end Finite

section Zeros

variable {f : FloatFormat}

variable {a b : ℕ}

theorem isSum_zero_left (ha : a % f.signBit = 0) (hb : b % f.signBit ≠ 0) (hlt : b < 2 * f.signBit)
    (hfin : f.IsFinite b) : IsSum f a b b := by
  have hzero := (f.value_eq_zero_iff a).mpr ha
  have hne := (f.value_eq_zero_iff b).not.mpr hb
  have hsign : decide (f.value b < 0) = f.negative b := by
    cases h : f.negative b <;> simp [f.value_neg_iff, h, hb]
  rw [IsSum, hzero, zero_add, sumSign, if_neg hne, hsign]
  exact isRounding_self hlt hfin

theorem isSum_zero_zero {r : ℕ} (ha : a % f.signBit = 0) (hb : b % f.signBit = 0)
    (hr : r = if f.negative a && f.negative b then f.signBit else 0) : IsSum f a b r := by
  rw [IsSum, (f.value_eq_zero_iff a).mpr ha, (f.value_eq_zero_iff b).mpr hb, add_zero, sumSign,
    if_pos rfl]
  apply isRounding_of_toNat (k := 0) (by rw [hr, add_zero]) (Nat.zero_le _)
  have hinf : 0 < f.infinity := Nat.mul_pos (by have := f.expMax_pos; omega) (by positivity)
  simpa using isNearestEven_mag hinf

end Zeros

section Difference

variable {f : FloatFormat}

theorem IsSum.isDifference {a b b' r : ℕ} (h : IsSum f a b' r) (hmag : b' % f.signBit = b % f.signBit)
    (hneg : f.negative b' = !f.negative b) : IsDifference f a b r := by
  have hvalue : f.value b' = -f.value b := by
    rw [value_eq_signFactor, value_eq_signFactor, hmag, hneg, signFactor_not]
    ring
  rw [IsSum, hvalue, hneg, ← sub_eq_add_neg] at h
  exact h

variable {n : ℕ}

theorem xor_two_pow_of_lt {k : ℕ} (h : n < 2 ^ k) : n ^^^ 2 ^ k = 2 ^ k + n := by
  apply Nat.eq_of_testBit_eq
  intro i
  rw [Nat.testBit_xor, Nat.testBit_two_pow]
  rcases Nat.lt_trichotomy i k with hlt | rfl | hgt
  · rw [Nat.testBit_two_pow_add_gt hlt, decide_eq_false (by omega), Bool.xor_false]
  · rw [Nat.testBit_two_pow_add_eq, decide_eq_true rfl, Bool.xor_true]
  · have hle : 2 ^ (k + 1) ≤ 2 ^ i := Nat.pow_le_pow_right (by norm_num) hgt
    rw [Nat.testBit_lt_two_pow (show n < 2 ^ i by omega),
      Nat.testBit_lt_two_pow (show 2 ^ k + n < 2 ^ i by omega), decide_eq_false (by omega)]
    rfl

theorem xor_signBit (hlt : n < 2 * f.signBit) :
    (n ^^^ f.signBit) % f.signBit = n % f.signBit ∧ f.negative (n ^^^ f.signBit) = !f.negative n := by
  rw [FloatFormat.negative, FloatFormat.negative]
  rw [FloatFormat.signBit] at hlt ⊢
  generalize f.expBits + f.fracBits = k at hlt ⊢
  by_cases hsmall : n < 2 ^ k
  · rw [xor_two_pow_of_lt hsmall]
    simp
    omega
  · obtain ⟨m, rfl⟩ : ∃ m, n = 2 ^ k + m := ⟨n - 2 ^ k, by omega⟩
    rw [← xor_two_pow_of_lt (show m < 2 ^ k by omega), Nat.xor_assoc, Nat.xor_self,
      xor_two_pow_of_lt (by omega)]
    simp
    omega

end Difference

theorem shiftLeft_ne_zero_iff (m : BitVec 64) {n : ℕ} (hn : n < 64) :
    m <<< (64 - n) ≠ 0 ↔ m.toNat % 2 ^ n ≠ 0 := by
  have hsplit : 2 ^ 64 = 2 ^ n * 2 ^ (64 - n) := by rw [← pow_add, Nat.add_sub_cancel' hn.le]
  rw [← toNat_ne_iff_ne, toNat_shiftLeft, Nat.shiftLeft_eq, hsplit,
    Nat.mul_mod_mul_right]
  simp

theorem toNat_daddAlign (m : BitVec 64) (n : ℕ) (_ : 0 < n) :
    (daddAlign m n).toNat = shrSticky m.toNat n := by
  rw [daddAlign]
  split
  case isTrue hlt =>
    have hn : n < 64 := by omega
    rw [show (64 - (n : ℤ)).toNat = 64 - n by omega]
    exact toNat_shr_or_truthWord (by decide) m n (shiftLeft_ne_zero_iff m hn)
  case isFalse hge =>
    exact toNat_truthWord_ne_zero (by decide) m (by omega)

theorem aeabiDadd_isSum (a b : BitVec 64) (ha : binary64.IsFinite a.toNat)
    (hb : binary64.IsFinite b.toNat) :
    ∃ r, aeabiDadd a b = some r ∧ IsSum binary64 a.toNat b.toNat r.toNat := by
  have hfa := double_fields a
  have hfb := double_fields b
  have haexp : doubleExp a ≠ 0x7FF := (hfa.exp_lt ha).ne
  have hbexp : doubleExp b ≠ 0x7FF := (hfb.exp_lt hb).ne
  rw [aeabiDadd]
  simp only [haexp, hbexp, if_false, eq_zero_iff_toNat, hfa.zero_iff, hfb.zero_iff]
  by_cases haz : a.toNat % binary64.signBit = 0
  · by_cases hbz : b.toNat % binary64.signBit = 0
    · simp only [haz, hbz, if_true]
      refine ⟨_, rfl, isSum_zero_zero haz hbz ?_⟩
      rw [← hfa.sign_eq, ← hfb.sign_eq]
      split <;> rfl
    · simp only [haz, hbz, if_true, if_false]
      exact ⟨b, rfl, isSum_zero_left haz hbz hfb.lt hb⟩
  · by_cases hbz : b.toNat % binary64.signBit = 0
    · simp only [haz, hbz, if_true, if_false]
      exact ⟨a, rfl, (isSum_zero_left hbz haz hfa.lt ha).symm⟩
    · simp only [haz, hbz, if_false]
      exact addFinite_spec (fun sign exp _ _ => sfpRoundPackDouble_spec sign exp) (by decide)
        toNat_daddAlign hfa hfb

theorem aeabiFadd_isSum (a b : BitVec 32) (ha : binary32.IsFinite a.toNat)
    (hb : binary32.IsFinite b.toNat) :
    ∃ r, aeabiFadd a b = some r ∧ IsSum binary32 a.toNat b.toNat r.toNat := by
  have hfa := float_fields a
  have hfb := float_fields b
  have haexp : floatExp a ≠ 0xFF := (hfa.exp_lt ha).ne
  have hbexp : floatExp b ≠ 0xFF := (hfb.exp_lt hb).ne
  rw [aeabiFadd]
  simp only [isNanF, isInfF, isZeroF, haexp, hbexp, false_and, decide_false, Bool.false_eq_true,
    if_false, eq_zero_iff_toNat, hfa.zero_iff, hfb.zero_iff, decide_eq_true_eq]
  by_cases haz : a.toNat % binary32.signBit = 0
  · by_cases hbz : b.toNat % binary32.signBit = 0
    · simp only [haz, hbz, and_self, if_true]
      refine ⟨_, rfl, isSum_zero_zero haz hbz ?_⟩
      rw [← hfa.sign_eq, ← hfb.sign_eq]
      split <;> rfl
    · simp only [haz, hbz, and_false, if_true, if_false]
      exact ⟨b, rfl, isSum_zero_left haz hbz hfb.lt hb⟩
  · by_cases hbz : b.toNat % binary32.signBit = 0
    · simp only [haz, hbz, false_and, if_true, if_false]
      exact ⟨a, rfl, (isSum_zero_left hbz haz hfa.lt ha).symm⟩
    · simp only [haz, hbz, false_and, if_false]
      exact addFinite_spec (fun sign exp _ _ => sfpRoundPackFloat_spec sign exp) (by decide)
        (fun m n _ => toNat_sfpShrSticky (by decide) m n) hfa hfb

theorem isDifference_of_add {f : FloatFormat} {w : ℕ} {add : BitVec w → Option (BitVec w)}
    {a : ℕ} {b s : BitVec w} (hs : (b ^^^ s).toNat = b.toNat ^^^ f.signBit)
    (hlt : b.toNat < 2 * f.signBit) (hb : f.IsFinite b.toNat)
    (hadd : f.IsFinite (b ^^^ s).toNat →
      ∃ r, add (b ^^^ s) = some r ∧ IsSum f a (b ^^^ s).toNat r.toNat) :
    ∃ r, add (b ^^^ s) = some r ∧ IsDifference f a b.toNat r.toNat := by
  obtain ⟨hmag, hneg⟩ := xor_signBit hlt
  rw [← hs] at hmag hneg
  obtain ⟨r, hr, hsum⟩ := hadd (by rw [FloatFormat.IsFinite, hmag]; exact hb)
  exact ⟨r, hr, hsum.isDifference hmag hneg⟩

/-- The software additions and subtractions of finite numbers are correctly rounded. -/
theorem softAddSub_correct :
    (∀ a b : BitVec 64, binary64.IsFinite a.toNat → binary64.IsFinite b.toNat →
      (∃ r, aeabiDadd a b = some r ∧ IsSum binary64 a.toNat b.toNat r.toNat) ∧
      ∃ r, aeabiDsub a b = some r ∧ IsDifference binary64 a.toNat b.toNat r.toNat) ∧
    ∀ a b : BitVec 32, binary32.IsFinite a.toNat → binary32.IsFinite b.toNat →
      (∃ r, aeabiFadd a b = some r ∧ IsSum binary32 a.toNat b.toNat r.toNat) ∧
      ∃ r, aeabiFsub a b = some r ∧ IsDifference binary32 a.toNat b.toNat r.toNat :=
  ⟨fun a b ha hb => ⟨aeabiDadd_isSum a b ha hb,
      isDifference_of_add rfl b.isLt hb (aeabiDadd_isSum a _ ha)⟩,
    fun a b ha hb => ⟨aeabiFadd_isSum a b ha hb,
      isDifference_of_add rfl b.isLt hb (aeabiFadd_isSum a _ ha)⟩⟩

/-- 1 + 2^-53, a tie, and the smallest subnormal taken from the largest float. -/
theorem softAddSub_correct_tie :
    (∃ r, aeabiDadd 0x3FF0000000000000 0x3CA0000000000000 = some r ∧
      IsSum binary64 0x3FF0000000000000 0x3CA0000000000000 r.toNat) ∧
    ∃ r, aeabiFsub 0x7F7FFFFF 0x00000001 = some r ∧
      IsDifference binary32 0x7F7FFFFF 0x00000001 r.toNat :=
  ⟨(softAddSub_correct.1 0x3FF0000000000000 0x3CA0000000000000 (by decide) (by decide)).1,
    (softAddSub_correct.2 0x7F7FFFFF 0x00000001 (by decide) (by decide)).2⟩

end Tinycc
