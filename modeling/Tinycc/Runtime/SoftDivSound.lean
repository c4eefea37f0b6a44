import Tinycc.Runtime.SoftDiv
import Tinycc.Runtime.SoftMulSound

namespace Tinycc
open Lib Rounding Option Nat
open BitVec hiding zero_mul one_mul

section Digits

variable {un v u1 : BitVec 32}

theorem sfpCorrectDigit_eq {vn1 vn0 : BitVec 32} (hun : un.toNat < 65536) :
    ∀ (n : ℕ) (q rhat : BitVec 32), rhat.toNat < 65536 →
      sfpCorrectDigit vn1 vn0 un n q rhat = correctDigit vn1 vn0 un n q rhat := by
  have hbig : ∀ x : BitVec 32, 65536 ≤ x ↔ 0xFFFF < x := fun x => by
    exact succ_le_iff
  intro n
  induction n with
  | zero => intro q rhat _; rfl
  | succ n ih =>
    intro q rhat hrhat
    have hsum : (65536 : BitVec 32) * rhat + un = (rhat <<< 16) ||| un := by
      apply eq_of_toNat_eq
      rw [toNat_shiftLeft_or (by omega) (by omega), toNat_add, toNat_mul,
        show (65536 : BitVec 32).toNat = 65536 from rfl]
      omega
    rw [sfpCorrectDigit, correctDigit]
    simp only [hbig, hsum]
    by_cases hcond : 0xFFFF < q ∨ ((rhat <<< 16) ||| un) < q * vn0
    · rw [if_pos hcond, if_pos hcond]
      by_cases hbreak : 0xFFFF < rhat + vn1
      · rw [if_pos hbreak, if_pos hbreak]
      · rw [if_neg hbreak, if_neg hbreak]
        apply ih
        exact lt_succ_of_le (not_lt.mp hbreak)
    · rw [if_neg hcond, if_neg hcond]

theorem sfpCorrectDigit_eq_divDigit {u : BitVec 32} (hun : un.toNat < 65536)
    (hv : 65536 ≤ v.toNat) :
    sfpCorrectDigit (v >>> 16) (v &&& 0xFFFF) un 2 (u / (v >>> 16))
      (u - u / (v >>> 16) * (v >>> 16)) = divDigit v u un := by
  apply sfpCorrectDigit_eq hun
  have hmod := mod_lt u.toNat (show 0 < v.toNat / 65536 by omega)
  rw [toNat_sub_div_mul, toNat_high]
  omega

theorem mul_65536_eq (x : BitVec 32) : x * (65536 : BitVec 32) = x <<< 16 := by
  apply eq_of_toNat_eq
  rw [toNat_shiftLeft, Nat.shiftLeft_eq]
  rfl

theorem sfpDivlu32_eq {u0 : BitVec 32} (hv : 65536 ≤ v.toNat) :
    sfpDivlu32 u1 u0 v =
      (divTwoDigits v u1 u0).map fun d => (d.1 * 65536 + d.2.1, d.2.2) := by
  have hun1 : (u0 >>> 16).toNat < 65536 := by
    rw [toNat_high]
    omega
  have hun0 : (u0 &&& 0xFFFF).toNat < 65536 := by
    rw [toNat_low]
    omega
  simp only [sfpDivlu32, divTwoDigits, sfpCorrectDigit_eq_divDigit hun1 hv,
    sfpCorrectDigit_eq_divDigit hun0 hv, mul_65536_eq, bind_eq_bind, Option.map_bind]
  congr 1
  funext q1
  rw [Function.comp, Option.map_bind]
  rfl

theorem sfpDivlu32_spec (u0 : BitVec 32) (hv : 2147483648 ≤ v.toNat) (hu : u1.toNat < v.toNat) :
    ∃ q r, sfpDivlu32 u1 u0 v = some (q, r) ∧ q.toNat = pairValue u0 u1 / v.toNat ∧
      r.toNat = pairValue u0 u1 % v.toNat := by
  obtain ⟨q1, q0, rem, hstep, hq, hrem, hq0⟩ := divTwoDigits_spec u0 hv hu
  refine ⟨q1 * 65536 + q0, rem, ?_, ?_, hrem⟩
  · rw [sfpDivlu32_eq (by omega), hstep]
    rfl
  · rw [← hq, mul_65536_eq, toNat_shl_or _ _ (by decide) hq0, toNat_add,
      toNat_shiftLeft]
    omega

end Digits

section Steps

variable {v1 v0 w2 w1 : BitVec 32} {W V : ℕ} {dividend divisor : BitVec 64}

theorem correctQuotient_spec {w0 : BitVec 32} {u : ℕ} (hv : 2147483648 ≤ v1.toNat)
    (hu : u < v1.toNat * 4294967296 + v0.toNat) :
    ∀ (n : ℕ) (qh : BitVec 32) (rh : BitVec 64),
      DigitInv 4294967296 v1.toNat v0.toNat u w0.toNat qh.toNat rh.toNat →
      4294967296 ≤ rh.toNat + n * 2147483648 →
      ∃ q, correctQuotient v1 v0 w0 (n + 1) qh rh = some q ∧
        q.toNat = (u * 4294967296 + w0.toNat) / (v1.toNat * 4294967296 + v0.toNat) := by
  have hw0 := w0.isLt
  have hprod : ∀ q : BitVec 32, q.toNat * v0.toNat ≤ 4294967295 * 4294967295 := fun q =>
    Nat.mul_le_mul (by have := q.isLt; omega) (by omega)
  intro n
  induction n with
  | zero =>
    intro qh rh I hfuel
    -- the loop stops once the partial remainder has more than 32 bits
    have hrh : ¬ rh < (1 : BitVec 64) <<< 32 := by
      rw [lt_def, toNat_one_shiftLeft (by decide)]
      omega
    rw [correctQuotient, if_neg (fun h => hrh h.1)]
    refine ⟨qh, rfl, I.eq_of_le (by omega) ?_⟩
    have := hprod qh
    omega
  | succ n ih =>
    intro qh rh I hfuel
    have hbound := hprod qh
    by_cases hrh : rh.toNat < 4294967296
    · have htest : ((rh <<< 32) ||| w0.setWidth 64) < qh.setWidth 64 * v0.setWidth 64 ↔
          rh.toNat * 4294967296 + w0.toNat < qh.toNat * v0.toNat := by
        rw [lt_def, toNat_widen_mul,
          toNat_shl_or _ _ (by decide) (by rw [toNat_widen]; exact hw0),
          mod_eq_of_lt (by omega)]
        exact Iff.rfl
      have hlt : rh < (1 : BitVec 64) <<< 32 := by
        rw [lt_def, toNat_one_shiftLeft (by decide)]
        omega
      rw [correctQuotient]
      by_cases hfail : rh.toNat * 4294967296 + w0.toNat < qh.toNat * v0.toNat
      · rw [if_pos ⟨hlt, htest.mpr hfail⟩]
        have hpos : 0 < qh.toNat := Nat.pos_of_mul_pos_right (Nat.zero_lt_of_lt hfail)
        have hpred : (qh - 1).toNat = qh.toNat - 1 := by
          rw [toNat_sub_of_le (by rw [le_def]; exact hpos)]
          rfl
        have hsum : (rh + v1.setWidth 64).toNat = rh.toNat + v1.toNat := by
          rw [toNat_add, toNat_widen, mod_eq_of_lt (by omega)]
        have I' := I.pred hu hw0 (.inr hfail)
        rw [← hpred, ← hsum] at I'
        exact ih _ _ I' (by rw [hsum]; omega)
      · rw [if_neg (fun h => hfail (htest.mp h.2))]
        exact ⟨qh, rfl, I.eq_of_le (by omega) (by omega)⟩
    · have hge : ¬ rh < (1 : BitVec 64) <<< 32 := by
        rw [lt_def, toNat_one_shiftLeft (by decide)]
        omega
      rw [correctQuotient, if_neg (fun h => hge h.1)]
      exact ⟨qh, rfl, I.eq_of_le (by omega) (by omega)⟩

theorem divstepEstimate_spec (w0 : BitVec 32) (hv : 2147483648 ≤ v1.toNat)
    (hu : w2.toNat * 4294967296 + w1.toNat < v1.toNat * 4294967296 + v0.toNat) :
    ∃ qh rh, divstepEstimate v1 w2 w1 = some (qh, rh) ∧
      DigitInv 4294967296 v1.toNat v0.toNat (w2.toNat * 4294967296 + w1.toNat) w0.toNat
        qh.toNat rh.toNat := by
  rw [divstepEstimate]
  split
  case isTrue hle =>
    rw [le_def] at hle
    obtain rfl : w2 = v1 := eq_of_toNat_eq (by omega)
    refine ⟨_, _, rfl, ?_, ?_⟩
    · rw [BitVec.sub_self, toNat_add, toNat_widen]
      change 4294967295 * w2.toNat + ((0 + w1.toNat) % 2 ^ 64 + w2.toNat) % 2 ^ 64 = _
      omega
    · have := digit_lt hu w0.isLt
      change _ ≤ 4294967295
      omega
  case isFalse hlt =>
    rw [le_def, not_le] at hlt
    obtain ⟨q, r, hdiv, hq, hr⟩ := sfpDivlu32_spec w1 hv hlt
    refine ⟨q, r.setWidth 64, by rw [hdiv]; rfl, ?_⟩
    rw [toNat_widen, hq, hr]
    exact digitInv_init (by omega) w0.isLt

theorem borrow_sub {w2 w1 w0 p0 p1 R : ℕ} {t0 t1 t2 : ℤ} (hw1 : w1 < 4294967296)
    (hw0 : w0 < 4294967296) (hR : R < 18446744073709551616)
    (hsum : p1 * 4294967296 + p0 + R = (w2 * 4294967296 + w1) * 4294967296 + w0)
    (ht0 : t0 = w0 - (p0 % 4294967296 : ℕ))
    (ht1 : t1 = w1 - ((p1 + p0 / 4294967296) % 4294967296 : ℕ) - (if t0 < 0 then 1 else 0))
    (ht2 : t2 = w2 - ((p1 + p0 / 4294967296) / 4294967296 : ℕ) - (if t1 < 0 then 1 else 0)) :
    t2 = 0 ∧ (t1 % 4294967296).toNat * 4294967296 + (t0 % 4294967296).toNat = R := by
  have hlow : t0 % 4294967296 = if t0 < 0 then t0 + 4294967296 else t0 := by
    split <;> omega
  have hmid : t1 % 4294967296 = if t1 < 0 then t1 + 4294967296 else t1 := by
    split at ht1 <;> split <;> omega
  by_cases h0 : t0 < 0 <;> by_cases h1 : t1 < 0 <;> simp only [h0, h1, if_true, if_false] at * <;>
    omega

theorem subtractProduct_spec {w0 qh : BitVec 32}
    (hW : W = (w2.toNat * 4294967296 + w1.toNat) * 4294967296 + w0.toNat)
    (hV : V = v1.toNat * 4294967296 + v0.toNat) (hVpos : 0 < V) (hq : qh.toNat = W / V) :
    (subtractProduct v1 v0 w2 w1 w0 qh).qd = qh ∧
      (subtractProduct v1 v0 w2 w1 w0 qh).w1.toNat * 4294967296 +
        (subtractProduct v1 v0 w2 w1 w0 qh).w0.toNat = W % V := by
  -- for the right digit the difference is not negative, and nothing is put back
  have hmod := mod_lt W hVpos
  have hsplit := div_add_mod W V
  have hprod : V * (W / V) = qh.toNat * v1.toNat * 4294967296 + qh.toNat * v0.toNat := by
    rw [← hq, hV]
    ring
  rw [hprod] at hsplit
  have hp1val : (qh.setWidth 64 * v1.setWidth 64 +
      ((qh.setWidth 64 * v0.setWidth 64) >>> 32)).toNat =
        qh.toNat * v1.toNat + qh.toNat * v0.toNat / 4294967296 := by
    rw [toNat_add, toNat_ushiftRight, toNat_widen_mul, toNat_widen_mul,
      shiftRight_eq_div_pow, mod_eq_of_lt (by omega)]
  simp only [subtractProduct, toNat_lowWord, toNat_highWord, toNat_widen_mul, hp1val]
  obtain ⟨ht2, hrem⟩ := borrow_sub w1.isLt w0.isLt (by have := v1.isLt; have := v0.isLt; omega)
    (hsplit.trans hW) rfl rfl rfl
  rw [ht2]
  refine ⟨rfl, ?_⟩
  exact hrem

theorem sfpDivstep_spec (w0 : BitVec 32)
    (hW : W = (w2.toNat * 4294967296 + w1.toNat) * 4294967296 + w0.toNat)
    (hV : V = v1.toNat * 4294967296 + v0.toNat) (hv : 2147483648 ≤ v1.toNat)
    (hu : w2.toNat * 4294967296 + w1.toNat < V) :
    ∃ r, sfpDivstep v1 v0 w2 w1 w0 = some r ∧ r.qd.toNat = W / V ∧
      r.w1.toNat * 4294967296 + r.w0.toNat = W % V := by
  have hVpos : 0 < V := by omega
  have hu' : w2.toNat * 4294967296 + w1.toNat < v1.toNat * 4294967296 + v0.toNat := by omega
  obtain ⟨qh, rh, hest, I⟩ := divstepEstimate_spec w0 hv hu'
  obtain ⟨q, hcorr, hq⟩ := correctQuotient_spec hv hu' 2 qh rh I (le_add_left _ _)
  rw [← hW, ← hV] at hq
  obtain ⟨hqd, hrem⟩ := subtractProduct_spec hW hV hVpos hq
  refine ⟨subtractProduct v1 v0 w2 w1 w0 q, ?_, (congrArg BitVec.toNat hqd).trans hq, hrem⟩
  simp only [sfpDivstep, hest, hcorr, bind_eq_bind, bind_some]

theorem sfpDivSig64_operands (hlow : 2 ^ 52 ≤ divisor.toNat) (hhigh : divisor.toNat < 2 ^ 53)
    (hdividend : dividend.toNat < 2 * divisor.toNat) :
    2147483648 ≤ (highWord (divisor <<< 11)).toNat ∧
      divisor.toNat * 2048 = (highWord (divisor <<< 11)).toNat * 4294967296 +
        (lowWord (divisor <<< 11)).toNat ∧
      (highWord (dividend <<< 2)).toNat * 4294967296 + (lowWord (dividend <<< 2)).toNat =
        dividend.toNat * 4 := by
  have hd : (divisor <<< 11).toNat = divisor.toNat * 2048 := by
    rw [toNat_shiftLeft, Nat.shiftLeft_eq, Nat.mod_eq_of_lt (by omega)]
  have hn : (dividend <<< 2).toNat = dividend.toNat * 4 := by
    rw [toNat_shiftLeft, Nat.shiftLeft_eq, Nat.mod_eq_of_lt (by omega)]
  refine ⟨?_, ?_, ?_⟩
  · rw [toNat_highWord]
    omega
  · rw [words_toNat, hd]
  · rw [words_toNat, hn]

theorem sfpDivSig64_spec (hlow : 2 ^ 52 ≤ divisor.toNat) (hhigh : divisor.toNat < 2 ^ 53)
    (hdividend : dividend.toNat < 2 * divisor.toNat) :
    ∃ q, sfpDivSig64 dividend divisor = some q ∧
      q.toNat = divSticky (dividend.toNat * 2 ^ 55) divisor.toNat := by
  obtain ⟨hv, hV, hw⟩ := sfpDivSig64_operands hlow hhigh hdividend
  have hVpos : 0 < divisor.toNat * 2048 := by omega
  have hlt : dividend.toNat * 4 < divisor.toNat * 2048 := by omega
  obtain ⟨first, hfirst, hq1, hr1⟩ := sfpDivstep_spec 0 rfl hV hv (hw ▸ hlt)
  rw [hw] at hq1 hr1
  obtain ⟨second, hsecond, hq0, hr0⟩ := sfpDivstep_spec 0 rfl hV hv
    (by rw [hr1]; exact mod_lt _ hVpos)
  rw [hr1] at hq0 hr0
  refine ⟨_, by simp only [sfpDivSig64, hfirst, hsecond, bind_eq_bind, bind_some]; rfl, ?_⟩
  -- two digits of the quotient by the shifted divisor
  obtain ⟨hdiv, hmod⟩ := @two_digits 4294967296 (dividend.toNat * 4) (divisor.toNat * 2048) 0 0 hVpos
  have hscale : dividend.toNat * 4 * 4294967296 * 4294967296 + 0 * 4294967296 + 0 =
      dividend.toNat * 2 ^ 55 * 2048 := by ring
  rw [hscale, Nat.mul_div_mul_right _ _ (by norm_num)] at hdiv
  rw [hscale, Nat.mul_mod_mul_right] at hmod
  change first.qd.toNat = (dividend.toNat * 4 * 4294967296 + 0) / _ at hq1
  change second.qd.toNat = ((dividend.toNat * 4 * 4294967296 + 0) % _ * 4294967296 + 0) / _ at hq0
  change _ = ((dividend.toNat * 4 * 4294967296 + 0) % _ * 4294967296 + 0) % _ at hr0
  rw [← hq1, ← hq0] at hdiv
  have hrest : second.w1 ||| second.w0 ≠ 0 ↔ dividend.toNat * 2 ^ 55 % divisor.toNat ≠ 0 := by
    have hor : second.w1 ||| second.w0 = 0 ↔ second.w1.toNat = 0 ∧ second.w0.toNat = 0 := by
      rw [← toNat_inj, toNat_or, show (0 : BitVec 32).toNat = 0 from rfl,
        Nat.or_eq_zero_iff]
    rw [ne_eq, hor]
    omega
  rw [toNat_or, toNat_shl_or _ _ (by decide) (by rw [toNat_widen]; exact BitVec.isLt _),
    toNat_widen, toNat_widen, toNat_truthWord (by decide), mod_eq_of_lt (BitVec.isLt _),
    if_congr hrest rfl rfl, divSticky, ← hdiv, ite_not, show 2 ^ 32 = 4294967296 by norm_num]

/-- Both correction loops end on a window, and the digit they leave is right or one too big. -/
def DigitEstimate (v1 v0 w2 w1 w0 : BitVec 32) : Prop :=
  (w2 < v1 → ∃ q r, sfpDivlu32 w2 w1 v1 = some (q, r) ∧ q.toNat = pairValue w1 w2 / v1.toNat) ∧
  ∃ qh rh q, divstepEstimate v1 w2 w1 = some (qh, rh) ∧
    correctQuotient v1 v0 w0 3 qh rh = some q ∧
    ((w2.toNat * 4294967296 + w1.toNat) * 4294967296 + w0.toNat) /
      (v1.toNat * 4294967296 + v0.toNat) ≤ q.toNat ∧
    q.toNat ≤ ((w2.toNat * 4294967296 + w1.toNat) * 4294967296 + w0.toNat) /
      (v1.toNat * 4294967296 + v0.toNat) + 1

theorem digitEstimate (w0 : BitVec 32) (hv : 2147483648 ≤ v1.toNat)
    (hu : w2.toNat * 4294967296 + w1.toNat < v1.toNat * 4294967296 + v0.toNat) :
    DigitEstimate v1 v0 w2 w1 w0 := by
  constructor
  · intro hlt
    obtain ⟨q, r, h, hq, _⟩ := sfpDivlu32_spec w1 hv (BitVec.lt_def.mp hlt)
    exact ⟨q, r, h, hq⟩
  · obtain ⟨qh, rh, hest, I⟩ := divstepEstimate_spec w0 hv hu
    obtain ⟨q, hcorr, hq⟩ := correctQuotient_spec hv hu 2 qh rh I (le_add_left _ _)
    exact ⟨qh, rh, q, hest, hcorr, hq.ge, hq.le.trans (le_succ _)⟩

/-- `sfp_div_sig64` divides, with the inexactness in bit 0; its digit estimates are at most one too
big before the divisor is put back. -/
theorem sfpDivSig64_correct (dividend divisor : BitVec 64) (hlow : 2 ^ 52 ≤ divisor.toNat)
    (hhigh : divisor.toNat < 2 ^ 53) (hdividend : dividend.toNat < 2 * divisor.toNat) :
    (∃ q, sfpDivSig64 dividend divisor = some q ∧
      q.toNat = (dividend.toNat * 2 ^ 55 / divisor.toNat |||
        if dividend.toNat * 2 ^ 55 % divisor.toNat = 0 then 0 else 1)) ∧
    DigitEstimate (highWord (divisor <<< 11)) (lowWord (divisor <<< 11))
      (highWord (dividend <<< 2)) (lowWord (dividend <<< 2)) 0 ∧
    ∃ first, sfpDivstep (highWord (divisor <<< 11)) (lowWord (divisor <<< 11))
        (highWord (dividend <<< 2)) (lowWord (dividend <<< 2)) 0 = some first ∧
      DigitEstimate (highWord (divisor <<< 11)) (lowWord (divisor <<< 11)) first.w1 first.w0 0 := by
  refine ⟨sfpDivSig64_spec hlow hhigh hdividend, ?_⟩
  obtain ⟨hv, hV, hw⟩ := sfpDivSig64_operands hlow hhigh hdividend
  have hlt : dividend.toNat * 4 < divisor.toNat * 2048 := by omega
  refine ⟨digitEstimate 0 hv (by rw [hw, ← hV]; exact hlt), ?_⟩
  obtain ⟨first, hfirst, _, hr1⟩ := sfpDivstep_spec 0 rfl hV hv (hw ▸ hlt)
  refine ⟨first, hfirst, digitEstimate 0 hv ?_⟩
  rw [hr1, ← hV]
  exact mod_lt _ (by omega)

theorem sfpDivSig64_correct_thirds :
    ∃ q, sfpDivSig64 0x10000000000000 0x18000000000000 = some q ∧
      q.toNat = 24019198012642645 := by
  obtain ⟨⟨q, h, hq⟩, _⟩ := sfpDivSig64_correct 0x10000000000000 0x18000000000000 (by decide)
    (by decide) (by decide)
  exact ⟨q, h, hq⟩

end Steps

section Quotients

/-- `r` is the rounded quotient of the numbers `a` and `b` encode. -/
def IsQuotient (f : FloatFormat) (a b r : ℕ) : Prop :=
  f.IsRounding (f.value a / f.value b) (f.negative a ^^ f.negative b) r

variable {f : FloatFormat}

variable {a b : ℕ} {ea eb e : ℤ}

theorem isQuotient_zero {r : ℕ} (h : a % f.signBit = 0)
    (hr : r = if f.negative a ^^ f.negative b then f.signBit else 0) : IsQuotient f a b r := by
  rw [IsQuotient, (f.value_eq_zero_iff a).mpr h, zero_div]
  exact isRounding_signedZero f _ hr

/-- The quotient of two significands, the dividend doubled or not to reach the divisor, with as
many bits as the packing wants. -/
theorem NormalForm.isQuotient {A B D r : ℕ} (ha : NormalForm f a ea A) (hb : NormalForm f b eb B)
    (hD : D = 2 * A ∧ e = ea - eb + f.bias - 1 ∨ D = A ∧ e = ea - eb + f.bias)
    (hround : f.IsRounding ((D * 2 ^ (f.fracBits + 3) : ℕ) / B * packScale f e)
      (f.negative a ^^ f.negative b) r) : IsQuotient f a b r := by
  apply isRounding_congr hround
  have hvalue : |f.value a / f.value b| = A / B * 2 ^ (ea - eb) := by
    rw [abs_div, f.abs_value, f.abs_value, ha.mag_eq, hb.mag_eq, mul_div_mul_comm,
      ← zpow_sub₀ (by norm_num)]
    congr 2
    ring
  have hscale : ((D * 2 ^ (f.fracBits + 3) : ℕ) / B * packScale f e : ℚ) =
      D / B * 2 ^ (e - f.bias) := by
    rw [packScale, show e - f.bias - f.fracBits - 3 = e - f.bias - (f.fracBits + 3 : ℕ) by
      push_cast; ring, zpow_sub₀ (by norm_num), zpow_natCast]
    push_cast
    field_simp
  rw [hscale, abs_of_nonneg (by positivity), hvalue]
  rcases hD with ⟨rfl, rfl⟩ | ⟨rfl, rfl⟩
  · rw [show ea - eb + f.bias - 1 - f.bias = ea - eb - 1 by ring, zpow_sub_one₀ (by norm_num)]
    push_cast
    ring
  · rw [show ea - eb + f.bias - f.bias = ea - eb by ring]

theorem stands_divSticky {D B : ℕ} (hB : 0 < B) (hge : B ≤ D) :
    Stands f ((D * 2 ^ (f.fracBits + 3) : ℕ) / B) (divSticky (D * 2 ^ (f.fracBits + 3)) B) := by
  refine .inr (.inl ⟨sameCuts_divSticky _ hB, ?_⟩)
  rw [show 2 ^ (f.fracBits + 2) = 2 * 2 ^ (f.fracBits + 1) by ring]
  apply le_divSticky hB
  calc 2 * 2 ^ (f.fracBits + 1) * B ≤ 2 ^ (f.fracBits + 3) * B :=
        Nat.mul_le_mul_right _ (by rw [← pow_succ']; exact Nat.pow_le_pow_right (by norm_num) (by omega))
    _ ≤ 2 ^ (f.fracBits + 3) * D := Nat.mul_le_mul_left _ hge
    _ = D * 2 ^ (f.fracBits + 3) := Nat.mul_comm _ _

theorem alignDividend_spec {w : ℕ} (hw : f.fracBits + 2 < w) {A B : BitVec w}
    (ha : NormalForm f a ea A.toNat) (hb : NormalForm f b eb B.toNat) {D : BitVec w}
    (hD : D = if A < B then A <<< 1 else A)
    (he : e = if A < B then ea - eb + f.bias - 1 else ea - eb + f.bias) :
    (D.toNat = 2 * A.toNat ∧ e = ea - eb + f.bias - 1 ∨
      D.toNat = A.toNat ∧ e = ea - eb + f.bias) ∧ B.toNat ≤ D.toNat ∧ D.toNat < 2 * B.toNat := by
  have hAge := ha.ge
  have hAlt := ha.lt
  have hBge := hb.ge
  have hBlt := hb.lt
  have hroom : 4 * 2 ^ f.fracBits < 2 ^ w := by
    rw [show 4 * 2 ^ f.fracBits = 2 ^ (f.fracBits + 2) by ring]
    exact Nat.pow_lt_pow_right (by norm_num) hw
  have hshift : (A <<< 1).toNat = 2 * A.toNat := by
    rw [toNat_shiftLeft, Nat.shiftLeft_eq, Nat.mod_eq_of_lt (by omega)]
    ring
  by_cases hlt : A < B
  · rw [if_pos hlt] at hD he
    rw [lt_def] at hlt
    rw [hD, hshift]
    exact ⟨.inl ⟨rfl, he⟩, by omega, by omega⟩
  · rw [if_neg hlt] at hD he
    rw [lt_def] at hlt
    rw [hD]
    exact ⟨.inr ⟨rfl, he⟩, by omega, by omega⟩

end Quotients

theorem aeabiDdiv_isQuotient (a b : BitVec 64) (ha : binary64.IsFinite a.toNat)
    (hb : binary64.IsFinite b.toNat) (hbne : b.toNat % binary64.signBit ≠ 0) :
    ∃ r, aeabiDdiv a b = some r ∧ IsQuotient binary64 a.toNat b.toNat r.toNat := by
  have hfa := double_fields a
  have hfb := double_fields b
  have haexp : doubleExp a ≠ 0x7FF := (hfa.exp_lt ha).ne
  have hbexp : doubleExp b ≠ 0x7FF := (hfb.exp_lt hb).ne
  obtain ⟨eb, B, hunpackB, hB⟩ := unpackNormal_spec (by decide) hfb hbne
  change unpackNormal 52 _ _ = _ at hunpackB
  rw [aeabiDdiv]
  simp only [haexp, hbexp, if_false, eq_zero_iff_toNat, hfa.zero_iff, hfb.zero_iff, hbne, hunpackB,
    bind_eq_bind, bind_some]
  split
  case isTrue hz =>
    refine ⟨_, rfl, isQuotient_zero hz ?_⟩
    rw [hfa.sign_eq, hfb.sign_eq]
    exact toNat_signedZero packLaws_double _
  case isFalse hane =>
    obtain ⟨ea, A, hunpackA, hA⟩ := unpackNormal_spec (by decide) hfa hane
    change unpackNormal 52 _ _ = _ at hunpackA
    simp only [hunpackA, bind_some]
    have halign := alignDividend_spec (by decide) hA hB rfl rfl
    rw [binary64_bias] at halign
    generalize (if A < B then A <<< 1 else A) = D at halign ⊢
    generalize (if A < B then ea - eb + 1023 - 1 else ea - eb + 1023) = e at halign ⊢
    obtain ⟨hDe, hge, hlt⟩ := halign
    obtain ⟨q, hq, hqval⟩ := sfpDivSig64_spec hB.ge (by rw [pow_succ']; exact hB.lt) hlt
    have hstands : Stands binary64 ((D.toNat * 2 ^ 55 : ℕ) / B.toNat) q.toNat :=
      hqval ▸ stands_divSticky (f := binary64) (by omega) hge
    obtain ⟨r, hr, hround⟩ :=
      sfpRoundPackDouble_spec (doubleSign a ^^ doubleSign b) e hstands
    refine ⟨r, by simp only [hq, bind_some, hr], ?_⟩
    rw [hfa.sign_eq, hfb.sign_eq] at hround
    exact hA.isQuotient hB (by rw [binary64_bias]; exact hDe) hround

section Single

/-- The dividend's shifts so far are twice the quotient's multiple of the divisor and what is left,
which stays below twice the divisor. -/
structure FdivInv (D : ℕ) (divisor : BitVec 64) (i : ℕ) (dividend quotient : BitVec 64) : Prop where
  lt : dividend.toNat < 2 * divisor.toNat
  quotient_lt : quotient.toNat < 2 ^ i
  eq : D * 2 ^ i = 2 * (quotient.toNat * divisor.toNat) + dividend.toNat

variable {D i : ℕ} {divisor dividend quotient : BitVec 64}

theorem FdivInv.step {digit : ℕ} {next q : BitVec 64} (h : FdivInv D divisor i dividend quotient)
    (hdigit : digit = 1 ∧ divisor.toNat ≤ dividend.toNat ∨
      digit = 0 ∧ dividend.toNat < divisor.toNat)
    (hnext : next.toNat = 2 * (dividend.toNat - digit * divisor.toNat))
    (hq : q.toNat = 2 * quotient.toNat + digit) : FdivInv D divisor (i + 1) next q := by
  have hlt := h.lt
  have hqlt := h.quotient_lt
  have hfit : digit * divisor.toNat ≤ dividend.toNat ∧
      dividend.toNat < digit * divisor.toNat + divisor.toNat := by
    obtain ⟨rfl, hle⟩ | ⟨rfl, hle⟩ := hdigit <;> omega
  refine ⟨by omega, by rw [pow_succ]; omega, ?_⟩
  have hmul : (2 * quotient.toNat + digit) * divisor.toNat =
      2 * (quotient.toNat * divisor.toNat) + digit * divisor.toNat := by ring
  rw [pow_succ, ← mul_assoc, h.eq, hq]
  omega

theorem fdivLoop_spec (hdivisor : divisor.toNat < 2 ^ 32) (n : ℕ) :
    ∀ (i : ℕ) (dividend quotient : BitVec 64), i + n ≤ 32 → FdivInv D divisor i dividend quotient →
      FdivInv D divisor (i + n) (fdivLoop divisor n dividend quotient).1
        (fdivLoop divisor n dividend quotient).2 := by
  induction n with
  | zero => exact fun i dividend quotient _ h => h
  | succ n ih =>
    intro i dividend quotient hi h
    have hlt := h.lt
    have hqlt : quotient.toNat < 2 ^ 32 :=
      h.quotient_lt.trans_le (Nat.pow_le_pow_right (by norm_num) (by omega))
    have hshift : ∀ x : BitVec 64, x.toNat < 2 ^ 33 → (x <<< 1).toNat = 2 * x.toNat := fun x hx => by
      rw [toNat_shiftLeft, Nat.shiftLeft_eq, Nat.mod_eq_of_lt (by omega)]
      ring
    have hshiftq := hshift quotient (by omega)
    rw [show i + (n + 1) = i + 1 + n by ring, fdivLoop]
    split
    case isTrue hle =>
      have hle' := hle
      have hsub : (dividend - divisor).toNat = dividend.toNat - divisor.toNat :=
        toNat_sub_of_le hle
      apply ih _ _ _ (by omega)
      apply h.step (.inl ⟨rfl, hle'⟩)
      · rw [hshift _ (by omega), hsub, one_mul]
      · rw [toNat_or, show (1 : BitVec 64).toNat = 1 from rfl, or_one]
        omega
    case isFalse hle =>
      rw [le_def, not_le] at hle
      apply ih _ _ _ (by omega)
      apply h.step (.inr ⟨rfl, hle⟩)
      · rw [hshift _ (by omega), zero_mul, Nat.sub_zero]
      · rw [hshiftq, add_zero]

theorem fdivLoop_sticky (h : FdivInv D divisor (i + 1) dividend quotient) :
    (quotient ||| truthWord 64 (dividend ≠ 0)).toNat = divSticky (D * 2 ^ i) divisor.toNat := by
  have hlt := h.lt
  have heq : 2 * (D * 2 ^ i) = 2 * (quotient.toNat * divisor.toNat) + dividend.toNat := by
    rw [← h.eq]
    ring
  have hmod : dividend.toNat % 2 = 0 := by omega
  have hhalf : D * 2 ^ i = dividend.toNat / 2 + divisor.toNat * quotient.toNat := by
    rw [mul_comm divisor.toNat]
    omega
  have hrest : dividend.toNat / 2 < divisor.toNat := by omega
  have hdiv : D * 2 ^ i / divisor.toNat = quotient.toNat := by
    rw [hhalf, add_mul_div_left _ _ (by omega), div_eq_of_lt hrest, zero_add]
  have hrem : D * 2 ^ i % divisor.toNat = dividend.toNat / 2 := by
    rw [hhalf, add_mul_mod_self_left, mod_eq_of_lt hrest]
  have hzero : dividend ≠ 0 ↔ ¬ dividend.toNat / 2 = 0 := by
    rw [ne_eq, ← toNat_inj, show (0 : BitVec 64).toNat = 0 from rfl]
    omega
  rw [toNat_or, toNat_truthWord (by norm_num), divSticky, hdiv, hrem,
    if_congr hzero rfl rfl, ite_not]

theorem fdivGeneral_isQuotient {a b : ℕ} {sa sb : Bool} {aExp bExp : ℤ} {aMant bMant : BitVec 32}
    (ha : Fields binary32 a sa aExp aMant.toNat) (hb : Fields binary32 b sb bExp bMant.toNat)
    (hane : a % binary32.signBit ≠ 0) (hbne : b % binary32.signBit ≠ 0) :
    ∃ r, fdivGeneral (sa ^^ sb) aExp bExp aMant bMant = some r ∧
      IsQuotient binary32 a b r.toNat := by
  obtain ⟨ea, A, hunpackA, hA⟩ := unpackNormal_spec (by decide) ha hane
  obtain ⟨eb, B, hunpackB, hB⟩ := unpackNormal_spec (by decide) hb hbne
  change unpackNormal 23 aExp aMant = _ at hunpackA
  change unpackNormal 23 bExp bMant = _ at hunpackB
  simp only [fdivGeneral, hunpackA, hunpackB, bind_eq_bind, bind_some]
  rw [← toNat_widen] at hA hB
  have halign := alignDividend_spec (by decide) hA hB rfl rfl
  rw [binary32_bias] at halign
  generalize (if A.setWidth 64 < B.setWidth 64 then A.setWidth 64 <<< 1 else A.setWidth 64) = D
    at halign ⊢
  generalize (if A.setWidth 64 < B.setWidth 64 then ea - eb + 127 - 1 else ea - eb + 127) = e
    at halign ⊢
  obtain ⟨hDe, hge, hlt⟩ := halign
  have hBlt := hB.lt
  change _ < 2 * 2 ^ 23 at hBlt
  have hinv : FdivInv D.toNat (B.setWidth 64) 0 D 0 := ⟨hlt, by decide, by simp⟩
  have hloop := fdivLoop_spec (by omega) (24 + 3) 0 D 0 (by norm_num) hinv
  have hsticky := fdivLoop_sticky (i := 26) hloop
  generalize fdivLoop (B.setWidth 64) (24 + 3) D 0 = res at hsticky ⊢
  generalize res.2 ||| truthWord 64 (res.1 ≠ 0) = q at hsticky ⊢
  have hqlt : q.toNat < 2 ^ 32 := by
    rw [hsticky, show 2 ^ 32 = 2 * 2 ^ 31 by norm_num]
    exact divSticky_lt (by omega) (by omega)
  have hnarrow : (q.setWidth 32).toNat = q.toNat := by
    rw [toNat_setWidth, mod_eq_of_lt hqlt]
  have hstands : Stands binary32 ((D.toNat * 2 ^ 26 : ℕ) / (B.setWidth 64).toNat)
      (q.setWidth 32).toNat := by
    rw [hnarrow, hsticky]
    exact stands_divSticky (f := binary32) (by omega) hge
  obtain ⟨r, hr, hround⟩ := sfpRoundPackFloat_spec (sa ^^ sb) e hstands
  rw [ha.sign_eq, hb.sign_eq] at hround
  exact ⟨r, hr, hA.isQuotient hB (by rw [binary32_bias]; exact hDe) hround⟩

theorem aeabiFdiv_isQuotient (a b : BitVec 32) (ha : binary32.IsFinite a.toNat)
    (hb : binary32.IsFinite b.toNat) (hbne : b.toNat % binary32.signBit ≠ 0) :
    ∃ r, aeabiFdiv a b = some r ∧ IsQuotient binary32 a.toNat b.toNat r.toNat := by
  have hfa := float_fields a
  have hfb := float_fields b
  have haexp : floatExp a ≠ 0xFF := (hfa.exp_lt ha).ne
  have hbexp : floatExp b ≠ 0xFF := (hfb.exp_lt hb).ne
  rw [aeabiFdiv]
  simp only [isNanF, isInfF, isZeroF, haexp, hbexp, false_and, decide_false, Bool.false_eq_true,
    if_false, eq_zero_iff_toNat, hfa.zero_iff, hfb.zero_iff, hbne, decide_eq_true_eq]
  split
  case isTrue hz =>
    refine ⟨_, rfl, isQuotient_zero hz ?_⟩
    rw [hfa.sign_eq, hfb.sign_eq]
    exact toNat_signedZero packLaws_float _
  case isFalse hane => exact fdivGeneral_isQuotient hfa hfb hane hbne

end Single

/-- The software divisions of a finite number by a finite number other than zero are correctly
rounded. -/
theorem softDiv_correct :
    (∀ a b : BitVec 64, binary64.IsFinite a.toNat → binary64.IsFinite b.toNat →
      b.toNat % binary64.signBit ≠ 0 →
      ∃ r, aeabiDdiv a b = some r ∧ IsQuotient binary64 a.toNat b.toNat r.toNat) ∧
    ∀ a b : BitVec 32, binary32.IsFinite a.toNat → binary32.IsFinite b.toNat →
      b.toNat % binary32.signBit ≠ 0 →
      ∃ r, aeabiFdiv a b = some r ∧ IsQuotient binary32 a.toNat b.toNat r.toNat :=
  ⟨aeabiDdiv_isQuotient, aeabiFdiv_isQuotient⟩

/-- One third as a double, and the smallest normal float over two, which is subnormal. -/
theorem softDiv_correct_third :
    (∃ r, aeabiDdiv 0x3FF0000000000000 0x4008000000000000 = some r ∧
      IsQuotient binary64 0x3FF0000000000000 0x4008000000000000 r.toNat) ∧
    ∃ r, aeabiFdiv 0x00800000 0x40000000 = some r ∧ IsQuotient binary32 0x00800000 0x40000000 r.toNat :=
  ⟨softDiv_correct.1 0x3FF0000000000000 0x4008000000000000 (by decide) (by decide) (by decide),
    softDiv_correct.2 0x00800000 0x40000000 (by decide) (by decide) (by decide)⟩

end Tinycc
