import Mathlib.Algebra.Order.Field.Power
import Tinycc.Lib.Rounding

open Rounding

/-- A binary interchange format: sign, biased exponent and fraction, from the top bit down. -/
structure FloatFormat where
  fracBits : ℕ
  expBits : ℕ
  fracBits_pos : 0 < fracBits
  expBits_gt : 1 < expBits

namespace FloatFormat
open Int

variable (f : FloatFormat)

def bias : ℤ := 2 ^ (f.expBits - 1) - 1

def signBit : ℕ := 2 ^ (f.expBits + f.fracBits)

def expMax : ℕ := 2 ^ f.expBits - 1

def infinity : ℕ := f.expMax * 2 ^ f.fracBits

def ulp (e : ℕ) : ℚ := 2 ^ ((e : ℤ) - f.bias - f.fracBits)

/-- The number a magnitude encodes, as if the exponents went on above the finite ones. -/
def mag (k : ℕ) : ℚ :=
  if k / 2 ^ f.fracBits = 0 then (k % 2 ^ f.fracBits : ℕ) * f.ulp 1
  else (2 ^ f.fracBits + k % 2 ^ f.fracBits : ℕ) * f.ulp (k / 2 ^ f.fracBits)

def IsFinite (n : ℕ) : Prop := n % f.signBit < f.infinity

instance (n : ℕ) : Decidable (f.IsFinite n) := inferInstanceAs (Decidable (_ < _))

def IsNan (n : ℕ) : Prop := f.infinity < n % f.signBit

instance (n : ℕ) : Decidable (f.IsNan n) := inferInstanceAs (Decidable (_ < _))

def negative (n : ℕ) : Bool := decide (f.signBit ≤ n)

def value (n : ℕ) : ℚ := (if f.negative n then -1 else 1) * f.mag (n % f.signBit)

def overflowThreshold : ℚ := 2 ^ f.bias * (2 - 1 / 2 * (1 / 2) ^ f.fracBits)

/-- Rounding to nearest, ties to even: beyond the threshold infinity, below it a nearest finite
number, and of two nearest ones the even one. -/
def IsNearestEven (x : ℚ) (k : ℕ) : Prop :=
  if f.overflowThreshold ≤ x then k = f.infinity
  else k < f.infinity ∧ ∀ j < f.infinity, |x - f.mag k| ≤ |x - f.mag j| ∧
    (j ≠ k → |x - f.mag k| = |x - f.mag j| → Even k)

/-- The pattern `n` is the rounding of `x`, with the given sign. -/
structure IsRounding (x : ℚ) (neg : Bool) (n : ℕ) : Prop where
  lt : n < 2 * f.signBit
  negative_eq : f.negative n = neg
  nearest : f.IsNearestEven |x| (n % f.signBit)

theorem ulp_pos (e : ℕ) : 0 < f.ulp e := by
  rw [ulp]
  positivity

theorem ulp_add (e n : ℕ) : f.ulp (e + n) = 2 ^ n * f.ulp e := by
  rw [ulp, ulp, ← zpow_natCast, ← zpow_add₀ (by norm_num)]
  congr 1
  push_cast
  ring

theorem two_mul_ulp_le {a b : ℕ} (h : a < b) : 2 * f.ulp a ≤ f.ulp b := by
  obtain ⟨n, rfl⟩ : ∃ n, b = a + (1 + n) := ⟨b - a - 1, by omega⟩
  rw [ulp_add, pow_add]
  have hone : (1 : ℚ) ≤ 2 ^ n := one_le_pow₀ (by norm_num)
  have := f.ulp_pos a
  gcongr
  linarith

theorem two_pow_fracBits_even : Even (2 ^ f.fracBits) :=
  (Nat.even_pow' f.fracBits_pos.ne').mpr even_two

theorem mag_eq {e r : ℕ} (hr : r ≤ 2 * 2 ^ f.fracBits) (hlow : e = 0 ∨ 2 ^ f.fracBits ≤ r) :
    f.mag (e * 2 ^ f.fracBits + r) = r * f.ulp (e + 1) := by
  have hpos : 0 < 2 ^ f.fracBits := by positivity
  rcases lt_trichotomy r (2 ^ f.fracBits) with hlt | heq | hgt
  · obtain rfl : e = 0 := by omega
    rw [mag, zero_mul, zero_add, Nat.div_eq_of_lt hlt, Nat.mod_eq_of_lt hlt, if_pos rfl]
  · rw [mag, heq, ← Nat.succ_mul, Nat.mul_div_cancel _ hpos, Nat.mul_mod_left,
      if_neg (Nat.succ_ne_zero e), add_zero]
  · rcases hr.lt_or_eq with hlt | rfl
    · obtain ⟨s, rfl⟩ : ∃ s, r = 2 ^ f.fracBits + s := ⟨r - 2 ^ f.fracBits, by omega⟩
      have hs : s < 2 ^ f.fracBits := by omega
      have hdiv : (e * 2 ^ f.fracBits + (2 ^ f.fracBits + s)) / 2 ^ f.fracBits = e + 1 := by
        rw [← add_assoc, ← Nat.succ_mul, mul_comm, Nat.mul_add_div hpos, Nat.div_eq_of_lt hs]
      have hmod : (e * 2 ^ f.fracBits + (2 ^ f.fracBits + s)) % 2 ^ f.fracBits = s := by
        rw [← add_assoc, ← Nat.succ_mul, mul_comm, Nat.mul_add_mod, Nat.mod_eq_of_lt hs]
      rw [mag, hdiv, hmod, if_neg (Nat.succ_ne_zero e)]
    · rw [mag, ← add_mul, Nat.mul_div_cancel _ hpos, Nat.mul_mod_left, ulp_add _ (e + 1) 1]
      push_cast
      ring

theorem exists_split (k : ℕ) : ∃ e r, k = e * 2 ^ f.fracBits + r ∧ r < 2 * 2 ^ f.fracBits ∧
    (e = 0 ∨ 2 ^ f.fracBits ≤ r) := by
  have hsplit := Nat.div_add_mod' k (2 ^ f.fracBits)
  rcases Nat.eq_zero_or_pos (k / 2 ^ f.fracBits) with hzero | hne
  · exact ⟨0, k % 2 ^ f.fracBits, by rw [hzero] at hsplit; exact hsplit.symm, by omega, .inl rfl⟩
  · obtain ⟨e, he⟩ : ∃ e, k / 2 ^ f.fracBits = e + 1 := ⟨_, (Nat.succ_pred_eq_of_pos hne).symm⟩
    refine ⟨e, 2 ^ f.fracBits + k % 2 ^ f.fracBits, ?_, by omega, .inr (by omega)⟩
    rw [← add_assoc, ← Nat.succ_mul, Nat.succ_eq_add_one, ← he, hsplit]

theorem mag_add_ulp_le {e r : ℕ} (hr : r ≤ 2 * 2 ^ f.fracBits)
    (hlow : e = 0 ∨ 2 ^ f.fracBits ≤ r) :
    f.mag (e * 2 ^ f.fracBits + r) + f.ulp (e + 1) ≤ f.mag (e * 2 ^ f.fracBits + r + 1) := by
  rw [mag_eq f hr hlow]
  rcases hr.lt_or_eq with hlt | heq
  · rw [add_assoc, mag_eq f hlt (by omega)]
    push_cast
    linarith
  · have hpos : 0 < 2 ^ f.fracBits := by positivity
    have hnext : e * 2 ^ f.fracBits + r + 1 = (e + 1) * 2 ^ f.fracBits + (2 ^ f.fracBits + 1) := by
      rw [heq]
      ring
    have hulp := f.ulp_pos (e + 1)
    rw [hnext, mag_eq f (by omega) (.inr (by omega)), ulp_add _ (e + 1) 1, heq]
    push_cast
    linarith

theorem mag_strictMono : StrictMono f.mag := by
  apply strictMono_nat_of_lt_succ
  intro k
  obtain ⟨e, r, rfl, hr, hlow⟩ := f.exists_split k
  have := f.mag_add_ulp_le hr.le hlow
  have := f.ulp_pos (e + 1)
  linarith

@[simp]
theorem mag_zero : f.mag 0 = 0 := by simp [mag]

theorem mag_nonneg (k : ℕ) : 0 ≤ f.mag k := by
  rw [← f.mag_zero]
  exact f.mag_strictMono.monotone (Nat.zero_le k)

theorem value_eq_zero_iff (n : ℕ) : f.value n = 0 ↔ n % f.signBit = 0 := by
  have hzero : f.mag (n % f.signBit) = 0 ↔ n % f.signBit = 0 := by
    rw [← f.mag_strictMono.injective.eq_iff, mag_zero]
  rw [value, ← hzero]
  split <;> simp

theorem abs_value (n : ℕ) : |f.value n| = f.mag (n % f.signBit) := by
  rw [value, abs_mul, abs_of_nonneg (f.mag_nonneg _)]
  split <;> simp

theorem value_neg_iff (n : ℕ) : f.value n < 0 ↔ f.negative n = true ∧ n % f.signBit ≠ 0 := by
  have hne : n % f.signBit ≠ 0 ↔ 0 < f.mag (n % f.signBit) := by
    rw [← Nat.pos_iff_ne_zero, ← f.mag_strictMono.lt_iff_lt, mag_zero]
  have hnonneg := f.mag_nonneg (n % f.signBit)
  rw [value, hne]
  split <;> rename_i h <;> simp [h]
  exact hnonneg

section Nearest

variable {f}

theorem expMax_pos : 2 < f.expMax := by
  have : 2 ^ 2 ≤ 2 ^ f.expBits := Nat.pow_le_pow_right (by norm_num) f.expBits_gt
  rw [expMax]
  omega

theorem bias_eq : (2 * f.bias + 1 : ℤ) = f.expMax := by
  have hpow : 2 ^ f.expBits = 2 * 2 ^ (f.expBits - 1) := by
    rw [← pow_succ', Nat.sub_add_cancel (by have := f.expBits_gt; omega)]
  have hpos : 0 < 2 ^ (f.expBits - 1) := by positivity
  rw [bias, expMax, hpow, Nat.cast_sub (by omega)]
  push_cast
  ring

theorem overflowThreshold_eq :
    f.overflowThreshold = (2 * 2 ^ f.fracBits - 1 / 2) * f.ulp (f.expMax - 1) := by
  have hexp : ((f.expMax - 1 : ℕ) : ℤ) - f.bias - f.fracBits = f.bias - f.fracBits := by
    have := f.bias_eq
    omega
  rw [overflowThreshold, ulp, hexp, zpow_sub₀ (by norm_num), zpow_natCast, one_div_pow]
  field_simp

theorem exists_nearer {x : ℚ} {j k : ℕ} (hj : Even j) (hk : Even k) (hlt : j < k)
    (heq : |x - f.mag j| = |x - f.mag k|) : ∃ i < k, |x - f.mag i| < |x - f.mag j| := by
  -- between the two there is one more magnitude, which is nearer
  have hgap : j + 1 < k := by
    rw [Nat.even_iff] at hj hk
    omega
  have hleft := f.mag_strictMono (Nat.lt_succ_self j)
  have hright := f.mag_strictMono hgap
  -- `x` is halfway between the two
  have hmid : x - f.mag j = f.mag k - x := by
    rcases abs_eq_abs.mp heq with h | h <;> linarith
  refine ⟨j + 1, hgap, ?_⟩
  rw [abs_of_pos (show 0 < x - f.mag j by linarith), abs_lt]
  constructor <;> linarith

theorem IsNearestEven.unique {x : ℚ} {j k : ℕ} (hj : f.IsNearestEven x j)
    (hk : f.IsNearestEven x k) : j = k := by
  rw [IsNearestEven] at hj hk
  split at hj
  · rw [if_pos ‹_›] at hk
    rw [hj, hk]
  · rw [if_neg ‹_›] at hk
    by_contra hne
    have heq := le_antisymm (hj.2 k hk.1).1 (hk.2 j hj.1).1
    have hjeven := (hj.2 k hk.1).2 (Ne.symm hne) heq
    have hkeven := (hk.2 j hj.1).2 hne heq.symm
    rcases Nat.lt_or_gt_of_ne hne with hlt | hlt
    · obtain ⟨i, hi, hnear⟩ := exists_nearer hjeven hkeven hlt heq
      exact absurd (hj.2 i (hi.trans hk.1)).1 (not_le.mpr hnear)
    · obtain ⟨i, hi, hnear⟩ := exists_nearer hkeven hjeven hlt heq.symm
      exact absurd (hk.2 i (hi.trans hj.1)).1 (not_le.mpr hnear)

theorem abs_sub_le_of_gap {x m m' u : ℚ} (hlow : m - u / 2 ≤ x) (hhigh : x ≤ m + u / 2)
    (hgap : m + u ≤ m' ∨ m' ≤ m - u ∨ m' < m ∧ m ≤ x) :
    |x - m| ≤ |x - m'| ∧ (|x - m| = |x - m'| → x = m - u / 2 ∨ x = m + u / 2) := by
  rcases hgap with habove | hbelow | ⟨hlt, hle⟩
  · rw [abs_sub_comm x m', abs_of_nonneg (show 0 ≤ m' - x by linarith)]
    refine ⟨abs_le.mpr ⟨by linarith, by linarith⟩, fun heq => .inr ?_⟩
    have := abs_le.mpr (show -(u / 2) ≤ x - m ∧ x - m ≤ u / 2 from ⟨by linarith, by linarith⟩)
    linarith
  · rw [abs_of_nonneg (show 0 ≤ x - m' by linarith)]
    refine ⟨abs_le.mpr ⟨by linarith, by linarith⟩, fun heq => .inl ?_⟩
    have := abs_le.mpr (show -(u / 2) ≤ x - m ∧ x - m ≤ u / 2 from ⟨by linarith, by linarith⟩)
    linarith
  · rw [abs_of_nonneg (show 0 ≤ x - m by linarith), abs_of_nonneg (show 0 ≤ x - m' by linarith)]
    exact ⟨by linarith, fun heq => by linarith⟩

variable {e r : ℕ} {x : ℚ}

/-- A number in the range of exponent field `e + 1`, with the nearest even multiple `r` of that
exponent's unit. -/
structure RoundsAt (f : FloatFormat) (e r : ℕ) (x : ℚ) : Prop where
  round : IsRoundEven (x / f.ulp (e + 1)) r
  low : e = 0 ∧ 0 ≤ x ∨ 2 ^ f.fracBits * f.ulp (e + 1) ≤ x
  high : x < 2 * 2 ^ f.fracBits * f.ulp (e + 1)

namespace RoundsAt

section

variable (h : f.RoundsAt e r x)
include h

theorem lower : (r - 1 / 2) * f.ulp (e + 1) ≤ x := by
  have := h.round.lower
  rwa [le_div_iff₀ (f.ulp_pos _)] at this

theorem upper : x ≤ (r + 1 / 2) * f.ulp (e + 1) := by
  have := h.round.upper
  rwa [div_le_iff₀ (f.ulp_pos _)] at this

theorem even
    (htie : x = (r - 1 / 2) * f.ulp (e + 1) ∨ x = (r + 1 / 2) * f.ulp (e + 1)) : Even r := by
  have hne := (f.ulp_pos (e + 1)).ne'
  have := h.round.even
  rw [div_eq_iff hne, div_eq_iff hne, even_coe_nat] at this
  exact this htie

theorem le : r ≤ 2 * 2 ^ f.fracBits := by
  have hlt : (r - 1 / 2 : ℚ) < 2 * 2 ^ f.fracBits :=
    lt_of_mul_lt_mul_right (h.lower.trans_lt h.high) (f.ulp_pos _).le
  by_contra hgt
  have : ((2 * 2 ^ f.fracBits + 1 : ℕ) : ℚ) ≤ r := Nat.cast_le.mpr (by omega)
  push_cast at this
  linarith

theorem ge : e = 0 ∨ 2 ^ f.fracBits ≤ r := by
  rcases h.low with ⟨he, _⟩ | hlow
  · exact .inl he
  · right
    have hle : (2 ^ f.fracBits : ℚ) ≤ r + 1 / 2 :=
      le_of_mul_le_mul_right (hlow.trans h.upper) (f.ulp_pos _)
    by_contra hlt
    have : ((r + 1 : ℕ) : ℚ) ≤ (2 ^ f.fracBits : ℕ) := Nat.cast_le.mpr (by omega)
    push_cast at this
    linarith

theorem mag_eq : f.mag (e * 2 ^ f.fracBits + r) = r * f.ulp (e + 1) :=
  f.mag_eq h.le h.ge

theorem gap {j : ℕ} (hj : j ≠ e * 2 ^ f.fracBits + r) :
    f.mag (e * 2 ^ f.fracBits + r) + f.ulp (e + 1) ≤ f.mag j ∨
      f.mag j ≤ f.mag (e * 2 ^ f.fracBits + r) - f.ulp (e + 1) ∨
      f.mag j < f.mag (e * 2 ^ f.fracBits + r) ∧ f.mag (e * 2 ^ f.fracBits + r) ≤ x := by
  rcases Nat.lt_or_gt_of_ne hj with hlt | hgt
  · right
    by_cases hbottom : r = 2 ^ f.fracBits ∧ e ≠ 0
    · -- below the least significand of an exponent the numbers lie closer
      right
      rcases h.low with ⟨he, _⟩ | hlow
      · exact absurd he hbottom.2
      · refine ⟨f.mag_strictMono hlt, ?_⟩
        rw [h.mag_eq, hbottom.1]
        push_cast
        exact hlow
    · left
      have hge := h.ge
      have hpos : 0 < r := by
        have : 0 < 2 ^ f.fracBits := by positivity
        rcases hge with rfl | hge
        · omega
        · omega
      obtain ⟨s, rfl⟩ : ∃ s, r = s + 1 := ⟨r - 1, by omega⟩
      have hs := f.mag_eq (show s ≤ 2 * 2 ^ f.fracBits by have := h.le; omega)
        (show e = 0 ∨ 2 ^ f.fracBits ≤ s by omega)
      have hmono := f.mag_strictMono.monotone (show j ≤ e * 2 ^ f.fracBits + s by omega)
      rw [h.mag_eq]
      push_cast
      linarith
  · left
    exact (f.mag_add_ulp_le h.le h.ge).trans (f.mag_strictMono.monotone hgt)

theorem overflow_iff :
    f.overflowThreshold ≤ x ↔ f.infinity ≤ e * 2 ^ f.fracBits + r := by
  have hpos : (1 : ℚ) ≤ 2 ^ f.fracBits := one_le_pow₀ (by norm_num)
  have hulp := f.ulp_pos
  have hexp := f.expMax_pos
  rw [overflowThreshold_eq, infinity]
  rcases lt_trichotomy (e + 1) (f.expMax - 1) with hlt | heq | hgt
  · -- well below: the whole binade is finite
    have hx : x < (2 * 2 ^ f.fracBits - 1 / 2) * f.ulp (f.expMax - 1) := by
      have hstep := f.two_mul_ulp_le hlt
      calc x < 2 ^ f.fracBits * (2 * f.ulp (e + 1)) := by linarith [h.high]
        _ ≤ 2 ^ f.fracBits * f.ulp (f.expMax - 1) := by gcongr
        _ ≤ _ := mul_le_mul_of_nonneg_right (by linarith) (hulp _).le
    have hk : e * 2 ^ f.fracBits + r < f.expMax * 2 ^ f.fracBits := by
      have hle := Nat.mul_le_mul_right (2 ^ f.fracBits) (show e + 2 + 1 ≤ f.expMax by omega)
      have := h.le
      have : 0 < 2 ^ f.fracBits := by positivity
      rw [add_mul, add_mul] at hle
      omega
    exact iff_of_false (not_le.mpr hx) (Nat.not_le.mpr hk)
  · have hk : f.expMax * 2 ^ f.fracBits ≤ e * 2 ^ f.fracBits + r ↔ r = 2 * 2 ^ f.fracBits := by
      have := h.le
      rw [show f.expMax = e + 2 by omega, add_mul]
      omega
    rw [hk, ← heq]
    constructor
    · intro hle
      have hrle : (2 * 2 ^ f.fracBits - 1 / 2 : ℚ) ≤ r + 1 / 2 :=
        le_of_mul_le_mul_right (hle.trans h.upper) (hulp _)
      have hr : 2 * 2 ^ f.fracBits ≤ r + 1 := by
        have : ((2 * 2 ^ f.fracBits : ℕ) : ℚ) ≤ (r + 1 : ℕ) := by
          push_cast
          linarith
        exact_mod_cast this
      by_contra hne
      -- just below the threshold the largest finite significand is odd
      have hreq : (r : ℚ) = 2 * 2 ^ f.fracBits - 1 := by
        have hr' : r + 1 = 2 * 2 ^ f.fracBits := by
          have := h.le
          omega
        have : ((r + 1 : ℕ) : ℚ) = (2 * 2 ^ f.fracBits : ℕ) := congrArg _ hr'
        push_cast at this
        linarith
      have hhalf : (r : ℚ) + 1 / 2 = 2 * 2 ^ f.fracBits - 1 / 2 := by linarith
      have htie : x = (r + 1 / 2) * f.ulp (e + 1) :=
        le_antisymm h.upper (by rw [hhalf]; exact hle)
      have heven := h.even (.inr htie)
      rw [Nat.even_iff] at heven
      have := h.le
      omega
    · intro hr
      have := h.lower
      rw [hr] at this
      push_cast at this
      exact this
  · have hk : f.expMax * 2 ^ f.fracBits ≤ e * 2 ^ f.fracBits + r := by
      have hle := Nat.mul_le_mul_right (2 ^ f.fracBits) (show f.expMax ≤ e + 1 by omega)
      have := h.ge
      rw [add_mul] at hle
      omega
    have hx : (2 * 2 ^ f.fracBits - 1 / 2) * f.ulp (f.expMax - 1) ≤ x := by
      have hstep := f.two_mul_ulp_le hgt
      rcases h.low with ⟨he, _⟩ | hlow
      · omega
      · calc _ ≤ 2 ^ f.fracBits * (2 * f.ulp (f.expMax - 1)) := by linarith [hulp (f.expMax - 1)]
          _ ≤ 2 ^ f.fracBits * f.ulp (e + 1) := by gcongr
          _ ≤ x := hlow
    exact iff_of_true hx hk

/-- Rounding to a multiple of the exponent's unit is rounding to the format. -/
theorem isNearestEven :
    f.IsNearestEven x (min (e * 2 ^ f.fracBits + r) f.infinity) := by
  rw [IsNearestEven]
  split
  case isTrue hover =>
    exact min_eq_right (h.overflow_iff.mp hover)
  case isFalse hunder =>
    have hfin := not_le.mp (h.overflow_iff.not.mp hunder)
    rw [min_eq_left hfin.le]
    refine ⟨hfin, fun j _ => ?_⟩
    rcases eq_or_ne j (e * 2 ^ f.fracBits + r) with rfl | hj
    · exact ⟨le_rfl, fun hne => absurd rfl hne⟩
    · have hlower := h.lower
      have hupper := h.upper
      obtain ⟨hle, htie⟩ := abs_sub_le_of_gap (by rw [h.mag_eq]; linarith)
        (by rw [h.mag_eq]; linarith) (h.gap hj)
      refine ⟨hle, fun _ heq => ?_⟩
      have hr : Even r := by
        have := htie heq
        rw [h.mag_eq] at this
        exact h.even (this.imp (fun h => by linarith) (fun h => by linarith))
      exact (f.two_pow_fracBits_even.mul_left e).add hr

end

end RoundsAt

theorem isNearestEven_mag {k : ℕ} (hk : k < f.infinity) : f.IsNearestEven (f.mag k) k := by
  obtain ⟨e, r, rfl, hr, hlow⟩ := f.exists_split k
  have hmag := f.mag_eq hr.le hlow
  have hulp := f.ulp_pos (e + 1)
  have hround : f.RoundsAt e r (f.mag (e * 2 ^ f.fracBits + r)) := by
    rw [hmag]
    refine ⟨?_, ?_, ?_⟩
    · rw [mul_div_assoc, div_self hulp.ne']
      refine ⟨by rw [cast_natCast]; linarith, by rw [cast_natCast]; linarith, fun h => ?_⟩
      rw [cast_natCast] at h
      rcases h with h | h <;> linarith
    · refine hlow.imp (fun he => ⟨he, by positivity⟩) (fun hle => ?_)
      have : ((2 ^ f.fracBits : ℕ) : ℚ) ≤ r := Nat.cast_le.mpr hle
      push_cast at this
      gcongr
    · have : ((r : ℕ) : ℚ) < (2 * 2 ^ f.fracBits : ℕ) := Nat.cast_lt.mpr hr
      push_cast at this
      gcongr
  have := hround.isNearestEven
  rwa [min_eq_left hk.le] at this

theorem isNearestEven_zero (hx : 0 ≤ x) (hsmall : x < f.ulp 1 / 2) : f.IsNearestEven x 0 := by
  have hulp := f.ulp_pos 1
  have hone : (1 : ℚ) ≤ 2 ^ f.fracBits := one_le_pow₀ (by norm_num)
  have hround : f.RoundsAt 0 0 x := by
    refine ⟨⟨?_, ?_, fun _ => by simp⟩, .inl ⟨rfl, hx⟩, ?_⟩
    · have : 0 ≤ x / f.ulp (0 + 1) := div_nonneg hx hulp.le
      linarith
    · rw [div_le_iff₀ hulp]
      linarith
    · have := mul_le_mul_of_nonneg_right hone hulp.le
      linarith
  have := hround.isNearestEven
  simpa using this

end Nearest

end FloatFormat
