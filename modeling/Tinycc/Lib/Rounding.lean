import Mathlib.Algebra.Order.Floor.Ring
import Mathlib.Data.Nat.Bitwise
import Mathlib.Tactic.Positivity
import Mathlib.Tactic.Ring

namespace Rounding
open Nat

section Cuts

variable {K : Type*} [Field K] [LinearOrder K] {c d x y z : K}

/-- `x` and `y` lie on the same side of every multiple of `d`. -/
def SameCuts (d x y : K) : Prop :=
  ∀ j : ℤ, (x < d * j ↔ y < d * j) ∧ (d * j < x ↔ d * j < y)

theorem SameCuts.refl (d x : K) : SameCuts d x x := fun _ => ⟨Iff.rfl, Iff.rfl⟩

theorem SameCuts.trans (hxy : SameCuts d x y) (hyz : SameCuts d y z) : SameCuts d x z :=
  fun j => ⟨(hxy j).1.trans (hyz j).1, (hxy j).2.trans (hyz j).2⟩

theorem SameCuts.le_iff (h : SameCuts d x y) (j : ℤ) : d * j ≤ x ↔ d * j ≤ y := by
  rw [← not_lt, ← not_lt]
  exact (h j).1.not

theorem SameCuts.coarsen (n : ℤ) (h : SameCuts d x y) : SameCuts (d * n) x y := by
  intro j
  have hj := h (n * j)
  rw [Int.cast_mul, ← mul_assoc] at hj
  exact hj

variable [IsStrictOrderedRing K]

theorem SameCuts.mul_left (hc : 0 < c) (h : SameCuts d x y) :
    SameCuts (c * d) (c * x) (c * y) := by
  intro j
  rw [mul_assoc, mul_lt_mul_iff_right₀ hc, mul_lt_mul_iff_right₀ hc, mul_lt_mul_iff_right₀ hc,
    mul_lt_mul_iff_right₀ hc]
  exact h j

theorem SameCuts.add_left (n : ℤ) (h : SameCuts d x y) :
    SameCuts d (d * n + x) (d * n + y) := by
  intro j
  have hj := h (j - n)
  rw [Int.cast_sub, mul_sub, lt_sub_iff_add_lt', lt_sub_iff_add_lt', sub_lt_iff_lt_add',
    sub_lt_iff_lt_add'] at hj
  exact hj

theorem SameCuts.sub_left (n : ℤ) (h : SameCuts d x y) :
    SameCuts d (d * n - x) (d * n - y) := by
  intro j
  have hj := h (n - j)
  rw [Int.cast_sub, mul_sub, lt_sub_comm, lt_sub_comm (a := y), sub_lt_comm,
    sub_lt_comm (c := y)] at hj
  exact hj.symm

end Cuts

section Sticky

/-- A quotient whose lowest bit also records whether there is a remainder. -/
def divSticky (m d : ℕ) : ℕ := m / d ||| if m % d = 0 then 0 else 1

def shrSticky (m n : ℕ) : ℕ := divSticky m (2 ^ n)

def guardSticky (m n : ℕ) : ℕ := 4 * (m / 2 ^ n) + if m % 2 ^ n = 0 then 0 else 1

theorem or_one (q : ℕ) : q ||| 1 = q + 1 - q % 2 := by
  apply eq_of_testBit_eq
  intro i
  cases i with
  | zero =>
    have : (q + 1 - q % 2) % 2 = 1 := by omega
    simp [testBit_zero, this]
  | succ i =>
    have : (q + 1 - q % 2) / 2 = q / 2 := by omega
    simp [testBit_succ, or_div_two, this]

theorem shrSticky_zero (m : ℕ) : shrSticky m 0 = m := by simp [shrSticky, divSticky, mod_one]

variable {m d : ℕ}

theorem lt_mul_iff_div_lt (m : ℕ) (hd : 0 < d) (j : ℤ) :
    (m : ℤ) < j * d ↔ ((m / d : ℕ) : ℤ) < j := by
  exact (Int.ediv_lt_iff_lt_mul (by positivity)).symm

theorem mul_lt_iff_lt_div (m : ℕ) (hd : 0 < d) (j : ℤ) :
    j * d < m ↔ if m % d = 0 then j < (m / d : ℕ) else j ≤ (m / d : ℕ) := by
  have hpos : (0 : ℤ) < d := by positivity
  have hsplit : (m : ℤ) = d * (m / d : ℕ) + (m % d : ℕ) := by
    exact_mod_cast (div_add_mod m d).symm
  have hmod : ((m % d : ℕ) : ℤ) < d := by exact_mod_cast mod_lt m hd
  split
  case isTrue hzero =>
    rw [hsplit, hzero, cast_zero, add_zero, mul_comm j]
    exact mul_lt_mul_iff_right₀ hpos
  case isFalse hne =>
    -- something is left, so the number itself is above the quotient
    constructor
    · intro hlt
      by_contra hgt
      have := mul_le_mul_of_nonneg_left (show ((m / d : ℕ) : ℤ) + 1 ≤ j by omega) hpos.le
      linarith
    · intro hle
      have := mul_le_mul_of_nonneg_left hle hpos.le
      have : (0 : ℤ) < (m % d : ℕ) := by omega
      linarith

theorem divSticky_lt_iff (m : ℕ) (hd : 0 < d) (j : ℤ) :
    (divSticky m d : ℤ) < 2 * j ↔ m < 2 * j * d := by
  rw [lt_mul_iff_div_lt m hd, divSticky]
  generalize m / d = q
  split
  · rw [or_zero]
  · rw [or_one]
    omega

theorem lt_divSticky_iff (m : ℕ) (hd : 0 < d) (j : ℤ) :
    2 * j < (divSticky m d : ℤ) ↔ 2 * j * d < m := by
  rw [mul_lt_iff_lt_div m hd, divSticky]
  generalize m / d = q
  split
  · rw [or_zero]
  · rw [or_one]
    omega

variable {b n : ℕ}

theorem divSticky_lt (hd : 0 < d) (h : m < 2 * b * d) : divSticky m d < 2 * b := by
  have := (divSticky_lt_iff m hd b).mpr (by exact_mod_cast h)
  exact_mod_cast this

theorem le_divSticky (hd : 0 < d) (h : 2 * b * d ≤ m) : 2 * b ≤ divSticky m d := by
  have := (divSticky_lt_iff m hd b).not.mpr (by exact_mod_cast Nat.not_lt.mpr h)
  exact_mod_cast not_lt.mp this

theorem shrSticky_lt (h : m < 2 * b * 2 ^ n) : shrSticky m n < 2 * b :=
  divSticky_lt (by positivity) h

theorem le_shrSticky (h : 2 * b * 2 ^ n ≤ m) : 2 * b ≤ shrSticky m n :=
  le_divSticky (by positivity) h

variable {K : Type*} [Field K] [LinearOrder K] [IsStrictOrderedRing K]

theorem sameCuts_divSticky (m : ℕ) (hd : 0 < d) : SameCuts 2 (m / d : K) (divSticky m d : K) := by
  have hpos : (0 : K) < d := by exact_mod_cast hd
  intro j
  rw [div_lt_iff₀ hpos, lt_div_iff₀ hpos]
  constructor
  · exact_mod_cast (divSticky_lt_iff m hd j).symm
  · exact_mod_cast (lt_divSticky_iff m hd j).symm

/-- What is known of a number before a sticky shift is known of its quotient after it. -/
theorem SameCuts.shrSticky {x : K} {m : ℕ} (h : SameCuts (2 ^ (n + 1)) x (m : K)) :
    SameCuts 2 (x / 2 ^ n) (shrSticky m n : K) := by
  have hscaled := h.mul_left (c := 1 / 2 ^ n) (by positivity)
  have hcut : (1 / 2 ^ n * 2 ^ (n + 1) : K) = 2 := by
    rw [pow_succ]
    field_simp
  rw [hcut, one_div_mul_eq_div, one_div_mul_eq_div] at hscaled
  have hquot := sameCuts_divSticky (K := K) m (show 0 < 2 ^ n by positivity)
  push_cast at hquot
  exact hscaled.trans hquot

theorem sameCuts_guardSticky (m n : ℕ) :
    SameCuts 4 (4 * (m / 2 ^ n) : K) (guardSticky m n : K) := by
  have hpos : (0 : K) < 2 ^ n := by positivity
  intro j
  rw [mul_lt_mul_iff_right₀ four_pos, mul_lt_mul_iff_right₀ four_pos, div_lt_iff₀ hpos,
    lt_div_iff₀ hpos]
  constructor
  · have : (m : ℤ) < j * (2 ^ n : ℕ) ↔ (guardSticky m n : ℤ) < 4 * j := by
      rw [lt_mul_iff_div_lt m (by positivity), guardSticky]
      split <;> omega
    exact_mod_cast this
  · have : j * (2 ^ n : ℕ) < (m : ℤ) ↔ 4 * j < (guardSticky m n : ℤ) := by
      rw [mul_lt_iff_lt_div m (by positivity), guardSticky]
      split <;> omega
    exact_mod_cast this

end Sticky

section Nearest

variable {K : Type*} [Field K] [LinearOrder K] [IsStrictOrderedRing K]

/-- `r` is an integer nearest to `x`, the even one when there are two. -/
structure IsRoundEven (x : K) (r : ℤ) : Prop where
  lower : (r : K) - 1 / 2 ≤ x
  upper : x ≤ r + 1 / 2
  even : x = r - 1 / 2 ∨ x = r + 1 / 2 → Even r

def roundOff (m : ℕ) : ℕ :=
  if 4 < m % 8 ∨ m % 8 = 4 ∧ m / 8 % 2 = 1 then m / 8 + 1 else m / 8

/-- Three low bits decide the rounding of any number they are known to stand for. -/
theorem isRoundEven_roundOff {x : K} {m : ℕ} (h : SameCuts 4 x (m : K)) :
    IsRoundEven (x / 8) (roundOff m) := by
  obtain ⟨r, hr⟩ : ∃ r, r = roundOff m := ⟨_, rfl⟩
  -- the number compares with the two halfway points as `m` does
  obtain ⟨hlow, hlow'⟩ := h (2 * r - 1)
  obtain ⟨hhigh, hhigh'⟩ := h (2 * r + 1)
  have hm : 8 * r ≤ m + 4 ∧ m ≤ 8 * r + 4 ∧ (m + 4 = 8 * r ∨ m = 8 * r + 4 → r % 2 = 0) := by
    rw [hr, roundOff]
    split <;> omega
  obtain ⟨hlower, hupper, heven⟩ := hm
  have hml : ¬ (m : K) < 4 * ((2 * r - 1 : ℤ) : K) := by
    have : ¬ (m : ℤ) < 4 * (2 * r - 1) := by omega
    exact_mod_cast this
  have hmu : ¬ (4 * ((2 * r + 1 : ℤ) : K)) < m := by
    have : ¬ 4 * (2 * (r : ℤ) + 1) < m := by omega
    exact_mod_cast this
  have hle := not_lt.mp (hlow.not.mpr hml)
  have hge := not_lt.mp (hhigh'.not.mpr hmu)
  push_cast at hle hge hlow hlow' hhigh hhigh'
  rw [← hr]
  refine ⟨?_, ?_, ?_⟩
  · push_cast
    linarith
  · push_cast
    linarith
  · intro htie
    rw [Int.even_coe_nat, even_iff]
    apply heven
    rcases htie with htie | htie
    · left
      push_cast at htie
      have hx : x = 4 * (2 * r - 1) := by linarith
      have hnot : ¬ 4 * (2 * r - 1 : K) < m := hlow'.not.mp (by rw [hx]; exact lt_irrefl _)
      have : (m : K) + 4 ≤ 8 * r := by linarith
      have : m + 4 ≤ 8 * r := by exact_mod_cast this
      omega
    · right
      push_cast at htie
      have hx : x = 4 * (2 * r + 1) := by linarith
      have hnot : ¬ (m : K) < 4 * (2 * r + 1) := hhigh.not.mp (by rw [hx]; exact lt_irrefl _)
      have : (8 * r + 4 : K) ≤ m := by linarith
      have : 8 * r + 4 ≤ m := by exact_mod_cast this
      omega

/-- A quotient of numbers rounded to nearest, ties to even. -/
def roundDiv (m d : ℕ) : ℕ :=
  if d < 2 * (m % d) ∨ 2 * (m % d) = d ∧ m / d % 2 = 1 then m / d + 1 else m / d

theorem isRoundEven_roundDiv (m : ℕ) {d : ℕ} (hd : 0 < d) :
    IsRoundEven (m / d : K) (roundDiv m d) := by
  have hpos : (0 : K) < d := by exact_mod_cast hd
  have hsplit := div_add_mod m d
  have hmod := mod_lt m hd
  obtain ⟨r, hr⟩ : ∃ r, r = roundDiv m d := ⟨_, rfl⟩
  -- twice the number lies within `d` of `2 * r * d`, at the ends only if `r` is even
  have hm : 2 * (d * r) ≤ 2 * m + d ∧ 2 * m ≤ 2 * (d * r) + d ∧
      (2 * m + d = 2 * (d * r) ∨ 2 * m = 2 * (d * r) + d → r % 2 = 0) := by
    rw [roundDiv] at hr
    split at hr
    · rw [hr, mul_add]
      refine ⟨by omega, by omega, by omega⟩
    · rw [hr]
      refine ⟨by omega, by omega, by omega⟩
  obtain ⟨hlower, hupper, heven⟩ := hm
  have hlower' : (2 * (d * r) : K) ≤ 2 * m + d := by exact_mod_cast hlower
  have hupper' : (2 * m : K) ≤ 2 * (d * r) + d := by exact_mod_cast hupper
  rw [← hr]
  refine ⟨?_, ?_, ?_⟩
  · rw [le_div_iff₀ hpos, Int.cast_natCast]
    linarith
  · rw [div_le_iff₀ hpos, Int.cast_natCast]
    linarith
  · intro htie
    rw [div_eq_iff hpos.ne', div_eq_iff hpos.ne', Int.cast_natCast] at htie
    rw [Int.even_coe_nat, even_iff]
    apply heven
    rcases htie with htie | htie
    · left
      have : (2 * m + d : K) = 2 * (d * r) := by linarith
      exact_mod_cast this
    · right
      have : (2 * m : K) = 2 * (d * r) + d := by linarith
      exact_mod_cast this

end Nearest

section Truncate

variable {K : Type*} [Field K] [LinearOrder K] [FloorRing K]

def truncate (x : K) : ℤ := if x < 0 then ⌈x⌉ else ⌊x⌋

variable {x : K}

theorem truncate_of_nonneg (hx : 0 ≤ x) : truncate x = ⌊x⌋ := if_neg (not_lt.mpr hx)

theorem truncate_neg [IsStrictOrderedRing K] (hx : 0 ≤ x) : truncate (-x) = -⌊x⌋ := by
  rcases hx.lt_or_eq with hpos | rfl
  · rw [truncate, if_pos (neg_lt_zero.mpr hpos), Int.ceil_neg]
  · simp [truncate]

end Truncate

end Rounding
