import Mathlib.Tactic.Linarith
import Mathlib.Tactic.Ring

namespace Tinycc.Lib
open Nat

section Digit

variable {b v₁ v₀ u u₀ q r : ℕ}

/-- A quotient digit of `u * b + u₀` by `v₁ * b + v₀` being estimated from `u` by `v₁`: the estimate
is not too small, and `r` is what it leaves of `u`. -/
structure DigitInv (b v₁ v₀ u u₀ q r : ℕ) : Prop where
  sum : q * v₁ + r = u
  ge : (u * b + u₀) / (v₁ * b + v₀) ≤ q

theorem digitInv_init (hv : 0 < v₁) (hu : u₀ < b) : DigitInv b v₁ v₀ u u₀ (u / v₁) (u % v₁) where
  sum := div_add_mod' u v₁
  ge := by
    apply Nat.lt_succ_iff.mp
    apply (Nat.div_lt_iff_lt_mul (by nlinarith)).mpr
    have hlt : u < (u / v₁ + 1) * v₁ := by
      rw [Nat.mul_comm]
      exact lt_mul_div_succ u hv
    calc
      u * b + u₀ < (u + 1) * b := by rw [succ_mul]; omega
      _ ≤ (u / v₁ + 1) * v₁ * b := Nat.mul_le_mul_right b hlt
      _ ≤ (u / v₁ + 1) * (v₁ * b + v₀) := by rw [Nat.mul_assoc]; exact Nat.mul_le_mul_left _ (by omega)

section

variable (I : DigitInv b v₁ v₀ u u₀ q r)
include I

theorem DigitInv.mul_eq :
    q * (v₁ * b + v₀) + r * b = u * b + q * v₀ := by
  rw [← I.sum]
  ring

theorem DigitInv.eq_of_le (hv : 0 < v₁ * b + v₀)
    (h : q * v₀ ≤ r * b + u₀) : q = (u * b + u₀) / (v₁ * b + v₀) := by
  apply Nat.le_antisymm _ I.ge
  apply (Nat.le_div_iff_mul_le hv).mpr
  have := I.mul_eq
  omega

theorem DigitInv.pred (hu : u < v₁ * b + v₀) (hu₀ : u₀ < b)
    (h : b ≤ q ∨ r * b + u₀ < q * v₀) : DigitInv b v₁ v₀ u u₀ (q - 1) (r + v₁) := by
  have hv : 0 < v₁ * b + v₀ := by omega
  have hlt : (u * b + u₀) / (v₁ * b + v₀) < q := by
    apply (Nat.div_lt_iff_lt_mul hv).mpr
    rcases h with h | h
    · calc
        u * b + u₀ < (u + 1) * b := by rw [succ_mul]; omega
        _ ≤ (v₁ * b + v₀) * q := Nat.mul_le_mul hu h
        _ = q * (v₁ * b + v₀) := Nat.mul_comm _ _
    · have := I.mul_eq
      omega
  obtain ⟨k, rfl⟩ := Nat.exists_eq_add_one.mpr (zero_lt_of_lt hlt)
  refine ⟨?_, le_of_lt_succ hlt⟩
  have := I.sum
  rw [succ_mul] at this
  rw [Nat.add_sub_cancel]
  omega

end

theorem div_le_add_one (hnorm : b ≤ 2 * v₁) (hv₀ : v₀ < b) (hu : u < v₁ * b + v₀) :
    u / v₁ ≤ b + 1 := by
  have hv : 0 < v₁ := by
    rcases Nat.eq_zero_or_pos v₁ with rfl | h
    · omega
    · exact h
  apply Nat.lt_succ_iff.mp
  apply (Nat.div_lt_iff_lt_mul hv).mpr
  calc
    u < v₁ * b + v₀ := hu
    _ ≤ v₁ * b + 2 * v₁ := by omega
    _ = (b + 1).succ * v₁ := by rw [succ_eq_add_one]; ring

theorem digit_lt (hu : u < v₁ * b + v₀) (hu₀ : u₀ < b) :
    (u * b + u₀) / (v₁ * b + v₀) < b := by
  apply (Nat.div_lt_iff_lt_mul (by omega)).mpr
  calc
    u * b + u₀ < (u + 1) * b := by rw [succ_mul]; omega
    _ ≤ (v₁ * b + v₀) * b := Nat.mul_le_mul_right b hu
    _ = b * (v₁ * b + v₀) := Nat.mul_comm _ _

theorem two_digits {v w : ℕ} (u₁ : ℕ) (hv : 0 < v) :
    (u * b + u₁) / v * b + ((u * b + u₁) % v * b + w) / v = (u * b * b + u₁ * b + w) / v ∧
      ((u * b + u₁) % v * b + w) % v = (u * b * b + u₁ * b + w) % v := by
  have hsplit : u * b * b + u₁ * b + w =
      v * ((u * b + u₁) / v * b) + ((u * b + u₁) % v * b + w) := by
    calc
      u * b * b + u₁ * b + w = (v * ((u * b + u₁) / v) + (u * b + u₁) % v) * b + w := by
        rw [div_add_mod]
        ring
      _ = _ := by ring
  rw [hsplit, mul_add_div hv, mul_add_mod]
  exact ⟨rfl, rfl⟩

end Digit

/-- A quotient by a divisor cut off below is right or one too big. -/
theorem div_cut_le {n d D e : ℕ} (hD : 0 < D) (hle : D ≤ d) (hd : d ≤ D + e)
    (he : (n / d + 1) * e ≤ D) : n / d ≤ n / D ∧ n / D ≤ n / d + 1 := by
  refine ⟨div_le_div_left hle hD, ?_⟩
  apply Nat.lt_succ_iff.mp
  apply (Nat.div_lt_iff_lt_mul hD).mpr
  calc
    n < d * (n / d + 1) := lt_mul_div_succ n (by omega)
    _ = (n / d + 1) * d := Nat.mul_comm _ _
    _ ≤ (n / d + 1) * (D + e) := Nat.mul_le_mul_left _ hd
    _ ≤ (n / d + 1) * D + D := by rw [Nat.mul_add]; omega
    _ = (n / d + 1).succ * D := (succ_mul _ _).symm

end Tinycc.Lib
