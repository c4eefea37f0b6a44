import Mathlib.Data.Nat.Log
import Mathlib.Tactic.Ring

namespace Tinycc.Lib
open Nat

variable {n d m N e B : ℕ}

/-- Division by `d` is multiplication by `m / N`, where `m` is `N / d` rounded up with an error too
small to carry the product past the next multiple of `d`. -/
theorem mul_reciprocal_div (hd : 0 < d) (hm : m * d = N + e) (he : n * e < N) :
    n * m / N = n / d := by
  have hlow : n / d * d ≤ n := div_mul_le_self n d
  have hhigh : n + 1 ≤ (n / d + 1) * d := by
    rw [Nat.mul_comm]
    exact lt_mul_div_succ n hd
  apply Nat.div_eq_of_lt_le
  · calc n / d * N ≤ n / d * (m * d) := Nat.mul_le_mul_left _ (by omega)
      _ = n / d * d * m := by ring
      _ ≤ n * m := Nat.mul_le_mul_right m hlow
  · refine Nat.lt_of_mul_lt_mul_right (a := d) ?_
    calc n * m * d = n * N + n * e := by rw [Nat.mul_assoc, hm, Nat.mul_add]
      _ < (n + 1) * N := by rw [Nat.add_mul]; omega
      _ ≤ (n / d + 1) * d * N := Nat.mul_le_mul_right N hhigh
      _ = (n / d + 1) * N * d := by ring

theorem two_mul_div (hd : 0 < d) :
    2 * n / d = 2 * (n / d) + if d ≤ 2 * (n % d) then 1 else 0 := by
  have hn := div_add_mod n d
  have hr := mod_lt n hd
  split
  · apply Nat.div_eq_of_lt_le
    · calc (2 * (n / d) + 1) * d = 2 * (d * (n / d)) + d := by ring
        _ ≤ 2 * n := by omega
    · calc 2 * n < 2 * (d * (n / d)) + 2 * d := by omega
        _ = (2 * (n / d) + 1 + 1) * d := by ring
  · apply Nat.div_eq_of_lt_le
    · calc (2 * (n / d) + 0) * d = 2 * (d * (n / d)) := by ring
        _ ≤ 2 * n := by omega
    · calc 2 * n < 2 * (d * (n / d)) + d := by omega
        _ = (2 * (n / d) + 0 + 1) * d := by ring

theorem two_mul_mod (hd : 0 < d) :
    2 * n % d = if d ≤ 2 * (n % d) then 2 * (n % d) - d else 2 * (n % d) := by
  have hr := mod_lt n hd
  rw [← mul_mod_mod]
  split
  · rw [mod_eq_sub_mod (by assumption), mod_eq_of_lt (by omega)]
  · exact mod_eq_of_lt (by omega)

theorem mul_div_sq (a₀ a₁ b₀ b₁ : ℕ) (hB : 0 < B) :
    (a₀ + B * a₁) * (b₀ + B * b₁) / (B * B) =
      a₁ * b₁ + a₀ * b₁ / B + a₁ * b₀ / B +
        (a₀ * b₀ / B + a₀ * b₁ % B + a₁ * b₀ % B) / B := by
  have h₀ := div_add_mod (a₀ * b₁) B
  have h₁ := div_add_mod (a₁ * b₀) B
  have hsplit : (a₀ + B * a₁) * (b₀ + B * b₁) =
      a₀ * b₀ + B * (a₀ * b₁ % B + a₁ * b₀ % B + B * (a₁ * b₁ + a₀ * b₁ / B + a₁ * b₀ / B)) := by
    calc (a₀ + B * a₁) * (b₀ + B * b₁)
        = a₀ * b₀ + B * (a₀ * b₁ + a₁ * b₀ + B * (a₁ * b₁)) := by ring
      _ = a₀ * b₀ + B * ((B * (a₀ * b₁ / B) + a₀ * b₁ % B) + (B * (a₁ * b₀ / B) + a₁ * b₀ % B) +
            B * (a₁ * b₁)) := by rw [h₀, h₁]
      _ = _ := by ring
  rw [hsplit, ← Nat.div_div_eq_div_mul, add_mul_div_left _ _ hB, ← Nat.add_assoc,
    ← Nat.add_assoc, add_mul_div_left _ _ hB]
  exact Nat.add_comm _ _

end Tinycc.Lib
