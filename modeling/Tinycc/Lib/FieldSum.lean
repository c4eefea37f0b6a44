import Mathlib.Data.Nat.Bitwise
import Mathlib.Data.Nat.ModEq
import Mathlib.Tactic.Ring

namespace Tinycc.Lib
open Nat

def fieldSum (k : ℕ) : ℕ → ℕ → ℕ
  | 0, _ => 0
  | n + 1, x => x % 2 ^ k + fieldSum k n (x / 2 ^ k)

def fieldsLe (k b : ℕ) : ℕ → ℕ → Prop
  | 0, _ => True
  | n + 1, x => x % 2 ^ k ≤ b ∧ fieldsLe k b n (x / 2 ^ k)

def evenMask (k : ℕ) : ℕ → ℕ
  | 0 => 0
  | n + 1 => (2 ^ k - 1) + 2 ^ (2 * k) * evenMask k n

def pairSum (k n x : ℕ) : ℕ := (x &&& evenMask k n) + (x / 2 ^ k &&& evenMask k n)

section Split

variable {k n b x : ℕ}

theorem add_mul_and_add_mul {a c m : ℕ} (ha : a < 2 ^ m) (hc : c < 2 ^ m) (b d : ℕ) :
    (a + 2 ^ m * b) &&& (c + 2 ^ m * d) = (a &&& c) + 2 ^ m * (b &&& d) := by
  have hac : a &&& c < 2 ^ m := and_lt_two_pow a hc
  apply eq_of_testBit_eq
  intro i
  rw [testBit_and, Nat.add_comm a, Nat.add_comm c, Nat.add_comm (a &&& c),
    testBit_two_pow_mul_add b ha, testBit_two_pow_mul_add d hc,
    testBit_two_pow_mul_add _ hac]
  split
  · exact (testBit_and ..).symm
  · exact (testBit_and ..).symm

theorem two_pow_sub_one_lt (k : ℕ) : 2 ^ k - 1 < 2 ^ (2 * k) := by
  have hle : 2 ^ k ≤ 2 ^ (2 * k) := Nat.pow_le_pow_right (by decide) (by omega)
  have hpos := Nat.two_pow_pos k
  omega

theorem and_evenMask_succ (k n x : ℕ) :
    x &&& evenMask k (n + 1) = x % 2 ^ k + 2 ^ (2 * k) * (x / 2 ^ (2 * k) &&& evenMask k n) := by
  have hmask := two_pow_sub_one_lt k
  have hdvd : 2 ^ k ∣ 2 ^ (2 * k) := Nat.pow_dvd_pow 2 (by omega)
  calc x &&& evenMask k (n + 1)
    _ = (x % 2 ^ (2 * k) + 2 ^ (2 * k) * (x / 2 ^ (2 * k))) &&&
        ((2 ^ k - 1) + 2 ^ (2 * k) * evenMask k n) := by rw [mod_add_div, evenMask]
    _ = (x % 2 ^ (2 * k) &&& (2 ^ k - 1)) +
        2 ^ (2 * k) * (x / 2 ^ (2 * k) &&& evenMask k n) :=
      add_mul_and_add_mul (mod_lt _ (Nat.two_pow_pos _)) hmask _ _
    _ = _ := by rw [and_two_pow_sub_one_eq_mod, mod_mod_of_dvd _ hdvd]

theorem pairSum_succ (k n x : ℕ) :
    pairSum k (n + 1) x =
      (x % 2 ^ k + x / 2 ^ k % 2 ^ k) + 2 ^ (2 * k) * pairSum k n (x / 2 ^ (2 * k)) := by
  have hdiv : x / 2 ^ k / 2 ^ (2 * k) = x / 2 ^ (2 * k) / 2 ^ k := by
    rw [Nat.div_div_eq_div_mul, Nat.div_div_eq_div_mul, Nat.mul_comm]
  unfold pairSum
  rw [and_evenMask_succ, and_evenMask_succ, hdiv]
  ring

theorem div_two_pow_two_mul (k x : ℕ) : x / 2 ^ (2 * k) = x / 2 ^ k / 2 ^ k := by
  rw [Nat.div_div_eq_div_mul, ← Nat.pow_add, two_mul]

theorem fieldSum_add_mul {s : ℕ} (hs : s < 2 ^ k) (n y : ℕ) :
    fieldSum k (n + 1) (s + 2 ^ k * y) = s + fieldSum k n y := by
  rw [fieldSum, add_mul_mod_self_left, mod_eq_of_lt hs,
    add_mul_div_left _ _ (Nat.two_pow_pos k), div_eq_of_lt hs, Nat.zero_add]

theorem fieldsLe_add_mul {s y : ℕ} (hs : s < 2 ^ k) (hb : s ≤ b) (h : fieldsLe k b n y) :
    fieldsLe k b (n + 1) (s + 2 ^ k * y) := by
  rw [fieldsLe, add_mul_mod_self_left, mod_eq_of_lt hs,
    add_mul_div_left _ _ (Nat.two_pow_pos k), div_eq_of_lt hs, Nat.zero_add]
  exact ⟨hb, h⟩

theorem pair_lt (hk : 0 < k) (x y : ℕ) : x % 2 ^ k + y % 2 ^ k < 2 ^ (2 * k) := by
  have h2 : 2 * 2 ^ k ≤ 2 ^ (2 * k) := by
    rw [two_mul k, Nat.pow_add]
    exact Nat.mul_le_mul_right _ (Nat.le_self_pow (by omega) 2)
  omega

theorem fieldSum_pairSum (hk : 0 < k) (n x : ℕ) :
    fieldSum (2 * k) n (pairSum k n x) = fieldSum k (2 * n) x := by
  induction n generalizing x with
  | zero => rfl
  | succ n ih =>
    rw [pairSum_succ, fieldSum_add_mul (pair_lt hk _ _), ih, mul_succ, fieldSum, fieldSum,
      div_two_pow_two_mul, Nat.add_assoc]

theorem fieldsLe_pairSum (hk : 0 < k) (h : fieldsLe k b (2 * n) x) :
    fieldsLe (2 * k) (2 * b) n (pairSum k n x) := by
  induction n generalizing x with
  | zero => trivial
  | succ n ih =>
    rw [mul_succ, fieldsLe, fieldsLe, ← div_two_pow_two_mul] at h
    rw [pairSum_succ]
    exact fieldsLe_add_mul (pair_lt hk _ _) (by omega) (ih h.2.2)

theorem fieldsLe_one (n x : ℕ) : fieldsLe 1 1 n x := by
  induction n generalizing x with
  | zero => trivial
  | succ n ih => exact ⟨by omega, ih _⟩

end Split

section Forms

variable {k n b x : ℕ}

theorem div_lt_of_lt_two_pow_succ (h : x < 2 ^ (2 * k * (n + 1))) :
    x / 2 ^ (2 * k) < 2 ^ (2 * k * n) := by
  rw [Nat.div_lt_iff_lt_mul (Nat.two_pow_pos _), ← Nat.pow_add]
  exact h.trans_eq (by congr 1)

theorem and_add_mul_and (h : x < 2 ^ (2 * k * n)) :
    x = (x &&& evenMask k n) + 2 ^ k * (x / 2 ^ k &&& evenMask k n) := by
  induction n generalizing x with
  | zero =>
    have hx : x = 0 := by simpa using h
    simp [hx]
  | succ n ih =>
    have hdiv : x / 2 ^ k / 2 ^ (2 * k) = x / 2 ^ (2 * k) / 2 ^ k := by
      rw [Nat.div_div_eq_div_mul, Nat.div_div_eq_div_mul, Nat.mul_comm]
    rw [and_evenMask_succ, and_evenMask_succ, hdiv]
    have hrec := ih (div_lt_of_lt_two_pow_succ h)
    have hlow : x % 2 ^ (2 * k) = x % 2 ^ k + 2 ^ k * (x / 2 ^ k % 2 ^ k) := by
      rw [two_mul, Nat.pow_add, mod_mul]
    calc x = x % 2 ^ (2 * k) + 2 ^ (2 * k) * (x / 2 ^ (2 * k)) := (mod_add_div _ _).symm
      _ = _ := by
        conv_lhs => rw [hrec, hlow]
        ring

theorem sub_odd_eq_pairSum (h : x < 2 ^ (2 * n)) :
    x - (x / 2 &&& evenMask 1 n) = pairSum 1 n x := by
  have hx := @and_add_mul_and 1 n x (by simpa using h)
  simp only [Nat.pow_one] at hx
  unfold pairSum
  rw [Nat.pow_one]
  omega

theorem add_shift_and_eq_pairSum (hb : 2 * b < 2 ^ k) (h : fieldsLe k b (2 * n) x)
    (hx : x < 2 ^ (2 * k * n)) : (x + x / 2 ^ k) &&& evenMask k n = pairSum k n x := by
  induction n generalizing x with
  | zero => simp [pairSum, evenMask]
  | succ n ih =>
    rw [mul_succ, fieldsLe, fieldsLe, ← div_two_pow_two_mul] at h
    obtain ⟨h0, h1, h2⟩ := h
    have hx' := div_lt_of_lt_two_pow_succ hx
    -- the third field is added to the second one, without a carry
    have h3 : x / 2 ^ (2 * k) % 2 ^ k ≤ b := by
      cases n with
      | zero =>
        have hz : x / 2 ^ (2 * k) = 0 := by simpa using hx'
        simp [hz]
      | succ n => exact h2.1
    have hlow : x % 2 ^ (2 * k) = x % 2 ^ k + 2 ^ k * (x / 2 ^ k % 2 ^ k) := by
      rw [two_mul, Nat.pow_add, mod_mul]
    have hxd : x = x % 2 ^ k + 2 ^ k * (x / 2 ^ k % 2 ^ k) + 2 ^ (2 * k) * (x / 2 ^ (2 * k)) := by
      rw [← hlow, mod_add_div]
    have hshift : x / 2 ^ k = x / 2 ^ k % 2 ^ k + 2 ^ k * (x / 2 ^ (2 * k)) := by
      rw [div_two_pow_two_mul, mod_add_div]
    have hthird := (mod_add_div (x / 2 ^ (2 * k)) (2 ^ k)).symm
    have hsum : x + x / 2 ^ k =
        ((x % 2 ^ k + x / 2 ^ k % 2 ^ k) +
          2 ^ k * (x / 2 ^ k % 2 ^ k + x / 2 ^ (2 * k) % 2 ^ k)) +
        2 ^ (2 * k) * (x / 2 ^ (2 * k) + x / 2 ^ (2 * k) / 2 ^ k) := by
      calc x + x / 2 ^ k
        _ = (x % 2 ^ k + 2 ^ k * (x / 2 ^ k % 2 ^ k) + 2 ^ (2 * k) * (x / 2 ^ (2 * k))) +
            (x / 2 ^ k % 2 ^ k + 2 ^ k * (x / 2 ^ (2 * k))) := by rw [← hxd, ← hshift]
        _ = (x % 2 ^ k + 2 ^ k * (x / 2 ^ k % 2 ^ k) + 2 ^ (2 * k) * (x / 2 ^ (2 * k))) +
            (x / 2 ^ k % 2 ^ k + 2 ^ k * (x / 2 ^ (2 * k) % 2 ^ k +
              2 ^ k * (x / 2 ^ (2 * k) / 2 ^ k))) := by rw [← hthird]
        _ = _ := by ring
    have hsmall : x % 2 ^ k + x / 2 ^ k % 2 ^ k < 2 ^ k := by omega
    have hbig : (x % 2 ^ k + x / 2 ^ k % 2 ^ k) +
        2 ^ k * (x / 2 ^ k % 2 ^ k + x / 2 ^ (2 * k) % 2 ^ k) < 2 ^ (2 * k) := by
      have hnext : x / 2 ^ k % 2 ^ k + x / 2 ^ (2 * k) % 2 ^ k + 1 ≤ 2 ^ k := by omega
      calc (x % 2 ^ k + x / 2 ^ k % 2 ^ k) +
            2 ^ k * (x / 2 ^ k % 2 ^ k + x / 2 ^ (2 * k) % 2 ^ k)
        _ < 2 ^ k + 2 ^ k * (x / 2 ^ k % 2 ^ k + x / 2 ^ (2 * k) % 2 ^ k) :=
          Nat.add_lt_add_right hsmall _
        _ = 2 ^ k * (x / 2 ^ k % 2 ^ k + x / 2 ^ (2 * k) % 2 ^ k + 1) := by ring
        _ ≤ 2 ^ k * 2 ^ k := Nat.mul_le_mul_left _ hnext
        _ = 2 ^ (2 * k) := by rw [two_mul, Nat.pow_add]
    rw [hsum, evenMask, add_mul_and_add_mul hbig (two_pow_sub_one_lt k), and_two_pow_sub_one_eq_mod,
      add_mul_mod_self_left, mod_eq_of_lt hsmall, ih h2 hx', pairSum_succ]

end Forms

section Top

variable {k n y : ℕ}

theorem add_mul_lt {a b m j : ℕ} (ha : a < m) (hb : b < j) : a + m * b < j * m := by
  calc a + m * b < m + m * b := by omega
    _ = (b + 1) * m := by ring
    _ ≤ j * m := Nat.mul_le_mul_right m hb

theorem pairSum_lt (hk : 0 < k) (n x : ℕ) : pairSum k n x < 2 ^ (2 * k * n) := by
  induction n generalizing x with
  | zero => simp [pairSum, evenMask]
  | succ n ih =>
    rw [pairSum_succ, mul_succ, Nat.pow_add]
    exact add_mul_lt (pair_lt hk x (x / 2 ^ k)) (ih (x / 2 ^ (2 * k)))

def fieldOnes (k : ℕ) : ℕ → ℕ
  | 0 => 0
  | n + 1 => 1 + 2 ^ k * fieldOnes k n

def runningSums (k : ℕ) : ℕ → ℕ → ℕ → ℕ
  | _, 0, _ => 0
  | a, n + 1, y => (a + y % 2 ^ k) + 2 ^ k * runningSums k (a + y % 2 ^ k) n (y / 2 ^ k)

theorem fieldOnes_succ (k n : ℕ) : fieldOnes k (n + 1) = fieldOnes k n + 2 ^ (k * n) := by
  induction n with
  | zero => simp [fieldOnes]
  | succ n ih =>
    calc fieldOnes k (n + 2) = 1 + 2 ^ k * fieldOnes k (n + 1) := rfl
      _ = 1 + 2 ^ k * (fieldOnes k n + 2 ^ (k * n)) := by rw [ih]
      _ = fieldOnes k (n + 1) + 2 ^ (k * (n + 1)) := by
        rw [fieldOnes, mul_succ]
        ring

theorem runningSums_modEq (k a n y : ℕ) :
    (a + y) * fieldOnes k n ≡ runningSums k a n y [MOD 2 ^ (k * n)] := by
  -- a product with ones in every field is the running sums
  induction n generalizing a y with
  | zero => rfl
  | succ n ih =>
    have hstep := (ih (a + y % 2 ^ k) (y / 2 ^ k)).mul_left' (2 ^ k)
    rw [← Nat.pow_add, ← Nat.add_comm] at hstep
    refine Nat.ModEq.trans ?_ (hstep.add_left (a + y % 2 ^ k))
    -- the two sides differ by a multiple of the top field
    have hsplit := div_add_mod y (2 ^ k)
    have heq : (a + y) * fieldOnes k (n + 1)
        = (a + y % 2 ^ k + 2 ^ k * ((a + y % 2 ^ k + y / 2 ^ k) * fieldOnes k n))
          + 2 ^ (k * (n + 1)) * (y / 2 ^ k) := by
      calc (a + y) * fieldOnes k (n + 1)
          = (a + y % 2 ^ k) * fieldOnes k (n + 1) + 2 ^ k * (y / 2 ^ k) * fieldOnes k (n + 1) := by
            conv_lhs => rw [← hsplit]
            ring
        _ = (a + y % 2 ^ k) * (1 + 2 ^ k * fieldOnes k n)
            + 2 ^ k * (y / 2 ^ k) * (fieldOnes k n + 2 ^ (k * n)) := by
            rw [← fieldOnes_succ, fieldOnes]
        _ = _ := by
            ring
    rw [heq]
    exact add_mul_mod_self_left ..

theorem runningSums_lt {a : ℕ} (h : a + fieldSum k n y < 2 ^ k) :
    runningSums k a n y < 2 ^ (k * n) := by
  induction n generalizing a y with
  | zero => exact Nat.one_pos
  | succ n ih =>
    rw [fieldSum] at h
    rw [mul_succ, Nat.pow_add]
    exact add_mul_lt (by omega) (ih (by omega))

theorem runningSums_top {a : ℕ} (h : a + fieldSum k (n + 1) y < 2 ^ k) :
    runningSums k a (n + 1) y / 2 ^ (k * n) = a + fieldSum k (n + 1) y := by
  induction n generalizing a y with
  | zero => simp [runningSums, fieldSum]
  | succ n ih =>
    rw [fieldSum] at h
    have hrest := ih (a := a + y % 2 ^ k) (y := y / 2 ^ k) (by omega)
    have hlow : (a + y % 2 ^ k) / 2 ^ k = 0 := div_eq_of_lt (by omega)
    rw [runningSums, mul_succ, Nat.add_comm (k * n), Nat.pow_add, ← Nat.div_div_eq_div_mul,
      add_mul_div_left _ _ (Nat.two_pow_pos k), hlow, Nat.zero_add, hrest, Nat.add_assoc]
    rfl

theorem mul_fieldOnes_top (h : fieldSum k (n + 1) y < 2 ^ k) :
    y * fieldOnes k (n + 1) % 2 ^ (k * (n + 1)) / 2 ^ (k * n) = fieldSum k (n + 1) y := by
  have h0 : 0 + fieldSum k (n + 1) y < 2 ^ k := by omega
  have hmod := runningSums_modEq k 0 (n + 1) y
  rw [Nat.zero_add] at hmod
  rw [hmod, mod_eq_of_lt (runningSums_lt h0), runningSums_top h0, Nat.zero_add]

theorem fieldSum_le {b : ℕ} (h : fieldsLe k b n y) : fieldSum k n y ≤ n * b := by
  induction n generalizing y with
  | zero => exact Nat.zero_le _
  | succ n ih =>
    have hrest := ih h.2
    have hfirst := h.1
    rw [fieldSum, succ_mul]
    omega

end Top

end Tinycc.Lib
