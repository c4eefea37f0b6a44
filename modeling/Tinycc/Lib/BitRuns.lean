import Mathlib.Data.List.TakeWhile
import Tinycc.Lib.FieldSum

namespace Tinycc.Lib
open BitVec List Nat

def runLength (l : List Bool) (b : Bool) : ℕ := (l.takeWhile (· == b)).length

theorem runLength_map_range {f : ℕ → Bool} {b : Bool} {w n : ℕ} (hn : n ≤ w)
    (heq : ∀ i < n, f i = b) (hne : n < w → f n ≠ b) : runLength ((List.range w).map f) b = n := by
  obtain ⟨m, rfl⟩ := Nat.exists_eq_add_of_le hn
  unfold runLength
  rw [range_add, map_append, takeWhile_append_of_pos]
  · rw [length_append, length_map, length_range]
    cases m with
    | zero => rfl
    | succ m =>
      have hfirst : (f n == b) = false := by simpa using hne (by omega)
      simp [hfirst]
  · intro a ha
    obtain ⟨i, hi, rfl⟩ := List.mem_map.mp ha
    simpa using heq i (List.mem_range.mp hi)

variable {w : ℕ}

def leadingZeros (x : BitVec w) : ℕ := runLength ((List.range w).map x.getMsbD) false

def trailingZeros (x : BitVec w) : ℕ := runLength ((List.range w).map x.getLsbD) false

def redundantSignBits (x : BitVec w) : ℕ :=
  runLength ((List.range (w - 1)).map fun i => x.getMsbD (i + 1)) x.msb

def popCount (x : BitVec w) : ℕ := (List.range w).countP x.getLsbD

section Highest

variable {x y : BitVec w} {s t : ℕ}

/-- The highest set bit of a number is bit `t`. -/
structure IsHighest (x : BitVec w) (t : ℕ) : Prop where
  lt : t < w
  set : x.getLsbD t = true
  above : ∀ i, t < i → x.getLsbD i = false

theorem exists_isHighest (hx : x ≠ 0#w) : ∃ t, IsHighest x t := by
  by_contra hno
  refine hx (eq_of_getLsbD_eq fun i hi => ?_)
  -- from the top down no bit is set
  have hall : ∀ m i, w ≤ i + m → x.getLsbD i = false := by
    intro m
    induction m with
    | zero => exact fun i hi => getLsbD_of_ge x i hi
    | succ m ih =>
      intro i hi
      by_contra hset
      have hset' : x.getLsbD i = true := by simpa using hset
      exact hno ⟨i, lt_of_getLsbD hset', hset', fun j hj => ih j (by omega)⟩
  rw [hall w i (by omega), getLsbD_zero]

theorem IsHighest.leadingZeros (h : IsHighest x t) : leadingZeros x = w - 1 - t := by
  have hlt := h.lt
  refine runLength_map_range (by omega) (fun i hi => ?_) fun _ => ?_
  · rw [getMsbD_eq_getLsbD, h.above (w - 1 - i) (by omega), Bool.and_false]
  · rw [getMsbD_eq_getLsbD, show w - 1 - (w - 1 - t) = t by omega, h.set]
    simpa using by omega

/-- Bit `i` of `y` says whether one of the `s` bits of `x` from `i` on is set. -/
def Smeared (s : ℕ) (x y : BitVec w) : Prop :=
  ∀ i, y.getLsbD i = true ↔ ∃ j, i ≤ j ∧ j < i + s ∧ x.getLsbD j = true

theorem smeared_self (x : BitVec w) : Smeared 1 x x := by
  intro i
  constructor
  · exact fun h => ⟨i, le_rfl, lt_succ_self i, h⟩
  · rintro ⟨j, h1, h2, h⟩
    rwa [show i = j by omega]

theorem Smeared.shift (h : Smeared s x y) : Smeared (s + s) x (y ||| y >>> s) := by
  intro i
  rw [getLsbD_or, getLsbD_ushiftRight, Bool.or_eq_true, h i, h (s + i)]
  constructor
  · rintro (⟨j, h1, h2, hj⟩ | ⟨j, h1, h2, hj⟩)
    · exact ⟨j, h1, by omega, hj⟩
    · exact ⟨j, by omega, by omega, hj⟩
  · rintro ⟨j, h1, h2, hj⟩
    by_cases hlt : j < i + s
    · exact .inl ⟨j, h1, hlt, hj⟩
    · exact .inr ⟨j, by omega, by omega, hj⟩

theorem Smeared.sshift (h : Smeared s x y) : Smeared (s + s) x (y ||| y.sshiftRight s) := by
  have heq : y ||| y.sshiftRight s = y ||| y >>> s := by
    refine eq_of_getLsbD_eq fun i hi => ?_
    rw [getLsbD_or, getLsbD_or, getLsbD_ushiftRight,
      getLsbD_sshiftRight]
    by_cases hlt : s + i < w
    · simp [hi, hlt, show ¬ w ≤ i by omega]
    · rw [getLsbD_of_ge y (s + i) (by omega), Bool.or_false]
      cases hmsb : y.msb with
      | false => simp
      | true =>
        obtain ⟨j, h1, _, hj⟩ := (h (w - 1)).mp (msb_eq_getLsbD_last y ▸ hmsb)
        have hjw := lt_of_getLsbD hj
        rw [(h i).mpr ⟨j, by omega, by omega, hj⟩, Bool.true_or]
  rw [heq]
  exact h.shift

/-- Smeared all the way, a number is the ones from its highest set bit down. -/
theorem IsHighest.smeared (h : IsHighest x t) (hy : Smeared s x y) (hs : w ≤ s) :
    y = BitVec.ofNat w (2 ^ (t + 1) - 1) := by
  refine eq_of_getLsbD_eq fun i hi => ?_
  rw [getLsbD_ofNat, testBit_two_pow_sub_one, Bool.eq_iff_iff, hy i]
  simp only [hi, decide_true, Bool.true_and, decide_eq_true_eq]
  have ht := h.lt
  constructor
  · rintro ⟨j, h1, _, hj⟩
    by_contra hlt
    exact Bool.false_ne_true ((h.above j (by omega)).symm.trans hj)
  · exact fun hle => ⟨t, by omega, by omega, h.set⟩

theorem smeared_zero (hy : Smeared s (0#w) y) : y = 0#w := by
  refine eq_of_getLsbD_eq fun i hi => ?_
  rw [getLsbD_zero, Bool.eq_false_iff]
  intro hset
  obtain ⟨j, _, _, hj⟩ := (hy i).mp hset
  rw [getLsbD_zero] at hj
  cases hj

theorem getMsbD_eq_msb_iff {i : ℕ} (hi : i + 1 < w) :
    x.getMsbD (i + 1) = x.msb ↔ ((if x.msb then ~~~x else x) <<< 1).getMsbD i = false := by
  cases x.msb with
  | false => simp
  | true => simp [hi]

theorem redundantSignBits_eq (x : BitVec w) :
    redundantSignBits x = if (if x.msb then ~~~x else x) <<< 1 = 0#w then w - 1
      else leadingZeros ((if x.msb then ~~~x else x) <<< 1) := by
  have hbit := fun i => getMsbD_eq_msb_iff (x := x) (i := i)
  generalize hy : (if x.msb then ~~~x else x) <<< 1 = y at hbit ⊢
  split
  · next h0 =>
    refine runLength_map_range le_rfl (fun i hi => (hbit i (by omega)).mpr ?_) fun h => ?_
    · rw [h0, getMsbD_zero]
    · exact absurd h (Nat.lt_irrefl _)
  · next h0 =>
    obtain ⟨t, ht⟩ := exists_isHighest h0
    have hlt := ht.lt
    rw [ht.leadingZeros]
    refine runLength_map_range (by omega) (fun i hi => (hbit i (by omega)).mpr ?_) fun h => ?_
    · rw [getMsbD_eq_getLsbD, ht.above (w - 1 - i) (by omega), Bool.and_false]
    · rw [Ne, hbit _ (by omega), getMsbD_eq_getLsbD,
        show w - 1 - (w - 1 - t) = t by omega, ht.set]
      simpa using by omega

end Highest

section Lowest

variable {x : BitVec w} {t : ℕ}

structure IsLowest (x : BitVec w) (t : ℕ) : Prop where
  set : x.getLsbD t = true
  below : ∀ i < t, x.getLsbD i = false

theorem exists_isLowest (hx : x ≠ 0#w) : ∃ t, IsLowest x t := by
  obtain ⟨t, ht⟩ := exists_isHighest hx
  have hex : ∃ t, x.getLsbD t = true := ⟨t, ht.set⟩
  exact ⟨Nat.find hex, Nat.find_spec hex, fun i hi => by simpa using Nat.find_min hex hi⟩

theorem IsLowest.trailingZeros (h : IsLowest x t) : trailingZeros x = t := by
  have hlt := lt_of_getLsbD h.set
  exact runLength_map_range hlt.le h.below fun _ => by simp [h.set]

theorem IsLowest.and_neg (h : IsLowest x t) : x &&& -x = BitVec.twoPow w t := by
  refine eq_of_getLsbD_eq fun i hi => ?_
  rw [getLsbD_and, getLsbD_neg, getLsbD_twoPow]
  rcases Nat.lt_trichotomy i t with hlt | rfl | hgt
  · simp [h.below i hlt, show t ≠ i by omega]
  · have hno : ¬ ∃ j < i, x.getLsbD j = true := by
      rintro ⟨j, hj, hset⟩
      exact Bool.false_ne_true ((h.below j hj).symm.trans hset)
    simp only [h.set, hno, hi, decide_true, decide_false, Bool.and_false, Bool.xor_false,
      Bool.true_and]
  · have hsome : ∃ j < i, x.getLsbD j = true := ⟨t, hgt, h.set⟩
    simp only [hsome, hi, decide_true, Bool.and_self, show t ≠ i by omega, decide_false,
      Bool.and_false]
    cases x.getLsbD i
    · rfl
    · rfl

end Lowest

theorem popCount_eq_fieldSum (x : BitVec w) : popCount x = fieldSum 1 w x.toNat := by
  have key : ∀ n y, (List.range n).countP (fun i => y.testBit i) = fieldSum 1 n y := by
    intro n
    induction n with
    | zero => exact fun _ => rfl
    | succ n ih =>
      intro y
      rw [range_succ_eq_map, countP_cons, countP_map, fieldSum, ← ih,
        Nat.add_comm]
      congr 1
      · have hmod := mod_two_eq_zero_or_one y
        rcases hmod with h | h
        · simp [h]
        · simp [h]
      · refine countP_congr fun i _ => ?_
        simp [testBit_succ]
  exact key w x.toNat

end Tinycc.Lib
