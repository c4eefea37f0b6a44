import Mathlib.Data.BitVec

namespace Tinycc.Lib
open BitVec

def ofBits : (n : ℕ) → (ℕ → Bool) → BitVec n
  | 0, _ => BitVec.nil
  | n + 1, f => BitVec.cons (f n) (ofBits n f)

theorem getLsbD_ofBits {n : ℕ} (f : ℕ → Bool) {i : ℕ} (hi : i < n) :
    (ofBits n f).getLsbD i = f i := by
  induction n with
  | zero => omega
  | succ n ih =>
    rw [ofBits, getLsbD_cons]
    split
    · next h => rw [h]
    · exact ih (by omega)

/-- `len` bits of a word from `pos` on that hold the bits of a value from `low` on. -/
structure BitField where
  pos : ℕ
  low : ℕ
  len : ℕ
  deriving DecidableEq, Repr

def BitField.Covers (f : BitField) (i : ℕ) : Prop := f.pos ≤ i ∧ i < f.pos + f.len

def BitField.Holds (f : BitField) (j : ℕ) : Prop := f.low ≤ j ∧ j < f.low + f.len

instance (f : BitField) (i : ℕ) : Decidable (f.Covers i) := inferInstanceAs (Decidable (_ ∧ _))

instance (f : BitField) (j : ℕ) : Decidable (f.Holds j) := inferInstanceAs (Decidable (_ ∧ _))

abbrev Layout := List BitField

namespace Layout

variable {n : ℕ}

def mask (n : ℕ) (L : Layout) : BitVec n := ofBits n fun i => L.any fun f => f.Covers i

def range (n : ℕ) (L : Layout) : BitVec n := ofBits n fun j => L.any fun f => f.Holds j

def get (L : Layout) (w : BitVec n) : BitVec n :=
  ofBits n fun j => L.any fun f => f.Holds j && w.getLsbD (f.pos + (j - f.low))

def set (L : Layout) (w x : BitVec n) : BitVec n :=
  ofBits n fun i =>
    match L.find? fun f => f.Covers i with
    | some f => x.getLsbD (f.low + (i - f.pos))
    | none => w.getLsbD i

structure WellFormed (n : ℕ) (L : Layout) : Prop where
  pos_le : ∀ f ∈ L, f.pos + f.len ≤ n
  disjoint : ∀ f ∈ L, ∀ g ∈ L, ∀ i < n, f.Covers i → g.Covers i → f = g

instance (n : ℕ) (L : Layout) : Decidable (WellFormed n L) :=
  decidable_of_iff ((∀ f ∈ L, f.pos + f.len ≤ n) ∧
    ∀ f ∈ L, ∀ g ∈ L, ∀ i < n, f.Covers i → g.Covers i → f = g)
    ⟨fun h => ⟨h.1, h.2⟩, fun h => ⟨h.1, h.2⟩⟩

theorem getLsbD_get (L : Layout) (w : BitVec n) {j : ℕ} (hj : j < n) :
    (L.get w).getLsbD j = L.any fun f => f.Holds j && w.getLsbD (f.pos + (j - f.low)) := by
  rw [get, getLsbD_ofBits _ hj]

variable {i : ℕ} {L : Layout}

theorem getLsbD_set (L : Layout) (w x : BitVec n) (hi : i < n) :
    (L.set w x).getLsbD i =
      match L.find? fun f => f.Covers i with
      | some f => x.getLsbD (f.low + (i - f.pos))
      | none => w.getLsbD i := by
  rw [set, getLsbD_ofBits _ hi]

theorem getLsbD_set_of_mem (hL : WellFormed n L) {f : BitField} (hf : f ∈ L) (w x : BitVec n)
    (hi : f.Covers i) :
    (L.set w x).getLsbD i = x.getLsbD (f.low + (i - f.pos)) := by
  have hin : i < n := lt_of_lt_of_le hi.2 (hL.pos_le f hf)
  rw [getLsbD_set L w x hin]
  cases hfind : L.find? fun f => f.Covers i with
  | none =>
    have := List.find?_eq_none.mp hfind f hf
    simp [hi] at this
  | some g =>
    have hg := List.find?_some hfind
    rw [decide_eq_true_eq] at hg
    rw [hL.disjoint f hf g (List.mem_of_find?_eq_some hfind) i hin hi hg]

theorem get_set (hL : WellFormed n L) (w x : BitVec n) :
    L.get (L.set w x) = x &&& L.range n := by
  apply eq_of_getLsbD_eq
  intro j hj
  rw [getLsbD_get _ _ hj, getLsbD_and, range, getLsbD_ofBits _ hj,
    Bool.eq_iff_iff]
  simp only [List.any_eq_true, Bool.and_eq_true, decide_eq_true_eq]
  have hbit : ∀ f ∈ L, f.Holds j →
      (L.set w x).getLsbD (f.pos + (j - f.low)) = x.getLsbD j := by
    intro f hf hh
    have hcov : f.Covers (f.pos + (j - f.low)) := by
      obtain ⟨h1, h2⟩ := hh
      constructor <;> omega
    rw [getLsbD_set_of_mem hL hf w x hcov]
    congr 1
    have := hh.1
    omega
  constructor
  · rintro ⟨f, hf, hh, hx⟩
    rw [hbit f hf hh] at hx
    exact ⟨hx, f, hf, hh⟩
  · rintro ⟨hx, f, hf, hh⟩
    refine ⟨f, hf, hh, ?_⟩
    rw [hbit f hf hh]
    exact hx

theorem toNat_get_lt {k : ℕ} (hL : ∀ f ∈ L, f.low + f.len ≤ k) (w : BitVec n) :
    (L.get w).toNat < 2 ^ k := by
  apply Nat.lt_pow_two_of_testBit
  intro j hj
  rw [testBit_toNat]
  by_cases hn : j < n
  · rw [getLsbD_get _ _ hn, List.any_eq_false]
    intro f hf
    have hlow := hL f hf
    have hnot : ¬ f.Holds j := fun h => absurd h.2 (by omega)
    simp [hnot]
  · exact getLsbD_of_ge _ _ (by omega)

theorem set_and_not_mask (L : Layout) (w x : BitVec n) :
    L.set w x &&& ~~~ L.mask n = w &&& ~~~ L.mask n := by
  apply eq_of_getLsbD_eq
  intro i hi
  rw [getLsbD_and, getLsbD_and, getLsbD_not, mask, getLsbD_ofBits _ hi,
    getLsbD_set L w x hi]
  cases hfind : L.find? fun f => f.Covers i with
  | none => rfl
  | some g =>
    have hcov := List.find?_some hfind
    have hany : (L.any fun f => decide (f.Covers i)) = true :=
      List.any_eq_true.mpr ⟨g, List.mem_of_find?_eq_some hfind, hcov⟩
    simp [hany]

end Layout

section Signed

variable {n k : ℕ} {x : BitVec n}

def sext (k : ℕ) (x : BitVec n) : BitVec n := (x.setWidth k).signExtend n

theorem sext_congr {y : BitVec n} (h : ∀ i < k, x.getLsbD i = y.getLsbD i) :
    sext k x = sext k y := by
  have hw : x.setWidth k = y.setWidth k := by
    apply eq_of_getLsbD_eq
    intro i hi
    rw [getLsbD_setWidth, getLsbD_setWidth, h i hi]
  rw [sext, sext, hw]

theorem sext_of_bounds (hk : k ≤ n) (hk0 : 0 < k) (h1 : -(2 ^ (k - 1) : ℤ) ≤ x.toInt)
    (h2 : x.toInt < 2 ^ (k - 1)) : sext k x = x := by
  apply eq_of_toInt_eq
  have hpow : (2 : ℤ) ^ k = 2 * 2 ^ (k - 1) := by
    rw [← pow_succ', Nat.sub_add_cancel hk0]
  rw [sext, toInt_signExtend_of_le hk, ← signExtend_eq_setWidth_of_le x hk,
    toInt_signExtend_eq_toInt_bmod_of_le x hk]
  apply Int.bmod_eq_of_le_mul_two
  · push_cast
    omega
  · push_cast
    omega

variable {i : ℕ}

theorem getLsbD_sext (hk0 : 0 < k) (hi : i < n) :
    (sext k x).getLsbD i = x.getLsbD (min i (k - 1)) := by
  rw [sext, getLsbD_signExtend, decide_eq_true hi, Bool.true_and, msb_eq_getLsbD_last,
    getLsbD_setWidth, getLsbD_setWidth, decide_eq_true (show k - 1 < k by omega),
    Bool.true_and]
  split
  · next h => rw [decide_eq_true h, Bool.true_and, min_eq_left (by omega)]
  · next h => rw [min_eq_right (by omega)]

theorem and_twoPow_ne_zero_iff (hi : i < n) :
    x &&& BitVec.twoPow n i ≠ 0#n ↔ x.getLsbD i = true := by
  have hne : BitVec.twoPow n i ≠ 0#n := by
    intro h
    have := congrArg (fun v => v.getLsbD i) h
    simp [hi] at this
  rw [and_twoPow]
  split
  · next h => simp [h, hne]
  · next h => simp [h]

theorem ite_sub_eq_sext (hk0 : 0 < k) (hk : k < n) (hx : x.toNat < 2 ^ k) :
    (if x &&& BitVec.twoPow n (k - 1) ≠ 0#n then x - BitVec.twoPow n k else x) = sext k x := by
  have hpow : (2 : ℕ) ^ k < 2 ^ n := Nat.pow_lt_pow_right (by decide) hk
  have hw : (x.setWidth k).toNat = x.toNat := by
    rw [toNat_setWidth, Nat.mod_eq_of_lt hx]
  have hmsb : (x.setWidth k).msb = x.getLsbD (k - 1) := by
    rw [msb_eq_getLsbD_last, getLsbD_setWidth, decide_eq_true (by omega),
      Bool.true_and]
  simp only [and_twoPow_ne_zero_iff (show k - 1 < n by omega)]
  apply eq_of_toNat_eq
  rw [sext, toNat_signExtend, toNat_setWidth, hw, hmsb,
    Nat.mod_eq_of_lt (hx.trans hpow)]
  split
  · rw [toNat_sub, toNat_twoPow, Nat.mod_eq_of_lt hpow, Nat.mod_eq_of_lt (by omega)]
    omega
  · rfl

end Signed

end Tinycc.Lib
