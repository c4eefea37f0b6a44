import Tinycc.IR.Compare
import Tinycc.Runtime.SoftConvSound

namespace Tinycc
open FloatFormat

section Model

variable {w : ℕ}

def isNanBits (bits : BitVec 64) : Bool := doubleExp bits = 0x7FF ∧ doubleMant bits ≠ 0

def isZeroBits (bits : BitVec 64) : Bool := doubleExp bits = 0 ∧ doubleMant bits = 0

/-- `dcmp_core` and `fcmp_core`, by the tests and the sign bit of the format: -1, 0 or 1, and 2 for
unordered operands. -/
def cmpCore (isNan isZero sign : BitVec w → Bool) (signBit a b : BitVec w) : ℤ :=
  if isNan a ∨ isNan b then 2
  else if isZero a ∧ isZero b then 0
  else if sign a ≠ sign b then if sign a then -1 else 1
  else
    let aMag := a &&& ~~~signBit
    let bMag := b &&& ~~~signBit
    if aMag = bMag then 0
    else
      let magCmp := if bMag < aMag then 1 else -1
      if sign a then -magCmp else magCmp

def dcmpCore : BitVec 64 → BitVec 64 → ℤ :=
  cmpCore isNanBits isZeroBits doubleSign ((1 : BitVec 64) <<< 63)

def fcmpCore : BitVec 32 → BitVec 32 → ℤ :=
  cmpCore isNanF isZeroF floatSign ((1 : BitVec 32) <<< 31)

def aeabiDcmpeq (a b : BitVec 64) : Bool := dcmpCore a b = 0
def aeabiDcmplt (a b : BitVec 64) : Bool := dcmpCore a b = -1
def aeabiDcmple (a b : BitVec 64) : Bool := dcmpCore a b = -1 ∨ dcmpCore a b = 0
def aeabiDcmpgt (a b : BitVec 64) : Bool := dcmpCore a b = 1
def aeabiDcmpge (a b : BitVec 64) : Bool := dcmpCore a b = 1 ∨ dcmpCore a b = 0
def aeabiDcmpun (a b : BitVec 64) : Bool := dcmpCore a b = 2

def aeabiFcmpeq (a b : BitVec 32) : Bool := fcmpCore a b = 0
def aeabiFcmplt (a b : BitVec 32) : Bool := fcmpCore a b = -1
def aeabiFcmple (a b : BitVec 32) : Bool := fcmpCore a b = -1 ∨ fcmpCore a b = 0
def aeabiFcmpgt (a b : BitVec 32) : Bool := fcmpCore a b = 1
def aeabiFcmpge (a b : BitVec 32) : Bool := fcmpCore a b = 1 ∨ fcmpCore a b = 0
def aeabiFcmpun (a b : BitVec 32) : Bool := fcmpCore a b = 2

def aeabiCdcmple (a b : BitVec 64) : Nzcv := cmpFlags (BitVec.ofInt 32 (dcmpCore a b)) 0#32

def aeabiCfcmple (a b : BitVec 32) : Nzcv := cmpFlags (BitVec.ofInt 32 (fcmpCore a b)) 0#32

/-- How `tcc_ir_gen_f` compiles a comparison: whether the operands are swapped, and the condition
that is tested. The coprocessor has its own flags. -/
def genFcmp (dcpCmp : Bool) (op : CmpCond) : Bool × CmpCond :=
  if dcpCmp then
    match op with
    | .lt | .ult => (true, .ugt)
    | .le | .ule => (true, .uge)
    | .gt | .ugt => (false, .ugt)
    | .ge | .uge => (false, .uge)
    | _ => (false, op)
  else
    match op with
    | .gt => (true, .lt)
    | .ugt => (true, .ult)
    | .ge => (true, .le)
    | .uge => (true, .ule)
    | _ => (false, op)

end Model

section Core

/-- The relation between two patterns in C, where a NaN is only unequal. The value of an infinity
is beyond all finite ones. -/
def FloatRel (f : FloatFormat) (c : CmpCond) (a b : ℕ) : Prop :=
  let ordered := ¬ f.IsNan a ∧ ¬ f.IsNan b
  match c with
  | .eq => ordered ∧ f.value a = f.value b
  | .ne => ¬ (ordered ∧ f.value a = f.value b)
  | .lt | .ult => ordered ∧ f.value a < f.value b
  | .le | .ule => ordered ∧ f.value a ≤ f.value b
  | .gt | .ugt => ordered ∧ f.value b < f.value a
  | .ge | .uge => ordered ∧ f.value b ≤ f.value a

/-- What the core returns. -/
inductive Compares (f : FloatFormat) (a b : ℕ) : ℤ → Prop
  | unordered (h : f.IsNan a ∨ f.IsNan b) : Compares f a b 2
  | lt (h : ¬ (f.IsNan a ∨ f.IsNan b)) (hv : f.value a < f.value b) : Compares f a b (-1)
  | eq (h : ¬ (f.IsNan a ∨ f.IsNan b)) (hv : f.value a = f.value b) : Compares f a b 0
  | gt (h : ¬ (f.IsNan a ∨ f.IsNan b)) (hv : f.value b < f.value a) : Compares f a b 1

variable {w : ℕ} {f : FloatFormat} {isNan isZero sign : BitVec w → Bool} {exp : BitVec w → ℤ}
  {mant : BitVec w → BitVec w} {signBit : BitVec w}

theorem cmpCore_compares (hf : ∀ a, Fields f a.toNat (sign a) (exp a) (mant a).toNat)
    (hnan : ∀ a, isNan a ↔ exp a = f.expMax ∧ mant a ≠ 0)
    (hzero : ∀ a, isZero a ↔ exp a = 0 ∧ mant a = 0)
    (hmag : ∀ a, (a &&& ~~~signBit).toNat = a.toNat % f.signBit) (a b : BitVec w) :
    Compares f a.toNat b.toNat (cmpCore isNan isZero sign signBit a b) := by
  have hN (a) : isNan a ↔ f.IsNan a.toNat := by
    rw [hnan, (hf a).nan_iff, ne_eq, eq_zero_iff_toNat]
  have hZ (a) : isZero a ↔ f.value a.toNat = 0 := by
    rw [hzero, f.value_eq_zero_iff, eq_zero_iff_toNat, (hf a).zero_iff]
  have hA := f.mag_nonneg (a.toNat % f.signBit)
  have hB := f.mag_nonneg (b.toNat % f.signBit)
  have hva : f.value a.toNat = (if sign a then -1 else 1) * f.mag (a.toNat % f.signBit) := by
    rw [(hf a).sign_eq, value]
  have hvb : f.value b.toNat = (if sign b then -1 else 1) * f.mag (b.toNat % f.signBit) := by
    rw [(hf b).sign_eq, value]
  simp only [cmpCore, hN, hZ, BitVec.lt_def, ← BitVec.toNat_inj, hmag]
  split
  next h => exact .unordered h
  next h =>
    split
    next hz => exact .eq h (hz.1.trans hz.2.symm)
    next hz =>
      -- not both are zero, so that numbers of different sign differ
      have hne : f.value a.toNat = f.value b.toNat → f.value a.toNat ≠ 0 := fun he ha =>
        hz ⟨ha, he ▸ ha⟩
      have hcmp := lt_trichotomy (a.toNat % f.signBit) (b.toNat % f.signBit)
      cases hsa : sign a <;> cases hsb : sign b <;>
        simp only [hsa, hsb, if_true, if_false, Bool.false_eq_true, one_mul, neg_one_mul, ne_eq,
          not_true, not_false_eq_true, Bool.true_eq_false] at hva hvb ⊢
      · rcases hcmp with hlt | he | hgt
        · rw [if_neg hlt.ne, if_neg hlt.not_gt]
          exact .lt h (by rw [hva, hvb]; exact f.mag_strictMono hlt)
        · rw [if_pos he]
          exact .eq h (by rw [hva, hvb, he])
        · rw [if_neg hgt.ne', if_pos hgt]
          exact .gt h (by rw [hva, hvb]; exact f.mag_strictMono hgt)
      · exact .gt h (lt_of_le_of_ne (by linarith) fun he => hne he.symm (by linarith))
      · exact .lt h (lt_of_le_of_ne (by linarith) fun he => hne he (by linarith))
      · rcases hcmp with hlt | he | hgt
        · rw [if_neg hlt.ne, if_neg hlt.not_gt, neg_neg]
          exact .gt h (by rw [hva, hvb]; exact neg_lt_neg (f.mag_strictMono hlt))
        · rw [if_pos he]
          exact .eq h (by rw [hva, hvb, he])
        · rw [if_neg hgt.ne', if_pos hgt]
          exact .lt h (by rw [hva, hvb]; exact neg_lt_neg (f.mag_strictMono hgt))

theorem dcmpCore_compares (a b : BitVec 64) : Compares binary64 a.toNat b.toNat (dcmpCore a b) :=
  cmpCore_compares double_fields (fun _ => decide_eq_true_iff) (fun _ => decide_eq_true_iff)
    (fun a => by exact Nat.and_two_pow_sub_one_eq_mod a.toNat 63) a b

theorem fcmpCore_compares (a b : BitVec 32) : Compares binary32 a.toNat b.toNat (fcmpCore a b) :=
  cmpCore_compares float_fields (fun _ => decide_eq_true_iff) (fun _ => decide_eq_true_iff)
    (fun a => by exact Nat.and_two_pow_sub_one_eq_mod a.toNat 31) a b

theorem floatRel_gt (f : FloatFormat) (a b : ℕ) : FloatRel f .gt a b ↔ FloatRel f .lt b a :=
  and_congr_left' and_comm

theorem floatRel_ge (f : FloatFormat) (a b : ℕ) : FloatRel f .ge a b ↔ FloatRel f .le b a :=
  and_congr_left' and_comm

variable {a b : ℕ} {r : ℤ}

theorem Compares.tests (h : Compares f a b r) :
    (r = 0 ↔ FloatRel f .eq a b) ∧ (r = -1 ↔ FloatRel f .lt a b) ∧
    (r = -1 ∨ r = 0 ↔ FloatRel f .le a b) ∧ (r = 1 ↔ FloatRel f .gt a b) ∧
    (r = 1 ∨ r = 0 ↔ FloatRel f .ge a b) ∧ (r = 2 ↔ f.IsNan a ∨ f.IsNan b) := by
  cases h with
  | unordered h => simp [FloatRel, h, ← not_or]
  | lt h hv => simp [FloatRel, h, ← not_or, hv.le, hv.ne, hv, hv.not_gt, hv.not_ge]
  | eq h hv => simp [FloatRel, h, ← not_or, hv]
  | gt h hv => simp [FloatRel, h, ← not_or, hv.le, hv.ne', hv, hv.not_gt, hv.not_ge]

/-- The six comparisons of a format are right for every pair of patterns. -/
def TestsRight (f : FloatFormat) (eq lt le gt ge un : BitVec w → BitVec w → Bool) : Prop :=
  ∀ a b : BitVec w, (eq a b ↔ FloatRel f .eq a.toNat b.toNat) ∧
    (lt a b ↔ FloatRel f .lt a.toNat b.toNat) ∧ (le a b ↔ FloatRel f .le a.toNat b.toNat) ∧
    (gt a b ↔ FloatRel f .gt a.toNat b.toNat) ∧ (ge a b ↔ FloatRel f .ge a.toNat b.toNat) ∧
    (un a b ↔ f.IsNan a.toNat ∨ f.IsNan b.toNat)

theorem softCompare_correct :
    TestsRight binary64 aeabiDcmpeq aeabiDcmplt aeabiDcmple aeabiDcmpgt aeabiDcmpge aeabiDcmpun ∧
    TestsRight binary32 aeabiFcmpeq aeabiFcmplt aeabiFcmple aeabiFcmpgt aeabiFcmpge
      aeabiFcmpun := by
  constructor
  · intro a b
    simpa only [aeabiDcmpeq, aeabiDcmplt, aeabiDcmple, aeabiDcmpgt, aeabiDcmpge, aeabiDcmpun,
      decide_eq_true_eq] using (dcmpCore_compares a b).tests
  · intro a b
    simpa only [aeabiFcmpeq, aeabiFcmplt, aeabiFcmple, aeabiFcmpgt, aeabiFcmpge, aeabiFcmpun,
      decide_eq_true_eq] using (fcmpCore_compares a b).tests

/-- The compiled comparison tests the relation of C, for every pair of patterns. -/
def CompiledRight (f : FloatFormat) (flags : BitVec w → BitVec w → Nzcv) (op : CmpCond) : Prop :=
  ∀ a b : BitVec w, condPassed (genFcmp false op).2.code
      (if (genFcmp false op).1 then flags b a else flags a b) ↔ FloatRel f op a.toNat b.toNat

theorem Compares.condPassed (h : Compares f a b r) {c : CmpCond} (hc : c ∈ [.eq, .ne, .lt, .le]) :
    condPassed c.code (cmpFlags (BitVec.ofInt 32 r) 0#32) ↔ FloatRel f c a b := by
  have hholds : ∀ r ∈ ([2, -1, 0, 1] : List ℤ), let x := BitVec.ofInt 32 r
      (CmpCond.eq.holds x 0 ↔ r = 0) ∧ (CmpCond.ne.holds x 0 ↔ ¬ r = 0) ∧
      (CmpCond.lt.holds x 0 ↔ r = -1) ∧ (CmpCond.le.holds x 0 ↔ r = -1 ∨ r = 0) := by decide
  have hr : r ∈ ([2, -1, 0, 1] : List ℤ) := by cases h <;> decide
  obtain ⟨heq', hne', hlt', hle'⟩ := hholds r hr
  obtain ⟨heq, hlt, hle, -⟩ := h.tests
  rw [condPassed_cmpFlags]
  simp only [List.mem_cons, List.not_mem_nil, or_false] at hc
  rcases hc with rfl | rfl | rfl | rfl
  · exact heq'.trans heq
  · exact hne'.trans (not_congr heq)
  · exact hlt'.trans hlt
  · exact hle'.trans hle

theorem compiledRight_of_signed {core : BitVec w → BitVec w → ℤ} {op : CmpCond}
    (h : ∀ a b, Compares f a.toNat b.toNat (core a b)) (hop : op ∈ [.eq, .ne, .lt, .le, .gt, .ge]) :
    CompiledRight f (fun a b => cmpFlags (BitVec.ofInt 32 (core a b)) 0#32) op := by
  intro a b
  simp only [List.mem_cons, List.not_mem_nil, or_false] at hop
  rcases hop with rfl | rfl | rfl | rfl | rfl | rfl
  -- the last two are tested with the operands swapped
  any_goals exact (h a b).condPassed (by decide)
  · exact ((h b a).condPassed (c := .lt) (by decide)).trans (floatRel_gt ..).symm
  · exact ((h b a).condPassed (c := .le) (by decide)).trans (floatRel_ge ..).symm

/-- Comparisons are compiled right unless their token is one of the unsigned ones. -/
theorem genFcmp_correct_iff (op : CmpCond) :
    CompiledRight binary64 aeabiCdcmple op ∧ CompiledRight binary32 aeabiCfcmple op ↔
      op ∈ [.eq, .ne, .lt, .le, .gt, .ge] := by
  constructor
  · rintro ⟨h, -⟩
    -- 0 and 1, whose comparison gives -1, which is not below 0 as an unsigned number
    have hlt := dcmpCore_compares 0 0x3FF0000000000000
    rw [show dcmpCore 0 0x3FF0000000000000 = -1 by decide] at hlt
    obtain ⟨-, h1, h2, -⟩ := hlt.tests
    have h01 := h 0 0x3FF0000000000000
    have h10 := h 0x3FF0000000000000 0
    cases op with
    | eq | ne | lt | le | gt | ge => decide
    | ult => exact absurd (h01.mpr (h1.mp rfl)) (by decide)
    | ule => exact absurd (h01.mpr (h2.mp (.inl rfl))) (by decide)
    | ugt => exact absurd (h10.mpr ((floatRel_gt ..).mpr (h1.mp rfl))) (by decide)
    | uge => exact absurd (h10.mpr ((floatRel_ge ..).mpr (h2.mp (.inl rfl)))) (by decide)
  · exact fun hop => ⟨compiledRight_of_signed dcmpCore_compares hop,
      compiledRight_of_signed fcmpCore_compares hop⟩

end Core

section Difference

variable {f : FloatFormat} {a b r : ℕ} {x y : ℤ}

theorem exists_value_eq (f : FloatFormat) (n : ℕ) : ∃ z : ℤ, f.value n = z * f.ulp 1 := by
  obtain ⟨e, r, hk, hr, hlow⟩ := f.exists_split (n % f.signBit)
  refine ⟨(if f.negative n then -1 else 1) * (r * 2 ^ e), ?_⟩
  rw [value, hk, f.mag_eq hr.le hlow, add_comm e, f.ulp_add]
  push_cast
  ring

theorem ulp_le_abs_sub (h : f.value a - f.value b ≠ 0) : f.ulp 1 ≤ |f.value a - f.value b| := by
  obtain ⟨z, hz⟩ := exists_value_eq f a
  obtain ⟨z', hz'⟩ := exists_value_eq f b
  have hulp := f.ulp_pos 1
  rw [hz, hz', ← sub_mul, ← Int.cast_sub] at h ⊢
  have hone : (1 : ℚ) ≤ |((z - z' : ℤ) : ℚ)| := by
    exact_mod_cast Int.one_le_abs (Int.cast_ne_zero.mp (left_ne_zero_of_mul h))
  rw [abs_mul, abs_of_pos hulp]
  exact le_mul_of_one_le_left hulp.le hone

theorem IsDifference.value_eq_zero_iff (h : IsDifference f a b r) :
    f.value r = 0 ↔ f.value a - f.value b = 0 := by
  -- different numbers are so far apart that their difference does not round to zero
  have hinf : 1 < f.infinity :=
    lt_of_lt_of_le (by have := f.expMax_pos; omega) (Nat.le_mul_of_pos_right _ (by positivity))
  have hnear := h.nearest
  rw [f.value_eq_zero_iff]
  constructor
  · intro hr
    by_contra hx
    have hle := ulp_le_abs_sub hx
    have hpow := Nat.one_le_two_pow (n := f.fracBits)
    have hmag : f.mag 1 = f.ulp 1 := by
      simpa using f.mag_eq (e := 0) (r := 1) (by omega) (.inl rfl)
    rw [hr, IsNearestEven] at hnear
    split at hnear
    · omega
    · have hfar := (hnear.2 1 hinf).1
      rw [hmag, f.mag_zero, sub_zero, abs_abs, abs_of_nonneg (sub_nonneg.mpr hle)] at hfar
      linarith [f.ulp_pos 1]
  · intro hx
    have hzero := isNearestEven_mag (f := f) (k := 0) (by omega)
    rw [hx, abs_zero, ← f.mag_zero] at hnear
    exact hnear.unique hzero

theorem IsDifference.value_neg_iff (h : IsDifference f a b r) :
    f.value r < 0 ↔ f.value a < f.value b := by
  rw [f.value_neg_iff, ne_eq, ← f.value_eq_zero_iff, h.value_eq_zero_iff, h.negative_eq, sumSign,
    ← sub_neg (a := f.value a)]
  split <;> next hx => simp [hx]

theorem IsDifference.compares (h : IsDifference f a b r) (ha : f.IsFinite a) (hb : f.IsFinite b)
    (hab : Compares f a b x) (hr : Compares f r 0 y) : y = x := by
  have hna : ¬ (f.IsNan a ∨ f.IsNan b) := not_or.mpr ⟨ha.not_gt, hb.not_gt⟩
  have hnr : ¬ (f.IsNan r ∨ f.IsNan 0) := by
    have hnear := h.nearest
    rw [IsNearestEven] at hnear
    rw [IsNan, IsNan, Nat.zero_mod]
    split at hnear <;> omega
  have hzero : f.value 0 = 0 := (f.value_eq_zero_iff 0).mpr (Nat.zero_mod _)
  have heq := h.value_eq_zero_iff
  have hneg := h.value_neg_iff
  cases hab <;> cases hr <;> first | rfl | contradiction | grind

/-- The difference of finite numbers compares with zero as they do with each other. -/
theorem softSub_compares :
    (∀ a b : BitVec 64, binary64.IsFinite a.toNat → binary64.IsFinite b.toNat →
      ∃ r, aeabiDsub a b = some r ∧ dcmpCore r 0 = dcmpCore a b) ∧
    ∀ a b : BitVec 32, binary32.IsFinite a.toNat → binary32.IsFinite b.toNat →
      ∃ r, aeabiFsub a b = some r ∧ fcmpCore r 0 = fcmpCore a b := by
  constructor
  · intro a b ha hb
    obtain ⟨r, hr, hdiff⟩ :=
      isDifference_of_add (s := 1 <<< 63) rfl b.isLt hb (aeabiDadd_isSum a _ ha)
    exact ⟨r, hr, hdiff.compares ha hb (dcmpCore_compares a b) (dcmpCore_compares r 0)⟩
  · intro a b ha hb
    obtain ⟨r, hr, hdiff⟩ :=
      isDifference_of_add (s := 1 <<< 31) rfl b.isLt hb (aeabiFadd_isSum a _ ha)
    exact ⟨r, hr, hdiff.compares ha hb (fcmpCore_compares a b) (fcmpCore_compares r 0)⟩

/-- The two smallest numbers. -/
theorem softSub_compares_smallest :
    ∃ r, aeabiDsub 1 2 = some r ∧ dcmpCore r 0 = dcmpCore 1 2 :=
  softSub_compares.1 1 2 (by decide) (by decide)

end Difference

end Tinycc
