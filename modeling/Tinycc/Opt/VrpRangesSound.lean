import Mathlib.Algebra.Order.Ring.Int
import Tinycc.Lib.BitField
import Tinycc.Opt.CmpEvalSound
import Tinycc.Opt.FoldBits
import Tinycc.Opt.VrpRanges

namespace Tinycc
open Lib Nat Option
open BitVec hiding not_not and_self

def CmpCond.tok : CmpCond → BitVec 32
  | .eq => 0x94#32
  | .ne => 0x95#32
  | .lt => 0x9c#32
  | .ge => 0x9d#32
  | .le => 0x9e#32
  | .gt => 0x9f#32
  | .ult => 0x92#32
  | .uge => 0x93#32
  | .ule => 0x96#32
  | .ugt => 0x97#32

section Verdicts

variable {tok : BitVec 32} {c : CmpCond} {r : Bool} {x y lo hi k : BitVec 32}

/-- A condition that both ends of an interval meet, or both fail, is met or failed throughout. In an
unsigned order the ends have one sign. -/
theorem holds_between (hne : c ≠ .eq ∧ c ≠ .ne)
    (hsign : c = .ult ∨ c = .uge ∨ c = .ule ∨ c = .ugt → (lo.toInt < 0 ↔ hi.toInt < 0))
    (hlo : lo.toInt ≤ x.toInt) (hhi : x.toInt ≤ hi.toInt) (ha : c.holds lo k = r)
    (hb : c.holds hi k = r) : c.holds x k = r := by
  rw [toInt_eq_toNat_cond, toInt_eq_toNat_cond] at hlo hhi hsign
  cases c with
  | eq => exact absurd rfl hne.1
  | ne => exact absurd rfl hne.2
  | lt | ge | le | gt =>
    simp only [CmpCond.holds, BitVec.slt, BitVec.sle, toInt_eq_toNat_cond] at *
    cases r <;> simp only [decide_eq_true_eq, decide_eq_false_iff_not] at * <;> omega
  | ult | uge | ule | ugt =>
    have hs := hsign (by simp)
    simp only [CmpCond.holds, BitVec.ult, BitVec.ule] at *
    cases r <;> simp only [decide_eq_true_eq, decide_eq_false_iff_not] at * <;> omega

theorem tok_of_ofTok (hc : CmpCond.ofTok tok = some c) : c.tok = tok := by
  unfold CmpCond.ofTok at hc
  repeat' split at hc
  all_goals first
    | (next heq => cases hc; exact heq.symm)
    | cases hc

theorem ne_tok_of_ofTok (hc : CmpCond.ofTok tok = none) (c : CmpCond) : tok ≠ c.tok := by
  rintro rfl
  cases c <;> cases hc

theorem isUnsignedTok_of_ofTok (hc : CmpCond.ofTok tok = some c)
    (hu : c = .ult ∨ c = .uge ∨ c = .ule ∨ c = .ugt) : isUnsignedTok tok = true := by
  obtain rfl := tok_of_ofTok hc
  rcases hu with rfl | rfl | rfl | rfl <;> rfl

theorem ne_eq_ne_of_ofTok (hc : CmpCond.ofTok tok = some c)
    (heq : ¬(tok = 0x94#32 ∨ tok = 0x95#32)) : c ≠ .eq ∧ c ≠ .ne := by
  obtain rfl := tok_of_ofTok hc
  exact ⟨fun e => heq (Or.inl (by rw [e]; rfl)), fun e => heq (Or.inr (by rw [e]; rfl))⟩

theorem svFoldCmp_sound (heq : ¬(tok = 0x94#32 ∨ tok = 0x95#32))
    (h : svFoldCmp lo.toInt hi.toInt k.toInt tok = some r) (hlo : lo.toInt ≤ x.toInt)
    (hhi : x.toInt ≤ hi.toInt) : jumpTaken tok (cmpFlags x k) = some r := by
  unfold svFoldCmp evaluateCompareCondition at h
  by_cases hs : isUnsignedTok tok = true ∧ decide (lo.toInt < 0) ≠ decide (hi.toInt < 0)
  · rw [if_pos hs] at h
    cases h
  rw [if_neg hs] at h
  cases hc : CmpCond.ofTok tok with
  | none =>
    rw [hc] at h
    cases h
  | some c =>
    have hends : c.holds lo k = r ∧ c.holds hi k = r := by
      rw [hc] at h
      change (if c.holds (lo.signExtend 64) (k.signExtend 64) =
          c.holds (hi.signExtend 64) (k.signExtend 64)
        then some (c.holds (lo.signExtend 64) (k.signExtend 64)) else none) = some r at h
      rw [CmpCond.holds_signExtend, CmpCond.holds_signExtend] at h
      obtain ⟨hab, ha⟩ := ite_none_right_eq_some.mp h
      cases ha
      exact ⟨rfl, hab.symm⟩
    rw [jumpTaken_cmpFlags hc]
    refine congrArg some (holds_between (ne_eq_ne_of_ofTok hc heq) ?_ hlo hhi hends.1 hends.2)
    intro hu
    by_contra hne
    exact hs ⟨isUnsignedTok_of_ofTok hc hu, fun e => hne (decide_eq_decide.mp e)⟩

theorem svRangeVerdict_sound (h : svRangeVerdict lo.toInt hi.toInt k.toInt tok = some r)
    (hlo : lo.toInt ≤ x.toInt) (hhi : x.toInt ≤ hi.toInt) :
    jumpTaken tok (cmpFlags x k) = some r := by
  unfold svRangeVerdict at h
  by_cases heq : tok = 0x94#32 ∨ tok = 0x95#32
  · have hx : x.toInt = k.toInt ↔ x = k := toInt_inj
    have hcond : (k.toInt < lo.toInt ∨ hi.toInt < k.toInt → x ≠ k) ∧
        (¬(k.toInt < lo.toInt ∨ hi.toInt < k.toInt) → lo.toInt = hi.toInt → x = k) :=
      ⟨fun h1 h2 => by subst h2; omega, fun h1 h2 => hx.mp (by omega)⟩
    rw [if_pos heq] at h
    rcases heq with rfl | rfl
    · rw [jumpTaken_cmpFlags (show CmpCond.ofTok 0x94#32 = some .eq from rfl), ← h]
      split_ifs with h1 h2
      · simp [CmpCond.holds, hcond.1 h1]
      · simp [CmpCond.holds, hcond.2 h1 h2]
      · rw [if_neg h1, if_neg h2] at h
        cases h
    · rw [jumpTaken_cmpFlags (show CmpCond.ofTok 0x95#32 = some .ne from rfl), ← h]
      split_ifs with h1 h2
      · simp [CmpCond.holds, hcond.1 h1]
      · simp [CmpCond.holds, hcond.2 h1 h2]
      · rw [if_neg h1, if_neg h2] at h
        cases h
  · rw [if_neg heq] at h
    exact svFoldCmp_sound heq h hlo hhi

def svSignedVerdict (c : CmpCond) (alo ahi blo bhi : ℤ) : Option Bool :=
  match c with
  | .lt => if ahi < blo then some true else if bhi ≤ alo then some false else none
  | .le => if ahi ≤ blo then some true else if bhi < alo then some false else none
  | .gt => if bhi < alo then some true else if ahi ≤ blo then some false else none
  | .ge => if bhi ≤ alo then some true else if ahi < blo then some false else none
  | .eq =>
    if ahi < blo ∨ bhi < alo then some false
    else if alo = ahi ∧ blo = bhi then some true else none
  | .ne =>
    if ahi < blo ∨ bhi < alo then some true
    else if alo = ahi ∧ blo = bhi then some false else none
  | _ => none

variable {alo ahi blo bhi : ℤ}

theorem svSignedVerdict_sound (h : svSignedVerdict c alo ahi blo bhi = some r)
    (hx : alo ≤ x.toInt ∧ x.toInt ≤ ahi) (hy : blo ≤ y.toInt ∧ y.toInt ≤ bhi) :
    c.holds x y = r := by
  have hxy : x.toInt = y.toInt ↔ x = y := toInt_inj
  unfold svSignedVerdict at h
  cases c with
  | lt | le | gt | ge =>
    simp only [CmpCond.holds, BitVec.slt, BitVec.sle]
    split_ifs at h <;> cases h <;> simp only [decide_eq_true_eq, decide_eq_false_iff_not] <;> omega
  | eq | ne =>
    dsimp only at h
    simp only [CmpCond.holds]
    split_ifs at h with h1 h2
    · cases h
      have hne : x ≠ y := fun e => by have := hxy.mpr e; omega
      simp [hne]
    · cases h
      have he : x = y := hxy.mp (by omega)
      simp [he]
  | ult | uge | ule | ugt => cases h

def CmpCond.toSigned : CmpCond → CmpCond
  | .ult => .lt
  | .ule => .le
  | .ugt => .gt
  | .uge => .ge
  | c => c

theorem svRangeVerdict2_eq (h : svRangeVerdict2 alo ahi blo bhi tok = some r) :
    ∃ c, CmpCond.ofTok tok = some c ∧ svSignedVerdict c.toSigned alo ahi blo bhi = some r ∧
      (c.toSigned ≠ c → 0 ≤ alo ∧ 0 ≤ blo) := by
  unfold svRangeVerdict2 at h
  by_cases hs : isUnsignedTok tok = true ∧ (alo < 0 ∨ blo < 0)
  · rw [if_pos hs] at h
    cases h
  rw [if_neg hs] at h
  have hpos : isUnsignedTok tok = true → 0 ≤ alo ∧ 0 ≤ blo := by
    intro hu
    exact ⟨not_lt.mp fun hlt => hs ⟨hu, Or.inl hlt⟩, not_lt.mp fun hlt => hs ⟨hu, Or.inr hlt⟩⟩
  cases hc : CmpCond.ofTok tok with
  | none =>
    have hne := ne_tok_of_ofTok hc
    have hsame : toSignedTok tok = tok := by
      exact (if_neg (hne .ult)).trans ((if_neg (hne .ule)).trans ((if_neg (hne .ugt)).trans
        (if_neg (hne .uge))))
    rw [hsame] at h
    cases (((((if_neg (hne .ne)).symm.trans (if_neg (hne .eq)).symm).trans
      (if_neg (hne .ge)).symm).trans (if_neg (hne .gt)).symm).trans ((if_neg (hne .le)).symm.trans
      (if_neg (hne .lt)).symm)).trans h
  | some c =>
    refine ⟨c, rfl, ?_, fun hne => hpos (isUnsignedTok_of_ofTok hc ?_)⟩
    · obtain rfl := tok_of_ofTok hc
      cases c <;> exact h
    · cases c with
      | eq | ne | lt | le | gt | ge => exact absurd rfl hne
      | ult | uge | ule | ugt => simp

theorem holds_toSigned (hpos : c.toSigned ≠ c → 0 ≤ x.toInt ∧ 0 ≤ y.toInt) :
    c.toSigned.holds x y = c.holds x y := by
  cases c with
  | eq | ne | lt | le | gt | ge => rfl
  | ult | uge | ule | ugt =>
    have hnonneg := hpos (by decide)
    rw [toInt_eq_toNat_cond, toInt_eq_toNat_cond] at hnonneg
    simp only [CmpCond.toSigned, CmpCond.holds, BitVec.slt, BitVec.sle, BitVec.ult, BitVec.ule,
      toInt_eq_toNat_cond, decide_eq_decide]
    omega

theorem svRangeVerdict2_sound (h : svRangeVerdict2 alo ahi blo bhi tok = some r)
    (hx : alo ≤ x.toInt ∧ x.toInt ≤ ahi) (hy : blo ≤ y.toInt ∧ y.toInt ≤ bhi) :
    jumpTaken tok (cmpFlags x y) = some r := by
  obtain ⟨c, hc, hv, hpos⟩ := svRangeVerdict2_eq h
  rw [jumpTaken_cmpFlags hc, ← svSignedVerdict_sound hv hx hy, holds_toSigned]
  intro hne
  have := hpos hne
  omega

end Verdicts

def InRange (lo hi : ℤ) (x : BitVec 32) : Prop := lo ≤ x.toInt ∧ x.toInt ≤ hi

def SVRange.Holds (r : SVRange) (x : BitVec 32) : Prop :=
  r.valid = true → InRange r.lo.toInt r.hi.toInt x

section Records

variable {s : SVState} {slot : ℕ} {lo hi : ℤ} {x : BitVec 32}

theorem toInt_ofInt_int32 (hlo : int32Min ≤ lo) (hhi : lo ≤ int32Max) :
    (BitVec.ofInt 32 lo).toInt = lo := by
  unfold int32Min at hlo
  unfold int32Max at hhi
  rw [toInt_ofInt, Int.bmod_eq_of_le] <;> omega

theorem toInt_mem (x : BitVec 32) : InRange int32Min int32Max x := by
  have hlo := le_toInt x
  have hhi := @toInt_lt 32 x
  unfold InRange int32Min int32Max
  omega

theorem holds_svSet (h : (s.ranges slot).Holds x) (hx : InRange lo hi x) :
    ((svSet s slot lo hi).ranges slot).Holds x := by
  have hmem := toInt_mem x
  unfold InRange at hx hmem
  unfold svSet
  split_ifs with hout
  · exact h
  · intro _
    dsimp only
    rw [Function.update_self]
    rw [toInt_ofInt_int32 (by omega) (by omega), toInt_ofInt_int32 (by omega) (by omega)]
    exact hx

theorem holds_ite {p : Prop} [Decidable p] {t : SVState} (h : (s.ranges slot).Holds x)
    (ht : p → (t.ranges slot).Holds x) : ((if p then t else s).ranges slot).Holds x := by
  split_ifs with hp
  · exact ht hp
  · exact h

theorem holds_svSetIntersect (h : (s.ranges slot).Holds x) (hx : InRange lo hi x) :
    ((svSetIntersect s slot lo hi).ranges slot).Holds x := by
  unfold svSetIntersect
  by_cases hv : (s.ranges slot).valid = true
  · have hold := h hv
    rw [if_pos hv, apply_ite fun t : SVState => (t.ranges slot).Holds x]
    refine ite_prop_iff_and.mpr ⟨fun _ => h, fun _ => holds_svSet h ?_⟩
    unfold InRange at *
    constructor <;> split <;> omega
  · rw [if_neg hv]
    exact holds_svSet h hx

end Records

section Operands

variable {World : Type} {M : ValueSem World} {σ : Vreg → BitVec 64} {w : World} {s : SVState}
  {op : IROperand} {lo hi k : ℤ}

def ValueSem.word (M : ValueSem World) (op : IROperand) (σ : Vreg → BitVec 64) (w : World) :
    BitVec 32 := loWord (M.operand op σ w)

def OperandHolds (s : SVState) (op : IROperand) (x : BitVec 32) : Prop :=
  ∀ sl, svOperandSlot s op = some sl → (s.ranges sl).Holds x

theorem word_of_svReadConst32 (hi : op.isImmediate = true) (h : svReadConst32 op = some k) :
    (M.word op σ w).toInt = k := by
  unfold svReadConst32 at h
  split_ifs at h
  cases h
  unfold ValueSem.word
  rw [operand_of_isImmediate hi]
  rfl

theorem inRange_of_svSlotRange {x : BitVec 32} (hop : OperandHolds s op x)
    (h : svSlotRange s op = some (lo, hi)) : InRange lo hi x := by
  obtain ⟨sl, hsl, h⟩ := bind_eq_some_iff.mp h
  obtain ⟨hv, h⟩ := ite_none_right_eq_some.mp h
  cases h
  exact hop sl hsl hv

theorem inRange_of_svOperandRange (hop : OperandHolds s op (M.word op σ w))
    (h : svOperandRange s op = some (lo, hi)) : InRange lo hi (M.word op σ w) := by
  unfold svOperandRange at h
  by_cases hb : op.btype ≠ .int32 ∧ op.btype ≠ .int8 ∧ op.btype ≠ .int16
  · rw [if_pos hb] at h
    cases h
  rw [if_neg hb] at h
  by_cases himm : op.isImmediate = true
  · rw [if_pos himm] at h
    obtain ⟨_, h⟩ := ite_none_right_eq_some.mp h
    obtain ⟨c, hc, h⟩ := map_eq_some_iff.mp h
    cases h
    have hword := @word_of_svReadConst32 World M σ w op _ himm hc
    exact ⟨hword.ge, hword.le⟩
  · rw [if_neg himm] at h
    exact inRange_of_svSlotRange hop h

theorem svOperandRange_le (h : svOperandRange s op = some (lo, hi)) : hi ≤ int32Max := by
  unfold svOperandRange svReadConst32 svSlotRange at h
  split_ifs at h
  · cases h
  · cases h
    exact (toInt_mem _).2
  · obtain ⟨sl, _, h⟩ := bind_eq_some_iff.mp h
    obtain ⟨_, h⟩ := ite_none_right_eq_some.mp h
    cases h
    exact (toInt_mem _).2

end Operands

section Arithmetic

variable {x y : BitVec 32} {lo hi : ℤ} {n : ℕ}

theorem toInt_add_of_fits (hlo : int32Min ≤ x.toInt + y.toInt)
    (hhi : x.toInt + y.toInt ≤ int32Max) : (x + y).toInt = x.toInt + y.toInt := by
  rw [toInt_add, ← toInt_ofInt]
  exact toInt_ofInt_int32 hlo hhi

theorem toInt_sub_of_fits (hlo : int32Min ≤ x.toInt - y.toInt)
    (hhi : x.toInt - y.toInt ≤ int32Max) : (x - y).toInt = x.toInt - y.toInt := by
  rw [toInt_sub, ← toInt_ofInt]
  exact toInt_ofInt_int32 hlo hhi

theorem toInt_mul_of_fits (hlo : int32Min ≤ x.toInt * y.toInt)
    (hhi : x.toInt * y.toInt ≤ int32Max) : (x * y).toInt = x.toInt * y.toInt := by
  rw [toInt_mul, ← toInt_ofInt]
  exact toInt_ofInt_int32 hlo hhi

theorem toInt_shiftLeft_of_fits (hlo : int32Min ≤ x.toInt * 2 ^ n)
    (hhi : x.toInt * 2 ^ n ≤ int32Max) : (x <<< n).toInt = x.toInt * 2 ^ n := by
  have h : x <<< n = BitVec.ofInt 32 (x.toInt * 2 ^ n) := by
    rw [ofInt_mul, ofInt_toInt, shiftLeft_eq_mul_twoPow]
    congr 1
    apply eq_of_toNat_eq
    rw [toNat_twoPow]
    norm_cast
  rw [h]
  exact toInt_ofInt_int32 hlo hhi

theorem toInt_of_nonneg (h : 0 ≤ x.toInt) : x.toInt = x.toNat := by
  rw [toInt_eq_toNat_cond] at *
  omega

theorem toInt_of_toNat_lt (h : x.toNat < 2147483648) : x.toInt = x.toNat := by
  rw [toInt_eq_toNat_cond]
  omega

variable {a : ℤ} {width : ℕ}

theorem tmod_bounds {k : ℤ} (hk : k ≠ 0) :
    -(|k| - 1) ≤ a.tmod k ∧ a.tmod k ≤ |k| - 1 ∧ (0 ≤ a → 0 ≤ a.tmod k) ∧
      (a ≤ 0 → a.tmod k ≤ 0) := by
  have habs : (a.tmod k).natAbs < k.natAbs := by
    rw [Int.natAbs_tmod]
    exact mod_lt _ (Int.natAbs_pos.mpr hk)
  have hneg : a ≤ 0 → a.tmod k ≤ 0 := by
    intro ha
    have := Int.tmod_nonneg k (neg_nonneg.mpr ha)
    rw [Int.neg_tmod] at this
    omega
  refine ⟨?_, ?_, Int.tmod_nonneg k, hneg⟩ <;> rw [Int.abs_eq_natAbs] <;> omega

theorem inRange_sdiv {k : ℤ} (hk : 0 < k) (hx : InRange lo hi x) (hy : y.toInt = k) :
    InRange (lo.tdiv k) (hi.tdiv k) (x.sdiv y) := by
  have hne : y ≠ -1#32 := by
    rintro rfl
    rw [← hy] at hk
    exact absurd hk (by decide)
  unfold InRange
  rw [toInt_sdiv_of_ne_or_ne x y (Or.inr hne), hy]
  exact ⟨Int.tdiv_le_tdiv hk hx.1, Int.tdiv_le_tdiv hk hx.2⟩

theorem inRange_udiv {k : ℤ} (hk : 0 < k) (hlo : 0 ≤ lo) (hx : InRange lo hi x)
    (hy : y.toInt = k) : InRange (lo.tdiv k) (hi.tdiv k) (x / y) := by
  have hxn := toInt_of_nonneg (hlo.trans hx.1)
  have hyn := toInt_of_nonneg (hy ▸ hk.le)
  have hq : (x / y).toInt = x.toInt.tdiv k := by
    have hle : (x / y).toNat ≤ x.toNat := Nat.div_le_self _ _
    have hlt := (toInt_mem x).2
    unfold int32Max at hlt
    rw [toInt_of_toNat_lt (by omega), hxn, ← hy, hyn, toNat_udiv, Int.ofNat_tdiv]
  unfold InRange
  rw [hq]
  exact ⟨Int.tdiv_le_tdiv hk hx.1, Int.tdiv_le_tdiv hk hx.2⟩

theorem shiftRight_le_shiftRight {b : ℤ} (h : a ≤ b) (n : ℕ) : a >>> n ≤ b >>> n := by
  rw [Int.shiftRight_eq_div_pow, Int.shiftRight_eq_div_pow]
  exact Int.ediv_le_ediv (Int.natCast_pos.mpr (Nat.two_pow_pos n)) h

theorem inRange_sshiftRight (hx : InRange lo hi x) (n : ℕ) :
    InRange (lo >>> n) (hi >>> n) (x.sshiftRight n) := by
  unfold InRange
  rw [toInt_sshiftRight]
  exact ⟨shiftRight_le_shiftRight hx.1 n, shiftRight_le_shiftRight hx.2 n⟩

theorem toNat_of_toInt {k : ℤ} (hk : 0 ≤ k) (h : x.toInt = k) : x.toNat = k.toNat := by
  have := toInt_of_nonneg (h ▸ hk)
  omega

theorem inRange_shiftLeft (hx : InRange lo hi x) (hlo : int32Min ≤ lo * 2 ^ n)
    (hhi : hi * 2 ^ n ≤ int32Max) : InRange (lo * 2 ^ n) (hi * 2 ^ n) (x <<< n) := by
  have hpos : (0 : ℤ) ≤ 2 ^ n := pow_nonneg (by decide) n
  have hl := Int.mul_le_mul_of_nonneg_right hx.1 hpos
  have hh := Int.mul_le_mul_of_nonneg_right hx.2 hpos
  unfold InRange
  rw [toInt_shiftLeft_of_fits (hlo.trans hl) (hh.trans hhi)]
  exact ⟨hl, hh⟩

theorem inRange_ushiftRight (hlo : 0 ≤ lo) (hx : InRange lo hi x) (n : ℕ) :
    InRange (lo >>> n) (hi >>> n) (x >>> n) := by
  have hsame : x >>> n = x.sshiftRight n := by
    rw [sshiftRight_eq_of_msb_false]
    have hnonneg := hlo.trans hx.1
    rwa [msb_eq_toInt, decide_eq_false_iff_not, not_lt]
  rw [hsame]
  exact inRange_sshiftRight hx n

theorem inRange_ushiftRight_width (hn : 1 ≤ n) :
    InRange 0 (0xFFFFFFFF#32 >>> n).toNat (x >>> n) := by
  have hle : (x >>> n).toNat ≤ (0xFFFFFFFF#32 >>> n).toNat := by
    rw [toNat_ushiftRight, toNat_ushiftRight, Nat.shiftRight_eq_div_pow,
      Nat.shiftRight_eq_div_pow]
    exact Nat.div_le_div_right (le_pred_of_lt x.isLt)
  have hlt : (x >>> n).toNat < 2147483648 := by
    rw [toNat_ushiftRight, Nat.shiftRight_eq_div_pow]
    have h2 : 2 ^ 1 ≤ 2 ^ n := Nat.pow_le_pow_right (by decide) hn
    exact (div_le_div_left h2 (by decide)).trans_lt (by omega)
  unfold InRange
  rw [toInt_of_toNat_lt hlt]
  omega

theorem inRange_and {k : ℤ} (hk : 0 ≤ k) (hy : y.toInt = k) : InRange 0 k (x &&& y) := by
  have hyn := toInt_of_nonneg (hy ▸ hk)
  have hle : (x &&& y).toNat ≤ y.toNat := and_le_right
  have hlt := (toInt_mem y).2
  unfold int32Max at hlt
  unfold InRange
  rw [toInt_of_toNat_lt (by omega)]
  omega

theorem inRange_or_xor {m : ℕ} (hx : 0 ≤ x.toInt) (hy : 0 ≤ y.toInt) (hxm : x.toNat < 2 ^ m)
    (hym : y.toNat < 2 ^ m) :
    InRange 0 ((2 ^ m : ℕ) - 1) (x ||| y) ∧ InRange 0 ((2 ^ m : ℕ) - 1) (x ^^^ y) ∧
      x.toInt ≤ (x ||| y).toInt ∧ y.toInt ≤ (x ||| y).toInt := by
  have hxn := toInt_of_nonneg hx
  have hyn := toInt_of_nonneg hy
  have hxlt := (toInt_mem x).2
  have hylt := (toInt_mem y).2
  unfold int32Max at hxlt hylt
  have hor : (x ||| y).toNat < 2147483648 :=
    @or_lt_two_pow x.toNat y.toNat 31 (by omega) (by omega)
  have hxor : (x ^^^ y).toNat < 2147483648 :=
    @xor_lt_two_pow x.toNat y.toNat 31 (by omega) (by omega)
  have horm : (x ||| y).toNat < 2 ^ m := or_lt_two_pow hxm hym
  have hxorm : (x ^^^ y).toNat < 2 ^ m := xor_lt_two_pow hxm hym
  have hleft : x.toNat ≤ (x ||| y).toNat := left_le_or
  have hright : y.toNat ≤ (x ||| y).toNat := right_le_or
  unfold InRange
  rw [toInt_of_toNat_lt hor, toInt_of_toNat_lt hxor, hxn]
  omega

theorem getLsbD_widthMask (hw : width < 32) (i : ℕ) :
    (widthMask width).getLsbD i = decide (i < width) := by
  have hnat : (widthMask width).toNat = 2 ^ width - 1 := by
    have hpos := Nat.two_pow_pos width
    have hlt : 2 ^ width < 2 ^ 32 := Nat.pow_lt_pow_right (by decide) hw
    unfold widthMask
    rw [if_neg (by omega), ← twoPow_eq, toNat_sub, toNat_twoPow_of_lt hw]
    change (2 ^ 32 - 1 + 2 ^ width) % 2 ^ 32 = 2 ^ width - 1
    omega
  rw [BitVec.getLsbD, hnat, testBit_two_pow_sub_one]

theorem inRange_widthMask (hw : width < 32) :
    InRange 0 (2 ^ width - 1) (x &&& widthMask width) := by
  have hlt : (x &&& widthMask width).toNat < 2 ^ width := by
    apply lt_pow_two_of_testBit
    intro i hi
    rw [testBit_toNat, getLsbD_and, getLsbD_widthMask hw]
    simp [hi]
  have hle : 2 ^ width ≤ 2 ^ 31 := Nat.pow_le_pow_right (by decide) (by omega)
  have hcast : ((2 ^ width : ℕ) : ℤ) = 2 ^ width := by norm_cast
  unfold InRange
  rw [toInt_of_toNat_lt (by omega)]
  omega

theorem sbfx_eq_signExtend (h0 : 0 < width) (hw : width < 32) (y : BitVec 32) :
    let x := y &&& widthMask width
    (if x &&& (1#32 <<< (width - 1)) ≠ 0#32 then x ||| ~~~widthMask width else x) =
      (y.setWidth width).signExtend 32 := by
  intro x
  have hmsb : (y.setWidth width).msb = y.getLsbD (width - 1) := by
    rw [msb_eq_getLsbD_last, getLsbD_setWidth, decide_eq_true (by omega),
      Bool.true_and]
  have hbit : x &&& (1#32 <<< (width - 1)) ≠ 0#32 ↔ y.getLsbD (width - 1) = true := by
    rw [← twoPow_eq, and_twoPow_ne_zero_iff (by omega), getLsbD_and,
      getLsbD_widthMask hw, decide_eq_true (by omega), Bool.and_true]
  apply eq_of_getLsbD_eq
  intro i hi
  rw [getLsbD_signExtend, hmsb]
  by_cases hb : y.getLsbD (width - 1) = true
  · rw [if_pos (hbit.mpr hb), getLsbD_or, getLsbD_and, getLsbD_not,
      getLsbD_widthMask hw]
    by_cases hiw : i < width <;> simp [hi, hiw, hb]
  · rw [if_neg (hbit.not.mpr hb), getLsbD_and, getLsbD_widthMask hw]
    by_cases hiw : i < width <;> simp [hi, hiw, hb]

theorem inRange_sbfx (h0 : 0 < width) (hw : width < 32) (y : BitVec width) :
    InRange (-2 ^ (width - 1)) (2 ^ (width - 1) - 1) (y.signExtend 32) := by
  have hlo := le_toInt y
  have hhi := @toInt_lt width y
  unfold InRange
  rw [toInt_signExtend_of_le (by omega)]
  omega

end Arithmetic

section Seeds

variable {World : Type} {M : ValueSem World} {σ : Vreg → BitVec 64} {w : World} {s : SVState}
  {q : IRQuadCompact} {dslot : ℕ} {src1 src2 : IROperand} {op : TccIrOp} {r : BitVec 32}
  {bfi : BitVec 16}

theorem holds_svSeedAssign (hd : (s.ranges dslot).Holds r)
    (h1 : OperandHolds s src1 (M.word src1 σ w)) (hr : r = M.word src1 σ w) :
    ((svSeedAssign s dslot src1).ranges dslot).Holds r := by
  unfold svSeedAssign
  by_cases himm : src1.isImmediate = true
  · rw [if_pos himm]
    cases hc : svReadConst32 src1 with
    | none => exact hd
    | some c =>
      have hword := @word_of_svReadConst32 World M σ w src1 c himm hc
      apply holds_svSet hd
      rw [hr]
      exact ⟨hword.ge, hword.le⟩
  · rw [if_neg himm]
    cases hc : svSlotRange s src1 with
    | none => exact hd
    | some p => exact holds_svSet hd (hr ▸ inRange_of_svSlotRange h1 hc)

theorem inRange_zeroExtend {k : ℕ} (hk : k < 32) (x : BitVec k) :
    InRange 0 (2 ^ k - 1) (x.zeroExtend 32) := by
  have hpow : 2 ^ k ≤ 2 ^ 31 := Nat.pow_le_pow_right (by decide) (by omega)
  have hn : (x.zeroExtend 32).toNat = x.toNat := toNat_setWidth_of_le hk.le
  unfold InRange
  rw [toInt_of_toNat_lt (by omega)]
  have hcast : ((2 ^ k : ℕ) : ℤ) = 2 ^ k := by push_cast; rfl
  omega

theorem inRange_word_of_narrow (hl : src1.isLval = true) :
    (src1.btype = .int8 → InRange (if src1.isUnsigned then 0 else -128)
      (if src1.isUnsigned then 255 else 127) (M.word src1 σ w)) ∧
    (src1.btype = .int16 → InRange (if src1.isUnsigned then 0 else -32768)
      (if src1.isUnsigned then 65535 else 32767) (M.word src1 σ w)) := by
  have hfit : M.word src1 σ w = loWord (ValueSem.fit src1 (M.mem src1 σ w)) := by
    unfold ValueSem.word ValueSem.operand
    rw [if_pos hl]
  rw [hfit]
  unfold ValueSem.fit
  constructor
  · intro hb
    have h64 : ¬src1.is64 = true := by simp [IROperand.is64, hb]
    simp only [h64, hl, hb, and_self, Bool.false_eq_true, if_true, if_false, loWord_ofWord]
    split
    · exact inRange_zeroExtend (by decide) _
    · exact inRange_sbfx (by decide) (by decide) _
  · intro hb
    have h64 : ¬src1.is64 = true := by simp [IROperand.is64, hb]
    have h8 : ¬IropBtype.int16 = IropBtype.int8 := by decide
    simp only [h64, hl, hb, h8, and_self, and_false, Bool.false_eq_true, if_true, if_false,
      loWord_ofWord]
    split
    · exact inRange_zeroExtend (by decide) _
    · exact inRange_sbfx (by decide) (by decide) _

section

variable (hd : (s.ranges dslot).Holds r)
include hd

theorem holds_svSeedWidth (hr : r = M.word src1 σ w) :
    ((svSeedWidth s dslot src1).ranges dslot).Holds r := by
  unfold svSeedWidth
  by_cases hl : src1.isLval = false ∨ src1.isLlocal = true
  · rw [if_pos hl]
    exact hd
  have hlval : src1.isLval = true := by
    rw [← Bool.not_eq_false]
    exact fun h => hl (Or.inl h)
  have hnarrow := @inRange_word_of_narrow World M σ w src1 hlval
  rw [if_neg hl]
  by_cases h8 : src1.btype = .int8
  · rw [if_pos h8]
    exact holds_svSetIntersect hd (hr ▸ hnarrow.1 h8)
  rw [if_neg h8]
  by_cases h16 : src1.btype = .int16
  · rw [if_pos h16]
    exact holds_svSetIntersect hd (hr ▸ hnarrow.2 h16)
  · rw [if_neg h16]
    exact hd

theorem holds_svSeedAddsub
    (h1 : OperandHolds s src1 (M.word src1 σ w)) (h2 : OperandHolds s src2 (M.word src2 σ w))
    (hr : r = if op = .add then M.word src1 σ w + M.word src2 σ w
      else M.word src1 σ w - M.word src2 σ w) :
    ((svSeedAddsub s dslot op src1 src2).ranges dslot).Holds r := by
  unfold svSeedAddsub
  cases ha : svOperandRange s src1 with
  | none => exact hd
  | some a =>
    cases hb : svOperandRange s src2 with
    | none => exact hd
    | some b =>
      have hx := inRange_of_svOperandRange h1 ha
      have hy := inRange_of_svOperandRange h2 hb
      unfold InRange at hx hy
      dsimp only
      by_cases hop : op = .add
      · rw [if_pos hop] at hr
        rw [if_pos hop, if_pos hop]
        refine holds_ite hd fun hfit => holds_svSet hd ?_
        unfold InRange
        rw [hr, toInt_add_of_fits] <;> omega
      · rw [if_neg hop] at hr
        rw [if_neg hop, if_neg hop]
        refine holds_ite hd fun hfit => holds_svSet hd ?_
        unfold InRange
        rw [hr, toInt_sub_of_fits] <;> omega

theorem holds_svSeedSelect
    (h1 : OperandHolds s src1 (M.word src1 σ w)) (h2 : OperandHolds s src2 (M.word src2 σ w))
    (hr : r = M.word src1 σ w ∨ r = M.word src2 σ w) :
    ((svSeedSelect s dslot src1 src2).ranges dslot).Holds r := by
  unfold svSeedSelect
  cases ha : svOperandRange s src1 with
  | none => exact hd
  | some a =>
    cases hb : svOperandRange s src2 with
    | none => exact hd
    | some b =>
      have hx := inRange_of_svOperandRange h1 ha
      have hy := inRange_of_svOperandRange h2 hb
      apply holds_svSetIntersect hd
      unfold InRange at *
      rcases hr with rfl | rfl <;> constructor <;> split <;> omega

end

theorem isImmediate_of_isPlainImm {op : IROperand} (h : ¬op.isPlainImm = false) :
    op.isImmediate = true := by
  rw [Bool.not_eq_false] at h
  unfold IROperand.isPlainImm at h
  rw [Bool.and_eq_true, Bool.and_eq_true] at h
  exact h.1.1

variable {xlo xhi : ℤ}

theorem inRange_imod {x y : BitVec 32} {k : ℤ} (hk : k ≠ 0) (hy : y.toInt = k)
    (hx : InRange xlo xhi x) :
    InRange (if 0 ≤ xlo then 0 else -((if k < 0 then -k else k) - 1))
      (if xhi ≤ 0 then 0 else (if k < 0 then -k else k) - 1) (x.srem y) := by
  have hb := @tmod_bounds x.toInt k hk
  have habs : |k| = if k < 0 then -k else k := by
    split_ifs with h
    · exact abs_of_neg h
    · exact abs_of_nonneg (not_lt.mp h)
  unfold InRange at *
  rw [toInt_srem, hy]
  constructor <;> split <;> omega

theorem inRange_umod {x y : BitVec 32} {k : ℤ} (hk : 0 < k) (hy : y.toInt = k) :
    InRange 0 (k - 1) (x % y) := by
  have hyn := toInt_of_nonneg (hy ▸ hk.le)
  have hlt : (x % y).toNat < y.toNat := mod_lt _ (by omega)
  have hmax := (toInt_mem y).2
  unfold int32Max at hmax
  unfold InRange
  rw [toInt_of_toNat_lt (by omega)]
  omega

theorem inRange_mul {x y : BitVec 32} {k : ℤ} (hy : y.toInt = k) (hx : InRange xlo xhi x)
    (hlo : int32Min ≤ (if k < 0 then xhi else xlo) * k)
    (hhi : (if k < 0 then xlo else xhi) * k ≤ int32Max) :
    InRange ((if k < 0 then xhi else xlo) * k) ((if k < 0 then xlo else xhi) * k) (x * y) := by
  have hb : (if k < 0 then xhi else xlo) * k ≤ x.toInt * k ∧
      x.toInt * k ≤ (if k < 0 then xlo else xhi) * k := by
    split_ifs with h
    · exact ⟨Int.mul_le_mul_of_nonpos_right hx.2 h.le, Int.mul_le_mul_of_nonpos_right hx.1 h.le⟩
    · have hk := not_lt.mp h
      exact ⟨Int.mul_le_mul_of_nonneg_right hx.1 hk, Int.mul_le_mul_of_nonneg_right hx.2 hk⟩
  unfold InRange
  rw [toInt_mul_of_fits, hy]
  · exact hb
  · rw [hy]
    exact hlo.trans hb.1
  · rw [hy]
    exact hb.2.trans hhi

theorem holds_svSeedMuldiv (hd : (s.ranges dslot).Holds r)
    (h1 : OperandHolds s src1 (M.word src1 σ w))
    (hop : op = .mul ∨ op = .div ∨ op = .udiv ∨ op = .umod ∨ op = .imod)
    (hr : aluWord op (M.word src1 σ w) (M.word src2 σ w) = some r) :
    ((svSeedMuldiv s dslot op src1 src2).ranges dslot).Holds r := by
  unfold svSeedMuldiv
  by_cases hp : src2.isPlainImm = false
  · rw [if_pos hp]
    exact hd
  rw [if_neg hp]
  cases hk : svReadConst32 src2 with
  | none => exact hd
  | some k =>
    have hy := @word_of_svReadConst32 World M σ w src2 k (isImmediate_of_isPlainImm hp) hk
    have h0 : M.word src2 σ w = 0#32 → k = 0 := by
      intro h
      rw [← hy, h]
      rfl
    dsimp only
    -- the remainders have bounds even if nothing is known of the dividend
    rcases hop with rfl | rfl | rfl | rfl | rfl
    case inr.inr.inr.inl =>
      by_cases hpos : 0 < k
      · have hne : ¬M.word src2 σ w = 0#32 := fun h => by have := h0 h; omega
        cases (if_neg hne).symm.trans hr
        rw [if_pos hpos]
        exact holds_svSetIntersect hd (inRange_umod hpos hy)
      · rw [if_neg hpos]
        exact hd
    case inr.inr.inr.inr =>
      by_cases hz : k = 0
      · rw [if_pos hz]
        exact hd
      have hne : ¬M.word src2 σ w = 0#32 := fun h => hz (h0 h)
      cases (if_neg hne).symm.trans hr
      rw [if_neg hz]
      cases hx : svOperandRange s src1 with
      | none => exact holds_svSetIntersect hd (inRange_imod hz hy (toInt_mem _))
      | some a =>
        exact holds_svSetIntersect hd (inRange_imod hz hy (inRange_of_svOperandRange h1 hx))
    -- the product and the quotients need the range of the left operand
    all_goals
      rw [if_neg (by decide), if_neg (by decide)]
      cases hx : svOperandRange s src1
      case none => exact hd
      have hxr := inRange_of_svOperandRange h1 hx
      dsimp only
    case inl.some =>
      cases hr
      rw [if_pos rfl]
      exact holds_ite hd fun hfit => holds_svSet hd (inRange_mul hy hxr hfit.1 hfit.2)
    case inr.inl.some a =>
      by_cases hneg : k ≤ 0 ∨ TccIrOp.div = .udiv ∧ a.1 < 0
      · rw [if_pos hneg]
        exact hd
      have hpos : 0 < k := not_le.mp fun h => hneg (Or.inl h)
      have hne : ¬M.word src2 σ w = 0#32 := fun h => by have := h0 h; omega
      cases (if_neg hne).symm.trans hr
      rw [if_neg hneg]
      exact holds_svSet hd (inRange_sdiv hpos hxr hy)
    case inr.inr.inl.some a =>
      by_cases hneg : k ≤ 0 ∨ TccIrOp.udiv = .udiv ∧ a.1 < 0
      · rw [if_pos hneg]
        exact hd
      have hpos : 0 < k := not_le.mp fun h => hneg (Or.inl h)
      have hlo : 0 ≤ a.1 := not_lt.mp fun h => hneg (Or.inr ⟨rfl, h⟩)
      have hne : ¬M.word src2 σ w = 0#32 := fun h => by have := h0 h; omega
      cases (if_neg hne).symm.trans hr
      rw [if_neg hneg]
      exact holds_svSet hd (inRange_udiv hpos hlo hxr hy)

theorem growMask_spec {v : ℤ} (hv : v < 2 ^ 63) :
    ∃ m : ℕ, growMask v = some (2 ^ m) ∧ v < (2 ^ m : ℕ) := by
  have hstep : ∀ t : ℕ, (∃ m ≤ 63, t = 2 ^ m) → decide ((t : ℤ) ≤ v) = true →
      (∃ m ≤ 63, t <<< 1 = 2 ^ m) ∧ 63 - Nat.log2 (t <<< 1) < 63 - Nat.log2 t := by
    rintro t ⟨m, hm, rfl⟩ hle
    have hlt : m < 63 := by
      rcases Nat.lt_or_ge m 63 with h | h
      · exact h
      · obtain rfl : m = 63 := by omega
        have := of_decide_eq_true hle
        omega
    have hdouble : 2 ^ m <<< 1 = 2 ^ (m + 1) := by rw [Nat.shiftLeft_eq, pow_one, pow_succ]
    refine ⟨⟨m + 1, hlt, hdouble⟩, ?_⟩
    rw [hdouble, log2_two_pow, log2_two_pow]
    omega
  obtain ⟨t, ht, ⟨m, _, rfl⟩, hcond⟩ := whileLoop_total (fun t : ℕ => ∃ m ≤ 63, t = 2 ^ m)
    (fun t => 63 - Nat.log2 t) hstep 64 1 ⟨0, by omega, rfl⟩ (by decide)
  exact ⟨m, ht, not_le.mp (of_decide_eq_false hcond)⟩

theorem toInt_or_of_nonneg {a b : ℤ} (ha : 0 ≤ a) (hb : 0 ≤ b) (ha' : a ≤ int32Max)
    (hb' : b ≤ int32Max) :
    (BitVec.ofInt 64 a ||| BitVec.ofInt 64 b).toInt = (a.toNat ||| b.toNat : ℕ) := by
  unfold int32Max at ha' hb'
  have hlt : a.toNat ||| b.toNat < 2 ^ 31 := or_lt_two_pow (by omega) (by omega)
  have hna : (BitVec.ofInt 64 a).toNat = a.toNat := by
    rw [toNat_ofInt]
    omega
  have hnb : (BitVec.ofInt 64 b).toNat = b.toNat := by
    rw [toNat_ofInt]
    omega
  rw [toInt_eq_toNat_cond, toNat_or, hna, hnb, if_pos (by omega)]

theorem holds_svSeedOrxor (hd : (s.ranges dslot).Holds r)
    (h1 : OperandHolds s src1 (M.word src1 σ w)) (hop : op = .or ∨ op = .xor)
    (hr : aluWord op (M.word src1 σ w) (M.word src2 σ w) = some r) :
    ((svSeedOrxor s dslot op src1 src2).ranges dslot).Holds r := by
  unfold svSeedOrxor
  by_cases hp : src2.isPlainImm = false
  · rw [if_pos hp]
    exact hd
  rw [if_neg hp]
  cases hk : svReadConst32 src2 with
  | none => exact hd
  | some k =>
    cases hx : svOperandRange s src1 with
    | none => exact hd
    | some a =>
      have hy := @word_of_svReadConst32 World M σ w src2 k (isImmediate_of_isPlainImm hp) hk
      have hxr := inRange_of_svOperandRange h1 hx
      dsimp only
      by_cases hneg : k < 0 ∨ a.1 < 0
      · rw [if_pos hneg]
        exact hd
      rw [if_neg hneg]
      have hpos : 0 ≤ k ∧ 0 ≤ a.1 := by omega
      have hk32 : k ≤ int32Max := hy ▸ (toInt_mem _).2
      unfold InRange at hxr
      obtain ⟨m, hm, hlt⟩ := @growMask_spec (BitVec.ofInt 64 a.2 ||| BitVec.ofInt 64 k).toInt
        (toInt_lt)
      rw [toInt_or_of_nonneg (by omega) hpos.1 (svOperandRange_le hx) hk32] at hlt
      have hleft : a.2.toNat ≤ a.2.toNat ||| k.toNat := left_le_or
      have hright : k.toNat ≤ a.2.toNat ||| k.toNat := right_le_or
      have hxn := toInt_of_nonneg (hpos.2.trans hxr.1)
      have hyn := toInt_of_nonneg (hy.symm ▸ hpos.1 : 0 ≤ (M.word src2 σ w).toInt)
      obtain ⟨hor, hxor, hge1, hge2⟩ := @inRange_or_xor (M.word src1 σ w) (M.word src2 σ w) m
        (by omega) (by omega) (by omega) (by omega)
      rw [hm]
      rcases hop with rfl | rfl
      · cases hr
        apply holds_svSetIntersect hd
        refine ⟨?_, hor.2⟩
        split <;> omega
      · cases hr
        exact holds_svSetIntersect hd hxor

theorem bfxWidth_bounds (f : BitVec 32) : 0 < bfxWidth f ∧ bfxWidth f < 32 := by
  have hlt : ((f >>> 5) &&& 0x1F#32).toNat < 32 :=
    Nat.lt_of_le_of_lt and_le_right (by decide)
  unfold bfxWidth
  dsimp only
  split_ifs <;> omega

theorem holds_svSeedBfx {y : BitVec 64} (hd : (s.ranges dslot).Holds (loWord y))
    (h64 : q.dest.is64 = false) (hq : q.op = op) (hop : op = .ubfx ∨ op = .sbfx) {bs : BitVec 8}
    (hy : M.instrValue bs bfi q σ w = some y) :
    ((svSeedBfx s dslot op q.src2).ranges dslot).Holds (loWord y) := by
  unfold svSeedBfx
  by_cases hi : q.src2.isImmediate = false
  · rw [if_pos hi]
    exact hd
  have hf : loWord (M.operand q.src2 σ w) = q.src2.getImm32 := by
    rw [operand_of_isImmediate (by simpa using hi)]
    rfl
  obtain ⟨h0, h32⟩ := bfxWidth_bounds q.src2.getImm32
  rw [if_neg hi]
  rw [if_neg (by omega)]
  unfold ValueSem.instrValue ValueSem.field at hy
  rw [hq] at hy
  rcases hop with rfl | rfl
  · rw [h64, hf] at hy
    cases hy
    apply holds_svSet hd
    rw [loWord_ofWord]
    exact inRange_widthMask h32
  · dsimp only at hy
    rw [h64, hf, sbfx_eq_signExtend h0 h32] at hy
    cases hy
    apply holds_svSet hd
    rw [loWord_ofWord]
    exact inRange_sbfx h0 h32 _

section

variable (hd : (s.ranges dslot).Holds r)
include hd

theorem holds_svSeedShr
    (h1 : OperandHolds s src1 (M.word src1 σ w)) {k : ℕ} (hr : r = M.word src1 σ w >>> k) :
    ((svSeedShr s q dslot src1 k).ranges dslot).Holds r := by
  have hwidth : 1 ≤ k ∧ (q.dest.btype ≠ .int64 ∧ src1.btype ≠ .int64) →
      InRange 0 (0xFFFFFFFF#32 >>> k).toNat r := fun h => hr ▸ inRange_ushiftRight_width h.1
  unfold svSeedShr
  cases hx : svSlotRange s src1 with
  | none => exact holds_ite hd fun h => holds_svSet hd (hwidth h)
  | some a =>
    have hxr := inRange_of_svSlotRange h1 hx
    dsimp only
    by_cases hlo : 0 ≤ a.1
    · have hshift : InRange (a.1 >>> k) (a.2 >>> k) r := hr ▸ inRange_ushiftRight hlo hxr k
      have hnonneg : 0 ≤ a.1 >>> k := by
        rw [Int.shiftRight_eq_div_pow]
        exact Int.ediv_nonneg hlo (Int.natCast_nonneg _)
      rw [if_pos hlo]
      refine holds_ite hd fun _ => holds_svSet hd ?_
      have hhi : r.toInt ≤ if 1 ≤ k ∧ q.dest.btype ≠ .int64 ∧ src1.btype ≠ .int64 then
          ((0xFFFFFFFF#32 >>> k).toNat : ℤ) else a.2 >>> k := by
        split_ifs with hw
        · exact (hwidth hw).2
        · exact hshift.2
      generalize (if 1 ≤ k ∧ q.dest.btype ≠ .int64 ∧ src1.btype ≠ .int64 then
        ((0xFFFFFFFF#32 >>> k).toNat : ℤ) else a.2 >>> k) = top at hhi ⊢
      constructor
      · split
        · exact hshift.1
        · exact hnonneg.trans hshift.1
      · split
        · exact hshift.2
        · exact hhi
    · rw [if_neg hlo]
      exact holds_ite hd fun h => holds_svSet hd (hwidth h)

theorem holds_svSeedBitop
    (h1 : OperandHolds s src1 (M.word src1 σ w))
    (hop : op = .and ∨ op = .shl ∨ op = .shr ∨ op = .sar)
    (hr : aluWord op (M.word src1 σ w) (M.word src2 σ w) = some r) :
    ((svSeedBitop s q dslot op src1 src2).ranges dslot).Holds r := by
  unfold svSeedBitop
  by_cases hi : src2.isImmediate = false
  · rw [if_pos hi]
    exact hd
  rw [if_neg hi]
  cases hk : svReadConst32 src2 with
  | none => exact hd
  | some k =>
    have hy := @word_of_svReadConst32 World M σ w src2 k (by simpa using hi) hk
    dsimp only
    by_cases hand : op = .and
    · subst hand
      cases hr
      by_cases hneg : k < 0
      · rw [if_pos hneg]
        exact hd
      rw [if_neg hneg]
      have hmask := @inRange_and (M.word src1 σ w) _ k (by omega) hy
      cases hx : svSlotRange s src1 with
      | none => exact holds_svSet hd hmask
      | some a =>
        have hxr := inRange_of_svSlotRange h1 hx
        refine holds_svSet hd ⟨hmask.1, ?_⟩
        split
        · next hx0 =>
          -- both numbers are not negative: the conjunction is below each
          rw [BitVec.and_comm]
          have hx0' : 0 ≤ (M.word src1 σ w).toInt := hx0.1.trans hxr.1
          exact (inRange_and hx0' rfl).2.trans hxr.2
        · exact hmask.2
    rw [if_neg hand]
    by_cases hrange : k < 0 ∨ 31 < k
    · rw [if_pos hrange]
      exact hd
    rw [if_neg hrange]
    have hamount : (M.word src2 σ w).toNat = k.toNat := toNat_of_toInt (by omega) hy
    have hshift : (M.word src2 σ w).toNat < 256 := by omega
    rcases hop with rfl | rfl | rfl | rfl
    · exact absurd rfl hand
    · cases (if_pos hshift).symm.trans hr
      rw [if_neg (by decide)]
      cases hx : svSlotRange s src1 with
      | none => exact hd
      | some a =>
        have hxr := inRange_of_svSlotRange h1 hx
        dsimp only
        rw [if_pos rfl]
        refine holds_ite hd fun hfit => holds_svSet hd ?_
        rw [hamount]
        exact inRange_shiftLeft hxr hfit.1 hfit.2
    · cases (if_pos hshift).symm.trans hr
      exact holds_svSeedShr hd h1 (by rw [hamount])
    · cases (if_pos hshift).symm.trans hr
      cases hx : svSlotRange s src1 with
      | none => exact hd
      | some a =>
        apply holds_svSet hd
        rw [hamount]
        exact inRange_sshiftRight (inRange_of_svSlotRange h1 hx) _

theorem holds_svSeedSarWidth {x : BitVec 32}
    (hr : aluWord .sar x (M.word src2 σ w) = some r) :
    ((svSeedSarWidth s q dslot src1 src2).ranges dslot).Holds r := by
  unfold svSeedSarWidth
  by_cases hp : src2.isPlainImm = false
  · rw [if_pos hp]
    exact hd
  rw [if_neg hp]
  cases hk : svReadConst32 src2 with
  | none => exact hd
  | some k =>
    have hy := @word_of_svReadConst32 World M σ w src2 k (isImmediate_of_isPlainImm hp) hk
    dsimp only
    by_cases hrange : k < 1 ∨ 31 < k
    · rw [if_pos hrange]
      exact hd
    have hamount : (M.word src2 σ w).toNat = k.toNat := toNat_of_toInt (by omega) hy
    have hshift : (M.word src2 σ w).toNat < 256 := by omega
    cases (if_pos hshift).symm.trans hr
    rw [if_neg hrange]
    split
    · exact hd
    · apply holds_svSetIntersect hd
      rw [hamount]
      exact inRange_sshiftRight (toInt_mem x) _

end

end Seeds

section Definition

variable {World : Type}

/-- The value of an instruction that the pass gives a range: that of the arithmetic, or of a logical
connective of two words. -/
def ValueSem.seedValue (M : ValueSem World) (bs : BitVec 8) (bfi : BitVec 16) (q : IRQuadCompact)
    (σ : Vreg → BitVec 64) (w : World) : Option (BitVec 64) :=
  match q.op with
  | .boolOr => some (if M.operand q.src1 σ w ≠ 0#64 ∨ M.operand q.src2 σ w ≠ 0#64 then 1 else 0)
  | .boolAnd => some (if M.operand q.src1 σ w ≠ 0#64 ∧ M.operand q.src2 σ w ≠ 0#64 then 1 else 0)
  | _ => M.instrValue bs bfi q σ w

variable {M : ValueSem World} {σ : Vreg → BitVec 64} {w : World} {s : SVState}
  {q : IRQuadCompact} {bfi : BitVec 16} {y : BitVec 64}

theorem aluWord_of_alu (h64 : q.dest.is64 = false) (hh : q.takesHighHalf 0#8 = false)
    (h : M.alu 0#8 q σ w = some y) :
    aluWord q.op (M.word q.src1 σ w) (M.word q.src2 σ w) = some (loWord y) := by
  unfold ValueSem.alu at h
  rw [h64, hh] at h
  obtain ⟨r, hr, rfl⟩ := map_eq_some_iff.mp h
  rw [loWord_ofWord]
  exact hr

theorem inRange_truth (p : Prop) [Decidable p] : InRange 0 1 (loWord (if p then 1 else 0)) := by
  split
  · exact ⟨by decide, by decide⟩
  · exact ⟨by decide, by decide⟩

theorem svSeedBitop_of_takesHighHalf {bs : BitVec 8} {dslot : ℕ} {op : TccIrOp} (hop : op ≠ .and)
    (h : q.takesHighHalf bs = true) : svSeedBitop s q dslot op q.src1 q.src2 = s := by
  have hval : q.src2.getImm64 = 32#64 := by
    unfold IRQuadCompact.takesHighHalf at h
    simp only [Bool.and_eq_true, decide_eq_true_eq] at h
    exact h.1.2
  unfold svSeedBitop
  by_cases hi : q.src2.isImmediate = false
  · rw [if_pos hi]
  rw [if_neg hi]
  cases hk : svReadConst32 q.src2 with
  | none => rfl
  | some k =>
    have h32 : k = 32 := by
      unfold svReadConst32 IROperand.getImm32 at hk
      rw [hval] at hk
      split_ifs at hk
      cases hk
      rfl
    dsimp only
    rw [if_neg hop, if_pos (Or.inr (by omega))]

theorem svSeedDef_sound {dslot : ℕ} (h64 : q.dest.is64 = false)
    (hy : M.seedValue (s.ctx.barrelShiftAt q) bfi q σ w = some y)
    (h1 : OperandHolds s q.src1 (M.word q.src1 σ w))
    (h2 : OperandHolds s q.src2 (M.word q.src2 σ w))
    (hslot : svSlot s q.dest.vreg = some dslot) (hd : (s.ranges dslot).Holds (loWord y)) :
    ((svSeedDef s q).ranges dslot).Holds (loWord y) := by
  unfold svSeedDef
  split
  · exact hd
  split
  · exact hd
  rw [hslot]
  dsimp only
  split
  · exact hd
  next hbs =>
  rw [not_not.mp hbs] at hy
  have halu : q.op ≠ .shr → M.alu 0#8 q σ w = some y →
      aluWord q.op (M.word q.src1 σ w) (M.word q.src2 σ w) = some (loWord y) := by
    intro hop h
    refine aluWord_of_alu h64 ?_ h
    unfold IRQuadCompact.takesHighHalf
    simp [hop]
  have hcopy : ∀ src, loWord (M.copy q.dest src σ w) = M.word src σ w := by
    intro src
    rw [copy_of_word h64, loWord_ofWord]
    rfl
  unfold ValueSem.seedValue ValueSem.instrValue at hy
  cases hop : q.op
  all_goals
    simp only [hop] at hy halu
  case assign | load =>
    cases hy
    exact holds_svSeedWidth (holds_svSeedAssign hd h1 (hcopy _)) (hcopy _)
  case add =>
    exact holds_svSeedAddsub hd h1 h2 (some.inj (halu (by decide) hy)).symm
  case sub =>
    exact holds_svSeedAddsub hd h1 h2 (some.inj (halu (by decide) hy)).symm
  case mul | div | udiv | umod | imod =>
    exact holds_svSeedMuldiv hd h1 (by simp) (halu (by decide) hy)
  case or | xor => exact holds_svSeedOrxor hd h1 (by simp) (halu (by decide) hy)
  case and | shl => exact holds_svSeedBitop hd h1 (by simp) (halu (by decide) hy)
  case sar =>
    have hr := halu (by decide) hy
    exact holds_svSeedSarWidth (holds_svSeedBitop hd h1 (by simp) hr) hr
  case select =>
    obtain ⟨taken, _, rfl⟩ := map_eq_some_iff.mp hy
    apply holds_svSeedSelect hd h1 h2
    cases taken
    · exact Or.inr (hcopy _)
    · exact Or.inl (hcopy _)
  case setif =>
    obtain ⟨taken, _, rfl⟩ := map_eq_some_iff.mp hy
    exact holds_svSet hd (inRange_truth _)
  case boolOr | boolAnd =>
    cases hy
    exact holds_svSet hd (inRange_truth _)
  case ubfx | sbfx =>
    refine holds_svSeedBfx hd h64 hop (by simp) (?_ : M.instrValue 0#8 bfi q σ w = some y)
    unfold ValueSem.instrValue
    simp only [hop]
    exact hy
  case shr =>
    by_cases hh : q.takesHighHalf 0#8 = false
    · have hr := aluWord_of_alu h64 hh hy
      rw [hop] at hr
      exact holds_svSeedBitop hd h1 (by simp) hr
    · rw [svSeedBitop_of_takesHighHalf (by decide) (by simpa using hh)]
      exact hd
  all_goals exact hd

/-- A verdict holds of all values in the ranges, and the result of an operation on words lies in the
range recorded for its destination. -/
theorem svRanges_sound :
    (∀ (lo hi c x : BitVec 32) (tok : BitVec 32) (r : Bool),
      svRangeVerdict lo.toInt hi.toInt c.toInt tok = some r → InRange lo.toInt hi.toInt x →
      jumpTaken tok (cmpFlags x c) = some r) ∧
    (∀ (alo ahi blo bhi x y : BitVec 32) (tok : BitVec 32) (r : Bool),
      svRangeVerdict2 alo.toInt ahi.toInt blo.toInt bhi.toInt tok = some r →
      InRange alo.toInt ahi.toInt x → InRange blo.toInt bhi.toInt y →
      jumpTaken tok (cmpFlags x y) = some r) ∧
    ∀ (World : Type) (M : ValueSem World) (s : SVState) (q : IRQuadCompact) (bfi : BitVec 16)
      (σ : Vreg → BitVec 64) (w : World) (y : BitVec 64) (dslot : ℕ),
      q.dest.is64 = false → M.seedValue (s.ctx.barrelShiftAt q) bfi q σ w = some y →
      OperandHolds s q.src1 (M.word q.src1 σ w) → OperandHolds s q.src2 (M.word q.src2 σ w) →
      svSlot s q.dest.vreg = some dslot → (s.ranges dslot).Holds (loWord y) →
      ((svSeedDef s q).ranges dslot).Holds (loWord y) := by
  refine ⟨?_, ?_, ?_⟩
  · intro lo hi c x tok r h hx
    exact svRangeVerdict_sound h hx.1 hx.2
  · intro alo ahi blo bhi x y tok r h hx hy
    exact svRangeVerdict2_sound h hx hy
  · intro World M s q bfi σ w y dslot h64 hy h1 h2 hslot hd
    exact svSeedDef_sound h64 hy h1 h2 hslot hd

def smallParamState : SVState :=
  { ctx :=
      { ir := { compactInstructions := [] },
        cfg := IRCFG.init 0, vinfo := fun _ => none, barrelShifts := fun _ => 0#8,
        bfiParams := fun _ => 0#16, isJumpTarget := fun _ => false,
        accessIsVolatile := fun _ => false, symVolatile := fun _ => false,
        symFloat := fun _ => false },
    ranges := fun slot => if slot = 1 then ⟨1#32, 10#32, true⟩ else ⟨0#32, 0#32, false⟩,
    tempCap := 1, paramStable := fun _ => true, paramCap := 1, varStable := fun _ => false,
    varCap := 0 }

def tripleQuad : IRQuadCompact :=
  ⟨.mul, 0, .makeVreg ⟨.temp, 0⟩ .int32, .makeVreg ⟨.param, 0⟩ .int32, .makeImm32 3#32 .int32,
    .none⟩

theorem svRanges_sound_triple :
    (svSeedDef smallParamState tripleQuad).ranges 0 = ⟨3#32, 30#32, true⟩ ∧
      SVRange.Holds ⟨3#32, 30#32, true⟩ 21#32 ∧
      svRangeVerdict 3 30 0 0x97#32 = some true ∧
      jumpTaken 0x97#32 (cmpFlags 21#32 0#32) = some true ∧
      svRangeVerdict2 3 30 40 50 0x92#32 = some true ∧
      jumpTaken 0x92#32 (cmpFlags 21#32 45#32) = some true := by
  have hrange : (svSeedDef smallParamState tripleQuad).ranges 0 = ⟨3#32, 30#32, true⟩ := by decide
  obtain ⟨hverdict, hverdict2, hseed⟩ := svRanges_sound
  refine ⟨hrange, ?_, by decide, ?_, by decide, ?_⟩
  · have h := hseed Unit ValueSem.closed smallParamState tripleQuad 0#16 (fun _ => 7#64) () 21#64 0
      rfl (by decide) ?_ ?_ rfl (fun h => by cases h)
    · exact h
    · intro sl hsl _
      cases hsl
      exact ⟨by decide, by decide⟩
    · intro sl hsl
      cases hsl
  · exact hverdict 3#32 30#32 0#32 21#32 _ _ (by decide) ⟨by decide, by decide⟩
  · exact hverdict2 3#32 30#32 40#32 50#32 21#32 45#32 _ _ (by decide) ⟨by decide, by decide⟩
      ⟨by decide, by decide⟩

end Definition

end Tinycc
