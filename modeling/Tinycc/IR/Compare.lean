import Tinycc.IR.Words

namespace Tinycc
open BitVec Int

inductive CmpCond
  | eq | ne | lt | ge | le | gt | ult | uge | ule | ugt
  deriving DecidableEq, Repr

namespace CmpCond

variable {n : ℕ}

def ofTok (tok : BitVec 32) : Option CmpCond :=
  if tok = 0x94#32 then some .eq
  else if tok = 0x95#32 then some .ne
  else if tok = 0x9c#32 then some .lt
  else if tok = 0x9d#32 then some .ge
  else if tok = 0x9e#32 then some .le
  else if tok = 0x9f#32 then some .gt
  else if tok = 0x92#32 then some .ult
  else if tok = 0x93#32 then some .uge
  else if tok = 0x96#32 then some .ule
  else if tok = 0x97#32 then some .ugt
  else none

def holds (c : CmpCond) (a b : BitVec n) : Bool :=
  match c with
  | .eq => a = b
  | .ne => a ≠ b
  | .lt => a.slt b
  | .ge => b.sle a
  | .le => a.sle b
  | .gt => b.slt a
  | .ult => a.ult b
  | .uge => b.ule a
  | .ule => a.ule b
  | .ugt => b.ult a

def code : CmpCond → ℕ
  | .eq => 0x0
  | .ne => 0x1
  | .lt => 0xb
  | .ge => 0xa
  | .le => 0xd
  | .gt => 0xc
  | .ult => 0x3
  | .uge => 0x2
  | .ule => 0x9
  | .ugt => 0x8

theorem mapcc_eq_code {tok : BitVec 32} {c : CmpCond} (h : ofTok tok = some c) :
    mapcc tok = some c.code := by
  unfold ofTok at h
  repeat' split at h
  all_goals first
    | (next heq => cases h; subst heq; rfl)
    | cases h

end CmpCond

section Flags

variable {n : ℕ}

def cmpFlags (a b : BitVec n) : Nzcv where
  n := (a - b).msb
  z := a = b
  c := b.ule a
  v := BitVec.ssubOverflow a b

theorem bmod_neg_iff {p : ℕ} {d : ℤ} (hlo : -(2 * p) < d) (hhi : d < 2 * p) :
    d.bmod (2 * p) < 0 ↔ (-p ≤ d ∧ d < 0) ∨ p ≤ d := by
  rw [bmod_def, natCast_mul, show ((2 : ℕ) : ℤ) = 2 from rfl]
  by_cases hd : 0 ≤ d
  · rw [emod_eq_of_lt hd hhi]
    split <;> omega
  · have hmod : d % (2 * p) = d + 2 * p := by
      rw [← add_emod_right, emod_eq_of_lt (by omega) (by omega)]
    split <;> omega

theorem msb_sub_bne_ssubOverflow (a b : BitVec n) :
    ((a - b).msb != BitVec.ssubOverflow a b) = a.slt b := by
  cases n with
  | zero =>
    rw [eq_nil a, eq_nil b]
    rfl
  | succ k =>
    have ha := @toInt_lt _ a
    have ha' := le_toInt a
    have hb := @toInt_lt _ b
    have hb' := le_toInt b
    rw [msb_eq_toInt, toInt_sub, BitVec.ssubOverflow, slt_eq_decide,
      Nat.pow_succ, Nat.mul_comm]
    rw [Nat.add_sub_cancel, show (2 : ℤ) ^ k = ((2 ^ k : ℕ) : ℤ) from (natCast_pow 2 k).symm] at *
    generalize 2 ^ k = p at *
    have hneg := @bmod_neg_iff p (a.toInt - b.toInt) (by omega) (by omega)
    rw [Bool.eq_iff_iff, bne_iff_ne, ne_eq, Bool.eq_iff_iff, Bool.or_eq_true, decide_eq_true_eq,
      decide_eq_true_eq, decide_eq_true_eq, decide_eq_true_eq]
    omega

theorem condPassed_cmpFlags (c : CmpCond) (a b : BitVec n) :
    condPassed c.code (cmpFlags a b) = c.holds a b := by
  have hlt : ((cmpFlags a b).n != (cmpFlags a b).v) = decide (a.toInt < b.toInt) := by
    exact msb_sub_bne_ssubOverflow a b
  have heq : ((cmpFlags a b).n == (cmpFlags a b).v) = !decide (a.toInt < b.toInt) := by
    rw [← hlt, bne, Bool.not_not]
  have hz : (cmpFlags a b).z = decide (a.toNat = b.toNat) := by
    rw [decide_eq_decide.mpr toNat_inj]
    rfl
  have hz' : (cmpFlags a b).z = decide (a.toInt = b.toInt) := by
    rw [decide_eq_decide.mpr toInt_inj]
    rfl
  have hc : (cmpFlags a b).c = decide (b.toNat ≤ a.toNat) := ule_eq_decide
  cases c with
  | eq => rfl
  | ne => exact (decide_not ..).symm
  | lt => exact hlt.trans BitVec.slt_eq_decide.symm
  | ge =>
    show ((cmpFlags a b).n == (cmpFlags a b).v) = b.sle a
    rw [heq, sle_eq_decide, ← decide_not, decide_eq_decide]
    omega
  | le =>
    show ((cmpFlags a b).z || (cmpFlags a b).n != (cmpFlags a b).v) = a.sle b
    rw [hlt, hz', sle_eq_decide, ← Bool.decide_or, decide_eq_decide]
    omega
  | gt =>
    show (!(cmpFlags a b).z && (cmpFlags a b).n == (cmpFlags a b).v) = b.slt a
    rw [heq, hz', slt_eq_decide, ← decide_not, ← decide_not, ← Bool.decide_and,
      decide_eq_decide]
    omega
  | ult =>
    show (!(cmpFlags a b).c) = a.ult b
    rw [hc, ult_eq_decide, ← decide_not, decide_eq_decide]
    omega
  | uge => rfl
  | ule =>
    show (!(cmpFlags a b).c || (cmpFlags a b).z) = a.ule b
    rw [hc, hz, ule_eq_decide, ← decide_not, ← Bool.decide_or, decide_eq_decide]
    omega
  | ugt =>
    show ((cmpFlags a b).c && !(cmpFlags a b).z) = b.ult a
    rw [hc, hz, ult_eq_decide, ← decide_not, ← Bool.decide_and, decide_eq_decide]
    omega

theorem jumpTaken_cmpFlags {tok : BitVec 32} {c : CmpCond} (h : CmpCond.ofTok tok = some c)
    (a b : BitVec n) : jumpTaken tok (cmpFlags a b) = some (c.holds a b) := by
  unfold jumpTaken
  rw [CmpCond.mapcc_eq_code h, Option.map_some, condPassed_cmpFlags]

end Flags

theorem CmpCond.holds_signExtend (c : CmpCond) (x y : BitVec 32) :
    c.holds (x.signExtend 64) (y.signExtend 64) = c.holds x y := by
  have hint : ∀ z : BitVec 32, (z.signExtend 64).toInt = z.toInt := fun z =>
    toInt_signExtend_of_le (by decide)
  have hinj : x.signExtend 64 = y.signExtend 64 ↔ x = y := by
    rw [← toInt_inj, hint, hint, toInt_inj]
  have hnat : ∀ z : BitVec 32, (z.signExtend 64).toNat =
      z.toNat + if 2147483648 ≤ z.toNat then 18446744069414584320 else 0 := by
    intro z
    rw [toNat_signExtend, msb_eq_decide, toNat_setWidth,
      Nat.mod_eq_of_lt (by omega)]
    simp
  have hx := hnat x
  have hy := hnat y
  cases c with
  | eq => exact decide_eq_decide.mpr hinj
  | ne => exact decide_eq_decide.mpr (not_congr hinj)
  | lt | gt => simp only [holds, slt_eq_decide, hint]
  | le | ge => simp only [holds, sle_eq_decide, hint]
  | ult | ugt =>
    simp only [holds, ult_eq_decide, hx, hy, decide_eq_decide]
    split <;> split <;> omega
  | ule | uge =>
    simp only [holds, ule_eq_decide, hx, hy, decide_eq_decide]
    split <;> split <;> omega

end Tinycc
