import Mathlib.Data.Nat.ModEq
import Tinycc.Opt.FoldBits

namespace Tinycc
open Lib IRSSAOptCtx Option Nat
open BitVec hiding not_not not_or

def isPowerOf2Shift (v : BitVec 32) : Option ℕ :=
  if v = 0#32 ∨ v &&& (v - 1#32) ≠ 0#32 then none
  else (List.range 32).find? fun s => v >>> s = 1#32

def mulPickImm (src1 src2 : IROperand) : Option (IROperand × IROperand) :=
  if src2.isImm32 then some (src1, src2)
  else if src1.isImm32 then some (src2, src1)
  else none

def srMul : OptDslSSARule := fun ctx i => do
  let (val, imm) ← mulPickImm (ctx.quad i).src1 (ctx.quad i).src2
  let shift ← isPowerOf2Shift imm.getImm32
  some (((ctx.setOp i .shl).setSrc1 i val).setSrc2 i (mkImmBt (BitVec.ofNat 32 shift) .int32))

def srUdiv : OptDslSSARule := fun ctx i => do
  let src2 := (ctx.quad i).src2
  if src2.isImm32 then
    let shift ← isPowerOf2Shift src2.getImm32
    some ((ctx.setOp i .shr).setSrc2 i (mkImmBt (BitVec.ofNat 32 shift) .int32))
  else none

def srUmod : OptDslSSARule := fun ctx i => do
  let src2 := (ctx.quad i).src2
  if src2.isImm32 then
    let _ ← isPowerOf2Shift src2.getImm32
    some ((ctx.setOp i .and).setSrc2 i (mkImmBt (src2.getImm32 - 1#32) .int32))
  else none

def strengthGens : List (TccIrOp × IRSSAOptGen) :=
  [(.mul, OptDslSSARule.gen srMul), (.udiv, OptDslSSARule.gen srUdiv),
    (.umod, OptDslSSARule.gen srUmod)]

/-- The body of the loop of `ssa_opt_run_gens`: the first generator for the operation. -/
def runGen (gens : List (TccIrOp × IRSSAOptGen)) (ctx : IRSSAOptCtx) (i : ℕ) :
    IRSSAOptCtx × Bool :=
  if (ctx.quad i).op = .nop then (ctx, false)
  else
    match gens.find? fun g => g.1 = (ctx.quad i).op with
    | some g => g.2 ctx i
    | none => (ctx, false)

def ssaOptRunGens (gens : List (TccIrOp × IRSSAOptGen)) (ctx : IRSSAOptCtx) : IRSSAOptCtx × ℕ :=
  forRange ctx.ir.nextInstructionIndex (fun s i =>
    let r := runGen gens s.1 i
    (r.1, s.2 + r.2.toNat)) (ctx, 0)

def ssaOptStrength (ctx : IRSSAOptCtx) : IRSSAOptCtx × ℕ := ssaOptRunGens strengthGens ctx

theorem isPowerOf2Shift_spec {v : BitVec 32} {s : ℕ} (h : isPowerOf2Shift v = some s) :
    s < 32 ∧ v = BitVec.twoPow 32 s := by
  unfold isPowerOf2Shift at h
  split at h
  case isTrue => cases h
  case isFalse hv =>
    rw [not_or, not_not] at hv
    have hs : s < 32 := List.mem_range.mp (List.mem_of_find?_eq_some h)
    have hshift : v >>> s = 1#32 := by simpa using List.find?_some h
    have hne : v.toNat ≠ 0 := fun e => hv.1 (eq_of_toNat_eq e)
    refine ⟨hs, eq_of_toNat_eq ?_⟩
    rw [toNat_twoPow_of_lt hs]
    -- a power of two whose quotient by another is 1 is that one
    have hand : v.toNat &&& v.toNat - 1 = 0 := by
      have := congrArg BitVec.toNat hv.2
      rw [show v.toNat - 1 = (2 ^ 32 - (1#32).toNat + v.toNat) % 2 ^ 32 by
        simp only [toNat_ofNat]
        omega]
      exact this
    obtain ⟨k, hk⟩ := (and_sub_one_eq_zero_iff_isPowerOfTwo hne).mp hand
    have hdiv : 2 ^ k / 2 ^ s = 1 := by
      rw [← hk, ← Nat.shiftRight_eq_div_pow, ← toNat_ushiftRight, hshift]
      rfl
    rw [hk]
    rcases Nat.lt_trichotomy k s with hlt | heq | hgt
    · rw [div_eq_of_lt (Nat.pow_lt_pow_right (by decide) hlt)] at hdiv
      cases hdiv
    · rw [heq]
    · rw [Nat.pow_div hgt.le (by decide)] at hdiv
      have : k - s = 0 := Nat.pow_right_injective (le_refl 2) hdiv
      omega

theorem umod_twoPow {w k : ℕ} (hk : k < w) (x : BitVec w) :
    x % BitVec.twoPow w k = x &&& (BitVec.twoPow w k - 1#w) := by
  apply eq_of_toNat_eq
  have hpos : 0 < 2 ^ k := Nat.two_pow_pos k
  have hlt : 2 ^ k < 2 ^ w := Nat.pow_lt_pow_right (by decide) hk
  rw [toNat_umod, toNat_and, toNat_sub, toNat_twoPow_of_lt hk,
    ← and_two_pow_sub_one_eq_mod]
  congr 1
  have hone : (1#w).toNat = 1 := by
    exact mod_eq_of_lt (by omega)
  rw [hone, show 2 ^ w - 1 + 2 ^ k = (2 ^ k - 1) + 2 ^ w by omega, add_mod_right,
    mod_eq_of_lt (by omega)]

section Rewritten

def strengthOperands (q : IRQuadCompact) : Option (IROperand × IROperand) :=
  match q.op with
  | .mul => mulPickImm q.src1 q.src2
  | .udiv | .umod => if q.src2.isImm32 then some (q.src1, q.src2) else none
  | _ => none

def strengthResult (op : TccIrOp) (imm : BitVec 32) (shift : ℕ) : TccIrOp × BitVec 32 :=
  match op with
  | .mul => (.shl, BitVec.ofNat 32 shift)
  | .udiv => (.shr, BitVec.ofNat 32 shift)
  | _ => (.and, imm - 1#32)

def strengthQuad (q : IRQuadCompact) : Option IRQuadCompact := do
  let (val, imm) ← strengthOperands q
  let shift ← isPowerOf2Shift imm.getImm32
  let (op, v) := strengthResult q.op imm.getImm32 shift
  some { q with op := op, src1 := val, src2 := mkImmBt v .int32 }

variable {ctx : IRSSAOptCtx} {i : ℕ}

theorem lt_of_op_ne_nop (h : (ctx.quad i).op ≠ .nop) : i < ctx.ir.compactInstructions.length := by
  by_contra hge
  apply h
  unfold IRSSAOptCtx.quad TCCIRState.quad
  rw [List.getD_eq_getElem?_getD, List.getElem?_eq_none (Nat.le_of_not_lt hge)]
  rfl

theorem setQuad_setQuad (q q' : IRQuadCompact) :
    (ctx.setQuad i q).setQuad i q' = ctx.setQuad i q' := by
  simp [setQuad]

variable {op : TccIrOp} {x : IROperand}

theorem setOp_setSrc2 (hi : i < ctx.ir.compactInstructions.length)
    (hop : (iropConfig op).hasSrc2 = true) :
    (ctx.setOp i op).setSrc2 i x = ctx.setQuad i { ctx.quad i with op := op, src2 := x } := by
  unfold setOp setSrc2
  rw [quad_setQuad_self hi, if_pos hop, setQuad_setQuad]

theorem setOp_setSrc1_setSrc2 {y : IROperand} (hi : i < ctx.ir.compactInstructions.length)
    (hop : (iropConfig op).hasSrc2 = true) :
    ((ctx.setOp i op).setSrc1 i x).setSrc2 i y =
      ctx.setQuad i { ctx.quad i with op := op, src1 := x, src2 := y } := by
  unfold setOp setSrc1 setSrc2
  rw [setQuad_setQuad, quad_setQuad_self hi, quad_setQuad_self hi, if_pos hop, setQuad_setQuad]

theorem srMul_eq (h : (ctx.quad i).op = .mul) :
    srMul ctx i = (strengthQuad (ctx.quad i)).map (ctx.setQuad i) := by
  have hi := lt_of_op_ne_nop (h ▸ by decide : (ctx.quad i).op ≠ .nop)
  unfold srMul strengthQuad strengthOperands
  rw [h]
  cases mulPickImm (ctx.quad i).src1 (ctx.quad i).src2 with
  | none => rfl
  | some p =>
    change (isPowerOf2Shift p.2.getImm32).bind _ = ((isPowerOf2Shift p.2.getImm32).bind _).map _
    cases isPowerOf2Shift p.2.getImm32 with
    | none => rfl
    | some k => exact congrArg some (setOp_setSrc1_setSrc2 hi rfl)

theorem srDivision_eq :
    ((ctx.quad i).op = .udiv → srUdiv ctx i = (strengthQuad (ctx.quad i)).map (ctx.setQuad i)) ∧
    ((ctx.quad i).op = .umod → srUmod ctx i = (strengthQuad (ctx.quad i)).map (ctx.setQuad i)) := by
  constructor
  all_goals
    intro h
    have hi := lt_of_op_ne_nop (h ▸ by decide : (ctx.quad i).op ≠ .nop)
    simp only [srUdiv, srUmod, strengthQuad, strengthOperands, h]
    by_cases hm : (ctx.quad i).src2.isImm32 = true
    · rw [if_pos hm, if_pos hm]
      change (isPowerOf2Shift _).bind _ = ((isPowerOf2Shift _).bind _).map _
      cases isPowerOf2Shift (ctx.quad i).src2.getImm32 with
      | none => rfl
      | some k => exact congrArg some (setOp_setSrc2 hi rfl)
    · rw [if_neg hm, if_neg hm]
      rfl

theorem gen_of_map {rule : OptDslSSARule} (h : rule ctx i = (strengthQuad (ctx.quad i)).map
    (ctx.setQuad i)) : (OptDslSSARule.gen rule ctx i).1 =
      (strengthQuad (ctx.quad i)).elim ctx (ctx.setQuad i) := by
  unfold OptDslSSARule.gen
  rw [h]
  cases strengthQuad (ctx.quad i) <;> rfl

theorem runGen_strength :
    (runGen strengthGens ctx i).1 = (strengthQuad (ctx.quad i)).elim ctx (ctx.setQuad i) := by
  unfold runGen
  by_cases hmul : (ctx.quad i).op = .mul
  · rw [hmul]
    exact gen_of_map (srMul_eq hmul)
  by_cases hudiv : (ctx.quad i).op = .udiv
  · rw [hudiv]
    exact gen_of_map (srDivision_eq.1 hudiv)
  by_cases humod : (ctx.quad i).op = .umod
  · rw [humod]
    exact gen_of_map (srDivision_eq.2 humod)
  have hnone : strengthQuad (ctx.quad i) = none := by
    unfold strengthQuad strengthOperands
    split <;> first | contradiction | rfl
  have hfind : strengthGens.find? (fun g => g.1 = (ctx.quad i).op) = none := by
    simp [strengthGens, Ne.symm hmul, Ne.symm hudiv, Ne.symm humod]
  rw [hnone, hfind]
  split <;> rfl

theorem quad_ssaOptStrength (i : ℕ) :
    (ssaOptStrength ctx).1.quad i = (strengthQuad (ctx.quad i)).getD (ctx.quad i) ∧
      (ssaOptStrength ctx).1.barrelShifts = ctx.barrelShifts ∧
      (ssaOptStrength ctx).1.bfiParams = ctx.bfiParams := by
  -- before round `m` the instructions below `m` have been rewritten
  let P : ℕ → IRSSAOptCtx × ℕ → Prop := fun m s =>
    (∀ k, s.1.quad k =
      if k < m then (strengthQuad (ctx.quad k)).getD (ctx.quad k) else ctx.quad k) ∧
      s.1.barrelShifts = ctx.barrelShifts ∧ s.1.bfiParams = ctx.bfiParams
  have hP : P ctx.ir.nextInstructionIndex (ssaOptStrength ctx) := by
    refine forRange_induction P _ ⟨fun k => (if_neg (Nat.not_lt_zero k)).symm, rfl, rfl⟩ ?_
    rintro m ⟨c, n⟩ hm ⟨hquad, hbs, hbfi⟩
    have hcm : c.quad m = ctx.quad m := (hquad m).trans (if_neg (lt_irrefl m))
    change P (m + 1) ((runGen strengthGens c m).1, _)
    rw [runGen_strength, hcm]
    cases hq : strengthQuad (ctx.quad m) with
    | none =>
      refine ⟨fun k => ?_, hbs, hbfi⟩
      dsimp only [elim_none]
      rw [hquad k]
      by_cases hk : k = m
      · rw [hk, if_neg (lt_irrefl m), if_pos (lt_succ_self m), hq]
        rfl
      · exact if_congr (by omega) rfl rfl
    | some q =>
      refine ⟨fun k => ?_, hbs, hbfi⟩
      dsimp only [elim_some]
      by_cases hk : k = m
      · have hne : (c.quad m).op ≠ .nop := by
          intro e
          rw [← hcm] at hq
          unfold strengthQuad strengthOperands at hq
          rw [e] at hq
          cases hq
        rw [hk, quad_setQuad_self (lt_of_op_ne_nop hne), if_pos (lt_succ_self m), hq]
        rfl
      · rw [quad_setQuad_ne (Ne.symm hk), hquad k]
        exact if_congr (by omega) rfl rfl
  obtain ⟨hquad, hrest⟩ := hP
  refine ⟨?_, hrest⟩
  rw [hquad i]
  by_cases hi : i < ctx.ir.nextInstructionIndex
  · rw [if_pos hi]
  · have hnone : strengthQuad (ctx.quad i) = none := by
      have hnop : (ctx.quad i).op = .nop := by
        by_contra hne
        exact hi (lt_of_op_ne_nop hne)
      unfold strengthQuad strengthOperands
      rw [hnop]
      rfl
    rw [if_neg hi, hnone]
    rfl

end Rewritten

section Values

/-- Where a rule keeps the value for every operand: no shift annotation, and in a doubleword not the
immediate that stands for `-2 ^ 31`. -/
def StrengthSafe (bs : BitVec 8) (q : IRQuadCompact) : Prop :=
  ∀ val imm, strengthOperands q = some (val, imm) → (isPowerOf2Shift imm.getImm32).isSome = true →
    bs = 0#8 ∧ (q.dest.is64 = true → imm.getImm32 ≠ 0x80000000#32)

/-- The doublewords for which the rewrite by `-2 ^ 31` happens to be right. -/
def StrengthHarmless (op : TccIrOp) (a : BitVec 64) : Prop :=
  match op with
  | .mul => loWord a = 0#32
  | .udiv => a.toNat < 2147483648
  | _ => a.toNat < 2147483648 ∨ 18446744071562067968 ≤ a.toNat

variable {World : Type} {M : ValueSem World} {σ : Vreg → BitVec 64} {w : World}
  {q : IRQuadCompact} {bfi : BitVec 16}

theorem operand_isImm32 {x : IROperand} (h : x.isImm32 = true) :
    M.operand x σ w = x.getImm32.signExtend 64 := by
  unfold IROperand.isImm32 at h
  rw [Bool.and_eq_true, Bool.not_eq_true'] at h
  unfold ValueSem.operand IROperand.getImm32
  rw [h.1]
  cases hd : x.data with
  | imm32 v =>
    unfold IROperand.getImm64
    rw [hd]
    exact congrArg (BitVec.signExtend 64) (loWord_signExtend v).symm
  | _ =>
    rw [hd] at h
    cases h.2

variable {k : ℕ} {op : TccIrOp}

theorem toNat_ofNat_of_lt (hk : k < 32) : (BitVec.ofNat 32 k).toNat = k := by
  rw [toNat_ofNat]
  omega

theorem ite_some_of_lt {w n m : ℕ} {f : ℕ → BitVec w} (h : n = k) (hk : k < m) :
    (if n < m then some (f n) else none) = some (f k) := by
  rw [h, if_pos hk]

theorem aluWord_strength (hop : op = .mul ∨ op = .udiv ∨ op = .umod) (hk : k < 32) (a : BitVec 32) :
    aluWord (strengthResult op (BitVec.twoPow 32 k) k).1 a
        (strengthResult op (BitVec.twoPow 32 k) k).2 =
      aluWord op a (BitVec.twoPow 32 k) := by
  have hne : BitVec.twoPow 32 k ≠ 0#32 := by
    intro e
    have := congrArg BitVec.toNat e
    rw [toNat_twoPow_of_lt hk] at this
    exact (Nat.two_pow_pos k).ne' this
  rcases hop with rfl | rfl | rfl
  · change aluWord .shl a (BitVec.ofNat 32 k) = some (a * BitVec.twoPow 32 k)
    rw [mul_twoPow_eq_shiftLeft]
    exact ite_some_of_lt (toNat_ofNat_of_lt hk) (by omega)
  · change aluWord .shr a (BitVec.ofNat 32 k) = if BitVec.twoPow 32 k = 0#32 then none else some _
    rw [if_neg hne, udiv_twoPow_eq_of_lt hk]
    exact ite_some_of_lt (toNat_ofNat_of_lt hk) (by omega)
  · change some (a &&& (BitVec.twoPow 32 k - 1#32)) =
      if BitVec.twoPow 32 k = 0#32 then none else some _
    rw [if_neg hne, umod_twoPow hk]

theorem toNat_signExtend_of_lt {x : BitVec 32} (h : x.toNat < 2147483648) :
    (x.signExtend 64).toNat = x.toNat := by
  have hmsb : x.msb = false := by
    rw [msb_eq_decide, decide_eq_false_iff_not]
    exact Nat.not_le.mpr h
  rw [signExtend_eq_setWidth_of_msb_false hmsb, toNat_setWidth]
  exact mod_eq_of_lt (by omega)

theorem signExtend_twoPow (hk : k < 31) :
    (BitVec.twoPow 32 k).signExtend 64 = BitVec.twoPow 64 k := by
  have hlt : 2 ^ k < 2147483648 := Nat.pow_lt_pow_right (by decide) hk
  apply eq_of_toNat_eq
  rw [toNat_signExtend_of_lt, toNat_twoPow_of_lt (by omega),
    toNat_twoPow_of_lt (by omega)]
  rw [toNat_twoPow_of_lt (by omega)]
  exact hlt

theorem signExtend_twoPow_sub_one (hk : k < 32) :
    (BitVec.twoPow 32 k - 1#32).signExtend 64 = BitVec.twoPow 64 k - 1#64 := by
  have hle : 2 ^ k ≤ 2147483648 := Nat.pow_le_pow_right (by decide) (by omega : k ≤ 31)
  have hpos := Nat.two_pow_pos k
  have hsub : (BitVec.twoPow 32 k - 1#32).toNat = 2 ^ k - 1 := by
    rw [toNat_sub, toNat_twoPow_of_lt hk, toNat_ofNat]
    omega
  apply eq_of_toNat_eq
  rw [toNat_signExtend_of_lt (by omega), hsub, toNat_sub,
    toNat_twoPow_of_lt (by omega), toNat_ofNat]
  omega

theorem aluWide_strength (hop : op = .mul ∨ op = .udiv ∨ op = .umod) (hk : k < 31) (a : BitVec 64) :
    aluWide (strengthResult op (BitVec.twoPow 32 k) k).1 a
        ((strengthResult op (BitVec.twoPow 32 k) k).2.signExtend 64) =
      aluWide op a ((BitVec.twoPow 32 k).signExtend 64) := by
  have hne : BitVec.twoPow 64 k ≠ 0#64 := by
    intro e
    have := congrArg BitVec.toNat e
    rw [toNat_twoPow_of_lt (by omega)] at this
    exact (Nat.two_pow_pos k).ne' this
  have hcount : ((BitVec.ofNat 32 k).signExtend 64).toNat = k := by
    rw [toNat_signExtend_of_lt, toNat_ofNat_of_lt (by omega)]
    rw [toNat_ofNat_of_lt (by omega)]
    omega
  rw [signExtend_twoPow hk]
  rcases hop with rfl | rfl | rfl
  · change aluWide .shl a ((BitVec.ofNat 32 k).signExtend 64) = some (a * BitVec.twoPow 64 k)
    rw [mul_twoPow_eq_shiftLeft]
    exact ite_some_of_lt hcount (by omega)
  · change aluWide .shr a ((BitVec.ofNat 32 k).signExtend 64) =
      if BitVec.twoPow 64 k = 0#64 then none else some _
    rw [if_neg hne, udiv_twoPow_eq_of_lt (by omega)]
    exact ite_some_of_lt hcount (by omega)
  · change some (a &&& (BitVec.twoPow 32 k - 1#32).signExtend 64) = if _ = 0#64 then _ else _
    rw [if_neg hne, umod_twoPow (by omega), signExtend_twoPow_sub_one (by omega)]

section Negative

variable (a : BitVec 64)

theorem toNat_neg : (0xFFFFFFFF80000000#64 : BitVec 64).toNat = 18446744071562067968 := rfl

theorem mul_mod_eq_iff (n : ℕ) :
    n * 2147483648 % 18446744073709551616 = n * 18446744071562067968 % 18446744073709551616 ↔
      n % 4294967296 = 0 := by
  -- the two products differ by a multiple of `2 ^ 32 * (2 ^ 32 - 1)`
  have hle : n * 2147483648 ≤ n * 18446744071562067968 := Nat.mul_le_mul_left n (by decide)
  have hsub : n * 18446744071562067968 - n * 2147483648 = 4294967296 * (n * 4294967295) := by
    rw [← Nat.mul_sub, Nat.mul_left_comm]
  calc Nat.ModEq 18446744073709551616 (n * 2147483648) (n * 18446744071562067968)
      ↔ 4294967296 * 4294967296 ∣ 4294967296 * (n * 4294967295) := by
        rw [modEq_iff_dvd' hle, hsub]
    _ ↔ 4294967296 ∣ n * 4294967295 := Nat.mul_dvd_mul_iff_left (by decide)
    _ ↔ 4294967296 ∣ n := Nat.Coprime.dvd_mul_right (by decide)
    _ ↔ n % 4294967296 = 0 := dvd_iff_mod_eq_zero

theorem mul_neg_iff : a <<< 31 = a * 0xFFFFFFFF80000000#64 ↔ loWord a = 0#32 := by
  have hlow : (loWord a).toNat = a.toNat % 4294967296 := by
    rw [loWord, toNat_setWidth]
  rw [← toNat_inj, ← toNat_inj, toNat_mul,
    toNat_shiftLeft, Nat.shiftLeft_eq, hlow]
  exact mul_mod_eq_iff a.toNat

theorem udiv_neg_iff : a >>> 31 = a / 0xFFFFFFFF80000000#64 ↔ a.toNat < 2147483648 := by
  rw [← toNat_inj, toNat_ushiftRight, toNat_udiv, toNat_neg]
  omega

theorem umod_neg_iff : a % BitVec.twoPow 64 31 = a % 0xFFFFFFFF80000000#64 ↔
    a.toNat < 2147483648 ∨ 18446744071562067968 ≤ a.toNat := by
  rw [← toNat_inj, toNat_umod, toNat_umod,
    toNat_twoPow_of_lt (by decide), toNat_neg]
  omega

end Negative

theorem aluWide_strength_iff (hop : op = .mul ∨ op = .udiv ∨ op = .umod) (a : BitVec 64) :
    aluWide (strengthResult op 0x80000000#32 31).1 a
        ((strengthResult op 0x80000000#32 31).2.signExtend 64) =
      aluWide op a ((0x80000000#32).signExtend 64) ↔ StrengthHarmless op a := by
  rcases hop with rfl | rfl | rfl
  · exact Option.some_inj.trans (mul_neg_iff a)
  · exact Option.some_inj.trans (udiv_neg_iff a)
  · have hmask : (0x80000000#32 - 1#32).signExtend 64 = BitVec.twoPow 64 31 - 1#64 := by decide
    change some (a &&& (0x80000000#32 - 1#32).signExtend 64) =
      some (a % 0xFFFFFFFF80000000#64) ↔ _
    rw [hmask, ← umod_twoPow (by decide)]
    exact Option.some_inj.trans (umod_neg_iff a)

theorem alu_zero (hh : q.takesHighHalf 0#8 = false) :
    M.alu 0#8 q σ w = if q.dest.is64 then aluWide q.op (M.operand q.src1 σ w) (M.operand q.src2 σ w)
      else (aluWord q.op (loWord (M.operand q.src1 σ w)) (loWord (M.operand q.src2 σ w))).map
        ofWord := by
  unfold ValueSem.alu
  rw [hh]
  rfl

section Shape

variable {val imm : IROperand}

section

variable (h : strengthOperands q = some (val, imm))
include h

theorem strengthOperands_op :
    q.op = .mul ∨ q.op = .udiv ∨ q.op = .umod := by
  unfold strengthOperands at h
  split at h
  case h_1 hop => exact .inl hop
  case h_2 hop => exact .inr (.inl hop)
  case h_3 hop => exact .inr (.inr hop)
  case h_4 => cases h

theorem strengthOperands_spec :
    imm.isImm32 = true ∧ ((val = q.src1 ∧ imm = q.src2) ∨
      (q.op = .mul ∧ val = q.src2 ∧ imm = q.src1)) := by
  have hpair : ∀ x y : IROperand, (if y.isImm32 then some (x, y) else none) = some (val, imm) →
      imm.isImm32 = true ∧ val = x ∧ imm = y := by
    intro x y hxy
    obtain ⟨hy, e⟩ := Option.ite_none_right_eq_some.mp hxy
    cases e
    exact ⟨hy, rfl, rfl⟩
  unfold strengthOperands at h
  split at h
  case h_1 hop =>
    unfold mulPickImm at h
    by_cases h2 : q.src2.isImm32 = true
    · rw [if_pos h2] at h
      cases h
      exact ⟨h2, .inl ⟨rfl, rfl⟩⟩
    · rw [if_neg h2] at h
      obtain ⟨hi, hv⟩ := hpair _ _ h
      exact ⟨hi, .inr ⟨hop, hv⟩⟩
  case h_2 | h_3 =>
    obtain ⟨hi, hv⟩ := hpair _ _ h
    exact ⟨hi, .inl hv⟩
  case h_4 => cases h

theorem instrValue_original :
    M.instrValue 0#8 bfi q σ w =
      if q.dest.is64 then aluWide q.op (M.operand val σ w) (imm.getImm32.signExtend 64)
      else (aluWord q.op (loWord (M.operand val σ w)) imm.getImm32).map ofWord := by
  have hop := strengthOperands_op h
  obtain ⟨himm, hsides⟩ := strengthOperands_spec h
  have halu : M.instrValue 0#8 bfi q σ w = M.alu 0#8 q σ w := by
    unfold ValueSem.instrValue
    rcases hop with hop | hop | hop <;> rw [hop]
  have hhigh : q.takesHighHalf 0#8 = false := by
    unfold IRQuadCompact.takesHighHalf
    rcases hop with hop | hop | hop <;> rw [hop] <;> rfl
  rw [halu, alu_zero hhigh]
  rcases hsides with ⟨hval, hi⟩ | ⟨hmul, hval, hi⟩
  · rw [← hval, ← hi, operand_isImm32 himm, loWord_signExtend]
  · rw [← hval, ← hi, operand_isImm32 himm, loWord_signExtend, hmul]
    change (if _ then some (_ * _) else Option.map ofWord (some (_ * _))) =
      if _ then some (_ * _) else Option.map ofWord (some (_ * _))
    rw [BitVec.mul_comm, BitVec.mul_comm imm.getImm32]

end

theorem instrValue_rewritten {k : ℕ} {v : BitVec 32} (hk : k < 32)
    (hop : q.op = .mul ∨ q.op = .udiv ∨ q.op = .umod) :
    M.instrValue 0#8 bfi { q with
        op := (strengthResult q.op v k).1
        src1 := val
        src2 := mkImmBt (strengthResult q.op v k).2 .int32 } σ w =
      if q.dest.is64 then aluWide (strengthResult q.op v k).1 (M.operand val σ w)
        ((strengthResult q.op v k).2.signExtend 64)
      else (aluWord (strengthResult q.op v k).1 (loWord (M.operand val σ w))
        (strengthResult q.op v k).2).map ofWord := by
  obtain ⟨q', hq'⟩ : ∃ q' : IRQuadCompact, q' = { q with
      op := (strengthResult q.op v k).1
      src1 := val
      src2 := mkImmBt (strengthResult q.op v k).2 .int32 } := ⟨_, rfl⟩
  have halu : M.instrValue 0#8 bfi q' σ w = M.alu 0#8 q' σ w := by
    rw [hq']
    rcases hop with hop | hop | hop <;> rw [hop] <;> rfl
  have hhigh : q'.takesHighHalf 0#8 = false := by
    rcases hop with hop | hop | hop
    · rw [hq', hop]
      rfl
    · have hread : foldReadImm32 q'.src2 = some (BitVec.ofNat 32 k) := by
        rw [hq', hop]
        rfl
      apply takesHighHalf_of_foldReadImm32 hread
      rw [toNat_ofNat_of_lt hk]
      exact hk
    · rw [hq', hop]
      rfl
  rw [← hq', halu, alu_zero hhigh, hq']
  have himm : M.operand (mkImmBt (strengthResult q.op v k).2 .int32) σ w =
      (strengthResult q.op v k).2.signExtend 64 := rfl
  rw [himm, loWord_signExtend]

end Shape

theorem value_ssaOptStrength {ctx : IRSSAOptCtx} {i : ℕ} {val imm : IROperand}
    (hbs : ctx.barrelShiftAt (ctx.quad i) = 0#8)
    (hops : strengthOperands (ctx.quad i) = some (val, imm))
    (hk : isPowerOf2Shift imm.getImm32 = some k) :
    (ssaOptStrength ctx).1.value M i σ w = (if (ctx.quad i).dest.is64 then
        aluWide (strengthResult (ctx.quad i).op imm.getImm32 k).1 (M.operand val σ w)
          ((strengthResult (ctx.quad i).op imm.getImm32 k).2.signExtend 64)
      else (aluWord (strengthResult (ctx.quad i).op imm.getImm32 k).1 (loWord (M.operand val σ w))
          (strengthResult (ctx.quad i).op imm.getImm32 k).2).map ofWord) ∧
    ctx.value M i σ w = if (ctx.quad i).dest.is64 then
        aluWide (ctx.quad i).op (M.operand val σ w) (imm.getImm32.signExtend 64)
      else (aluWord (ctx.quad i).op (loWord (M.operand val σ w)) imm.getImm32).map ofWord := by
  obtain ⟨hquad, htable, hbfi⟩ := @quad_ssaOptStrength ctx i
  have hrew : strengthQuad (ctx.quad i) = some { ctx.quad i with
      op := (strengthResult (ctx.quad i).op imm.getImm32 k).1
      src1 := val
      src2 := mkImmBt (strengthResult (ctx.quad i).op imm.getImm32 k).2 .int32 } := by
    unfold strengthQuad
    rw [hops]
    change (isPowerOf2Shift imm.getImm32).bind _ = _
    rw [hk]
    rfl
  rw [hrew, getD_some] at hquad
  unfold value barrelShiftAt bfiParamsAt
  unfold barrelShiftAt at hbs
  rw [hquad, htable]
  rw [hbs]
  exact ⟨instrValue_rewritten (isPowerOf2Shift_spec hk).1 (strengthOperands_op hops),
    instrValue_original hops⟩

theorem value_ssaOptStrength_of_none {ctx : IRSSAOptCtx} {i : ℕ}
    (h : strengthQuad (ctx.quad i) = none) :
    (ssaOptStrength ctx).1.value M i σ w = ctx.value M i σ w := by
  obtain ⟨hquad, htable, hbfi⟩ := @quad_ssaOptStrength ctx i
  rw [h, getD_none] at hquad
  unfold value barrelShiftAt bfiParamsAt
  rw [hquad, htable, hbfi]

/-- The pass keeps what each instruction computes where the rules are safe; a doubleword with the
immediate of `-2 ^ 31` keeps its value for the harmless operands only. -/
theorem ssaOptStrength_value (ctx : IRSSAOptCtx) (i : ℕ) :
    (StrengthSafe (ctx.barrelShiftAt (ctx.quad i)) (ctx.quad i) →
      ∀ {World : Type} (M : ValueSem World) (σ : Vreg → BitVec 64) (w : World),
        (ssaOptStrength ctx).1.value M i σ w = ctx.value M i σ w) ∧
    (ctx.barrelShiftAt (ctx.quad i) = 0#8 → (ctx.quad i).dest.is64 = true →
      ∀ val imm, strengthOperands (ctx.quad i) = some (val, imm) →
        imm.getImm32 = 0x80000000#32 →
        ∀ {World : Type} (M : ValueSem World) (σ : Vreg → BitVec 64) (w : World),
          ((ssaOptStrength ctx).1.value M i σ w = ctx.value M i σ w ↔
            StrengthHarmless (ctx.quad i).op (M.operand val σ w))) := by
  constructor
  · intro hsafe World M σ w
    cases hops : strengthOperands (ctx.quad i) with
    | none =>
      refine value_ssaOptStrength_of_none ?_
      unfold strengthQuad
      rw [hops]
      rfl
    | some p =>
      obtain ⟨val, imm⟩ := p
      cases hk : isPowerOf2Shift imm.getImm32 with
      | none =>
        refine value_ssaOptStrength_of_none ?_
        unfold strengthQuad
        rw [hops]
        change (isPowerOf2Shift imm.getImm32).bind _ = none
        rw [hk]
        rfl
      | some k =>
        obtain ⟨hbs, hneg⟩ := hsafe val imm hops (by rw [hk]; rfl)
        obtain ⟨hafter, hbefore⟩ := @value_ssaOptStrength _ M σ w _ _ _ _ _ hbs hops hk
        obtain ⟨hlt, hpow⟩ := isPowerOf2Shift_spec hk
        have hop := strengthOperands_op hops
        rw [hafter, hbefore, hpow]
        by_cases h64 : (ctx.quad i).dest.is64 = true
        · have hlt' : k < 31 := by
            have hne := hneg h64
            rw [hpow] at hne
            by_contra hge
            obtain rfl : k = 31 := by omega
            exact hne rfl
          rw [if_pos h64, if_pos h64, aluWide_strength hop hlt']
        · rw [if_neg h64, if_neg h64, aluWord_strength hop hlt]
  · intro hbs h64 val imm hops himm World M σ w
    -- the test takes `-2 ^ 31` for a power of two
    have hk : isPowerOf2Shift imm.getImm32 = some 31 := by
      rw [himm]
      decide
    obtain ⟨hafter, hbefore⟩ := @value_ssaOptStrength _ M σ w _ _ _ _ _ hbs hops hk
    rw [hafter, hbefore, if_pos h64, if_pos h64, himm]
    exact aluWide_strength_iff (strengthOperands_op hops) _

end Values

def wideMulIr (imm : BitVec 32) : TCCIRState :=
  { compactInstructions :=
      [⟨.mul, 0, ⟨.vreg, some ⟨.temp, 0⟩, false, .int64, false⟩,
          ⟨.vreg, some ⟨.param, 0⟩, false, .int64, false⟩, .makeImm32 imm .int64, .none⟩,
        ⟨.returnvalue, 1, .none, ⟨.vreg, some ⟨.temp, 0⟩, false, .int64, false⟩, .none, .none⟩] }

def wideMulCtx (imm : BitVec 32) : IRSSAOptCtx :=
  { ir := wideMulIr imm, cfg := IRCFG.init 0, vinfo := fun _ => none,
    barrelShifts := fun _ => 0#8, bfiParams := fun _ => 0#16, isJumpTarget := fun _ => false,
    accessIsVolatile := fun _ => false, symVolatile := fun _ => false, symFloat := fun _ => false }

theorem ssaOptStrength_value_eight :
    (ssaOptStrength (wideMulCtx 8#32)).1.value ValueSem.closed 0 (fun _ => 5#64) () =
      (wideMulCtx 8#32).value ValueSem.closed 0 (fun _ => 5#64) () := by
  refine (ssaOptStrength_value (wideMulCtx 8#32) 0).1 ?_ ValueSem.closed (fun _ => 5#64) ()
  intro val imm hops _
  cases hops
  exact ⟨rfl, fun _ => by decide⟩

/-- `1 * -2 ^ 31` becomes `1 << 31`. -/
theorem ssaOptStrength_wide_negative :
    (wideMulCtx 0x80000000#32).value ValueSem.closed 0 (fun _ => 1#64) () =
        some 0xFFFFFFFF80000000#64 ∧
      (ssaOptStrength (wideMulCtx 0x80000000#32)).1.value ValueSem.closed 0 (fun _ => 1#64) () =
        some 0x80000000#64 := by
  decide

end Tinycc
