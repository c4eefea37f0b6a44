import Tinycc.Opt.ConstEvalSound
import Tinycc.Opt.Fold

namespace Tinycc
open Option
open BitVec hiding not_or

theorem getImm64_mkImm64 (v : BitVec 64) (b : IropBtype) (u : Bool) :
    (mkImm64 v b u).getImm64 = v := by
  unfold mkImm64
  by_cases h : v = (loWord v).signExtend 64
  · rw [if_pos h]
    exact h.symm
  · rw [if_neg h]
    rfl

def foldedConst (ctx : IRSSAOptCtx) (i : ℕ) : Option (BitVec 64) :=
  (foldConstEval ctx i).map fun c => (c.quad i).src1.getImm64

def foldedValue (op : TccIrOp) (dest s1 s2 : IROperand) : Option (BitVec 64) :=
  (foldReadImm32 s1).bind fun a => (foldReadImm32 s2).bind fun b =>
    if dest.is64 then foldEvalWide op a b
    else if s1.is64 ∨ s2.is64 then none
    else (foldEvalWord op a b).map (·.signExtend 64)

theorem foldedConst_eq {ctx : IRSSAOptCtx} {i : ℕ} (hi : i < ctx.ir.compactInstructions.length) :
    foldedConst ctx i = foldedValue (ctx.quad i).op (ctx.quad i).dest (ctx.quad i).src1
      (ctx.quad i).src2 := by
  unfold foldedConst foldConstEval foldedValue
  have hsrc : ∀ imm, ((((ctx.dropUse (ctx.quad i).src1 i).dropUse (ctx.quad i).src2 i).assign i
      imm).quad i).src1 = imm := by
    intro imm
    rw [IRSSAOptCtx.quad_assign]
    rw [IRSSAOptCtx.ir_dropUse, IRSSAOptCtx.ir_dropUse]
    exact hi
  simp only [bind]
  cases foldReadImm32 (ctx.quad i).src1 with
  | none => rfl
  | some a =>
    cases foldReadImm32 (ctx.quad i).src2 with
    | none => rfl
    | some b =>
      simp only [bind_some]
      by_cases h64 : (ctx.quad i).dest.is64 = true
      · rw [if_pos h64, if_pos h64]
        cases foldEvalWide (ctx.quad i).op a b with
        | none => rfl
        | some r => simp [hsrc, getImm64_mkImm64]
      · rw [if_neg h64, if_neg h64]
        by_cases hs : (ctx.quad i).src1.is64 = true ∨ (ctx.quad i).src2.is64 = true
        · rw [if_pos hs, if_pos hs]
          rfl
        · rw [if_neg hs, if_neg hs]
          cases foldEvalWord (ctx.quad i).op a b with
          | none => rfl
          | some r => simp [hsrc, mkImmBt, IROperand.makeImm32, IROperand.getImm64]

theorem loWord_of_foldReadImm32 {s : IROperand} {a : BitVec 32} (h : foldReadImm32 s = some a) :
    loWord s.getImm64 = a ∧ IsExtension s.getImm64 := by
  unfold foldReadImm32 at h
  split_ifs at h with hl
  unfold IROperand.getImm64
  split at h
  · next v hv =>
    cases h
    rw [hv]
    exact ⟨loWord_signExtend _, isExtension_signExtend _⟩
  · next v hv =>
    split_ifs at h with hr
    cases h
    rw [hv]
    exact ⟨rfl, hr.2⟩
  · cases h

namespace IRFlat

variable {F : IRFlat} {dest s1 s2 : IROperand} {i useIdx : ℕ} {op : TccIrOp}

/-- The operations that `ir_opt_eval_const_u64` and `fold_const_eval` both evaluate on words. -/
def isEvaluated (op : TccIrOp) : Bool :=
  match op with
  | .add | .sub | .mul | .and | .or | .xor | .shl | .shr | .sar | .ror => true
  | _ => false

theorem evalConstU64_binary (hdest : dest.isImmediate = false)
    (hdef : F.evalConstDef dest useIdx = some i) (hop : isEvaluated op = true)
    (hq : (F.ir.quad i).op = op ∧ (F.ir.quad i).src1 = s1 ∧ (F.ir.quad i).src2 = s2)
    (h1 : s1.isImmediate = true) (h2 : s2.isImmediate = true) :
    F.evalConstU64 dest useIdx = evalConstBinary op s1.is64 s1.getImm64 s2.getImm64 := by
  obtain ⟨hqop, hq1, hq2⟩ := hq
  have hsrc1 : (F.ir.quad i).getSrc1 = s1 := by
    rw [IRQuadCompact.getSrc1, hqop, hq1]
    cases op <;> first | rfl | cases hop
  have hsrc2 : (F.ir.quad i).getSrc2 = s2 := by
    rw [IRQuadCompact.getSrc2, hqop, hq2]
    cases op <;> first | rfl | cases hop
  have himm : ∀ {s : IROperand} {d : ℕ}, s.isImmediate = true →
      F.irOptEvalConstU64 12 s d = .ok (some s.getImm64) := fun h => if_pos h
  unfold evalConstU64 irOptEvalConstU64
  rw [if_neg (by rw [hdest]; exact Bool.false_ne_true), hdef]
  simp only [hqop, hsrc1, hsrc2, himm h1, himm h2]
  cases op <;> first | rfl | cases hop

end IRFlat

section Inversion

variable {is64 : Bool} {v1 v2 x : BitVec 64}

theorem declines_eq_false_of_ok {op : TccIrOp} (hop : op = .shl ∨ op = .shr ∨ op = .sar)
    (h : irOptConstBinop op is64 v1 v2 = .ok (some x)) : constShiftDeclines is64 v2 = false := by
  cases hd : constShiftDeclines is64 v2 with
  | false => rfl
  | true => rcases hop with rfl | rfl | rfl <;> simp [irOptConstBinop, hd] at h

theorem shl_of_ok (h : irOptConstBinop .shl is64 v1 v2 = .ok (some x)) :
    v2.toNat < (if is64 then 64 else 32) ∧ x = v1 <<< v2.toNat := by
  have hd := declines_eq_false_of_ok (.inl rfl) h
  rw [(irOptConstBinop_shift hd).1] at h
  exact ⟨toNat_lt_of_not_declines hd, (some.inj (Except.ok.inj h)).symm⟩

theorem shr_of_ok (h : irOptConstBinop .shr is64 v1 v2 = .ok (some x)) :
    v2.toNat < (if is64 then 64 else 32) ∧
      x = if is64 then v1 >>> v2.toNat else ofWord (loWord v1 >>> v2.toNat) := by
  have hd := declines_eq_false_of_ok (.inr (.inl rfl)) h
  rw [(irOptConstBinop_shift hd).2.1] at h
  exact ⟨toNat_lt_of_not_declines hd, (some.inj (Except.ok.inj h)).symm⟩

theorem sar_of_ok (h : irOptConstBinop .sar is64 v1 v2 = .ok (some x)) :
    v2.toNat < (if is64 then 64 else 32) ∧
      x = if is64 then v1.sshiftRight v2.toNat
        else ((loWord v1).sshiftRight v2.toNat).signExtend 64 := by
  have hd := declines_eq_false_of_ok (.inr (.inr rfl)) h
  rw [(irOptConstBinop_shift hd).2.2] at h
  exact ⟨toNat_lt_of_not_declines hd, (some.inj (Except.ok.inj h)).symm⟩

end Inversion

section Values

open IRFlat

variable {op : TccIrOp} {dest s1 s2 : IROperand} {x y z : BitVec 64}

/-- The values of the three evaluators for one operation on constants. -/
def ValuesAgree (op : TccIrOp) (dest s1 s2 : IROperand) : Prop :=
  ∀ x y z, irOptConstBinop op dest.is64 s1.getImm64 s2.getImm64 = .ok (some x) →
    foldedValue op dest s1 s2 = some y →
    evalConstBinary op s1.is64 s1.getImm64 s2.getImm64 = .ok (some z) →
    SameAt dest.is64 x y ∧ SameAt dest.is64 x z

theorem reads_of_foldedValue (h : foldedValue op dest s1 s2 = some y) :
    ∃ a b, foldReadImm32 s1 = some a ∧ foldReadImm32 s2 = some b ∧
      a = loWord s1.getImm64 ∧ b = loWord s2.getImm64 := by
  unfold foldedValue at h
  cases h1 : foldReadImm32 s1 with
  | none => simp [h1] at h
  | some a =>
    cases h2 : foldReadImm32 s2 with
    | none => simp [h1, h2] at h
    | some b => exact ⟨a, b, rfl, rfl, (loWord_of_foldReadImm32 h1).1.symm,
        (loWord_of_foldReadImm32 h2).1.symm⟩

theorem foldedValue_word (h64 : dest.is64 = false) (h : foldedValue op dest s1 s2 = some y) :
    s1.is64 = false ∧ ∃ r, foldEvalWord op (loWord s1.getImm64) (loWord s2.getImm64) = some r ∧
      y = r.signExtend 64 := by
  obtain ⟨a, b, h1, h2, rfl, rfl⟩ := reads_of_foldedValue h
  simp only [foldedValue, h1, h2, bind_some, h64, Bool.false_eq_true, if_false] at h
  split_ifs at h with hw
  rw [not_or, Bool.not_eq_true] at hw
  obtain ⟨r, hr, rfl⟩ := Option.map_eq_some_iff.mp h
  exact ⟨hw.1, r, hr, rfl⟩

theorem and_31_of_lt {v : BitVec 64} (h : v.toNat < 32) : (v &&& 31#64).toNat = v.toNat := by
  exact (Nat.and_two_pow_sub_one_eq_mod v.toNat 5).trans (Nat.mod_eq_of_lt h)

theorem loWord_sar_signExtend {a : BitVec 32} {k : ℕ} (hk : k < 32) :
    loWord ((a.signExtend 64).sshiftRight k) = a.sshiftRight k := by
  apply eq_of_getLsbD_eq
  intro i hi
  have h64 : k + i < 64 := by omega
  have hle : ¬64 ≤ i := by omega
  have hle' : ¬32 ≤ i := by omega
  rw [loWord, getLsbD_setWidth, getLsbD_sshiftRight, getLsbD_sshiftRight,
    getLsbD_signExtend]
  simp only [hi, h64, hle, hle', decide_true, decide_false, Bool.not_false, Bool.true_and, if_true]

theorem wordShift_lt {v : BitVec 64} (h : v.toNat < 32) :
    v.toNat < 32 ∧ (loWord v).toNat = v.toNat ∧ ¬32 ≤ v.toNat :=
  ⟨h, toNat_loWord_of_lt (by omega), by omega⟩

theorem valuesAgree_word (h64 : dest.is64 = false) (hop : isEvaluated op = true) :
    ValuesAgree op dest s1 s2 := by
  intro x y z hc hf hz
  obtain ⟨hs1, r, hr, rfl⟩ := foldedValue_word h64 hf
  rw [h64] at hc ⊢
  rw [hs1] at hz
  generalize s1.getImm64 = v1 at *
  generalize s2.getImm64 = v2 at *
  show loWord x = loWord _ ∧ loWord x = loWord z
  rw [loWord_signExtend]
  cases op with
  | add => cases hc; cases hr; cases hz; exact ⟨loWord_add v1 v2, rfl⟩
  | sub => cases hc; cases hr; cases hz; exact ⟨loWord_sub v1 v2, rfl⟩
  | mul => cases hc; cases hr; cases hz; exact ⟨loWord_mul v1 v2, rfl⟩
  | and => cases hc; cases hr; cases hz; exact ⟨loWord_and v1 v2, rfl⟩
  | or => cases hc; cases hr; cases hz; exact ⟨loWord_or v1 v2, rfl⟩
  | xor => cases hc; cases hr; cases hz; exact ⟨loWord_xor v1 v2, rfl⟩
  | shl =>
    obtain ⟨hlt, rfl⟩ := shl_of_ok hc
    obtain ⟨h32, hlow, hge⟩ := wordShift_lt hlt
    simp only [foldEvalWord, hlow, if_neg hge, Option.some.injEq] at hr
    simp [evalConstBinary, hostShl, show v2.toNat < 64 by omega] at hz
    rw [← hr, ← hz]
    exact ⟨loWord_shiftLeft v1 _, rfl⟩
  | shr =>
    obtain ⟨hlt, rfl⟩ := shr_of_ok hc
    obtain ⟨h32, hlow, hge⟩ := wordShift_lt hlt
    simp only [foldEvalWord, hlow, if_neg hge, Option.some.injEq] at hr
    simp [evalConstBinary, hostShr, and_31_of_lt h32, h32] at hz
    rw [← hr, ← hz]
    exact ⟨loWord_ofWord _, rfl⟩
  | sar =>
    obtain ⟨hlt, rfl⟩ := sar_of_ok hc
    obtain ⟨h32, hlow, hge⟩ := wordShift_lt hlt
    simp only [foldEvalWord, hlow, if_neg hge, Option.some.injEq] at hr
    simp [evalConstBinary, hostSar, and_31_of_lt h32, show v2.toNat < 64 by omega] at hz
    rw [← hr, ← hz]
    exact ⟨loWord_signExtend _, (loWord_signExtend _).trans (loWord_sar_signExtend h32).symm⟩
  | ror =>
    have hk : (loWord v2 &&& 31#32).toNat < 32 := by
      rw [toNat_and_31]
      omega
    simp only [irOptConstBinop, evalConstBinary, hostRor_eq hk] at hc hz
    by_cases h0 : (loWord v2 &&& 31#32).toNat = 0
    · rw [if_pos h0] at hc
      cases hc
    · rw [if_neg h0] at hc hz
      cases hc
      cases hz
      have hmod : (32 - (loWord v2 &&& 31#32).toNat) % 32 = 32 - (loWord v2 &&& 31#32).toNat :=
        Nat.mod_eq_of_lt (by omega)
      simp only [foldEvalWord, hmod, Option.some.injEq] at hr
      rw [loWord_signExtend, loWord_ofWord, ← hr,
        rotateRight_eq_rotateRightAux_of_lt hk]
      exact ⟨rfl, rfl⟩
  | _ => cases hop

theorem foldedValue_wide (h64 : dest.is64 = true) (h : foldedValue op dest s1 s2 = some y) :
    foldEvalWide op (loWord s1.getImm64) (loWord s2.getImm64) = some y := by
  obtain ⟨a, b, h1, h2, rfl, rfl⟩ := reads_of_foldedValue h
  simpa only [foldedValue, h1, h2, bind_some, h64, if_true] using h

theorem signExtend_loWord_of_lt {v : BitVec 64} (h : v.toNat < 64) :
    (loWord v).signExtend 64 = v := by
  have hall : ∀ k < 64, (loWord (BitVec.ofNat 64 k)).signExtend 64 = BitVec.ofNat 64 k := by
    decide
  have hv := hall v.toNat h
  rwa [ofNat_toNat] at hv

/-- On doublewords they agree if a word is always extended by its sign, and a right shift is told
to be one of a doubleword. -/
theorem valuesAgree_wide (h64 : dest.is64 = true) (hop : isEvaluated op = true)
    (h1 : (loWord s1.getImm64).signExtend 64 = s1.getImm64)
    (h2 : op.isShift = true ∨ (loWord s2.getImm64).signExtend 64 = s2.getImm64)
    (hshift : op = .shr ∨ op = .sar → s1.is64 = true) : ValuesAgree op dest s1 s2 := by
  intro x y z hc hf hz
  have hy := foldedValue_wide h64 hf
  rw [h64] at hc ⊢
  generalize s2.getImm64 = v2 at *
  cases op with
  | add | sub | mul | and | or | xor =>
    have h2' := h2.resolve_left Bool.false_ne_true
    simp only [foldEvalWide, h1, h2', Option.some.injEq] at hy
    cases hc
    cases hz
    exact ⟨hy, rfl⟩
  | shl =>
    obtain ⟨hlt, rfl⟩ := shl_of_ok hc
    have hlt : v2.toNat < 64 := hlt
    simp only [foldEvalWide, h1, signExtend_loWord_of_lt hlt, if_neg (Nat.not_le_of_lt hlt),
      Option.some.injEq] at hy
    simp [evalConstBinary, hostShl, hlt] at hz
    exact ⟨hy, hz⟩
  | shr =>
    obtain ⟨hlt, rfl⟩ := shr_of_ok hc
    have hlt : v2.toNat < 64 := hlt
    simp only [foldEvalWide, h1, signExtend_loWord_of_lt hlt, if_neg (Nat.not_le_of_lt hlt),
      Option.some.injEq] at hy
    simp [evalConstBinary, hostShr, hlt, hshift (.inl rfl)] at hz
    exact ⟨hy, hz⟩
  | sar =>
    obtain ⟨hlt, rfl⟩ := sar_of_ok hc
    have hlt : v2.toNat < 64 := hlt
    simp only [foldEvalWide, h1, signExtend_loWord_of_lt hlt, if_neg (Nat.not_le_of_lt hlt),
      Option.some.injEq] at hy
    simp [evalConstBinary, hostSar, hlt, hshift (.inr rfl)] at hz
    exact ⟨hy, hz⟩
  | ror => cases hy
  | _ => cases hop

end Values

section Operands

def IropData.withConst (d : IropData) (v : BitVec 64) : IropData :=
  match d with
  | .imm32 _ => .imm32 (loWord v)
  | .i64 _ => .i64 v
  | d => d

namespace IROperand

def withConst (s : IROperand) (v : BitVec 64) : IROperand := { s with data := s.data.withConst v }

def isInline (s : IROperand) : Bool :=
  match s.data with
  | .imm32 _ => true
  | _ => false

def isWordConst (s : IROperand) : Bool :=
  !s.isLval &&
    match s.data with
    | .imm32 _ => true
    | .i64 _ => s.btype ≠ .int64
    | _ => false

end IROperand

variable {s : IROperand} {v : BitVec 64}

theorem isImmediate_withConst : (s.withConst v).isImmediate = s.isImmediate := by
  unfold IROperand.isImmediate IROperand.withConst IropData.withConst
  cases s.data <;> rfl

theorem isWordConst_of_foldReadImm32 {a : BitVec 32} (h : foldReadImm32 (s.withConst v) = some a) :
    s.isWordConst = true := by
  unfold foldReadImm32 IROperand.withConst IropData.withConst at h
  dsimp only at h
  split_ifs at h with hl
  unfold IROperand.isWordConst
  cases hd : s.data with
  | imm32 w => simp [hl]
  | i64 w =>
    simp only [hd] at h
    split_ifs at h with hb
    simp [hl, hb.1]
  | _ => simp [hd] at h

theorem foldReadImm32_withConst (h : s.isWordConst = true) (hv : IsExtension v) :
    foldReadImm32 (s.withConst v) = some (loWord v) := by
  unfold IROperand.isWordConst at h
  simp only [Bool.and_eq_true, Bool.not_eq_true'] at h
  unfold foldReadImm32 IROperand.withConst IropData.withConst
  rw [h.1, if_neg Bool.false_ne_true]
  cases hd : s.data with
  | imm32 w => rfl
  | i64 w =>
    have hb : s.btype ≠ .int64 := by simpa [hd] using h.2
    exact if_pos ⟨hb, hv⟩
  | _ => simp [hd] at h

theorem getImm64_withConst (h : s.isWordConst = true) (hv : (loWord v).signExtend 64 = v) :
    (s.withConst v).getImm64 = v := by
  unfold IROperand.isWordConst at h
  unfold IROperand.getImm64 IROperand.withConst IropData.withConst
  cases hd : s.data with
  | imm32 w => exact hv
  | i64 w => rfl
  | _ => simp [hd] at h

theorem getImm64_withConst_of_pooled (h : s.isWordConst = true) (hi : s.isInline = false) :
    (s.withConst v).getImm64 = v := by
  unfold IROperand.isWordConst at h
  unfold IROperand.isInline at hi
  unfold IROperand.getImm64 IROperand.withConst IropData.withConst
  cases hd : s.data with
  | i64 w => rfl
  | _ => simp [hd] at h hi

theorem signExtend_getImm64_withConst (hi : s.isInline = true) :
    (loWord (s.withConst v).getImm64).signExtend 64 = (s.withConst v).getImm64 := by
  unfold IROperand.isInline at hi
  unfold IROperand.getImm64 IROperand.withConst IropData.withConst
  cases hd : s.data with
  | imm32 w =>
    rw [loWord_signExtend]
  | _ => simp [hd] at hi

end Operands

section Agreement

open IRFlat

/-- Wherever all three return a value for the operation on these operands, the values are equal at
the width of the destination. -/
def EvaluatorsAgree (op : TccIrOp) (dest s1 s2 : IROperand) : Prop :=
  ∀ (ctx : IRSSAOptCtx) (F : IRFlat) (i useIdx : ℕ) (x y z : BitVec 64), ctx.ir = F.ir →
    i < ctx.ir.compactInstructions.length → (F.ir.quad i).op = op → (F.ir.quad i).dest = dest →
    (F.ir.quad i).src1 = s1 → (F.ir.quad i).src2 = s2 → F.evalConstDef dest useIdx = some i →
    irOptConstBinop op dest.is64 s1.getImm64 s2.getImm64 = .ok (some x) →
    foldedConst ctx i = some y → F.evalConstU64 dest useIdx = .ok (some z) →
    SameAt dest.is64 x y ∧ SameAt dest.is64 x z

/-- The operands whose constants all three take in the same way: in a doubleword operation a word is
in the operand itself, and the left operand of a right shift is a doubleword. -/
def WidthsMatch (op : TccIrOp) (dest s1 s2 : IROperand) : Prop :=
  isEvaluated op = true → op ≠ .ror → dest.is64 = true → s1.isWordConst = true →
    s2.isWordConst = true →
    s1.isInline = true ∧ (op.isShift = true ∨ s2.isInline = true) ∧
      (op = .shr ∨ op = .sar → s1.is64 = true)

variable {op : TccIrOp} {dest s1 s2 : IROperand}

def oneInstr (q : IRQuadCompact) : IRSSAOptCtx where
  ir := ⟨[q], [], [], []⟩
  cfg := ⟨fun _ => default, 1, [0], fun _ => 0, 1, none, none, 0⟩
  vinfo := fun _ => none
  barrelShifts := fun _ => 0#8
  bfiParams := fun _ => 0#16
  isJumpTarget := fun _ => false
  accessIsVolatile := fun _ => false
  symVolatile := fun _ => false
  symFloat := fun _ => false

def oneInstrFlat (q : IRQuadCompact) : IRFlat := ⟨(oneInstr q).ir, fun _ => 0#8, fun _ => false⟩

theorem isImmediate_of_plainVreg {d : IROperand} (h : d.plainVreg.isSome = true) :
    d.isImmediate = false := by
  unfold IROperand.plainVreg at h
  split_ifs at h with hd
  · unfold IROperand.isImmediate
    rw [hd.1]
    exact Bool.and_false _
  · cases h

theorem evalConstDef_oneInstr {q : IRQuadCompact} (hop : isEvaluated q.op = true)
    (hd : q.dest.plainVreg.isSome = true) :
    (oneInstrFlat q).evalConstDef q.dest 1 = some 0 := by
  have hget : q.getDest = q.dest := by
    unfold IRQuadCompact.getDest
    cases h : q.op <;> first | rfl | (rw [h] at hop; cases hop)
  have hnop : q.op ≠ .nop := by
    intro h
    rw [h] at hop
    cases hop
  obtain ⟨v, hv⟩ : ∃ v, q.dest.vreg = some v := by
    unfold IROperand.plainVreg at hd
    split_ifs at hd with h
    · exact Option.isSome_iff_exists.mp hd
    · cases hd
  have hdef : defines v q = true := by
    unfold defines
    rw [hget, hv]
    exact decide_eq_true ⟨hnop, rfl⟩
  have hsingle : (oneInstrFlat q).vregHasSingleDef v = true := by
    simp [vregHasSingleDef, oneInstrFlat, oneInstr, hdef]
  have hfind : (oneInstrFlat q).findDefiningInstruction v 1 = some 0 := by
    simp [findDefiningInstruction, oneInstrFlat, oneInstr, TCCIRState.quad, hdef]
  unfold evalConstDef
  rw [hv, bind_some, hsingle, hfind]
  simp [operandNamesVolatileVar, hv, vregAddressTakenBetween, oneInstrFlat]

theorem isEvaluated_of_ok {F : IRFlat} {i useIdx : ℕ} {is64 : Bool} {v1 v2 x z : BitVec 64}
    (hdest : dest.isImmediate = false) (hdef : F.evalConstDef dest useIdx = some i)
    (hc : irOptConstBinop (F.ir.quad i).op is64 v1 v2 = .ok (some x))
    (hz : F.evalConstU64 dest useIdx = .ok (some z)) : isEvaluated (F.ir.quad i).op = true := by
  unfold evalConstU64 irOptEvalConstU64 at hz
  rw [if_neg (by rw [hdest]; exact Bool.false_ne_true), hdef] at hz
  cases h : (F.ir.quad i).op <;>
    first
    | rfl
    | (rw [h] at hc; cases hc; done)
    | (simp only [h] at hz; cases hz)

theorem evaluatorsAgree_iff (hdest : dest.plainVreg.isSome = true) (h1 : s1.isImmediate = true)
    (h2 : s2.isImmediate = true) :
    EvaluatorsAgree op dest s1 s2 ↔ (isEvaluated op = true → ValuesAgree op dest s1 s2) := by
  have himm := isImmediate_of_plainVreg hdest
  constructor
  · intro h hop x y z hc hf hz
    let q : IRQuadCompact := ⟨op, 0, dest, s1, s2, .none⟩
    have hdef := @evalConstDef_oneInstr q hop hdest
    refine h (oneInstr q) (oneInstrFlat q) 0 1 x y z rfl Nat.zero_lt_one rfl rfl rfl rfl hdef hc
      ?_ ?_
    · rw [foldedConst_eq Nat.zero_lt_one]
      exact hf
    · rw [evalConstU64_binary himm hdef hop ⟨rfl, rfl, rfl⟩ h1 h2]
      exact hz
  · intro h ctx F i useIdx x y z hir hi hop hd hs1 hs2 hdef hc hf hz
    have hev : isEvaluated op = true := by
      rw [← hop] at hc ⊢
      exact isEvaluated_of_ok himm hdef hc hz
    have hquad : ctx.quad i = F.ir.quad i := by
      unfold IRSSAOptCtx.quad
      rw [hir]
    refine h hev x y z hc ?_ ?_
    · rw [foldedConst_eq hi, hquad, hop, hd, hs1, hs2] at hf
      exact hf
    · rw [evalConstU64_binary himm hdef hev ⟨hop, hs1, hs2⟩ h1 h2] at hz
      exact hz

theorem ValuesAgree.eq_of_wide {v1 v2 x y z : BitVec 64}
    (h : ValuesAgree op dest (s1.withConst v1) (s2.withConst v2)) (h64 : dest.is64 = true)
    (hw1 : s1.isWordConst = true) (hw2 : s2.isWordConst = true) (he1 : IsExtension v1)
    (he2 : IsExtension v2) (hg1 : (s1.withConst v1).getImm64 = v1)
    (hg2 : (s2.withConst v2).getImm64 = v2)
    (hc : irOptConstBinop op true v1 v2 = .ok (some x))
    (hf : foldEvalWide op (loWord v1) (loWord v2) = some y)
    (hz : evalConstBinary op s1.is64 v1 v2 = .ok (some z)) : x = y ∧ x = z := by
  unfold ValuesAgree at h
  rw [h64, hg1, hg2] at h
  refine h x y z hc ?_ hz
  unfold foldedValue
  rw [foldReadImm32_withConst hw1 he1, foldReadImm32_withConst hw2 he2, h64]
  exact hf

def neutralConst (op : TccIrOp) : BitVec 64 :=
  match op with
  | .mul => 1#64
  | .and => -1#64
  | _ => 0#64

theorem signExtend_neutralConst (op : TccIrOp) :
    (loWord (neutralConst op)).signExtend 64 = neutralConst op := by
  cases op <;> decide

section Converse

variable (h : ∀ v1 v2, ValuesAgree op dest (s1.withConst v1) (s2.withConst v2))
  (hop : isEvaluated op = true) (hror : op ≠ .ror) (h64 : dest.is64 = true)
  (hw1 : s1.isWordConst = true) (hw2 : s2.isWordConst = true)

include h hop hror h64 hw1 hw2

theorem isInline_left : s1.isInline = true := by
  -- `fold_const_eval` extends a pooled word by its sign, the others do not
  rw [← Bool.not_eq_false]
  intro hpool
  have he2 : IsExtension (neutralConst op) := Or.inl (signExtend_neutralConst op).symm
  have hc : irOptConstBinop op true 0xFFFFFFFF#64 (neutralConst op) =
      .ok (some 0xFFFFFFFF#64) := by
    cases op <;> first | rfl | exact absurd rfl hror | cases hop
  have hf : foldEvalWide op (loWord 0xFFFFFFFF#64) (loWord (neutralConst op)) =
      some (-1#64) := by
    cases op <;> first | rfl | exact absurd rfl hror | cases hop
  obtain ⟨z, hz⟩ : ∃ z, evalConstBinary op s1.is64 0xFFFFFFFF#64 (neutralConst op) =
      .ok (some z) := by
    cases op <;> cases s1.is64 <;> first | exact ⟨_, rfl⟩ | exact absurd rfl hror | cases hop
  have heq := ((h 0xFFFFFFFF#64 (neutralConst op)).eq_of_wide h64 hw1 hw2 (Or.inr rfl) he2
    (getImm64_withConst_of_pooled hw1 hpool) (getImm64_withConst hw2 (signExtend_neutralConst op))
    hc hf hz).1
  exact absurd heq (by decide)

theorem isInline_right (hs : op.isShift = false) : s2.isInline = true := by
  rw [← Bool.not_eq_false]
  intro hpool
  have he1 : IsExtension (neutralConst op) := Or.inl (signExtend_neutralConst op).symm
  obtain ⟨x, y, hc, hf, hne⟩ : ∃ x y,
      irOptConstBinop op true (neutralConst op) 0xFFFFFFFF#64 = .ok (some x) ∧
      foldEvalWide op (loWord (neutralConst op)) (loWord 0xFFFFFFFF#64) = some y ∧ x ≠ y := by
    cases op <;>
      first
      | exact ⟨_, _, rfl, rfl, by decide⟩
      | exact absurd rfl hror
      | exact absurd hs (by decide)
      | cases hop
  obtain ⟨z, hz⟩ : ∃ z, evalConstBinary op s1.is64 (neutralConst op) 0xFFFFFFFF#64 =
      .ok (some z) := by
    cases op <;>
      first
      | exact ⟨_, rfl⟩
      | exact absurd rfl hror
      | exact absurd hs (by decide)
      | cases hop
  exact hne ((h (neutralConst op) 0xFFFFFFFF#64).eq_of_wide h64 hw1 hw2 he1 (Or.inr rfl)
    (getImm64_withConst hw1 (signExtend_neutralConst op)) (getImm64_withConst_of_pooled hw2 hpool)
    hc hf hz).1

theorem is64_left (hs : op = .shr ∨ op = .sar) : s1.is64 = true := by
  -- `ir_opt_eval_const_u64` shifts the word here, the others the doubleword
  rw [← Bool.not_eq_false]
  intro hnarrow
  rcases hs with rfl | rfl
  · have heq := ((h (-1#64) 0#64).eq_of_wide h64 hw1 hw2 (Or.inl rfl) (Or.inl rfl)
      (getImm64_withConst hw1 rfl) (getImm64_withConst hw2 rfl) rfl rfl
      (by rw [hnarrow]; rfl : _ = Except.ok (some 0xFFFFFFFF#64))).2
    exact absurd heq (by decide)
  · have heq := ((h 0x40000000#64 32#64).eq_of_wide h64 hw1 hw2 (Or.inl rfl) (Or.inl rfl)
      (getImm64_withConst hw1 rfl) (getImm64_withConst hw2 rfl) rfl rfl
      (by rw [hnarrow]; rfl : _ = Except.ok (some 0x40000000#64))).2
    exact absurd heq (by decide)

end Converse

theorem valuesAgree_of_not_isWordConst (hn : ¬(s1.isWordConst = true ∧ s2.isWordConst = true))
    (v1 v2 : BitVec 64) : ValuesAgree op dest (s1.withConst v1) (s2.withConst v2) := by
  intro x y z _ hf _
  unfold foldedValue at hf
  cases h1 : foldReadImm32 (s1.withConst v1) with
  | none => simp [h1] at hf
  | some a =>
    cases h2 : foldReadImm32 (s2.withConst v2) with
    | none => simp [h1, h2] at hf
    | some b => exact absurd ⟨isWordConst_of_foldReadImm32 h1, isWordConst_of_foldReadImm32 h2⟩ hn

theorem valuesAgree_iff (hop : isEvaluated op = true) :
    (∀ v1 v2, ValuesAgree op dest (s1.withConst v1) (s2.withConst v2)) ↔
      WidthsMatch op dest s1 s2 := by
  constructor
  · intro h _ hror h64 hw1 hw2
    refine ⟨isInline_left h hop hror h64 hw1 hw2, ?_, is64_left h hop hror h64 hw1 hw2⟩
    cases hs : op.isShift with
    | true => exact Or.inl rfl
    | false => exact Or.inr (isInline_right h hop hror h64 hw1 hw2 hs)
  · intro h v1 v2
    by_cases h64 : dest.is64 = true
    · by_cases hror : op = .ror
      · intro x y z _ hf _
        rw [hror] at hf
        cases foldedValue_wide h64 hf
      · by_cases hw : s1.isWordConst = true ∧ s2.isWordConst = true
        · obtain ⟨hi1, hi2, hs⟩ := h hop hror h64 hw.1 hw.2
          exact valuesAgree_wide h64 hop (signExtend_getImm64_withConst hi1)
            (hi2.imp_right signExtend_getImm64_withConst) hs
        · exact valuesAgree_of_not_isWordConst hw v1 v2
    · exact valuesAgree_word (Bool.not_eq_true _ ▸ h64) hop

/-- The three evaluators agree on every pair of constants in operands of given tags and types, and
on doublewords only if those take a word in the same way. -/
theorem evaluators_agree_iff (op : TccIrOp) (dest s1 s2 : IROperand)
    (hdest : dest.plainVreg.isSome = true) (h1 : s1.isImmediate = true)
    (h2 : s2.isImmediate = true) :
    (∀ v1 v2, EvaluatorsAgree op dest (s1.withConst v1) (s2.withConst v2)) ↔
      WidthsMatch op dest s1 s2 := by
  have hiff : ∀ v1 v2, EvaluatorsAgree op dest (s1.withConst v1) (s2.withConst v2) ↔
      (isEvaluated op = true → ValuesAgree op dest (s1.withConst v1) (s2.withConst v2)) := by
    intro v1 v2
    apply evaluatorsAgree_iff hdest
    · rw [isImmediate_withConst, h1]
    · rw [isImmediate_withConst, h2]
  constructor
  · intro h hop
    exact (valuesAgree_iff hop).mp (fun v1 v2 => (hiff v1 v2).mp (h v1 v2) hop) hop
  · intro h v1 v2
    exact (hiff v1 v2).mpr fun hop => (valuesAgree_iff hop).mpr h v1 v2

/-- `T0 = #40 SHL #3` on doublewords. -/
theorem evaluators_agree_shl :
    EvaluatorsAgree .shl (.makeVreg ⟨.temp, 0⟩ .int64)
      ((IROperand.makeImm32 40#32 .int64).withConst 40#64)
      ((IROperand.makeImm32 3#32 .int32).withConst 3#64) :=
  (evaluators_agree_iff .shl (.makeVreg ⟨.temp, 0⟩ .int64) (.makeImm32 40#32 .int64)
    (.makeImm32 3#32 .int32) rfl rfl rfl).mpr
    (fun _ _ _ _ _ => ⟨rfl, Or.inl rfl, fun _ => rfl⟩) 40#64 3#64

/-- `T0 = #-1 SHR #4`, a doubleword from an inline word: `ir_opt_const_binop` and `fold_const_eval`
give `0x0FFFFFFFFFFFFFFF`, `ir_opt_eval_const_u64` gives `0x0FFFFFFF`. -/
theorem evaluators_disagree_shr :
    ¬EvaluatorsAgree .shr (.makeVreg ⟨.temp, 0⟩ .int64) (.makeImm32 (-1#32) .int32)
      (.makeImm32 4#32 .int32) := by
  intro h
  let q : IRQuadCompact := ⟨.shr, 0, .makeVreg ⟨.temp, 0⟩ .int64, .makeImm32 (-1#32) .int32,
    .makeImm32 4#32 .int32, .none⟩
  have hdef := @evalConstDef_oneInstr q rfl rfl
  have hz := @evalConstU64_binary (oneInstrFlat q) q.dest q.src1 q.src2 0 1 .shr rfl hdef rfl
    ⟨rfl, rfl, rfl⟩ rfl rfl
  have hagree := h (oneInstr q) (oneInstrFlat q) 0 1 0x0FFFFFFFFFFFFFFF#64 0x0FFFFFFFFFFFFFFF#64
    0x0FFFFFFF#64 rfl (by decide) rfl rfl rfl rfl hdef rfl rfl (hz.trans (by decide))
  exact absurd hagree.2 (by show ¬(0x0FFFFFFFFFFFFFFF#64 = 0x0FFFFFFF#64); decide)

end Agreement

end Tinycc
