import Tinycc.Opt.SsaCtx

namespace Tinycc
open BitVec

def foldReadImm32 (op : IROperand) : Option (BitVec 32) :=
  if op.isLval then none
  else
    match op.data with
    | .imm32 v => some v
    | .i64 v =>
      if op.btype ≠ .int64 ∧ (v = (loWord v).signExtend 64 ∨ v = ofWord (loWord v)) then
        some (loWord v)
      else none
    | _ => none

def mkImmBt (v : BitVec 32) (b : IropBtype) : IROperand := .makeImm32 v b

def mkImm64 (v : BitVec 64) (b : IropBtype) (isUnsigned : Bool) : IROperand :=
  if v = (loWord v).signExtend 64 then ⟨.imm32 (loWord v), none, false, b, isUnsigned⟩
  else ⟨.i64 v, none, false, b, isUnsigned⟩

def isValueDest (op : IROperand) : Bool := op.vreg.isSome && !op.isLval

def isTempVreg (op : IROperand) : Bool :=
  match op.vreg with
  | some v => v.type = .temp
  | none => false

def foldApplyBarrel (m : BitVec 32) (bs : BitVec 8) : BitVec 32 :=
  let amount := (bs &&& 0x1F#8).toNat
  if bs >>> 5 = 1#8 then m <<< amount
  else if bs >>> 5 = 2#8 then m >>> amount
  else if bs >>> 5 = 3#8 then
    m >>> amount |||
      (if m &&& 0x80000000#32 ≠ 0#32 ∧ amount ≠ 0 then ~~~(0xFFFFFFFF#32 >>> amount) else 0#32)
  else if bs >>> 5 = 4#8 then
    if amount ≠ 0 then m >>> amount ||| m <<< (32 - amount) else m
  else m

/-- The known bits of a doubleword: those that are 0 and those that are 1. -/
structure FoldKB64 where
  kz : BitVec 64
  ko : BitVec 64
  deriving DecidableEq, Repr

def FoldKB64.none : FoldKB64 := ⟨0#64, 0#64⟩

def foldEvalWide (op : TccIrOp) (val1 val2 : BitVec 32) : Option (BitVec 64) :=
  let v1 := val1.signExtend 64
  let v2 := val2.signExtend 64
  match op with
  | .add => some (v1 + v2)
  | .sub => some (v1 - v2)
  | .mul => some (v1 * v2)
  | .umull => some (ofWord val1 * ofWord val2)
  | .smull => some (v1 * v2)
  | .and => some (v1 &&& v2)
  | .or => some (v1 ||| v2)
  | .xor => some (v1 ^^^ v2)
  | .shl => some (if 64 ≤ v2.toNat then 0#64 else v1 <<< v2.toNat)
  | .shr => some (if 64 ≤ v2.toNat then 0#64 else v1 >>> v2.toNat)
  | .sar => some (if 64 ≤ v2.toNat then v1.sshiftRight 63 else v1.sshiftRight v2.toNat)
  | .div =>
    if v2 = 0#64 ∨ (v2 = -1#64 ∧ v1 = intMin 64) then none else some (v1.sdiv v2)
  | .udiv => if v2 = 0#64 then none else some (v1 / v2)
  | .imod =>
    if v2 = 0#64 ∨ (v2 = -1#64 ∧ v1 = intMin 64) then none else some (v1.srem v2)
  | .umod => if v2 = 0#64 then none else some (v1 % v2)
  | _ => none

def foldEvalWord (op : TccIrOp) (val1 val2 : BitVec 32) : Option (BitVec 32) :=
  match op with
  | .add => some (val1 + val2)
  | .sub => some (val1 - val2)
  | .mul => some (val1 * val2)
  | .and => some (val1 &&& val2)
  | .or => some (val1 ||| val2)
  | .xor => some (val1 ^^^ val2)
  | .shl => some (if 32 ≤ val2.toNat then 0#32 else val1 <<< val2.toNat)
  | .shr => some (if 32 ≤ val2.toNat then 0#32 else val1 >>> val2.toNat)
  | .ror =>
    -- the source shifts by 32 for `n = 0`, which the host takes for a shift by 0
    let n := (val2 &&& 31#32).toNat
    some (val1 >>> n ||| val1 <<< ((32 - n) % 32))
  | .sar => some (if 32 ≤ val2.toNat then val1.sshiftRight 31 else val1.sshiftRight val2.toNat)
  | .div =>
    if val2 = 0#32 ∨ (val2 = -1#32 ∧ val1 = intMin 32) then none else some (val1.sdiv val2)
  | .udiv => if val2 = 0#32 then none else some (val1 / val2)
  | .imod =>
    if val2 = 0#32 ∨ (val2 = -1#32 ∧ val1 = intMin 32) then none else some (val1.srem val2)
  | .umod => if val2 = 0#32 then none else some (val1 % val2)
  | _ => none

/-- A rewrite of one instruction, where it fires. -/
abbrev OptDslSSARule := IRSSAOptCtx → ℕ → Option IRSSAOptCtx

namespace IRSSAOptCtx

variable (ctx : IRSSAOptCtx) (i : ℕ)

def foldSingleDomDef (op : IROperand) (useIdx : ℕ) : Option ℕ :=
  match op.plainVreg with
  | some ⟨.temp, t⟩ =>
    (ctx.vinfo t).bind fun vi =>
      if vi.defCount = 1 then
        vi.defInstr.bind fun d => if ctx.blockDominates d useIdx then some d else none
      else none
  | _ => none

/-- `fold_maybe_set_bits`: a mask of the bits of a word that may be set, with what is left of the
budget. -/
def foldMaybeSetBits : ℕ → IROperand → ℕ → ℤ → BitVec 32 × ℤ
  | depth, op, useIdx, budget =>
    match foldReadImm32 op with
    | some v => (v, budget)
    | none =>
      match depth with
      | 0 => (allOnes 32, budget)
      | depth + 1 =>
        let budget := budget - 1
        if budget ≤ 0 ∨ op.is64 then (allOnes 32, budget)
        else
          match ctx.foldSingleDomDef op useIdx with
          | none => (allOnes 32, budget)
          | some d =>
            let q := ctx.quad d
            let dd := q.getDest
            let bs := ctx.barrelShiftAt q
            if dd.is64 ∨ dd.isLval then (allOnes 32, budget)
            else
              match q.op with
              | .and =>
                let (m1, budget) := foldMaybeSetBits depth q.src1 d budget
                let (m2, budget) := foldMaybeSetBits depth q.src2 d budget
                (m1 &&& foldApplyBarrel m2 bs, budget)
              | .or | .xor =>
                let (m1, budget) := foldMaybeSetBits depth q.src1 d budget
                let (m2, budget) := foldMaybeSetBits depth q.src2 d budget
                (m1 ||| foldApplyBarrel m2 bs, budget)
              | .shl | .shr | .sar =>
                match foldReadImm32 q.src2 with
                | none => (allOnes 32, budget)
                | some sh =>
                  if bs ≠ 0#8 ∨ 32 ≤ sh.toNat then (allOnes 32, budget)
                  else
                    let (m, budget) := foldMaybeSetBits depth q.src1 d budget
                    if q.op = .shl then (m <<< sh.toNat, budget)
                    else if q.op = .shr then (m >>> sh.toNat, budget)
                    else
                      (m >>> sh.toNat |||
                        (if m &&& 0x80000000#32 ≠ 0#32 ∧ sh.toNat ≠ 0 then
                          ~~~(0xFFFFFFFF#32 >>> sh.toNat) else 0#32), budget)
              | .assign =>
                if dd.btype = .int32 ∧ q.src1.isLval = false then
                  foldMaybeSetBits depth q.src1 d budget
                else (allOnes 32, budget)
              | .setif => (1#32, budget)
              | .load =>
                if q.src1.isLval ∧ q.src1.isUnsigned ∧ q.src1.btype = .int8 then (0xFF#32, budget)
                else if q.src1.isLval ∧ q.src1.isUnsigned ∧ q.src1.btype = .int16 then
                  (0xFFFF#32, budget)
                else (allOnes 32, budget)
              | .ubfx =>
                match foldReadImm32 q.src2 with
                | none => (allOnes 32, budget)
                | some f =>
                  let width := ((f >>> 5) &&& 0x1F#32).toNat
                  if bs = 0#8 ∧ f &&& ubfxHiHalf = 0#32 ∧ 0 < width then
                    ((1#32 <<< width) - 1#32, budget)
                  else (allOnes 32, budget)
              | .store =>
                if isTempVreg dd ∧ ¬ (dd.data matches .stackoff _) ∧ q.src1.isLval = false ∧
                    q.src1.is64 = false then
                  foldMaybeSetBits depth q.src1 d budget
                else (allOnes 32, budget)
              | _ => (allOnes 32, budget)

def maybeSetBits (op : IROperand) : BitVec 32 := (ctx.foldMaybeSetBits 24 op i 4096).1

def foldMaskIsCopy (dest src : IROperand) (mask : BitVec 32) : Option IROperand :=
  if src.data ≠ .vreg ∨ src.isLval ∨ src.is64 ∨ dest.is64 then none
  else if ctx.maybeSetBits i src &&& ~~~mask ≠ 0#32 then none
  else if src.btype = dest.btype then some src
  else if isTempVreg src ∧ dest.btype = .int32 then some { src with btype := .int32 }
  else none

def foldKb64Word (op : IROperand) (useIdx : ℕ) (widthMask : BitVec 32) (zext : Bool) (depth : ℕ)
    (budget : ℤ) : FoldKB64 × ℤ :=
  let hi := 0xFFFFFFFF00000000#64
  if op.isLval then (.none, budget)
  else
    match foldReadImm32 op with
    | some v =>
      let w := v &&& widthMask
      let kz := ofWord (~~~w)
      (⟨if zext ∨ w &&& 0x80000000#32 = 0#32 then kz ||| hi else kz, ofWord w⟩, budget)
    | none =>
      if op.data ≠ .vreg then (.none, budget)
      else
        let (m, budget) := ctx.foldMaybeSetBits depth op useIdx budget
        let m := m &&& widthMask
        let kz := ofWord (~~~m)
        (⟨if zext ∨ m &&& 0x80000000#32 = 0#32 ∨ op.isUnsigned then kz ||| hi else kz, 0#64⟩,
          budget)

def foldKb64Result (kb : IROperand → ℕ → ℤ → FoldKB64 × ℤ) (q : IRQuadCompact) (useIdx depth : ℕ)
    (budget : ℤ) : FoldKB64 × ℤ :=
  match q.op with
  | .assign => kb q.src1 useIdx budget
  | .zext =>
    if q.src1.isLval then (.none, budget)
    else if q.src1.is64 then kb q.src1 useIdx budget
    else
      let wm :=
        if q.src1.btype = .int8 then 0xFF#32
        else if q.src1.btype = .int16 then 0xFFFF#32 else 0xFFFFFFFF#32
      ctx.foldKb64Word q.src1 useIdx wm true depth budget
  | .pack64 =>
    let (lo, budget) := ctx.foldKb64Word q.src1 useIdx 0xFFFFFFFF#32 true depth budget
    let (hi, budget) := ctx.foldKb64Word q.src2 useIdx 0xFFFFFFFF#32 true depth budget
    (⟨(lo.kz &&& 0xFFFFFFFF#64) ||| (hi.kz <<< 32), (lo.ko &&& 0xFFFFFFFF#64) ||| (hi.ko <<< 32)⟩,
      budget)
  | .and =>
    let (a, budget) := kb q.src1 useIdx budget
    let (b, budget) := kb q.src2 useIdx budget
    (⟨a.kz ||| b.kz, a.ko &&& b.ko⟩, budget)
  | .or =>
    let (a, budget) := kb q.src1 useIdx budget
    let (b, budget) := kb q.src2 useIdx budget
    (⟨a.kz &&& b.kz, a.ko ||| b.ko⟩, budget)
  | .xor =>
    let (a, budget) := kb q.src1 useIdx budget
    let (b, budget) := kb q.src2 useIdx budget
    (⟨(a.kz &&& b.kz) ||| (a.ko &&& b.ko), (a.kz &&& b.ko) ||| (a.ko &&& b.kz)⟩, budget)
  | .shl | .shr | .sar =>
    match foldReadImm32 q.src2 with
    | none => (.none, budget)
    | some k =>
      let k := k.toNat
      if 64 ≤ k then (.none, budget)
      else
        let (a, budget) := kb q.src1 useIdx budget
        if q.op = .shl then (⟨(a.kz <<< k) ||| ((1#64 <<< k) - 1#64), a.ko <<< k⟩, budget)
        else if q.op = .shr then
          (⟨(a.kz >>> k) ||| ~~~(allOnes 64 >>> k), a.ko >>> k⟩, budget)
        else (⟨a.kz.sshiftRight k, a.ko.sshiftRight k⟩, budget)
  | _ => (.none, budget)

def foldKb64 : ℕ → IROperand → ℕ → ℤ → FoldKB64 × ℤ
  | depth, op, useIdx, budget =>
    if op.isLval ∨ op.isSym then (.none, budget)
    else if op.is64 = false then ctx.foldKb64Word op useIdx 0xFFFFFFFF#32 false depth budget
    else if op.isImmediate then
      (if op.btype = .int64 then ⟨~~~op.getImm64, op.getImm64⟩ else .none, budget)
    else
      match depth with
      | 0 => (.none, budget)
      | depth + 1 =>
        let budget := budget - 1
        if budget ≤ 0 then (.none, budget)
        else
          match ctx.foldSingleDomDef op useIdx with
          | none => (.none, budget)
          | some d =>
            let q := ctx.quad d
            if ctx.barrelShiftAt q = 0#8 ∧ q.getDest.isLval = false ∧ q.getDest.btype = .int64 then
              ctx.foldKb64Result (foldKb64 depth) q d depth budget
            else (.none, budget)

def assign (x : IROperand) : IRSSAOptCtx := (ctx.setOp i .assign).setSrc1 i x

theorem quad_assign {ctx : IRSSAOptCtx} {i : ℕ} (hi : i < ctx.ir.compactInstructions.length)
    (x : IROperand) : (ctx.assign i x).quad i = { ctx.quad i with op := .assign, src1 := x } := by
  have hlen : i < (ctx.setOp i .assign).ir.compactInstructions.length := by
    unfold setOp
    rw [length_setQuad]
    exact hi
  unfold assign setSrc1
  rw [quad_setQuad_self hlen]
  unfold setOp
  rw [quad_setQuad_self hi]

def foldClearBarrel : IRSSAOptCtx :=
  { ctx with barrelShifts := Function.update ctx.barrelShifts (ctx.quad i).origIndex 0#8 }

end IRSSAOptCtx

open IRSSAOptCtx

section Rules

variable (ctx : IRSSAOptCtx) (i : ℕ)

def foldConstEval : OptDslSSARule := fun ctx i => do
  let q := ctx.quad i
  let val1 ← foldReadImm32 q.src1
  let val2 ← foldReadImm32 q.src2
  let imm ←
    if q.dest.is64 then
      (foldEvalWide q.op val1 val2).map fun result => mkImm64 result q.dest.btype false
    else if q.src1.is64 ∨ q.src2.is64 then none
    else (foldEvalWord q.op val1 val2).map fun result => mkImmBt result q.dest.btype
  some (((ctx.dropUse q.src1 i).dropUse q.src2 i).assign i imm)

def TccIrOp.isShift : TccIrOp → Bool
  | .shl | .shr | .sar => true
  | _ => false

def foldKnownBits64 : OptDslSSARule := fun ctx i =>
  let q := ctx.quad i
  if q.dest.btype = .int64 ∧ (q.op = .and ∨ q.op = .or ∨ q.op = .xor ∨ q.op.isShift) ∧
      q.src1.isLval = false ∧ q.src2.isLval = false then
    let r := (ctx.foldKb64Result (ctx.foldKb64 8) q i 8 48).1
    if r.kz ||| r.ko = allOnes 64 then
      some ((((ctx.dropUse q.src1 i).dropUse q.src2 i).assign i
        (mkImm64 r.ko .int64 q.dest.isUnsigned)).setSrc2 i .none)
    else none
  else none

/-- A generator: the context after it, and whether it fired. -/
abbrev IRSSAOptGen := IRSSAOptCtx → ℕ → IRSSAOptCtx × Bool

def OptDslSSARule.gen (rule : OptDslSSARule) : IRSSAOptGen := fun ctx i =>
  match rule ctx i with
  | some ctx' => (ctx', true)
  | none => (ctx, false)

def foldOrZeroArm : OptDslSSARule := fun ctx i =>
  let q := ctx.quad i
  let bs := ctx.barrelShiftAt q
  if isValueDest q.dest ∧ ¬ (q.dest.is64 ∨ q.src1.is64 ∨ q.src2.is64) then do
    let (keep, drop) ←
      if foldApplyBarrel (ctx.maybeSetBits i q.src2) bs = 0#32 then some (q.src1, q.src2)
      else if bs = 0#8 ∧ ctx.maybeSetBits i q.src1 = 0#32 then some (q.src2, q.src1)
      else none
    if keep.isLval then none
    else some (((ctx.dropUse drop i).foldClearBarrel i).assign i keep)
  else none

end Rules

end Tinycc
