import Mathlib.Algebra.Ring.Int.Defs
import Tinycc.Opt.CmpEval
import Tinycc.Opt.SsaCtx

namespace Tinycc
open Lib

namespace IROperand

/-- `irop_is_local`: the tag decides it, and `IROP_NONE` reads as local. -/
def isLocal (op : IROperand) : Bool :=
  match op.data with
  | .stackoff _ | .none => true
  | _ => false

def isLlocal (op : IROperand) : Bool := op.data = .none

def vregIs (op : IROperand) (k : VregType) : Bool :=
  match op.vreg with
  | some v => v.type = k
  | .none => false

end IROperand

def int32Min : ℤ := -2147483648

def int32Max : ℤ := 2147483647

def svReadConst32 (op : IROperand) : Option ℤ :=
  if op.btype = .int64 then none else some op.getImm32.toInt

def isUnsignedTok (tok : BitVec 32) : Bool :=
  tok = 0x92#32 || tok = 0x93#32 || tok = 0x96#32 || tok = 0x97#32

def svFoldCmp (lo hi c : ℤ) (tok : BitVec 32) : Option Bool :=
  if isUnsignedTok tok ∧ decide (lo < 0) ≠ decide (hi < 0) then none
  else do
    let a ← evaluateCompareCondition (BitVec.ofInt 64 lo) (BitVec.ofInt 64 c) tok
    let b ← evaluateCompareCondition (BitVec.ofInt 64 hi) (BitVec.ofInt 64 c) tok
    if a = b then some a else none

def svRangeVerdict (lo hi c : ℤ) (tok : BitVec 32) : Option Bool :=
  if tok = 0x94#32 ∨ tok = 0x95#32 then
    if c < lo ∨ hi < c then some (tok = 0x95#32)
    else if lo = hi then some (tok = 0x94#32)
    else none
  else svFoldCmp lo hi c tok

def toSignedTok (tok : BitVec 32) : BitVec 32 :=
  if tok = 0x92#32 then 0x9c#32
  else if tok = 0x96#32 then 0x9e#32
  else if tok = 0x97#32 then 0x9f#32
  else if tok = 0x93#32 then 0x9d#32
  else tok

def svRangeVerdict2 (alo ahi blo bhi : ℤ) (tok : BitVec 32) : Option Bool :=
  if isUnsignedTok tok ∧ (alo < 0 ∨ blo < 0) then none
  else
    let tok := toSignedTok tok
    if tok = 0x9c#32 then if ahi < blo then some true else if bhi ≤ alo then some false else none
    else if tok = 0x9e#32 then
      if ahi ≤ blo then some true else if bhi < alo then some false else none
    else if tok = 0x9f#32 then
      if bhi < alo then some true else if ahi ≤ blo then some false else none
    else if tok = 0x9d#32 then
      if bhi ≤ alo then some true else if ahi < blo then some false else none
    else if tok = 0x94#32 then
      if ahi < blo ∨ bhi < alo then some false
      else if alo = ahi ∧ blo = bhi then some true else none
    else if tok = 0x95#32 then
      if ahi < blo ∨ bhi < alo then some true
      else if alo = ahi ∧ blo = bhi then some false else none
    else none

structure SVRange where
  lo : BitVec 32
  hi : BitVec 32
  valid : Bool
  deriving DecidableEq, Repr

/-- The ranges in scope: those of the TEMPs first, then those of the stable PARAMs and VARs. -/
structure SVState where
  ctx : IRSSAOptCtx
  ranges : ℕ → SVRange
  tempCap : ℕ
  paramStable : ℕ → Bool
  paramCap : ℕ
  varStable : ℕ → Bool
  varCap : ℕ

variable (s : SVState)

def svSlot (vr : Option Vreg) : Option ℕ :=
  match vr with
  | none => none
  | some ⟨.temp, pos⟩ =>
    if s.tempCap ≤ pos then none
    else
      match s.ctx.ssaOptVinfo (some ⟨.temp, pos⟩) with
      | some vi => if 1 < vi.defCount then none else some pos
      | none => some pos
  | some ⟨.param, pos⟩ =>
    if s.paramCap ≤ pos ∨ s.paramStable pos = false then none else some (s.tempCap + pos)
  | some ⟨.var, pos⟩ =>
    if s.varCap ≤ pos ∨ s.varStable pos = false then none
    else some (s.tempCap + s.paramCap + pos)

def svOperandSlot (op : IROperand) : Option ℕ :=
  if op.isSym ∨ op.vreg = none then none
  else if op.isLval ∧ (op.vregIs .var = false ∨ op.isLocal = false ∨ op.isLlocal) then none
  else svSlot s op.vreg

def IROperand.isPlainImm (op : IROperand) : Bool := op.isImmediate && !op.isSym && !op.isLval

def svSlotRange (op : IROperand) : Option (ℤ × ℤ) :=
  (svOperandSlot s op).bind fun sl =>
    if (s.ranges sl).valid then some ((s.ranges sl).lo.toInt, (s.ranges sl).hi.toInt) else none

def svOperandRange (op : IROperand) : Option (ℤ × ℤ) :=
  if op.btype ≠ .int32 ∧ op.btype ≠ .int8 ∧ op.btype ≠ .int16 then none
  else if op.isImmediate then
    if op.isPlainImm then (svReadConst32 op).map fun c => (c, c) else none
  else svSlotRange s op

def svSet (slot : ℕ) (lo hi : ℤ) : SVState :=
  if lo < int32Min ∨ int32Max < hi then s
  else
    { s with
      ranges := Function.update s.ranges slot ⟨BitVec.ofInt 32 lo, BitVec.ofInt 32 hi, true⟩ }

def svSetIntersect (slot : ℕ) (lo hi : ℤ) : SVState :=
  let r := s.ranges slot
  if r.valid then
    let lo := if lo < r.lo.toInt then r.lo.toInt else lo
    let hi := if r.hi.toInt < hi then r.hi.toInt else hi
    if hi < lo then s else svSet s slot lo hi
  else svSet s slot lo hi

variable (dslot : ℕ)

def svSeedAssign (src1 : IROperand) : SVState :=
  if src1.isImmediate then
    match svReadConst32 src1 with
    | some c => svSet s dslot c c
    | none => s
  else
    match svSlotRange s src1 with
    | some (lo, hi) => svSet s dslot lo hi
    | none => s

def svSeedWidth (src1 : IROperand) : SVState :=
  if src1.isLval = false ∨ src1.isLlocal then s
  else if src1.btype = .int8 then
    svSetIntersect s dslot (if src1.isUnsigned then 0 else -128)
      (if src1.isUnsigned then 255 else 127)
  else if src1.btype = .int16 then
    svSetIntersect s dslot (if src1.isUnsigned then 0 else -32768)
      (if src1.isUnsigned then 65535 else 32767)
  else s

def svSeedAddsub (op : TccIrOp) (src1 src2 : IROperand) : SVState :=
  match svOperandRange s src1, svOperandRange s src2 with
  | some (alo, ahi), some (blo, bhi) =>
    let lo := if op = .add then alo + blo else alo - bhi
    let hi := if op = .add then ahi + bhi else ahi - blo
    if int32Min ≤ lo ∧ hi ≤ int32Max then svSet s dslot lo hi else s
  | _, _ => s

def svSeedMuldiv (op : TccIrOp) (src1 src2 : IROperand) : SVState :=
  if src2.isPlainImm = false then s
  else
    match svReadConst32 src2 with
    | none => s
    | some k =>
      if op = .umod then if 0 < k then svSetIntersect s dslot 0 (k - 1) else s
      else if op = .imod then
        let a := (if k < 0 then -k else k) - 1
        if k = 0 then s
        else
          match svOperandRange s src1 with
          | some (xlo, xhi) =>
            svSetIntersect s dslot (if 0 ≤ xlo then 0 else -a) (if xhi ≤ 0 then 0 else a)
          | none => svSetIntersect s dslot (-a) a
      else
        match svOperandRange s src1 with
        | none => s
        | some (xlo, xhi) =>
          if op = .mul then
            let lo := (if k < 0 then xhi else xlo) * k
            let hi := (if k < 0 then xlo else xhi) * k
            if int32Min ≤ lo ∧ hi ≤ int32Max then svSet s dslot lo hi else s
          else if k ≤ 0 ∨ (op = .udiv ∧ xlo < 0) then s
          else svSet s dslot (xlo.tdiv k) (xhi.tdiv k)

/-- `while (mask <= v) mask <<= 1`. A number of 63 bits is passed within 64 tests. -/
def growMask (v : ℤ) : Option ℕ :=
  whileLoop (fun mask : ℕ => (mask : ℤ) ≤ v) (fun mask => mask <<< 1) 64 1

def svSeedOrxor (op : TccIrOp) (src1 src2 : IROperand) : SVState :=
  if src2.isPlainImm = false then s
  else
    match svReadConst32 src2, svOperandRange s src1 with
    | some k, some (xlo, xhi) =>
      if k < 0 ∨ xlo < 0 then s
      else
        match growMask (BitVec.ofInt 64 xhi ||| BitVec.ofInt 64 k).toInt with
        | some mask =>
          if op = .or then svSetIntersect s dslot (if k < xlo then xlo else k) (mask - 1)
          else svSetIntersect s dslot 0 (mask - 1)
        | none => s
    | _, _ => s

def svSeedSelect (src1 src2 : IROperand) : SVState :=
  match svOperandRange s src1, svOperandRange s src2 with
  | some (alo, ahi), some (blo, bhi) =>
    svSetIntersect s dslot (if alo < blo then alo else blo) (if bhi < ahi then ahi else bhi)
  | _, _ => s

def svSeedBfx (op : TccIrOp) (src2 : IROperand) : SVState :=
  if src2.isImmediate = false then s
  else
    let width := bfxWidth src2.getImm32
    if 32 ≤ width then s
    else if op = .ubfx then svSet s dslot 0 (2 ^ width - 1)
    else svSet s dslot (-2 ^ (width - 1)) (2 ^ (width - 1) - 1)

def svSeedShr (q : IRQuadCompact) (dslot : ℕ) (src1 : IROperand) (k : ℕ) : SVState :=
  let is32 := q.dest.btype ≠ .int64 ∧ src1.btype ≠ .int64
  match svSlotRange s src1 with
  | some (xlo, xhi) =>
    if 0 ≤ xlo then
      let hi := if 1 ≤ k ∧ is32 then ((0xFFFFFFFF#32 >>> k).toNat : ℤ) else xhi >>> k
      let lo := if 0 < xlo >>> k then xlo >>> k else 0
      let hi := if xhi >>> k < hi then xhi >>> k else hi
      if lo ≤ hi then svSet s dslot lo hi else s
    else if 1 ≤ k ∧ is32 then svSet s dslot 0 (0xFFFFFFFF#32 >>> k).toNat
    else s
  | none => if 1 ≤ k ∧ is32 then svSet s dslot 0 (0xFFFFFFFF#32 >>> k).toNat else s

def svSeedBitop (q : IRQuadCompact) (dslot : ℕ) (op : TccIrOp)
    (src1 src2 : IROperand) : SVState :=
  if src2.isImmediate = false then s
  else
    match svReadConst32 src2 with
    | none => s
    | some k =>
      if op = .and then
        if k < 0 then s
        else
          match svSlotRange s src1 with
          | some (xlo, xhi) => svSet s dslot 0 (if 0 ≤ xlo ∧ xhi < k then xhi else k)
          | none => svSet s dslot 0 k
      else if k < 0 ∨ 31 < k then s
      else if op = .shr then svSeedShr s q dslot src1 k.toNat
      else
        match svSlotRange s src1 with
        | none => s
        | some (xlo, xhi) =>
          if op = .shl then
            let lo := xlo * 2 ^ k.toNat
            let hi := xhi * 2 ^ k.toNat
            if int32Min ≤ lo ∧ hi ≤ int32Max then svSet s dslot lo hi else s
          else if op = .sar then svSet s dslot (xlo >>> k.toNat) (xhi >>> k.toNat)
          else s

def svSeedSarWidth (q : IRQuadCompact) (dslot : ℕ) (src1 src2 : IROperand) :
    SVState :=
  if src2.isPlainImm = false then s
  else
    match svReadConst32 src2 with
    | none => s
    | some k =>
      if k < 1 ∨ 31 < k then s
      else if src1.btype ≠ .int32 ∨ q.dest.btype ≠ .int32 then s
      else svSetIntersect s dslot (int32Min >>> k.toNat) (int32Max >>> k.toNat)

def svSeedDef (q : IRQuadCompact) : SVState :=
  if (iropConfig q.op).hasDest = false then s
  else if q.dest.isLval ∨ q.dest.isSym then s
  else
    match svSlot s q.dest.vreg with
    | none => s
    | some dslot =>
      if s.ctx.barrelShiftAt q ≠ 0#8 then s
      else
        match q.op with
        | .assign | .load => svSeedWidth (svSeedAssign s dslot q.src1) dslot q.src1
        | .setif | .boolOr | .boolAnd => svSet s dslot 0 1
        | .ubfx | .sbfx => svSeedBfx s dslot q.op q.src2
        | .add | .sub => svSeedAddsub s dslot q.op q.src1 q.src2
        | .and | .shl | .shr => svSeedBitop s q dslot q.op q.src1 q.src2
        | .sar =>
          svSeedSarWidth (svSeedBitop s q dslot q.op q.src1 q.src2) q dslot q.src1 q.src2
        | .mul | .div | .udiv | .umod | .imod => svSeedMuldiv s dslot q.op q.src1 q.src2
        | .or | .xor => svSeedOrxor s dslot q.op q.src1 q.src2
        | .select => svSeedSelect s dslot q.src1 q.src2
        | _ => s

end Tinycc
