import Tinycc.IR.Value

namespace Tinycc
open Lib

inductive UdivTok
  | udiv
  | umod
  deriving DecidableEq, Repr

structure Reciprocal where
  shift : ℕ
  /-- The reciprocal has 65 bits, and `magic` is the lower 64. -/
  add : Bool
  magic : BitVec 64
  deriving DecidableEq, Repr

def udivShift (d : BitVec 64) : Option ℕ :=
  (whileLoop (fun s : BitVec 64 × ℕ => 1#64 < s.1) (fun s => (s.1 >>> 1, s.2 + 1)) 65 (d, 0)).map
    Prod.snd

def reciprocalStep (d : BitVec 64) (s : BitVec 64 × BitVec 64) : BitVec 64 × BitVec 64 :=
  let overflow := s.1 >>> 63 ≠ 0#64
  let rem := s.1 <<< 1
  let magic := s.2 <<< 1
  if overflow ∨ d ≤ rem then (rem - d, magic ||| 1#64) else (rem, magic)

def isPow2 (d : BitVec 64) : Bool := d &&& (d - 1#64) = 0#64

def udivReciprocal (d : BitVec 64) : Option Reciprocal :=
  (udivShift d).map fun shift =>
    if isPow2 d then ⟨shift, false, 0#64⟩
    else
      let s := forRange 64 (fun s _ => reciprocalStep d s) (1#64 <<< shift, 0#64)
      let rem := s.1
      let magic := s.2
      if 1#64 <<< shift ≤ d - rem then
        let twice := rem + rem
        let bit := if twice < rem ∨ d ≤ twice then 1#64 else 0#64
        ⟨shift, true, magic + magic + bit + 1#64⟩
      else ⟨shift, false, magic + 1#64⟩

structure LlDivCode where
  instrs : List IRQuadCompact
  nextTemp : ℕ
  deriving DecidableEq, Repr

inductive LlDivType
  | word
  | wide
  deriving DecidableEq, Repr

def LlDivType.btype : LlDivType → IropBtype
  | .word => .int32
  | .wide => .int64

abbrev LlDivM := StateM LlDivCode

/-- `ll_div_const`, as the operand it becomes: a word inline, a doubleword pooled. -/
def llDivConst (value : BitVec 64) (type : LlDivType) : IROperand :=
  match type with
  | .word => ⟨.imm32 (loWord value), none, false, .int32, true⟩
  | .wide => ⟨.i64 value, none, false, .int64, true⟩

def llDivCount (n : ℕ) : IROperand := .makeImm32 (BitVec.ofNat 32 n) .int32

def llDivTemp (t : ℕ) (type : LlDivType) : IROperand :=
  ⟨.vreg, some ⟨.temp, t⟩, false, type.btype, true⟩

def llDivEmit (op : TccIrOp) (a b : IROperand) (type : LlDivType) : LlDivM IROperand := fun c =>
  let dest := llDivTemp c.nextTemp type
  (dest, ⟨c.instrs ++ [⟨op, c.instrs.length, dest, a, b, .none⟩], c.nextTemp + 1⟩)

def llDivHigh (value : IROperand) : LlDivM IROperand := llDivEmit .shr value (llDivCount 32) .wide

def llDivLow (value : IROperand) : LlDivM IROperand := llDivEmit .assign value value .word

def llDivMulhi (n : IROperand) (magic : BitVec 64) : LlDivM IROperand := do
  let nl ← llDivLow n
  let nh ← llDivHigh n
  let nh ← llDivLow nh
  let ml := llDivConst (ofWord (loWord magic)) .word
  let mh := llDivConst (magic >>> 32) .word
  let p00 ← llDivEmit .umull nl ml .wide
  let p01 ← llDivEmit .umull nl mh .wide
  let p10 ← llDivEmit .umull nh ml .wide
  let p11 ← llDivEmit .umull nh mh .wide
  let lo01 ← llDivLow p01
  let lo10 ← llDivLow p10
  let lo01 ← llDivEmit .zext lo01 lo01 .wide
  let lo10 ← llDivEmit .zext lo10 lo10 .wide
  let hi00 ← llDivHigh p00
  let carry ← llDivEmit .add hi00 lo01 .wide
  let carry ← llDivEmit .add carry lo10 .wide
  let hi01 ← llDivHigh p01
  let high ← llDivEmit .add p11 hi01 .wide
  let hi10 ← llDivHigh p10
  let high ← llDivEmit .add high hi10 .wide
  let hiCarry ← llDivHigh carry
  llDivEmit .add high hiCarry .wide

/-- The add-and-halve correction for a reciprocal of 65 bits. -/
def llDivAddHalve (n q : IROperand) : LlDivM IROperand := do
  let delta ← llDivEmit .sub n q .wide
  let delta ← llDivEmit .shr delta (llDivCount 1) .wide
  llDivEmit .add delta q .wide

/-- The remainder from the quotient: `n - q * d` by products of words. -/
def llDivRemainder (n q : IROperand) (d : BitVec 64) : LlDivM IROperand := do
  let ql ← llDivLow q
  let qh ← llDivHigh q
  let qh ← llDivLow qh
  let dl := llDivConst (ofWord (loWord d)) .word
  let dh := llDivConst (d >>> 32) .word
  let low ← llDivEmit .umull ql dl .wide
  let cross1 ← llDivEmit .umull ql dh .wide
  let cross2 ← llDivEmit .umull qh dl .wide
  let cross ← llDivEmit .add cross1 cross2 .wide
  let cross ← llDivEmit .shl cross (llDivCount 32) .wide
  let product ← llDivEmit .add low cross .wide
  llDivEmit .sub n product .wide

def llDivProduct (n : IROperand) (d : BitVec 64) (r : Reciprocal) : LlDivM IROperand :=
  if isPow2 d then pure n
  else do
    let q ← llDivMulhi n r.magic
    if r.add then llDivAddHalve n q else pure q

def llDivQuotient (n : IROperand) (d : BitVec 64) (r : Reciprocal) : LlDivM IROperand := do
  let q ← llDivProduct n d r
  if r.shift ≠ 0 then llDivEmit .shr q (llDivCount r.shift) .wide else pure q

def emitConstUdiv64 (op : UdivTok) (lhs : IROperand) (d : BitVec 64) (r : Reciprocal) :
    LlDivM IROperand := do
  let n ← llDivEmit .assign lhs lhs .wide
  let q ← llDivQuotient n d r
  match op with
  | .udiv => pure q
  | .umod =>
    if isPow2 d then llDivEmit .and n (llDivConst (d - 1#64) .wide) .wide
    else llDivRemainder n q d

/-- `try_emit_const_udiv64`. `enabled` stands for the conditions on the options and on the code
being wanted; the divisor is there when the top of the value stack is a constant. -/
def tryEmitConstUdiv64 (enabled : Bool) (op : UdivTok) (lhs : IROperand)
    (divisor : Option (BitVec 64)) (c : LlDivCode) : Option (IROperand × LlDivCode) :=
  if enabled then
    divisor.bind fun d =>
      if d = 0#64 then none
      else (udivReciprocal d).map fun r => emitConstUdiv64 op lhs d r c
  else none

/-- The run of a straight line of instructions without annotations. -/
def runQuads {World : Type} (M : ValueSem World) (w : World) :
    List IRQuadCompact → (Vreg → BitVec 64) → Option (Vreg → BitVec 64)
  | [], σ => some σ
  | q :: qs, σ =>
    (M.instrValue 0#8 0#16 q σ w).bind fun v =>
      q.dest.plainVreg.bind fun r => runQuads M w qs (Function.update σ r v)

example : udivReciprocal 7#64 = some ⟨2, true, 0x2492492492492493#64⟩ := by decide +kernel

end Tinycc
