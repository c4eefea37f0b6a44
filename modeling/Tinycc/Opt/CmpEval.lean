import Tinycc.IR.Compare
import Tinycc.Opt.ConstEvalSound

namespace Tinycc

def lowWordSext (v : BitVec 64) : BitVec 64 := (loWord v).signExtend 64

def sccpEvalCond (v1 v2 : BitVec 64) (tok : BitVec 32) : Option Bool :=
  (CmpCond.ofTok tok).map fun c => c.holds v1 v2

variable (bs : BitVec 8)

def cmpBarrel (m : BitVec 32) : Option (BitVec 32) :=
  let amount := (bs &&& 0x1F#8).toNat
  if bs >>> 5 = 1#8 then some (m <<< amount)
  else if bs >>> 5 = 2#8 then some (m >>> amount)
  else if bs >>> 5 = 3#8 then
    some (m >>> amount |||
      (if m &&& 0x80000000#32 ≠ 0#32 ∧ amount ≠ 0 then ~~~(0xFFFFFFFF#32 >>> amount) else 0#32))
  else if bs >>> 5 = 4#8 then
    some (if amount ≠ 0 then m >>> amount ||| m <<< (32 - amount) else m)
  else none

/-- The condition of a jump after `CMP` of two constants: the operands are cut to the width of the
first, and the second is shifted as the annotation `cbs` says. -/
def sccpCmpDecide (cbs : BitVec 8) (s1 : IROperand) (v1 v2 : BitVec 64) (tok : BitVec 32) :
    Option Bool :=
  if s1.btype = .int64 then if cbs = 0#8 then sccpEvalCond v1 v2 tok else none
  else if cbs = 0#8 then sccpEvalCond (lowWordSext v1) (lowWordSext v2) tok
  else
    (cmpBarrel cbs (loWord v2)).bind fun m => sccpEvalCond (lowWordSext v1) (m.signExtend 64) tok

def evaluateCompareCondition (v1 v2 : BitVec 64) (tok : BitVec 32) : Option Bool :=
  (CmpCond.ofTok tok).map fun c => c.holds v1 v2

def cmpOperandIsUnsignedInt (op : IROperand) : Bool :=
  op.isUnsigned &&
    ((op.data matches .i64 _) || op.btype = .int8 || op.btype = .int16 || op.btype = .int32 ||
      op.btype = .int64)

def cmpOperandsWide (s1 s2 : IROperand) : Bool := s1.btype = .int64 || s2.btype = .int64

def CmpCond.toUnsigned : CmpCond → CmpCond
  | .lt => .ult
  | .ge => .uge
  | .le => .ule
  | .gt => .ugt
  | c => c

def unsignedCondForCmpOperands (c : CmpCond) (s1 s2 : IROperand) : CmpCond :=
  if cmpOperandIsUnsignedInt s1 = false ∧ cmpOperandIsUnsignedInt s2 = false then c
  else c.toUnsigned

def evaluateCompareConditionCmpOperands (v1 v2 : BitVec 64) (tok : BitVec 32)
    (s1 s2 : IROperand) : Option Bool :=
  (CmpCond.ofTok tok).map fun c =>
    let c := unsignedCondForCmpOperands c s1 s2
    if cmpOperandsWide s1 s2 then c.holds v1 v2 else c.holds (loWord v1) (loWord v2)

/-- `evaluate_compare_condition_cmp_annotated` for a comparison with the annotation `bs`. -/
def evaluateCompareConditionCmpAnnotated (v1 v2 : BitVec 64) (tok : BitVec 32)
    (s1 s2 : IROperand) : Option Bool :=
  if bs = 0#8 then evaluateCompareConditionCmpOperands v1 v2 tok s1 s2
  else if s1.is64 ∨ s2.is64 then none
  else
    (cmpBarrel bs (loWord v2)).bind fun m =>
      evaluateCompareConditionCmpOperands v1 (m.signExtend 64) tok s1 s2

/-- The condition that `CMP` of two values sets: on doublewords if the first operand is one,
otherwise on words, the second under its barrel shift. -/
def armCmp (s1 : IROperand) (v1 v2 : BitVec 64) (tok : BitVec 32) : Option Bool :=
  if s1.is64 then if bs = 0#8 then jumpTaken tok (cmpFlags v1 v2) else none
  else (barrelShift bs (loWord v2)).bind fun b => jumpTaken tok (cmpFlags (loWord v1) b)

def IROperand.CanHold (s : IROperand) (v : BitVec 64) : Prop := s.is64 = false → IsExtension v

def CompareAgrees (tok : BitVec 32) (s1 s2 : IROperand) : Prop :=
  ∀ v1 v2 r1 r2, s1.CanHold v1 → s2.CanHold v2 →
    evaluateCompareConditionCmpAnnotated bs v1 v2 tok s1 s2 = some r1 →
    sccpCmpDecide bs s1 v1 v2 tok = some r2 → r1 = r2 ∧ armCmp bs s1 v1 v2 tok = some r1

def isShiftAnnotation : Bool := 1#8 ≤ bs >>> 5 && bs >>> 5 ≤ 4#8

def CmpCond.isSignedOrder : CmpCond → Bool
  | .lt | .ge | .le | .gt => true
  | _ => false

/-- The comparisons on which the evaluators agree for all constants: a signed order has no operand
that is marked unsigned, a doubleword is not compared with a word on its left, and no right shift or
rotation has the amount 0. -/
def CompareSafe (tok : BitVec 32) (s1 s2 : IROperand) : Prop :=
  ∀ c, CmpCond.ofTok tok = some c →
    (bs = 0#8 ∨ cmpOperandsWide s1 s2 = false ∧ isShiftAnnotation bs = true) →
    (c.isSignedOrder = true →
      cmpOperandIsUnsignedInt s1 = false ∧ cmpOperandIsUnsignedInt s2 = false) ∧
    (s2.btype = .int64 → s1.btype = .int64) ∧ BarrelOk bs

end Tinycc
