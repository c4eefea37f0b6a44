import Tinycc.IR.Value

namespace Tinycc

inductive HostFault
  | divByZero
  /-- `INT_MIN / -1` and its remainder. -/
  | divOverflow
  /-- A shift by the width of the type or more. -/
  | shiftCount
  deriving DecidableEq, Repr

section Host

variable {n : ℕ}

def hostShl (x : BitVec n) (k : ℕ) : Except HostFault (BitVec n) :=
  if k < n then .ok (x <<< k) else .error .shiftCount

def hostShr (x : BitVec n) (k : ℕ) : Except HostFault (BitVec n) :=
  if k < n then .ok (x >>> k) else .error .shiftCount

def hostSar (x : BitVec n) (k : ℕ) : Except HostFault (BitVec n) :=
  if k < n then .ok (x.sshiftRight k) else .error .shiftCount

def hostDiv (a b : BitVec n) : Except HostFault (BitVec n) :=
  if b = 0#n then .error .divByZero
  else if a = BitVec.intMin n ∧ b = -1#n then .error .divOverflow
  else .ok (a.sdiv b)

def hostRem (a b : BitVec n) : Except HostFault (BitVec n) :=
  if b = 0#n then .error .divByZero
  else if a = BitVec.intMin n ∧ b = -1#n then .error .divOverflow
  else .ok (a.srem b)

def hostUdiv (a b : BitVec n) : Except HostFault (BitVec n) :=
  if b = 0#n then .error .divByZero else .ok (a / b)

def hostUmod (a b : BitVec n) : Except HostFault (BitVec n) :=
  if b = 0#n then .error .divByZero else .ok (a % b)

def hostRor (v : BitVec 32) (sh : ℕ) : Except HostFault (BitVec 32) := do
  let r ← hostShr v sh
  let l ← hostShl v (32 - sh)
  return r ||| l

end Host

def constShiftDeclines (is64 : Bool) (v2 : BitVec 64) : Bool :=
  v2.toInt < 0 || (if is64 then 64 else 32) ≤ v2.toInt

def constDivDeclines (is64 : Bool) (v1 v2 : BitVec 64) : Bool :=
  v2 = 0#64 || (v2 = -1#64 &&
    if is64 then v1 = BitVec.intMin 64 else loWord v1 = BitVec.intMin 32)

/-- `ir_opt_const_binop`; `none` where it returns 0. -/
def irOptConstBinop (op : TccIrOp) (is64 : Bool) (v1 v2 : BitVec 64) :
    Except HostFault (Option (BitVec 64)) :=
  match op with
  | .add => .ok (some (v1 + v2))
  | .sub => .ok (some (v1 - v2))
  | .and => .ok (some (v1 &&& v2))
  | .or => .ok (some (v1 ||| v2))
  | .xor => .ok (some (v1 ^^^ v2))
  | .mul => .ok (some (v1 * v2))
  | .shl => if constShiftDeclines is64 v2 then .ok none else some <$> hostShl v1 v2.toNat
  | .shr =>
    if constShiftDeclines is64 v2 then .ok none
    else if is64 then some <$> hostShr v1 v2.toNat
    else (some <| ofWord ·) <$> hostShr (loWord v1) v2.toNat
  | .sar =>
    if constShiftDeclines is64 v2 then .ok none
    else if is64 then some <$> hostSar v1 v2.toNat
    else (some <| ·.signExtend 64) <$> hostSar (loWord v1) v2.toNat
  | .ror => (some <| ·.signExtend 64) <$> hostRor (loWord v1) (loWord v2 &&& 31#32).toNat
  | .umull => .ok (some (ofWord (loWord v1) * ofWord (loWord v2)))
  | .smull => .ok (some ((loWord v1).signExtend 64 * (loWord v2).signExtend 64))
  | .ubfx =>
    let lsb := (loWord v2 &&& 0x1F#32).toNat
    let w := ((loWord v2).sshiftRight 5 &&& 0x1F#32).toNat
    if w = 0 ∨ 32 < w then .ok none
    else do
      let x ← hostShr (loWord v1) lsb
      let bit ← hostShl 1#32 w
      return some (ofWord (x &&& (bit - 1#32)))
  | .div | .pdiv =>
    if constDivDeclines is64 v1 v2 then .ok none
    else if is64 then some <$> hostDiv v1 v2
    else (some <| ·.signExtend 64) <$> hostDiv (loWord v1) (loWord v2)
  | .imod =>
    if constDivDeclines is64 v1 v2 then .ok none
    else if is64 then some <$> hostRem v1 v2
    else (some <| ·.signExtend 64) <$> hostRem (loWord v1) (loWord v2)
  | .udiv =>
    if v2 = 0#64 then .ok none
    else if is64 then some <$> hostUdiv v1 v2
    else (some <| ofWord ·) <$> hostUdiv (loWord v1) (loWord v2)
  | .umod =>
    if v2 = 0#64 then .ok none
    else if is64 then some <$> hostUmod v1 v2
    else (some <| ofWord ·) <$> hostUmod (loWord v1) (loWord v2)
  | _ => .ok none

structure IRFlat where
  ir : TCCIRState
  /-- `barrel_shifts` by `orig_index`, 0 past its end. -/
  barrelShifts : ℕ → BitVec 8
  /-- The live interval of a vreg is volatile. -/
  isVolatile : Vreg → Bool

namespace IRFlat

variable (F : IRFlat)

def operandNamesVolatileVar (op : IROperand) : Bool :=
  match op.vreg with
  | some v => F.isVolatile v
  | none => false

def vregAddressTakenBetween (v : Vreg) (startIdx endIdx : ℕ) : Bool :=
  (List.range' (startIdx + 1) (endIdx - (startIdx + 1))).any fun i =>
    (F.ir.quad i).op = .lea ∧ (F.ir.quad i).getSrc1.vreg = some v

def defines (v : Vreg) (q : IRQuadCompact) : Bool := q.op ≠ .nop ∧ q.getDest.vreg = some v

def vregHasSingleDef (v : Vreg) : Bool :=
  (F.ir.compactInstructions.filter (defines v)).length = 1

def findDefiningInstruction (v : Vreg) (beforeIdx : ℕ) : Option ℕ :=
  (List.range beforeIdx).reverse.find? fun i => defines v (F.ir.quad i)

/-- The two-operand operations of `ir_opt_eval_const_u64`; `shiftIs64` is the width of `src1`. -/
def evalConstBinary (op : TccIrOp) (shiftIs64 : Bool) (v1 v2 : BitVec 64) :
    Except HostFault (Option (BitVec 64)) :=
  match op with
  | .add => .ok (some (v1 + v2))
  | .sub => .ok (some (v1 - v2))
  | .mul => .ok (some (v1 * v2))
  | .and => .ok (some (v1 &&& v2))
  | .or => .ok (some (v1 ||| v2))
  | .xor => .ok (some (v1 ^^^ v2))
  | .shl => some <$> hostShl v1 v2.toNat
  | .shr =>
    if shiftIs64 then some <$> hostShr v1 v2.toNat
    else (some <| ofWord ·) <$> hostShr (loWord v1) (v2 &&& 31#64).toNat
  | .sar =>
    if shiftIs64 then some <$> hostSar v1 v2.toNat
    else some <$> hostSar ((loWord v1).signExtend 64) (v2 &&& 31#64).toNat
  | .ror => (some <| ofWord ·) <$> hostRor (loWord v1) (loWord v2 &&& 31#32).toNat
  | _ => .ok none

def zextMask : IropBtype → BitVec 64
  | .int8 => 0xFF#64
  | .int16 => 0xFFFF#64
  | .int32 => 0xFFFFFFFF#64
  | _ => BitVec.allOnes 64

def evalRbit (x : BitVec 32) : BitVec 32 :=
  (List.range 32).foldl (fun r b => r ||| ((x >>> b &&& 1#32) <<< (31 - b))) 0#32

def evalConstBitop (op : TccIrOp) (x : BitVec 32) : BitVec 64 :=
  match op with
  | .clz => if x = 0#32 then 32#64 else ofWord x.clz
  | .rbit => ofWord (evalRbit x)
  | .rev => ofWord (byteSwap x)
  | _ => ofWord (((x &&& 0x00FF00FF#32) <<< 8) ||| ((x >>> 8) &&& 0x00FF00FF#32))

/-- The instruction whose value `ir_opt_eval_const_u64` takes for that of an operand. -/
def evalConstDef (op : IROperand) (useIdx : ℕ) : Option ℕ :=
  op.vreg.bind fun v =>
    if F.operandNamesVolatileVar op ∨ F.vregAddressTakenBetween v 0 useIdx ∨
        F.vregHasSingleDef v = false then none
    else
      (F.findDefiningInstruction v useIdx).bind fun d =>
        if F.barrelShifts (F.ir.quad d).origIndex ≠ 0#8 then none else some d

def irOptEvalConstU64 : ℕ → IROperand → ℕ → Except HostFault (Option (BitVec 64))
  | 0, _, _ => .ok none
  | depth + 1, op, useIdx =>
    if op.isImmediate then .ok (some op.getImm64)
    else
      match F.evalConstDef op useIdx with
      | none => .ok none
      | some d =>
        let q := F.ir.quad d
        match q.op with
        | .assign | .load => irOptEvalConstU64 depth q.getSrc1 d
        | .add | .sub | .mul | .and | .or | .xor | .shl | .shr | .sar | .ror => do
          match ← irOptEvalConstU64 depth q.getSrc1 d with
          | none => return none
          | some v1 =>
            match ← irOptEvalConstU64 depth q.getSrc2 d with
            | none => return none
            | some v2 => evalConstBinary q.op q.getSrc1.is64 v1 v2
        | .zext => do
          match ← irOptEvalConstU64 depth q.getSrc1 d with
          | none => return none
          | some v => return some (v &&& zextMask q.getSrc1.btype)
        | .clz | .rbit | .rev | .rev16 => do
          match ← irOptEvalConstU64 depth q.getSrc1 d with
          | none => return none
          | some v => return some (evalConstBitop q.op (loWord v))
        | _ => .ok none

def evalConstU64 (op : IROperand) (useIdx : ℕ) : Except HostFault (Option (BitVec 64)) :=
  F.irOptEvalConstU64 13 op useIdx

end IRFlat

end Tinycc
