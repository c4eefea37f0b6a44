import Mathlib.Data.Int.Notation
import Mathlib.Data.Nat.Notation

namespace Tinycc

inductive VregType
  | var
  | temp
  | param
  deriving DecidableEq, Repr, Inhabited

/-- A virtual register; the negative encodings of the source are the absent one. -/
structure Vreg where
  type : VregType
  position : ℕ
  deriving DecidableEq, Repr, Inhabited

inductive IropBtype
  | int32
  | int64
  | float32
  | float64
  | struct
  | func
  | int8
  | int16
  deriving DecidableEq, Repr, Inhabited

/-- What a call site or a symbol operand reads of a symbol. -/
structure Sym where
  /-- The token string, of the asm label where there is one. -/
  name : String
  /-- The function type has the noreturn attribute. -/
  funcNoreturn : Bool
  /-- An ELF symbol exists and its section is not the undefined one. -/
  elfDefined : Bool
  deriving DecidableEq, Repr, Inhabited

/-- The operand tag with its payload; pool entries stand in place of their index. -/
inductive IropData
  | none
  | vreg
  | imm32 (v : BitVec 32)
  | stackoff (off : BitVec 32)
  | f32 (bits : BitVec 32)
  | i64 (v : BitVec 64)
  | f64 (bits : BitVec 64)
  | symref (sym : Option Sym) (addend : BitVec 32)
  deriving DecidableEq, Repr, Inhabited

structure IROperand where
  data : IropData
  vreg : Option Vreg
  isLval : Bool
  btype : IropBtype
  isUnsigned : Bool
  deriving DecidableEq, Repr

namespace IROperand

def none : IROperand := ⟨.none, .none, false, .int32, false⟩

def makeVreg (v : Vreg) (b : IropBtype) : IROperand := ⟨.vreg, some v, false, b, false⟩

def makeImm32 (v : BitVec 32) (b : IropBtype) : IROperand := ⟨.imm32 v, .none, false, b, false⟩

def int (v : BitVec 32) : IROperand := makeImm32 v .int32

def temp (t : ℕ) : IROperand := makeVreg ⟨.temp, t⟩ .int32

def var (v : ℕ) : IROperand := makeVreg ⟨.var, v⟩ .int32

variable (op : IROperand)

def getImm64 : BitVec 64 :=
  match op.data with
  | .imm32 v => v.signExtend 64
  | .stackoff off => off.signExtend 64
  | .i64 v => v
  | .f32 bits => bits.zeroExtend 64
  | .f64 bits => bits
  | _ => 0

def getSym : Option Sym :=
  match op.data with
  | .symref sym _ => sym
  | _ => .none

def getImmInt : ℤ := (op.getImm64.truncate 32).toInt

/-- `irop_is_vreg_value`: a vreg as a value, or the stack slot that a variable lives in. -/
def isVregValue : Bool :=
  op.vreg.isSome &&
    match op.data with
    | .vreg => !op.isLval
    | .stackoff _ => op.isLval
    | _ => false

/-- `irop_dest_defines_vreg`: only `IROP_NONE`, which has no vreg, reads as indirect, so the test is
the same. -/
def destDefinesVreg : Bool := op.isVregValue

end IROperand

end Tinycc
