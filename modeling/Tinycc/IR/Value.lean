import Tinycc.IR.Machine

namespace Tinycc

namespace IROperand

variable (op : IROperand)

def is64 : Bool := op.btype = .int64 || op.btype = .float64

def isImmediate : Bool :=
  !op.isLval &&
    match op.data with
    | .imm32 _ | .f32 _ | .i64 _ | .f64 _ => true
    | _ => false

def isImm32 : Bool :=
  !op.isLval &&
    match op.data with
    | .imm32 _ => true
    | _ => false

def isSym : Bool :=
  match op.data with
  | .symref _ _ => true
  | _ => false

def plainVreg : Option Vreg :=
  if op.data = .vreg ∧ op.isLval = false then op.vreg else .none

end IROperand

def ofWord (x : BitVec 32) : BitVec 64 := x.zeroExtend 64

def loWord (x : BitVec 64) : BitVec 32 := x.truncate 32

def hiWord (x : BitVec 64) : BitVec 32 := (x >>> 32).truncate 32

/-- `src2` of a data-processing instruction under its annotation `(stype << 5) | amount`. A right
shift by 0 stands for one by 32, and a rotation by 0 for `RRX`. -/
def barrelShift (bs : BitVec 8) (x : BitVec 32) : Option (BitVec 32) :=
  let amount := (bs &&& 0x1F#8).toNat
  if bs = 0#8 then some x
  else if bs >>> 5 = 1#8 then some (x <<< amount)
  else if bs >>> 5 = 2#8 then some (if amount = 0 then 0#32 else x >>> amount)
  else if bs >>> 5 = 3#8 then some (x.sshiftRight (if amount = 0 then 31 else amount))
  else if bs >>> 5 = 4#8 ∧ amount ≠ 0 then some (x.rotateRight amount)
  else none

/-- The annotations that fusion makes: none, a left shift, or another shift by a positive amount. -/
def BarrelOk (bs : BitVec 8) : Prop :=
  bs = 0#8 ∨ bs >>> 5 = 1#8 ∨
    ((bs >>> 5 = 2#8 ∨ bs >>> 5 = 3#8 ∨ bs >>> 5 = 4#8) ∧ (bs &&& 0x1F#8).toNat ≠ 0)

instance (bs : BitVec 8) : Decidable (BarrelOk bs) := inferInstanceAs (Decidable (_ ∨ _))

def aluWord (op : TccIrOp) (a b : BitVec 32) : Option (BitVec 32) :=
  -- the hardware sees the low byte of a count only, so a shift by 256 or more has no result
  match op with
  | .add => some (a + b)
  | .sub => some (a - b)
  | .mul => some (a * b)
  | .and => some (a &&& b)
  | .or => some (a ||| b)
  | .xor => some (a ^^^ b)
  | .shl => if b.toNat < 256 then some (a <<< b.toNat) else none
  | .shr => if b.toNat < 256 then some (a >>> b.toNat) else none
  | .sar => if b.toNat < 256 then some (a.sshiftRight b.toNat) else none
  | .ror => some (a.rotateRight b.toNat)
  | .div => if b = 0#32 then none else some (a.sdiv b)
  | .udiv => if b = 0#32 then none else some (a / b)
  | .imod => if b = 0#32 then none else some (a.srem b)
  | .umod => if b = 0#32 then none else some (a % b)
  | _ => none

def aluWide (op : TccIrOp) (a b : BitVec 64) : Option (BitVec 64) :=
  -- a shift by 64 or more has no result; the long multiplications read the low words
  match op with
  | .add => some (a + b)
  | .sub => some (a - b)
  | .mul => some (a * b)
  | .umull => some (ofWord (loWord a) * ofWord (loWord b))
  | .smull => some ((loWord a).signExtend 64 * (loWord b).signExtend 64)
  | .and => some (a &&& b)
  | .or => some (a ||| b)
  | .xor => some (a ^^^ b)
  | .shl => if b.toNat < 64 then some (a <<< b.toNat) else none
  | .shr => if b.toNat < 64 then some (a >>> b.toNat) else none
  | .sar => if b.toNat < 64 then some (a.sshiftRight b.toNat) else none
  | .div => if b = 0#64 then none else some (a.sdiv b)
  | .udiv => if b = 0#64 then none else some (a / b)
  | .imod => if b = 0#64 then none else some (a.srem b)
  | .umod => if b = 0#64 then none else some (a % b)
  | _ => none

/-- The parameter word of `UBFX` and `SBFX`: the field lies in the high word of a doubleword. -/
def ubfxHiHalf : BitVec 32 := 0x1000#32

def bfxLsb (f : BitVec 32) : ℕ := (f &&& 0x1F#32).toNat

def bfxWidth (f : BitVec 32) : ℕ :=
  let width := ((f >>> 5) &&& 0x1F#32).toNat
  if width = 0 then 8 else width

/-- `(1u << width) - 1u`, all ones for a width of 32. -/
def widthMask (width : ℕ) : BitVec 32 := if 32 ≤ width then BitVec.allOnes 32 else (1#32 <<< width) - 1#32

def byteSwap (x : BitVec 32) : BitVec 32 :=
  x.extractLsb' 0 8 ++ x.extractLsb' 8 8 ++ x.extractLsb' 16 8 ++ x.extractLsb' 24 8

def byteSwap16 (x : BitVec 32) : BitVec 32 :=
  x.extractLsb' 16 8 ++ x.extractLsb' 24 8 ++ x.extractLsb' 0 8 ++ x.extractLsb' 8 8

/-- A doubleword shifted right by the constant 32 into a word: the backend takes the upper word. -/
def IRQuadCompact.takesHighHalf (q : IRQuadCompact) (bs : BitVec 8) : Bool :=
  q.op = .shr && q.src1.is64 && !q.dest.is64 && q.src2.isImmediate && q.src2.getImm64 = 32#64 &&
    bs = 0#8

/-- What the values of a function depend on outside its vregs. -/
structure ValueSem (World : Type) where
  /-- What an operand reads that is neither a register, a constant nor the address of a symbol. -/
  mem : IROperand → (Vreg → BitVec 64) → World → BitVec 64
  symAddr : Sym → BitVec 32
  flags : World → Nzcv

namespace ValueSem

variable {World : Type} (M : ValueSem World)

def fit (op : IROperand) (x : BitVec 64) : BitVec 64 :=
  if op.is64 then x
  else if op.isLval ∧ op.btype = .int8 then
    ofWord (if op.isUnsigned then (x.truncate 8).zeroExtend 32 else (x.truncate 8).signExtend 32)
  else if op.isLval ∧ op.btype = .int16 then
    ofWord (if op.isUnsigned then (x.truncate 16).zeroExtend 32 else (x.truncate 16).signExtend 32)
  else ofWord (loWord x)

/-- The value of a source operand. A word constant is sign-extended. -/
def operand (op : IROperand) (σ : Vreg → BitVec 64) (w : World) : BitVec 64 :=
  if op.isLval then fit op (M.mem op σ w)
  else
    match op.data with
    | .imm32 v => v.signExtend 64
    | .i64 v => v
    | .f32 bits => ofWord bits
    | .f64 bits => bits
    | .symref (some s) addend => ofWord (M.symAddr s + addend)
    | .vreg =>
      match op.vreg with
      | some r => fit op (σ r)
      | none => fit op (M.mem op σ w)
    | _ => fit op (M.mem op σ w)

/-- A copy keeps the low word in a word and clears the upper word of a doubleword that receives a
word. -/
def copy (dest src : IROperand) (σ : Vreg → BitVec 64) (w : World) : BitVec 64 :=
  if dest.is64 ∧ src.is64 then M.operand src σ w else ofWord (loWord (M.operand src σ w))

def alu (bs : BitVec 8) (q : IRQuadCompact) (σ : Vreg → BitVec 64) (w : World) :
    Option (BitVec 64) :=
  let a := M.operand q.src1 σ w
  let b := M.operand q.src2 σ w
  if q.dest.is64 then
    if bs = 0#8 then aluWide q.op a b else none
  else if q.takesHighHalf bs then some (ofWord (hiWord a))
  else
    (barrelShift bs (loWord b)).bind fun b' => (aluWord q.op (loWord a) b').map ofWord

def fieldWord (q : IRQuadCompact) (σ : Vreg → BitVec 64) (w : World) : BitVec 32 :=
  if q.src1.is64 ∧ loWord (M.operand q.src2 σ w) &&& ubfxHiHalf ≠ 0#32 then
    hiWord (M.operand q.src1 σ w)
  else loWord (M.operand q.src1 σ w)

/-- The field of a word that `UBFX` and `SBFX` take out. -/
def field (q : IRQuadCompact) (σ : Vreg → BitVec 64) (w : World) : BitVec 32 :=
  let f := loWord (M.operand q.src2 σ w)
  M.fieldWord q σ w >>> bfxLsb f &&& widthMask (bfxWidth f)

def zext (src : IROperand) (σ : Vreg → BitVec 64) (w : World) : BitVec 64 :=
  let x := M.operand src σ w
  if src.is64 then x
  else if src.btype = .int8 then (x.truncate 8).zeroExtend 64
  else if src.btype = .int16 then (x.truncate 16).zeroExtend 64
  else ofWord (loWord x)

/-- The value that an instruction gives its destination, where it is a function of the operands;
`none` also where the hardware or the language leaves it open. `bs` is the barrel-shift annotation
and `bfi` the parameter word of `BFI`. -/
def instrValue (bs : BitVec 8) (bfi : BitVec 16) (q : IRQuadCompact) (σ : Vreg → BitVec 64)
    (w : World) : Option (BitVec 64) :=
  match q.op with
  | .add | .sub | .mul | .umull | .smull | .div | .udiv | .imod | .umod | .and | .or | .xor
  | .shl | .shr | .sar | .ror => M.alu bs q σ w
  | .assign | .load => some (M.copy q.dest q.src1 σ w)
  | .store => if q.dest.plainVreg.isSome then some (M.copy q.dest q.src1 σ w) else none
  | .select =>
    (jumpTaken q.extra.getImm32 (M.flags w)).map fun taken =>
      if taken then M.copy q.dest q.src1 σ w else M.copy q.dest q.src2 σ w
  | .setif =>
    (jumpTaken q.src1.getImm32 (M.flags w)).map fun taken => if taken then 1#64 else 0#64
  | .zext =>
    some (if q.dest.is64 then M.zext q.src1 σ w else ofWord (loWord (M.zext q.src1 σ w)))
  | .pack64 =>
    if q.dest.is64 then
      some (ofWord (loWord (M.operand q.src1 σ w)) |||
        ofWord (loWord (M.operand q.src2 σ w)) <<< 32)
    else none
  | .ubfx => if q.dest.is64 then none else some (ofWord (M.field q σ w))
  | .sbfx =>
    if q.dest.is64 then none
    else
      let width := bfxWidth (loWord (M.operand q.src2 σ w))
      let x := M.field q σ w
      some (ofWord (if x &&& (1#32 <<< (width - 1)) ≠ 0#32 then x ||| ~~~widthMask width else x))
  | .bfi =>
    let lsb := (bfi &&& 0xFF#16).toNat
    let width := (bfi >>> 8).toNat
    if q.dest.is64 ∨ width = 0 ∨ 32 < lsb + width then none
    else
      let a := loWord (M.operand q.src1 σ w)
      let b := loWord (M.operand q.src2 σ w)
      some (ofWord ((a &&& ~~~(widthMask width <<< lsb)) ||| ((b &&& widthMask width) <<< lsb)))
  | .clz => if q.dest.is64 then none else some (ofWord (loWord (M.operand q.src1 σ w)).clz)
  | .rbit => if q.dest.is64 then none else some (ofWord (loWord (M.operand q.src1 σ w)).reverse)
  | .rev => if q.dest.is64 then none else some (ofWord (byteSwap (loWord (M.operand q.src1 σ w))))
  | .rev16 =>
    if q.dest.is64 then none else some (ofWord (byteSwap16 (loWord (M.operand q.src1 σ w))))
  | _ => none

end ValueSem

end Tinycc
