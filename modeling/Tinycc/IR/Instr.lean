import Tinycc.IR.Operand

namespace Tinycc

inductive TccIrOp
  | add | adcUse | adcGen | sub | subcUse | subcGen | mul | mla | umull | div | umod | imod | and
  | or | xor | shl | sar | shr | pdiv | udiv | cmp | returnvoid | returnvalue | setChain | jump
  | jumpif | ijump | setif | testZero | funcparamvoid | funcparamval | funccallvoid | funccallval
  | load | store | assign | lea | loadIndexed | storeIndexed | loadPostinc | storePostinc | ubfx
  | sbfx | bfi | fadd | fsub | fmul | fdiv | fneg | fcmp | cvtFtof | cvtItof | cvtFtoi | zext
  | pack64 | boolOr | boolAnd | vlaAlloc | vlaSpSave | vlaSpRestore | asmInput | inlineAsm
  | asmOutput | callseqBegin | callargReg | callargStack | callseqEnd | initChainSlot | nop
  | prefetch | trap | setjmp | longjmp | nlSetjmp | nlLongjmp | builtinApplyArgs | builtinApply
  | builtinReturn | switchTable | blockCopy | select | ror | switchLoad | smull | clz | rbit
  | rev | rev16 | returnAddress | umaal
  deriving DecidableEq, Repr, Inhabited

structure IRRegistersConfig where
  hasDest : Bool
  hasSrc1 : Bool
  hasSrc2 : Bool
  deriving DecidableEq, Repr

def iropConfig (op : TccIrOp) : IRRegistersConfig :=
  match op with
  | .jumpif | .setif | .load | .store | .assign | .lea | .loadPostinc | .storePostinc | .fneg
  | .cvtFtof | .cvtItof | .cvtFtoi | .zext | .nlSetjmp | .clz | .rbit | .rev | .rev16 =>
    ⟨true, true, false⟩
  | .cmp | .funcparamval | .funccallvoid | .fcmp | .vlaAlloc | .callseqBegin | .callargReg
  | .callargStack | .callseqEnd | .initChainSlot | .prefetch | .switchTable =>
    ⟨false, true, true⟩
  | .returnvalue | .setChain | .ijump | .testZero | .vlaSpRestore | .asmInput | .inlineAsm
  | .longjmp | .nlLongjmp | .builtinReturn =>
    ⟨false, true, false⟩
  | .jump | .vlaSpSave | .asmOutput | .builtinApplyArgs | .returnAddress =>
    ⟨true, false, false⟩
  | .funcparamvoid =>
    ⟨false, false, true⟩
  | .returnvoid | .nop | .trap =>
    ⟨false, false, false⟩
  | _ => ⟨true, true, true⟩

/-- An instruction with its slots of the operand pool; `extra` is the slot after `src2`. -/
structure IRQuadCompact where
  op : TccIrOp
  origIndex : ℕ
  dest : IROperand
  src1 : IROperand
  src2 : IROperand
  extra : IROperand
  deriving DecidableEq, Repr

namespace IRQuadCompact

instance : Inhabited IRQuadCompact := ⟨⟨.nop, 0, .none, .none, .none, .none⟩⟩

def getDest (q : IRQuadCompact) : IROperand := if (iropConfig q.op).hasDest then q.dest else .none

def getSrc1 (q : IRQuadCompact) : IROperand := if (iropConfig q.op).hasSrc1 then q.src1 else .none

def getSrc2 (q : IRQuadCompact) : IROperand := if (iropConfig q.op).hasSrc2 then q.src2 else .none

end IRQuadCompact

structure TCCIRSwitchTable where
  minVal : ℤ
  maxVal : ℤ
  defaultTarget : ℤ
  targets : List ℤ
  deriving DecidableEq, Repr

/-- The label operands of an inline asm block, each with its `label_jind`. -/
structure TCCIRInlineAsm where
  labels : List ℤ
  deriving DecidableEq, Repr

structure IRLabelPos where
  jind : ℤ
  index : ℤ
  anchor : ℤ
  deriving DecidableEq, Repr

/-- The parts of the IR state that the control-flow graph is built from. -/
structure TCCIRState where
  compactInstructions : List IRQuadCompact
  switchTables : List TCCIRSwitchTable := []
  inlineAsms : List TCCIRInlineAsm := []
  labelPos : List IRLabelPos := []
  deriving DecidableEq, Repr

namespace TCCIRState

variable (ir : TCCIRState)

def nextInstructionIndex : ℕ := ir.compactInstructions.length

def quad (i : ℕ) : IRQuadCompact := ir.compactInstructions.getD i default

def lookup {α : Type*} (l : List α) (i : ℤ) : Option α := if 0 ≤ i then l[i.toNat]? else none

/-- `label_resolve`, without the cached copy of the index. -/
def labelResolve (l : IRLabelPos) : ℤ :=
  match ir.compactInstructions.findIdx? (fun q => (q.origIndex : ℤ) = l.anchor) with
  | some i => i
  | none => l.index

def labelInsn (jind : ℤ) : ℤ :=
  match ir.labelPos.find? (fun l => l.jind = jind) with
  | some l => ir.labelResolve l
  | none => -1

def asmGotoTarget (q : IRQuadCompact) (label : ℕ) : ℤ :=
  if q.op = .inlineAsm then
    match lookup ir.inlineAsms q.getSrc1.getImmInt with
    | some ia =>
      match ia.labels[label]? with
      | some jind => ir.labelInsn jind
      | none => -1
    | none => -1
  else -1

def asmLabelCount (q : IRQuadCompact) : ℕ :=
  match lookup ir.inlineAsms q.getSrc1.getImmInt with
  | some ia => ia.labels.length
  | none => 0

/-- The targets that a loop over the asm labels sees before it meets a negative one. -/
def asmGotoTargets (q : IRQuadCompact) : List ℤ :=
  ((List.range (ir.asmLabelCount q)).map (ir.asmGotoTarget q)).takeWhile (0 ≤ ·)

end TCCIRState

def calleeIsNoreturn (callee : Option Sym) : Bool :=
  match callee with
  | none => false
  | some s =>
    s.funcNoreturn || (!s.elfDefined && s.name ∈ ["abort", "exit", "_Exit", "quick_exit"])

end Tinycc
