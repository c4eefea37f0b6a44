import Tinycc.IR.Machine

namespace Tinycc
open Lib

structure IRPhiOperand where
  vreg : Option Vreg
  predBlock : Option ℕ
  deriving DecidableEq, Repr

structure IRPhiNode where
  destVreg : Vreg
  origVreg : Vreg
  operands : List IRPhiOperand
  btype : IropBtype
  deriving DecidableEq, Repr

structure IRSSAState where
  blockPhis : ℕ → List IRPhiNode
  nextSsaVreg : ℕ
  isPromotable : ℕ → Bool
  /-- The widest read of a VAR in bytes. -/
  varStoreDefOk : ℕ → ℕ
  numVars : ℕ

def IRPhiNode.operandFor (phi : IRPhiNode) (p : ℕ) : Option Vreg :=
  phi.operands.findSome? fun o => if o.predBlock = some p then o.vreg else none

namespace IRSSAState

variable (ssa : IRSSAState) (cfg : IRCFG)

def blockAt (cfg : IRCFG) (j : ℕ) : Option ℕ :=
  if j < cfg.numInstrs ∧ (cfg.blocks (cfg.instrToBlock j)).startIdx = j then
    some (cfg.instrToBlock j)
  else none

/-- The vreg whose value `v` receives from a phi when control goes from `i` to `j`. -/
def phiSource (i j : ℕ) (v : Vreg) : Option Vreg :=
  (blockAt cfg j).bind fun b =>
    ((ssa.blockPhis b).find? fun phi => phi.destVreg = v).bind fun phi =>
      phi.operandFor (cfg.instrToBlock i)

def onEdge {Val : Type} (i j : ℕ) (σ : Vreg → Val) (v : Vreg) : Val :=
  σ ((ssa.phiSource cfg i j v).getD v)

end IRSSAState

def IrSem.ssaMachine {Val World : Type} (sem : IrSem Val World) (ir : TCCIRState) (cfg : IRCFG)
    (ssa : IRSSAState) : Machine (IrState Val World) World :=
  sem.machine ir (ssa.onEdge cfg)

/-- The value of `v` may still be read when control is at `i`. A phi reads its operand on the edge,
and only for a destination that is live itself. -/
inductive LiveAt {Val World : Type} (sem : IrSem Val World) (ir : TCCIRState) (cfg : IRCFG)
    (ssa : IRSSAState) : Vreg → ℕ → Prop
  | use {v : Vreg} {i : ℕ} : i < ir.nextInstructionIndex → v ∈ sem.uses (ir.quad i) →
      LiveAt sem ir cfg ssa v i
  | edge {v : Vreg} {i j : ℕ} : Transfer ir i j → LiveAt sem ir cfg ssa v j →
      (ssa.phiSource cfg i j v).getD v ∉ sem.defs (ir.quad i) →
      LiveAt sem ir cfg ssa ((ssa.phiSource cfg i j v).getD v) i

/-- What SSA construction and the passes after it keep of the phis. -/
structure PhisWf (cfg : IRCFG) (ssa : IRSSAState) (nextTemp : ℕ) : Prop where
  /-- Operands are those of a block's own predecessors. -/
  pred_edge : ∀ b < cfg.numBlocks, ∀ phi ∈ ssa.blockPhis b, ∀ o ∈ phi.operands, ∀ p s,
    o.predBlock = some p → o.vreg = some s → p ∈ (cfg.blocks b).preds
  /-- A predecessor has one operand with a vreg, also where it is listed twice. -/
  pred_once : ∀ b < cfg.numBlocks, ∀ phi ∈ ssa.blockPhis b,
    (phi.operands.filterMap fun o => if o.vreg.isSome then o.predBlock else none).Nodup
  /-- A vreg is the destination of one phi. -/
  dest_once : ((List.range cfg.numBlocks).flatMap fun b =>
    (ssa.blockPhis b).map IRPhiNode.destVreg).Nodup
  dest_temp : ∀ b < cfg.numBlocks, ∀ phi ∈ ssa.blockPhis b, phi.destVreg.type = .temp ∧
    phi.destVreg.position < nextTemp
  operand_temp : ∀ b < cfg.numBlocks, ∀ phi ∈ ssa.blockPhis b, ∀ o ∈ phi.operands, ∀ s,
    o.vreg = some s → s.type = .temp → s.position < nextTemp

/-- A function in SSA form as far as phi resolution depends on it. -/
structure IsSsa {Val World : Type} (sem : IrSem Val World) (ir : TCCIRState) (cfg : IRCFG)
    (ssa : IRSSAState) (nextTemp : ℕ) : Prop extends PhisWf cfg ssa nextTemp where
  use_temp : ∀ i < ir.nextInstructionIndex, ∀ v ∈ sem.uses (ir.quad i), v.type = .temp →
    v.position < nextTemp
  /-- Branch targets and conditions are immediates, and targets are resolved: they are instructions
  of the function or its end. -/
  jump_target : ∀ i < ir.nextInstructionIndex, (ir.quad i).op = .jump ∨ (ir.quad i).op = .jumpif →
    ∃ v, (ir.quad i).dest.data = .imm32 v ∧ 0 ≤ v.toInt ∧ v.toInt ≤ ir.nextInstructionIndex
  jump_cond : ∀ i < ir.nextInstructionIndex, (ir.quad i).op = .jumpif →
    ∃ v, (ir.quad i).src1.data = .imm32 v
  /-- The operations that `ssa_has_unsupported_ops` keeps out. -/
  supported : ∀ i < ir.nextInstructionIndex, (ir.quad i).op ≠ .ijump ∧ (ir.quad i).op ≠ .setjmp ∧
    (ir.quad i).op ≠ .nlSetjmp ∧ ir.asmGotoTargets (ir.quad i) = []

end Tinycc
