import Tinycc.IR.Instr
import Tinycc.Lib.Loop

namespace Tinycc
open Lib Function

/-- A basic block. A list and the slice size that the counting pass reserved for it stand for each
of its arrays. -/
structure IRBasicBlock where
  startIdx : ℕ
  endIdx : ℕ
  succsCap : ℕ
  predsCap : ℕ
  succs : List ℕ
  preds : List ℕ
  idom : Option ℕ
  rpoNumber : Option ℕ
  domFrontierCap : ℕ
  domFrontier : List ℕ
  domChildrenCap : ℕ
  domChildren : List ℕ
  deriving Inhabited

structure IRCFG where
  blocks : ℕ → IRBasicBlock
  numBlocks : ℕ
  rpoOrder : List ℕ
  instrToBlock : ℕ → ℕ
  numInstrs : ℕ
  domTin : Option (ℕ → Option ℕ)
  domTout : Option (ℕ → Option ℕ)
  domDfsCount : ℕ

def tccIrMaxBlocks : ℕ := 0x7FFFFFFF

def tccIrOrigIndexMax : ℕ := 0x7FFFFFFF

namespace IRCFG

def modifyBlock (cfg : IRCFG) (b : ℕ) (f : IRBasicBlock → IRBasicBlock) : IRCFG :=
  { cfg with blocks := update cfg.blocks b (f (cfg.blocks b)) }

end IRCFG

def cfgInstrEndsFlow (q : IRQuadCompact) : Bool :=
  if q.op = .trap then true
  else if q.op ≠ .funccallval ∧ q.op ≠ .funccallvoid then false
  else calleeIsNoreturn q.getSrc1.getSym

section Leaders

variable (ir : TCCIRState)

def markLeader (isLeader : ℕ → Bool) (target : ℤ) : ℕ → Bool :=
  if 0 ≤ target ∧ target < ir.nextInstructionIndex then
    update isLeader target.toNat true
  else isLeader

def cfgInstrEndsBlock (q : IRQuadCompact) : Bool :=
  q.op = .jump || q.op = .jumpif || q.op = .returnvalue || q.op = .returnvoid ||
    q.op = .ijump || q.op = .switchTable ||
    (q.op = .inlineAsm && (0 ≤ ir.asmGotoTarget q 0 : Bool)) || cfgInstrEndsFlow q

def cfgLeaderStep (isLeader : ℕ → Bool) (i : ℕ) : ℕ → Bool :=
  let q := ir.quad i
  let isLeader :=
    if q.op = .inlineAsm then (ir.asmGotoTargets q).foldl (markLeader ir) isLeader else isLeader
  let isLeader :=
    if q.op = .jump ∨ q.op = .jumpif then markLeader ir isLeader q.getDest.getImmInt else isLeader
  let isLeader :=
    if q.op = .switchTable then
      match TCCIRState.lookup ir.switchTables q.getSrc2.getImmInt with
      | some table =>
        markLeader ir (table.targets.foldl (markLeader ir) isLeader) table.defaultTarget
      | none => isLeader
    else isLeader
  if cfgInstrEndsBlock ir q then markLeader ir isLeader (i + 1) else isLeader

def cfgLeaders : ℕ → Bool :=
  forRange ir.nextInstructionIndex (cfgLeaderStep ir) (update (fun _ => false) 0 true)

end Leaders

def cfgCreateStep (isLeader : ℕ → Bool) (cfg : IRCFG) (i : ℕ) : IRCFG :=
  -- `numBlocks` is `bi + 1`
  let cfg :=
    if isLeader i then
      let cfg := cfg.modifyBlock (cfg.numBlocks - 1) fun bb =>
        if 0 < cfg.numBlocks then { bb with endIdx := i } else bb
      let cfg := { cfg with numBlocks := cfg.numBlocks + 1 }
      cfg.modifyBlock (cfg.numBlocks - 1) fun bb =>
        { bb with startIdx := i, idom := none, rpoNumber := none }
    else cfg
  { cfg with instrToBlock := update cfg.instrToBlock i (cfg.numBlocks - 1) }

def IRCFG.init (n : ℕ) : IRCFG :=
  { blocks := fun _ => ⟨0, 0, 0, 0, [], [], none, none, 0, [], 0, []⟩, numBlocks := 0, rpoOrder := [],
    instrToBlock := fun _ => 0, numInstrs := n, domTin := none, domTout := none, domDfsCount := 0 }

def cfgCreateBlocks (n : ℕ) (isLeader : ℕ → Bool) : IRCFG :=
  let cfg := forRange n (cfgCreateStep isLeader) (IRCFG.init n)
  cfg.modifyBlock (cfg.numBlocks - 1) fun bb =>
    if 0 < cfg.numBlocks then { bb with endIdx := n } else bb

def cfgAddEdge (cfg : IRCFG) (src dst : ℕ) (fill : Bool) : IRCFG :=
  if !fill then
    let cfg := cfg.modifyBlock src fun bb => { bb with succsCap := bb.succsCap + 1 }
    cfg.modifyBlock dst fun bb => { bb with predsCap := bb.predsCap + 1 }
  else
    let cfg := cfg.modifyBlock src fun bb =>
      if dst ∈ bb.succs then bb else { bb with succs := bb.succs ++ [dst] }
    cfg.modifyBlock dst fun bb => { bb with preds := bb.preds ++ [src] }

structure CfgEdgeState where
  cfg : IRCFG
  seen : ℕ → Option ℕ

def cfgAddSwitchEdge (b : ℕ) (fill : Bool) (st : CfgEdgeState) (dst : ℕ) : CfgEdgeState :=
  if !fill then { st with cfg := cfgAddEdge st.cfg b dst false }
  else
    let st :=
      if st.seen dst ≠ some b then
        { cfg := st.cfg.modifyBlock b fun bb => { bb with succs := bb.succs ++ [dst] },
          seen := update st.seen dst (some b) }
      else st
    { st with cfg := st.cfg.modifyBlock dst fun bb => { bb with preds := bb.preds ++ [b] } }

def IRCFG.blockOf (cfg : IRCFG) (target : ℤ) : Option ℕ :=
  if 0 ≤ target ∧ target < cfg.numInstrs then some (cfg.instrToBlock target.toNat) else none

def IRCFG.nextBlock (cfg : IRCFG) (b : ℕ) : List ℕ := if b + 1 < cfg.numBlocks then [b + 1] else []

def cfgAddEdges (fill : Bool) (b : ℕ) (cfg : IRCFG) (dsts : List ℕ) : IRCFG :=
  dsts.foldl (fun cfg dst => cfgAddEdge cfg b dst fill) cfg

def cfgEdgeStep (ir : TCCIRState) (fill : Bool) (st : CfgEdgeState) (b : ℕ) : CfgEdgeState :=
  let cfg := st.cfg
  if (cfg.blocks b).endIdx ≤ (cfg.blocks b).startIdx then st
  else
    let q := ir.quad ((cfg.blocks b).endIdx - 1)
    if q.op = .jump then
      { st with cfg := cfgAddEdges fill b cfg (cfg.blockOf q.getDest.getImmInt).toList }
    else if q.op = .jumpif then
      { st with cfg :=
          cfgAddEdges fill b cfg ((cfg.blockOf q.getDest.getImmInt).toList ++ cfg.nextBlock b) }
    else if q.op = .inlineAsm then
      { st with cfg :=
          cfgAddEdges fill b cfg ((ir.asmGotoTargets q).filterMap cfg.blockOf ++ cfg.nextBlock b) }
    else if q.op = .switchTable then
      match TCCIRState.lookup ir.switchTables q.getSrc2.getImmInt with
      | some table => (table.targets.filterMap cfg.blockOf).foldl (cfgAddSwitchEdge b fill) st
      | none => st
    else if q.op = .returnvalue ∨ q.op = .returnvoid ∨ q.op = .ijump ∨ cfgInstrEndsFlow q then st
    else { st with cfg := cfgAddEdges fill b cfg (cfg.nextBlock b) }

def cfgBuildEdges (ir : TCCIRState) (cfg : IRCFG) (fill : Bool) : IRCFG :=
  (forRange cfg.numBlocks (cfgEdgeStep ir fill) (CfgEdgeState.mk cfg fun _ => none)).cfg

/-- `tcc_ir_cfg_build`: no graph for an empty function, an error past the index limits. -/
def tccIrCfgBuild (ir : TCCIRState) : Except String (Option IRCFG) :=
  let n := ir.nextInstructionIndex
  if n = 0 then .ok none
  else
    let isLeader := cfgLeaders ir
    let nb := forRange n (fun nb i => if isLeader i then nb + 1 else nb) 0
    if tccIrMaxBlocks < nb ∨ tccIrOrigIndexMax < n then
      .error s!"function too large: {nb} basic blocks, {n} IR instructions"
    else
      let cfg := cfgCreateBlocks n isLeader
      .ok (some (cfgBuildEdges ir (cfgBuildEdges ir cfg false) true))

end Tinycc
