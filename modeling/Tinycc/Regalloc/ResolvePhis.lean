import Tinycc.IR.Phi
import Tinycc.Regalloc.PhiCopies

namespace Tinycc
open Lib

def raInvertCond (tok : BitVec 32) : BitVec 32 :=
  if tok = 0x92#32 then 0x93#32
  else if tok = 0x93#32 then 0x92#32
  else if tok = 0x94#32 then 0x95#32
  else if tok = 0x95#32 then 0x94#32
  else if tok = 0x96#32 then 0x97#32
  else if tok = 0x97#32 then 0x96#32
  else if tok = 0x9c#32 then 0x9d#32
  else if tok = 0x9d#32 then 0x9c#32
  else if tok = 0x9e#32 then 0x9f#32
  else if tok = 0x9f#32 then 0x9e#32
  else tok ^^^ 1#32

def IROperand.setImm32 (op : IROperand) (v : BitVec 32) : IROperand :=
  { op with data := match op.data with
      | .imm32 _ => .imm32 v
      | .stackoff _ => .stackoff v
      | .f32 _ => .f32 v
      | d => d }

def raRecordStackOperandMin (op : IROperand) (minOffset : ℤ) : ℤ :=
  match op.data with
  | .stackoff off => min off.toInt minOffset
  | _ => minOffset

/-- `ra_find_phi_spill_cursor`, given the stack locations of the intervals -/
def raFindPhiSpillCursor (ir : TCCIRState) (stackLocations : List ℤ) : ℤ :=
  let minOffset := stackLocations.foldl min 0
  ir.compactInstructions.foldl (fun minOffset q =>
    let minOffset := raRecordStackOperandMin q.getDest minOffset
    let minOffset := raRecordStackOperandMin q.getSrc1 minOffset
    let minOffset := raRecordStackOperandMin q.getSrc2 minOffset
    if q.op = .mla ∨ q.op = .umaal then raRecordStackOperandMin q.extra minOffset else minOffset)
    minOffset

section Collect

variable (cfg : IRCFG) (ssa : IRSSAState)

/-- The copies a phi needs at the end of a predecessor; before register allocation
`ra_phi_copy_needed` asks for every operand with a vreg. -/
def phiCopiesOf (p : ℕ) (phi : IRPhiNode) : List RAPhiCopy :=
  phi.operands.filterMap fun o =>
    if o.predBlock = some p then o.vreg.map fun s => ⟨phi.destVreg, s, phi.btype, false⟩ else none

def raPhiScanRange (succFilter : Option ℕ) : List ℕ :=
  match succFilter with
  | none => List.range cfg.numBlocks
  | some s => if s < cfg.numBlocks then [s] else []

/-- `ra_collect_phi_copies_for_pred`; the index of `ra_phi_pred_index_build` lists the same operands
in the same order -/
def raCollectPhiCopiesForPred (p : ℕ) (succFilter : Option ℕ) : List RAPhiCopy :=
  (raPhiScanRange cfg succFilter).flatMap fun sb => (ssa.blockPhis sb).flatMap (phiCopiesOf p)

def raCountPhiCopiesForPred (p : ℕ) (succFilter : Option ℕ) : ℕ :=
  (raCollectPhiCopiesForPred cfg ssa p succFilter).length

def copiesPerBlock (p : ℕ) : ℕ := raCountPhiCopiesForPred cfg ssa p none

end Collect

/-- The resolver between two instructions: what it has written and where the old instructions are
now. -/
structure RaResolve where
  out : RAPhiOut
  oldToNew : ℕ → ℕ

namespace RaResolve

variable (st : RaResolve)

def wp : ℕ := st.out.instrs.length

def emit (q : IRQuadCompact) : RaResolve :=
  { st with out := { st.out with instrs := st.out.instrs ++ [q] } }

def mapTo (i new : ℕ) : RaResolve := { st with oldToNew := Function.update st.oldToNew i new }

def copyInstr (ir : TCCIRState) (st : RaResolve) (i : ℕ) : RaResolve :=
  (st.mapTo i st.wp).emit (ir.quad i)

def copyInstrs (ir : TCCIRState) (lo hi : ℕ) : RaResolve :=
  (List.range' lo (hi - lo)).foldl (copyInstr ir) st

def emitCopies (cfg : IRCFG) (ssa : IRSSAState) (p : ℕ) (succFilter : Option ℕ) :
    Option (Except String RaResolve) :=
  let copies := raCollectPhiCopiesForPred cfg ssa p succFilter
  (raEmitScheduledPhiCopies st.out (fun i => copies.getD i default) copies.length).map
    fun r => r.map fun out => { st with out := out }

end RaResolve

def raThen (r : Option (Except String RaResolve))
    (f : RaResolve → Option (Except String RaResolve)) : Option (Except String RaResolve) :=
  r.bind fun e => match e with
    | .error msg => some (.error msg)
    | .ok st => f st

section Block

variable (ir : TCCIRState) (cfg : IRCFG) (ssa : IRSSAState)

def TccIrOp.isTerminator : TccIrOp → Bool
  | .jump | .jumpif | .returnvalue | .returnvoid | .ijump | .switchTable => true
  | _ => false

def raInsertBefore (b : ℕ) : ℕ :=
  let bb := cfg.blocks b
  if bb.startIdx < bb.endIdx ∧ (ir.quad (bb.endIdx - 1)).op.isTerminator then bb.endIdx - 1
  else bb.endIdx

def raTargetBlock (target : ℤ) : Option ℕ :=
  if 0 ≤ target ∧ target < ir.nextInstructionIndex then some (cfg.instrToBlock target.toNat) else none

def raEmitEdge (b : ℕ) (succ : Option ℕ) (st : RaResolve) : Option (Except String RaResolve) :=
  match succ with
  | some s =>
    if 0 < raCountPhiCopiesForPred cfg ssa b (some s) then st.emitCopies cfg ssa b (some s)
    else some (.ok st)
  | none => some (.ok st)

def raSkip (term : IRQuadCompact) (target : ℕ) : IRQuadCompact :=
  { term with
    dest := term.getDest.setImm32 (BitVec.ofInt 32 (-(target + 1)))
    src1 := term.getSrc1.setImm32 (raInvertCond term.getSrc1.getImm32) }

def raEdgeJump (term : IRQuadCompact) : IRQuadCompact :=
  { op := .jump, origIndex := 0, dest := term.getDest, src1 := .none, src2 := .none, extra := .none }

def raResolveTaken (b : ℕ) (term : IRQuadCompact) (target : ℕ) (st : RaResolve) :
    Option (Except String RaResolve) :=
  let skip := st.wp
  raThen ((st.emit term).emitCopies cfg ssa b (some target)) fun st =>
    let st := st.emit (raEdgeJump term)
    some (.ok { st with out := { st.out with instrs := st.out.instrs.set skip (raSkip term st.wp) } })

def raResolveTerm (b : ℕ) (term : IRQuadCompact) (targetBlock : Option ℕ) (st : RaResolve) :
    Option (Except String RaResolve) :=
  match targetBlock with
  | some target =>
    if 0 < raCountPhiCopiesForPred cfg ssa b (some target) then
      raResolveTaken cfg ssa b term target st
    else some (.ok (st.emit term))
  | none => some (.ok (st.emit term))

def raFallthroughBlock (b : ℕ) : Option ℕ := if b + 1 < cfg.numBlocks then some (b + 1) else none

def raResolveJumpif (b : ℕ) (st : RaResolve) : Option (Except String RaResolve) :=
  -- each edge gets its own copies
  let bb := cfg.blocks b
  let last := bb.endIdx - 1
  let term := ir.quad last
  let targetBlock := raTargetBlock ir cfg term.getDest.getImmInt
  let st := st.copyInstrs ir bb.startIdx last
  let st := st.mapTo last st.wp
  raThen (raResolveTerm cfg ssa b term targetBlock st)
    (raEmitEdge cfg ssa b (raFallthroughBlock cfg b))

def raResolvePlain (b : ℕ) (st : RaResolve) : Option (Except String RaResolve) :=
  -- the copies of all edges, and the terminator after them
  let bb := cfg.blocks b
  let insertBefore := raInsertBefore ir cfg b
  let st := st.copyInstrs ir bb.startIdx insertBefore
  let preCopyWp := st.wp
  let st' :=
    if 0 < copiesPerBlock cfg ssa b then st.emitCopies cfg ssa b none else some (.ok st)
  raThen st' fun st =>
    some (.ok ((List.range' insertBefore (bb.endIdx - insertBefore)).foldl (fun st i =>
      (st.mapTo i
        (if i = bb.startIdx ∧ 0 < copiesPerBlock cfg ssa b then preCopyWp else st.wp)).emit
          (ir.quad i)) st))

def raResolveBlock (b : ℕ) (st : RaResolve) : Option (Except String RaResolve) :=
  let bb := cfg.blocks b
  if 0 < copiesPerBlock cfg ssa b ∧ bb.startIdx < bb.endIdx ∧
      (ir.quad (bb.endIdx - 1)).op = .jumpif then
    raResolveJumpif ir cfg ssa b st
  else raResolvePlain ir cfg ssa b st

def raResolveBlocks (nb : ℕ) (st : RaResolve) : Option (Except String RaResolve) :=
  (List.range nb).foldl (fun st b => raThen st (raResolveBlock ir cfg ssa b)) (some (.ok st))

end Block

def raFixTarget (oldN : ℕ) (st : RaResolve) (t : ℤ) : ℤ :=
  if t < 0 then -t - 1
  else if t < oldN then st.oldToNew t.toNat
  else st.wp + (t - oldN)

def raFixJump (oldN : ℕ) (st : RaResolve) (q : IRQuadCompact) : IRQuadCompact :=
  if q.op = .jump ∨ q.op = .jumpif then
    { q with dest :=
        q.getDest.setImm32 (BitVec.ofInt 32 (raFixTarget oldN st q.getDest.getImmInt)) }
  else q

def raFixSwitchTarget (oldN : ℕ) (st : RaResolve) (t : ℤ) : ℤ :=
  if 0 ≤ t ∧ t < oldN then st.oldToNew t.toNat else t

def raFixSwitchTable (oldN : ℕ) (st : RaResolve) (table : TCCIRSwitchTable) : TCCIRSwitchTable :=
  { table with
    targets := table.targets.map (raFixSwitchTarget oldN st)
    defaultTarget := raFixSwitchTarget oldN st table.defaultTarget }

def raFixTargets (ir : TCCIRState) (st : RaResolve) : TCCIRState :=
  { ir with
    compactInstructions := st.out.instrs.map (raFixJump ir.nextInstructionIndex st)
    switchTables := ir.switchTables.map (raFixSwitchTable ir.nextInstructionIndex st) }

structure RaResolved where
  ir : TCCIRState
  ssa : IRSSAState
  nextTemporaryVariable : ℕ

def raResolvePhis (ir : TCCIRState) (cfg : IRCFG) (ssa : IRSSAState) (nextTemp : ℕ)
    (stackLocations : List ℤ) : Option (Except String RaResolved) :=
  if ∀ b < cfg.numBlocks, copiesPerBlock cfg ssa b = 0 then some (.ok ⟨ir, ssa, nextTemp⟩)
  else
    let st : RaResolve :=
      ⟨⟨[], nextTemp, raFindPhiSpillCursor ir stackLocations⟩, fun _ => 0⟩
    (raResolveBlocks ir cfg ssa cfg.numBlocks st).map fun r => r.map fun st =>
      { ir := raFixTargets ir st
        ssa := { ssa with blockPhis := fun _ => [] }
        nextTemporaryVariable := st.out.nextTemporaryVariable }

end Tinycc
