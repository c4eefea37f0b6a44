import Tinycc.IR.Value

namespace Tinycc
open Function

inductive IRSSAUse
  | instr (idx : ℕ)
  | phi (block slot : ℕ)
  deriving DecidableEq, Repr

structure IRSSAVregInfo where
  defInstr : Option ℕ
  defPhiBlock : Option ℕ
  /-- The instructions that define the vreg; its phi is not counted. -/
  defCount : ℕ
  uses : List IRSSAUse
  deriving DecidableEq, Repr

def IRSSAVregInfo.addUseInstr (vi : IRSSAVregInfo) (idx : ℕ) : IRSSAVregInfo :=
  { vi with uses := vi.uses ++ [.instr idx] }

def IRSSAVregInfo.removeUseInstr (vi : IRSSAVregInfo) (idx : ℕ) : IRSSAVregInfo :=
  match vi.uses.idxOf? (.instr idx), vi.uses.getLast? with
  | some k, some last => { vi with uses := (vi.uses.set k last).dropLast }
  | _, _ => vi

structure IRSSAOptCtx where
  ir : TCCIRState
  cfg : IRCFG
  vinfo : ℕ → Option IRSSAVregInfo
  /-- `barrel_shifts` by `orig_index`, 0 past its end. -/
  barrelShifts : ℕ → BitVec 8
  /-- `bfi_params` by `orig_index`, 0 past its end. -/
  bfiParams : ℕ → BitVec 16
  isJumpTarget : ℕ → Bool
  accessIsVolatile : ℕ → Bool
  /-- The type of a symbol is volatile, or it is a floating-point type. -/
  symVolatile : Sym → Bool
  symFloat : Sym → Bool

namespace IRSSAOptCtx

variable (ctx : IRSSAOptCtx)

def quad (i : ℕ) : IRQuadCompact := ctx.ir.quad i

def barrelShiftAt (q : IRQuadCompact) : BitVec 8 := ctx.barrelShifts q.origIndex

def bfiParamsAt (q : IRQuadCompact) : BitVec 16 := ctx.bfiParams q.origIndex

def ssaOptVinfo (v : Option Vreg) : Option IRSSAVregInfo :=
  match v with
  | some ⟨.temp, t⟩ => ctx.vinfo t
  | _ => none

def setQuad (i : ℕ) (q : IRQuadCompact) : IRSSAOptCtx :=
  { ctx with
    ir := { ctx.ir with compactInstructions := ctx.ir.compactInstructions.set i q } }

def modifyVinfo (v : Option Vreg) (f : IRSSAVregInfo → IRSSAVregInfo) : IRSSAOptCtx :=
  match v with
  | some ⟨.temp, t⟩ =>
    { ctx with vinfo := update ctx.vinfo t ((ctx.vinfo t).map f) }
  | _ => ctx

def dropUse (op : IROperand) (i : ℕ) : IRSSAOptCtx :=
  ctx.modifyVinfo op.vreg (·.removeUseInstr i)

def setOp (i : ℕ) (op : TccIrOp) : IRSSAOptCtx := ctx.setQuad i { ctx.quad i with op := op }

def setSrc1 (i : ℕ) (x : IROperand) : IRSSAOptCtx := ctx.setQuad i { ctx.quad i with src1 := x }

def setSrc2 (i : ℕ) (x : IROperand) : IRSSAOptCtx :=
  if (iropConfig (ctx.quad i).op).hasSrc2 then ctx.setQuad i { ctx.quad i with src2 := x } else ctx

/-- Up the dominator tree from block `b` to `defBlk`, as long as `steps` allows. -/
def climb (defBlk : ℕ) : ℕ → ℕ → Bool
  | 0, b => b = defBlk
  | steps + 1, b =>
    if b = defBlk then true
    else
      match (ctx.cfg.blocks b).idom with
      | none => false
      | some id => if id = b then false else climb defBlk steps id

/-- The block of one instruction dominates that of another, by the dominator tree. -/
def blockDominates (d useIdx : ℕ) : Bool :=
  ctx.climb (ctx.cfg.instrToBlock d) ctx.cfg.numBlocks (ctx.cfg.instrToBlock useIdx)

section Lemmas

variable {ctx} {f : IRSSAVregInfo → IRSSAVregInfo} {i : ℕ}

theorem ir_modifyVinfo (v : Option Vreg) : (ctx.modifyVinfo v f).ir = ctx.ir := by
  unfold modifyVinfo
  split <;> rfl

theorem cfg_modifyVinfo (v : Option Vreg) : (ctx.modifyVinfo v f).cfg = ctx.cfg := by
  unfold modifyVinfo
  split <;> rfl

theorem vinfo_modifyVinfo (v : Option Vreg) (t : ℕ) :
    (ctx.modifyVinfo v f).vinfo t =
      if v = some ⟨.temp, t⟩ then (ctx.vinfo t).map f else ctx.vinfo t := by
  unfold modifyVinfo
  split
  case h_1 p =>
    dsimp only
    by_cases ht : t = p
    · subst ht
      rw [update_self, if_pos rfl]
    · rw [update_of_ne ht, if_neg]
      intro e
      cases e
      exact ht rfl
  case h_2 hv => rw [if_neg (hv t)]

theorem ir_dropUse (op : IROperand) : (ctx.dropUse op i).ir = ctx.ir := ir_modifyVinfo _

theorem quad_setQuad_self (hi : i < ctx.ir.compactInstructions.length) (q : IRQuadCompact) :
    (ctx.setQuad i q).quad i = q := by
  simp [setQuad, quad, TCCIRState.quad, hi]

theorem quad_setQuad_ne {j : ℕ} (hij : i ≠ j) (q : IRQuadCompact) :
    (ctx.setQuad i q).quad j = ctx.quad j := by
  simp [setQuad, quad, TCCIRState.quad, List.getElem?_set_ne hij]

theorem length_setQuad (q : IRQuadCompact) :
    (ctx.setQuad i q).ir.compactInstructions.length = ctx.ir.compactInstructions.length :=
  List.length_set

end Lemmas

end IRSSAOptCtx

end Tinycc
