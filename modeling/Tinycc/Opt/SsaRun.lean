import Tinycc.Cfg.Layout
import Tinycc.IR.Words
import Tinycc.Lib.LastVisit
import Tinycc.Opt.Fold
import Tinycc.Opt.UseDef

namespace Tinycc
open Lib Flowgraph Relation Function

def irOpSlot3 : TccIrOp → Bool
  | .mla | .umaal | .select | .loadIndexed | .storeIndexed => true
  | _ => false

namespace IRQuadCompact

/-- The base register that a post-increment access moves on. -/
def postincBase (q : IRQuadCompact) : Option Vreg :=
  if q.op = .loadPostinc then q.src1.vreg
  else if q.op = .storePostinc then q.dest.vreg
  else none

def reads (q : IRQuadCompact) : List IROperand :=
  [q.getSrc1, q.getSrc2] ++ (if irOpSlot3 q.op then [q.extra] else []) ++
    (if ssaOptQuadDefinesValue q then [] else [q.getDest])

def MayWrite (q : IRQuadCompact) (t : ℕ) : Prop :=
  q.definesTemp t = true ∨ q.postincBase = some ⟨.temp, t⟩

end IRQuadCompact

/-- The register holds the value at the width of the operand. -/
def HoldsAt (op : IROperand) (r x : BitVec 64) : Prop :=
  if op.is64 then r = x else loWord r = loWord x

namespace IRSSAOptCtx

variable {World : Type} (ctx : IRSSAOptCtx) (ssa : IRSSAState) (M : ValueSem World)

def value (i : ℕ) (σ : Vreg → BitVec 64) (w : World) : Option (BitVec 64) :=
  M.instrValue (ctx.barrelShiftAt (ctx.quad i)) (ctx.bfiParamsAt (ctx.quad i)) (ctx.quad i) σ w

/-- A step of a run, as far as the TEMPs are concerned. Memory, the flags and the other vregs may
change at will. A `SETIF` whose condition the code generator refuses has no code. -/
structure Step (s s' : IrState (BitVec 64) World) : Prop where
  transfer : Transfer ctx.ir s.pc s'.pc
  setif : (ctx.quad s.pc).op = .setif →
    (jumpTaken (ctx.quad s.pc).src1.getImm32 (M.flags s.world)).isSome = true
  exec : ∃ σ : Vreg → BitVec 64,
    (∀ t, ¬ (ctx.quad s.pc).MayWrite t → σ ⟨.temp, t⟩ = s.regs ⟨.temp, t⟩) ∧
    (∀ t x, (ctx.quad s.pc).definesTemp t = true → (ctx.quad s.pc).getDest.isLval = false →
      ctx.value M s.pc s.regs s.world = some x →
        HoldsAt (ctx.quad s.pc).getDest (σ ⟨.temp, t⟩) x) ∧
    s'.regs = ssa.onEdge ctx.cfg s.pc s'.pc σ

def Reaches (s : IrState (BitVec 64) World) : Prop :=
  ∃ s₀, s₀.pc = 0 ∧ ReflTransGen (ctx.Step ssa M) s₀ s ∧ s.pc < ctx.ir.nextInstructionIndex

variable {ctx ssa M} {s : IrState (BitVec 64) World} {j t : ℕ} {x : BitVec 64}

theorem step_of_define (htr : Transfer ctx.ir s.pc j) (hop : (ctx.quad s.pc).op ≠ .setif)
    (hdef : (ctx.quad s.pc).definesTemp t = true)
    (hval : ctx.value M s.pc s.regs s.world = some x) (w : World) :
    ctx.Step ssa M s
      ⟨j, ssa.onEdge ctx.cfg s.pc j (update s.regs ⟨.temp, t⟩ x), w⟩ := by
  refine ⟨htr, fun h => absurd h hop, update s.regs ⟨.temp, t⟩ x, ?_, ?_, rfl⟩
  · intro t' ht'
    apply update_of_ne
    intro e
    cases e
    exact ht' (.inl hdef)
  · intro t' y ht' _ hy
    have he : t' = t := by
      unfold IRQuadCompact.definesTemp at hdef ht'
      rw [Bool.and_eq_true, decide_eq_true_eq] at hdef ht'
      cases hdef.2.symm.trans ht'.2
      rfl
    rw [he, update_self]
    cases hval.symm.trans hy
    unfold HoldsAt
    by_cases h64 : (ctx.quad s.pc).getDest.is64 = true
    · rw [if_pos h64]
    · rw [if_neg h64]

theorem step_next (h : s.pc + 1 < ctx.ir.nextInstructionIndex ∧
      fallsThrough (ctx.quad s.pc) = true ∧ (ctx.quad s.pc).op ≠ .setif ∧
      (ctx.quad s.pc).definesTemp t = true ∧ ctx.value M s.pc s.regs s.world = some x) (w : World) :
    ctx.Step ssa M s
      ⟨s.pc + 1, ssa.onEdge ctx.cfg s.pc (s.pc + 1) (update s.regs ⟨.temp, t⟩ x), w⟩ :=
  step_of_define (.fallThrough h.1 h.2.1) h.2.2.1 h.2.2.2.1 h.2.2.2.2 w

end IRSSAOptCtx

def ValueSem.closed : ValueSem Unit := ⟨fun _ _ _ => 0#64, fun _ => 0#32, fun _ => default⟩

/-- A function in SSA form with its graph, its dominator tree and its chains. -/
structure SsaFunction (ctx : IRSSAOptCtx) (ssa : IRSSAState) : Prop where
  cfgOf : CfgOf ctx.ir ctx.cfg
  chains : ChainsOf ctx ssa
  /-- A destination that names a TEMP is the register or its home on the stack. -/
  tempDest : ∀ i < ctx.ir.nextInstructionIndex, isTempVreg (ctx.quad i).getDest = true →
    (ctx.quad i).getDest.data = .vreg ∨ ∃ off, (ctx.quad i).getDest.data = .stackoff off

/-- A TEMP that one instruction defines has no phi and is no base of a post-increment, and in its
block it is read after the definition only. -/
def OneDefinition (ctx : IRSSAOptCtx) : Prop :=
  ∀ t vi d, ctx.vinfo t = some vi → vi.defCount = 1 → vi.defInstr = some d →
    vi.defPhiBlock = none ∧
    (∀ k < ctx.ir.nextInstructionIndex, (ctx.quad k).postincBase ≠ some ⟨.temp, t⟩) ∧
    ∀ i < ctx.ir.nextInstructionIndex, ctx.cfg.instrToBlock i = ctx.cfg.instrToBlock d →
      (∃ op ∈ (ctx.quad i).reads, op.plainVreg = some ⟨.temp, t⟩) → d < i

theorem oneDefinition_of_lt {ctx : IRSSAOptCtx} {n : ℕ} (hlt : ∀ t vi, ctx.vinfo t = some vi → t < n)
    (hinc : ∀ i < ctx.ir.nextInstructionIndex, (ctx.quad i).postincBase = none)
    (hphi : ∀ t < n, ∀ vi ∈ ctx.vinfo t, vi.defPhiBlock = none)
    (huse : ∀ t < n, ∀ vi ∈ ctx.vinfo t, ∀ d ∈ vi.defInstr, ∀ i < ctx.ir.nextInstructionIndex,
      ctx.cfg.instrToBlock i = ctx.cfg.instrToBlock d →
        (∃ op ∈ (ctx.quad i).reads, op.plainVreg = some ⟨.temp, t⟩) → d < i) :
    OneDefinition ctx := by
  intro t vi d hvi _ hd
  refine ⟨hphi t (hlt t vi hvi) vi hvi, ?_, huse t (hlt t vi hvi) vi hvi d hd⟩
  intro k hk
  rw [hinc k hk]
  exact (Option.some_ne_none _).symm

section Init

/-- A function without annotations, as the optimizer first sees it. -/
def tccIrSsaOptInit (ir : TCCIRState) (ssa : IRSSAState) (vinfoCap : ℕ) : IRSSAOptCtx :=
  IRSSAOptCtx.ssaOptBuildChains
    { ir := ir, cfg := (tccIrCfgWithDominators ir).getD (IRCFG.init 0), vinfo := fun _ => none,
      barrelShifts := fun _ => 0#8, bfiParams := fun _ => 0#16, isJumpTarget := fun _ => false,
      accessIsVolatile := fun _ => false, symVolatile := fun _ => false,
      symFloat := fun _ => false } ssa vinfoCap

variable {ir : TCCIRState} {ssa : IRSSAState} {vinfoCap : ℕ}

theorem ir_tccIrSsaOptInit : (tccIrSsaOptInit ir ssa vinfoCap).ir = ir :=
  (chainInfos_buildChains _ ssa vinfoCap).ir

theorem vinfo_tccIrSsaOptInit {t : ℕ} {vi : IRSSAVregInfo}
    (h : (tccIrSsaOptInit ir ssa vinfoCap).vinfo t = some vi) : t < vinfoCap :=
  (chainInfos_buildChains _ ssa vinfoCap).lt t vi h

theorem ssaFunction_init (h : (tccIrCfgWithDominators ir).isSome = true)
    (htemp : ∀ i < ir.nextInstructionIndex, isTempVreg (ir.quad i).getDest = true →
      (ir.quad i).getDest.data = .vreg) : SsaFunction (tccIrSsaOptInit ir ssa vinfoCap) ssa := by
  obtain ⟨cfg, hcfg⟩ := Option.isSome_iff_exists.mp h
  refine ⟨?_, chainsOf_buildChains _ ssa vinfoCap, ?_⟩
  · have hc : (tccIrSsaOptInit ir ssa vinfoCap).cfg = cfg := by
      refine (chainInfos_buildChains _ ssa vinfoCap).cfg.trans ?_
      rw [hcfg]
      rfl
    rw [ir_tccIrSsaOptInit, hc]
    exact cfgOf_withDominators hcfg
  · intro i hi ht
    unfold IRSSAOptCtx.quad at ht ⊢
    rw [ir_tccIrSsaOptInit] at hi ht ⊢
    exact .inl (htemp i hi ht)

end Init

section Climb

variable {ctx : IRSSAOptCtx} {d i : ℕ}

theorem IRSSAOptCtx.treeAnc_of_climb (H : HasIdoms ctx.cfg) {a steps b : ℕ}
    (h : ctx.climb a steps b = true) : TreeAnc (domParent ctx.cfg) a b := by
  induction steps generalizing b with
  | zero =>
    rw [of_decide_eq_true h]
    exact ReflTransGen.refl
  | succ steps ih =>
    unfold climb at h
    by_cases hb : b = a
    · rw [hb]
      exact ReflTransGen.refl
    · rw [if_neg hb] at h
      cases hid : (ctx.cfg.blocks b).idom with
      | none =>
        rw [hid] at h
        cases h
      | some p =>
        rw [hid] at h
        dsimp only at h
        by_cases hp : p = b
        · rw [if_pos hp] at h
          cases h
        · rw [if_neg hp] at h
          refine ReflTransGen.tail (ih h) ?_
          -- the entry block is its own dominator, so that the climb has stopped there
          have hb0 : b ≠ 0 := by
            intro e
            subst e
            rw [H.root] at hid
            exact hp (Option.some.inj hid).symm
          unfold domParent
          rw [hid]
          dsimp only
          rw [if_pos ⟨hb0, hp⟩]

theorem IRSSAOptCtx.dominates_of_blockDominates (C : CfgOf ctx.ir ctx.cfg)
    (h : ctx.blockDominates d i = true) :
    Dominates ctx.cfg.Edge 0 (ctx.cfg.instrToBlock d) (ctx.cfg.instrToBlock i) :=
  dominates_of_treeAnc C.idoms (treeAnc_of_climb C.idoms h)

end Climb

section Definition

variable {World : Type} {ctx : IRSSAOptCtx} {ssa : IRSSAState} {M : ValueSem World}
  {s s' : IrState (BitVec 64) World} {op : IROperand} {d t : ℕ}

theorem IRSSAState.onEdge_of_noPhi {cfg : IRCFG} (P : ∀ b < cfg.numBlocks,
    ∀ phi ∈ ssa.blockPhis b, phi.destVreg ≠ ⟨.temp, t⟩)
    (hidx : ∀ j < cfg.numInstrs, cfg.instrToBlock j < cfg.numBlocks) (i j : ℕ)
    (σ : Vreg → BitVec 64) : ssa.onEdge cfg i j σ ⟨.temp, t⟩ = σ ⟨.temp, t⟩ := by
  unfold onEdge
  have hnone : ssa.phiSource cfg i j ⟨.temp, t⟩ = none := by
    unfold phiSource blockAt
    by_cases hj : j < cfg.numInstrs ∧ (cfg.blocks (cfg.instrToBlock j)).startIdx = j
    · rw [if_pos hj, Option.bind_some]
      have hfind : (ssa.blockPhis (cfg.instrToBlock j)).find?
          (fun phi => phi.destVreg = ⟨.temp, t⟩) = none := by
        rw [List.find?_eq_none]
        intro phi hphi
        rw [decide_eq_true_eq]
        exact P _ (hidx j hj.1) phi hphi
      rw [hfind]
      rfl
    · rw [if_neg hj]
      rfl
  rw [hnone]
  rfl

/-- One instruction alone gives the TEMP a value. -/
structure OnlyDef (ctx : IRSSAOptCtx) (ssa : IRSSAState) (t d : ℕ) : Prop where
  lt : d < ctx.ir.nextInstructionIndex
  defines : (ctx.quad d).definesTemp t = true
  only : ∀ k < ctx.ir.nextInstructionIndex, (ctx.quad k).MayWrite t → k = d
  noPhi : ∀ b < ctx.cfg.numBlocks, ∀ phi ∈ ssa.blockPhis b, phi.destVreg ≠ ⟨.temp, t⟩

theorem SsaFunction.onlyDef {vi : IRSSAVregInfo} (F : SsaFunction ctx ssa)
    (hvi : ctx.vinfo t = some vi) (hcount : vi.defCount = 1) (hdef : vi.defInstr = some d)
    (hphi : vi.defPhiBlock = none)
    (hpost : ∀ k < ctx.ir.nextInstructionIndex, (ctx.quad k).postincBase ≠ some ⟨.temp, t⟩) :
    OnlyDef ctx ssa t d := by
  obtain ⟨d', hlt, hdef', honly⟩ := F.chains.one t vi hvi hcount
  cases hdef.symm.trans hdef'
  refine ⟨hlt, (honly d hlt).mpr rfl, ?_, F.chains.phi t vi hvi hphi⟩
  intro k hk hw
  rcases hw with hw | hw
  · exact (honly k hk).mp hw
  · exact absurd hw (hpost k hk)

section OneDef

variable (F : SsaFunction ctx ssa) (D : OnlyDef ctx ssa t d)

include F D

theorem OnlyDef.onEdge (i j : ℕ) (σ : Vreg → BitVec 64) :
    ssa.onEdge ctx.cfg i j σ ⟨.temp, t⟩ = σ ⟨.temp, t⟩ :=
  IRSSAState.onEdge_of_noPhi D.noPhi
    (fun j hj => F.cfgOf.partition.index_lt j (F.cfgOf.numInstrs ▸ hj)) i j σ

theorem OnlyDef.step_eq (h : ctx.Step ssa M s s') (hd : s.pc ≠ d) :
    s'.regs ⟨.temp, t⟩ = s.regs ⟨.temp, t⟩ := by
  obtain ⟨σ, hframe, _, hregs⟩ := h.exec
  rw [hregs, D.onEdge F, hframe]
  intro hw
  exact hd (D.only s.pc (CfgOf.transfer_lt h.transfer).1 hw)

theorem OnlyDef.step_holds {x : BitVec 64} (h : ctx.Step ssa M s s') (hd : s.pc = d)
    (hl : (ctx.quad d).getDest.isLval = false) (hx : ctx.value M d s.regs s.world = some x) :
    HoldsAt (ctx.quad d).getDest (s'.regs ⟨.temp, t⟩) x := by
  obtain ⟨σ, _, hval, hregs⟩ := h.exec
  rw [hd] at hval
  rw [hregs, D.onEdge F]
  exact hval t x D.defines hl hx

theorem OnlyDef.holds_of_lastVisit {R : IrState (BitVec 64) World → IrState (BitVec 64) World → Prop}
    {s₀ u : IrState (BitVec 64) World} {x : BitVec 64} (hR : ∀ a b, R a b → ctx.Step ssa M a b)
    (hu : LastVisit R IrState.pc s₀ d u s) (hne : s.pc ≠ d)
    (hl : (ctx.quad d).getDest.isLval = false) (hx : ctx.value M d u.regs u.world = some x) :
    HoldsAt (ctx.quad d).getDest (s.regs ⟨.temp, t⟩) x := by
  -- since control was at the definition nothing has written the TEMP
  obtain ⟨v, huv, hvd, hvs⟩ := hu.step hne
  have hkeep : s.regs ⟨.temp, t⟩ = v.regs ⟨.temp, t⟩ :=
    hvs.eq_of_written_at (fun s => s.regs ⟨.temp, t⟩) hvd fun a b hab had =>
      D.step_eq F (hR a b hab) had
  rw [hkeep]
  exact D.step_holds F (hR u v huv) hu.pc_eq hl hx

end OneDef

theorem IRSSAOptCtx.foldSingleDomDef_eq_some {i : ℕ} (h : ctx.foldSingleDomDef op i = some d) :
    ∃ t vi, op.plainVreg = some ⟨.temp, t⟩ ∧ ctx.vinfo t = some vi ∧ vi.defCount = 1 ∧
      vi.defInstr = some d ∧ ctx.blockDominates d i = true := by
  unfold foldSingleDomDef at h
  split at h
  case h_2 => cases h
  case h_1 t ht =>
    obtain ⟨vi, hvi, h⟩ := Option.bind_eq_some_iff.mp h
    by_cases hc : vi.defCount = 1
    · rw [if_pos hc] at h
      obtain ⟨d', hd', h⟩ := Option.bind_eq_some_iff.mp h
      by_cases hdom : ctx.blockDominates d' i = true
      · rw [if_pos hdom] at h
        cases h
        exact ⟨t, vi, ht, hvi, hc, hd', hdom⟩
      · rw [if_neg hdom] at h
        cases h
    · rw [if_neg hc] at h
      cases h

/-- The value of a register that is read is the one that its definition gave it when control was
there for the last time. -/
theorem SsaFunction.value_of_singleDomDef (F : SsaFunction ctx ssa) (hone : OneDefinition ctx)
    (hs : ctx.Reaches ssa M s) (hop : op ∈ (ctx.quad s.pc).reads)
    (hd : ctx.foldSingleDomDef op s.pc = some d) :
    ∃ t u, op.plainVreg = some ⟨.temp, t⟩ ∧ ctx.Reaches ssa M u ∧ u.pc = d ∧
      ((ctx.quad d).op = .setif →
        (jumpTaken (ctx.quad d).src1.getImm32 (M.flags u.world)).isSome = true) ∧
      ∀ x, (ctx.quad d).getDest.isLval = false → ctx.value M d u.regs u.world = some x →
        HoldsAt (ctx.quad d).getDest (s.regs ⟨.temp, t⟩) x := by
  obtain ⟨t, vi, hv, hvi, hcount, hdef, hdom⟩ := IRSSAOptCtx.foldSingleDomDef_eq_some hd
  obtain ⟨hphi, hpost, hread⟩ := hone t vi d hvi hcount hdef
  have D := F.onlyDef hvi hcount hdef hphi hpost
  obtain ⟨s₀, h0, hrun, hpc⟩ := hs
  have hbefore : ctx.cfg.instrToBlock s.pc = ctx.cfg.instrToBlock d → d < s.pc := fun e =>
    hread s.pc hpc e ⟨op, hop, hv⟩
  have hne : s.pc ≠ d := fun e => by
    have := hbefore (congrArg ctx.cfg.instrToBlock e)
    omega
  have hinstr : Dominates (Transfer ctx.ir) s₀.pc d s.pc := by
    rw [h0]
    exact F.cfgOf.dominates D.lt (IRSSAOptCtx.dominates_of_blockDominates F.cfgOf hdom)
      fun e => (hbefore e).le
  obtain ⟨u, hu⟩ := exists_lastVisit (fun _ _ hab => hab.transfer) hrun hinstr
  obtain ⟨v, huv, _⟩ := hu.step hne
  have hset := huv.setif
  rw [hu.pc_eq] at hset
  refine ⟨t, u, hv, ⟨s₀, h0, hu.reaches, hu.pc_eq ▸ D.lt⟩, hu.pc_eq, hset, ?_⟩
  intro x hl hx
  exact D.holds_of_lastVisit F (fun _ _ h => h) hu hne hl hx

end Definition

end Tinycc
