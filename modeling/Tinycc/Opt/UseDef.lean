import Tinycc.IR.Phi
import Tinycc.Opt.SsaCtx

namespace Tinycc
open Lib List

def ssaOptIsDefOp (op : TccIrOp) : Bool :=
  (iropConfig op).hasDest && op ≠ .storeIndexed && op ≠ .storePostinc && op ≠ .funcparamval &&
    op ≠ .funcparamvoid

def ssaOptQuadDefinesValue (q : IRQuadCompact) : Bool :=
  ssaOptIsDefOp q.op && !(q.op = .store && q.getDest.isLval)

/-- The instruction counts as a definition of a TEMP. -/
def IRQuadCompact.definesTemp (q : IRQuadCompact) (t : ℕ) : Bool :=
  ssaOptQuadDefinesValue q && q.getDest.vreg = some ⟨.temp, t⟩

def ssaOptScanInstrUses (q : IRQuadCompact) : List (Option Vreg) :=
  (if (iropConfig q.op).hasSrc1 then [q.src1.vreg] else []) ++
  (if (iropConfig q.op).hasSrc2 then [q.src2.vreg] else []) ++
  (if q.op = .mla then [q.extra.vreg] else []) ++
  (if (q.op = .store ∧ q.getDest.isLval) ∨ q.op = .storeIndexed ∨ q.op = .storePostinc then
    [q.getDest.vreg] else [])

namespace IRSSAOptCtx

def vinfoInit (vinfoCap : ℕ) (t : ℕ) : Option IRSSAVregInfo :=
  if t < vinfoCap then some ⟨none, none, 0, []⟩ else none

def chainPhi (b : ℕ) (ctx : IRSSAOptCtx) (phi : IRPhiNode) : IRSSAOptCtx :=
  ctx.modifyVinfo (some phi.destVreg) fun vi => { vi with defPhiBlock := some b }

def chainPhis (ssa : IRSSAState) (ctx : IRSSAOptCtx) (b : ℕ) : IRSSAOptCtx :=
  (ssa.blockPhis b).foldl (chainPhi b) ctx

def chainDef (ctx : IRSSAOptCtx) (i : ℕ) : IRSSAOptCtx :=
  if ssaOptQuadDefinesValue (ctx.quad i) then
    ctx.modifyVinfo (ctx.quad i).getDest.vreg fun vi =>
      { vi with defInstr := some i, defCount := vi.defCount + 1 }
  else ctx

def chainUses (i : ℕ) (ctx : IRSSAOptCtx) (uses : List (Option Vreg)) : IRSSAOptCtx :=
  uses.foldl (fun ctx v => ctx.modifyVinfo v (·.addUseInstr i)) ctx

def chainInstr (ctx : IRSSAOptCtx) (i : ℕ) : IRSSAOptCtx :=
  if (ctx.quad i).op = .nop then ctx
  else chainUses i (ctx.chainDef i) (ssaOptScanInstrUses (ctx.quad i))

def chainPhiUses (b : ℕ) (ctx : IRSSAOptCtx) (phi : IRPhiNode) : IRSSAOptCtx :=
  phi.operands.zipIdx.foldl (fun ctx o =>
    ctx.modifyVinfo o.1.vreg fun vi => { vi with uses := vi.uses ++ [.phi b o.2] }) ctx

def ssaOptBuildChains (ctx : IRSSAOptCtx) (ssa : IRSSAState) (vinfoCap : ℕ) : IRSSAOptCtx :=
  let ctx := { ctx with vinfo := vinfoInit vinfoCap }
  let ctx := forRange ctx.cfg.numBlocks (chainPhis ssa) ctx
  let ctx := forRange ctx.ir.nextInstructionIndex chainInstr ctx
  forRange ctx.cfg.numBlocks (fun ctx b => (ssa.blockPhis b).foldl (chainPhiUses b) ctx) ctx

end IRSSAOptCtx

open IRSSAOptCtx

/-- What the chains tell of the definitions of the TEMPs. -/
structure ChainsOf (ctx : IRSSAOptCtx) (ssa : IRSSAState) : Prop where
  /-- The record of a TEMP with one definition names it. -/
  one : ∀ t vi, ctx.vinfo t = some vi → vi.defCount = 1 →
    ∃ d < ctx.ir.nextInstructionIndex, vi.defInstr = some d ∧
      ∀ k < ctx.ir.nextInstructionIndex, (ctx.quad k).definesTemp t = true ↔ k = d
  phi : ∀ t vi, ctx.vinfo t = some vi → vi.defPhiBlock = none → ∀ b < ctx.cfg.numBlocks,
    ∀ phi ∈ ssa.blockPhis b, phi.destVreg ≠ ⟨.temp, t⟩

section Build

variable {ctx : IRSSAOptCtx} {ssa : IRSSAState} {f : IRSSAVregInfo → IRSSAVregInfo}
  {vinfoCap : ℕ}

structure ChainInfos (ctx₀ : IRSSAOptCtx) (vinfoCap : ℕ) (P : ℕ → IRSSAVregInfo → Prop)
    (ctx : IRSSAOptCtx) : Prop where
  ir : ctx.ir = ctx₀.ir
  cfg : ctx.cfg = ctx₀.cfg
  lt : ∀ t vi, ctx.vinfo t = some vi → t < vinfoCap
  info : ∀ t vi, ctx.vinfo t = some vi → P t vi

variable {ctx₀ : IRSSAOptCtx} {P Q : ℕ → IRSSAVregInfo → Prop}

theorem ChainInfos.modifyVinfo (h : ChainInfos ctx₀ vinfoCap P ctx) (v : Option Vreg)
    (hf : ∀ t vi, v = some ⟨.temp, t⟩ → P t vi → Q t (f vi))
    (hkeep : ∀ t vi, v ≠ some ⟨.temp, t⟩ → P t vi → Q t vi) :
    ChainInfos ctx₀ vinfoCap Q (ctx.modifyVinfo v f) where
  ir := (ir_modifyVinfo v).trans h.ir
  cfg := (cfg_modifyVinfo v).trans h.cfg
  lt t vi hvi := by
    rw [vinfo_modifyVinfo] at hvi
    by_cases hv : v = some ⟨.temp, t⟩
    · rw [if_pos hv] at hvi
      obtain ⟨vi₀, hvi₀, _⟩ := Option.map_eq_some_iff.mp hvi
      exact h.lt t vi₀ hvi₀
    · rw [if_neg hv] at hvi
      exact h.lt t vi hvi
  info t vi hvi := by
    rw [vinfo_modifyVinfo] at hvi
    by_cases hv : v = some ⟨.temp, t⟩
    · rw [if_pos hv] at hvi
      obtain ⟨vi₀, hvi₀, rfl⟩ := Option.map_eq_some_iff.mp hvi
      exact hf t vi₀ hv (h.info t vi₀ hvi₀)
    · rw [if_neg hv] at hvi
      exact hkeep t vi hv (h.info t vi hvi)

theorem ChainInfos.mono (h : ChainInfos ctx₀ vinfoCap P ctx) (hPQ : ∀ t vi, P t vi → Q t vi) :
    ChainInfos ctx₀ vinfoCap Q ctx :=
  ⟨h.ir, h.cfg, h.lt, fun t vi hvi => hPQ t vi (h.info t vi hvi)⟩

theorem ChainInfos.foldl {β : Type*} {body : IRSSAOptCtx → β → IRSSAOptCtx}
    (hbody : ∀ ctx x, ChainInfos ctx₀ vinfoCap P ctx → ChainInfos ctx₀ vinfoCap P (body ctx x))
    (l : List β) (h : ChainInfos ctx₀ vinfoCap P ctx) :
    ChainInfos ctx₀ vinfoCap P (l.foldl body ctx) := by
  induction l generalizing ctx with
  | nil => exact h
  | cons x l ih => exact ih (hbody ctx x h)

def defsBefore (ctx : IRSSAOptCtx) (t k : ℕ) : List ℕ :=
  (List.range k).filter fun i => (ctx.quad i).definesTemp t

def NoPhiBefore (ssa : IRSSAState) (t k : ℕ) : Prop :=
  ∀ b < k, ∀ phi ∈ ssa.blockPhis b, phi.destVreg ≠ ⟨.temp, t⟩

def ChainInfoAt (ctx : IRSSAOptCtx) (ssa : IRSSAState) (k t : ℕ) (vi : IRSSAVregInfo) : Prop :=
  vi.defInstr = (defsBefore ctx t k).getLast? ∧ vi.defCount = (defsBefore ctx t k).length ∧
    (vi.defPhiBlock = none → NoPhiBefore ssa t ctx.cfg.numBlocks)

theorem chainInfos_chainPhis (ctx₀ : IRSSAOptCtx) (b : ℕ)
    (h : ChainInfos ctx₀ vinfoCap (fun t vi => vi.defInstr = none ∧ vi.defCount = 0 ∧
      (vi.defPhiBlock = none → NoPhiBefore ssa t b)) ctx) :
    ChainInfos ctx₀ vinfoCap (fun t vi => vi.defInstr = none ∧ vi.defCount = 0 ∧
      (vi.defPhiBlock = none → NoPhiBefore ssa t (b + 1))) (ctx.chainPhis ssa b) := by
  have key := @foldl_induction _ _ (chainPhi b) (fun done c => ChainInfos ctx₀ vinfoCap (fun t vi =>
    vi.defInstr = none ∧ vi.defCount = 0 ∧ (vi.defPhiBlock = none → NoPhiBefore ssa t b ∧
      ∀ phi ∈ done, phi.destVreg ≠ ⟨.temp, t⟩)) c) (ssa.blockPhis b) ?_ ctx ?_
  · refine ChainInfos.mono key ?_
    rintro t vi ⟨h1, h2, h3⟩
    refine ⟨h1, h2, fun hnone c hc phi hphi => ?_⟩
    obtain ⟨hb, hl⟩ := h3 hnone
    by_cases hcb : c = b
    · exact hl phi (hcb ▸ hphi)
    · exact hb c (by omega) phi hphi
  · intro done phi c _ hc
    refine hc.modifyVinfo _ ?_ ?_
    · rintro t vi _ ⟨h1, h2, _⟩
      refine ⟨h1, h2, fun e => ?_⟩
      cases e
    · rintro t vi hne ⟨h1, h2, h3⟩
      refine ⟨h1, h2, fun hnone => ⟨(h3 hnone).1, fun p hp => ?_⟩⟩
      rcases List.mem_append.mp hp with hp | hp
      · exact (h3 hnone).2 p hp
      · rw [List.mem_singleton.mp hp]
        exact fun e => hne (congrArg some e)
  · refine h.mono ?_
    rintro t vi ⟨h1, h2, h3⟩
    exact ⟨h1, h2, fun hnone => ⟨h3 hnone, fun _ hp => absurd hp not_mem_nil⟩⟩

theorem defsBefore_succ (ctx : IRSSAOptCtx) (t k : ℕ) :
    defsBefore ctx t (k + 1) =
      defsBefore ctx t k ++ if (ctx.quad k).definesTemp t then [k] else [] := by
  unfold defsBefore
  rw [range_succ, filter_append, filter_singleton, Bool.cond_eq_ite]

theorem chainInfos_chainDef (ctx₀ : IRSSAOptCtx) (i : ℕ)
    (h : ChainInfos ctx₀ vinfoCap (ChainInfoAt ctx₀ ssa i) ctx) :
    ChainInfos ctx₀ vinfoCap (ChainInfoAt ctx₀ ssa (i + 1)) (ctx.chainDef i) := by
  have hq : ctx.quad i = ctx₀.quad i := by
    unfold IRSSAOptCtx.quad
    rw [h.ir]
  unfold chainDef
  rw [hq]
  by_cases hdef : ssaOptQuadDefinesValue (ctx₀.quad i) = true
  · rw [if_pos hdef]
    refine h.modifyVinfo _ ?_ ?_
    · rintro t vi hv ⟨_, h2, h3⟩
      have ht : (ctx₀.quad i).definesTemp t = true := by
        simp [IRQuadCompact.definesTemp, hdef, hv]
      unfold ChainInfoAt
      rw [defsBefore_succ, if_pos ht]
      refine ⟨?_, ?_, h3⟩
      · rw [List.getLast?_append]
        rfl
      · rw [length_append, ← h2]
        rfl
    · rintro t vi hv hvi
      have ht : ¬ (ctx₀.quad i).definesTemp t = true := by
        simp [IRQuadCompact.definesTemp, hv]
      unfold ChainInfoAt
      rw [defsBefore_succ, if_neg ht, append_nil]
      exact hvi
  · rw [if_neg hdef]
    refine h.mono ?_
    intro t vi hvi
    have ht : ¬ (ctx₀.quad i).definesTemp t = true := by
      simp [IRQuadCompact.definesTemp, hdef]
    unfold ChainInfoAt
    rw [defsBefore_succ, if_neg ht, append_nil]
    exact hvi

theorem chainInfos_chainInstr (ctx₀ : IRSSAOptCtx) (i : ℕ)
    (h : ChainInfos ctx₀ vinfoCap (ChainInfoAt ctx₀ ssa i) ctx) :
    ChainInfos ctx₀ vinfoCap (ChainInfoAt ctx₀ ssa (i + 1)) (ctx.chainInstr i) := by
  have hdef := chainInfos_chainDef ctx₀ i h
  unfold chainInstr
  by_cases hnop : (ctx.quad i).op = .nop
  · -- a `NOP` has no destination, so that the loop may pass over it
    have hno : ssaOptQuadDefinesValue (ctx.quad i) = false := by
      unfold ssaOptQuadDefinesValue
      rw [hnop]
      rfl
    unfold chainDef at hdef
    rw [hno] at hdef
    rw [if_pos hnop]
    exact hdef
  · rw [if_neg hnop]
    refine ChainInfos.foldl ?_ _ hdef
    intro c v hc
    exact hc.modifyVinfo v (fun _ _ _ hp => hp) fun _ _ _ hp => hp

theorem chainInfos_buildChains (ctx : IRSSAOptCtx) (ssa : IRSSAState) (vinfoCap : ℕ) :
    ChainInfos ctx vinfoCap (ChainInfoAt ctx ssa ctx.ir.nextInstructionIndex)
      (ctx.ssaOptBuildChains ssa vinfoCap) := by
  unfold ssaOptBuildChains
  dsimp only
  have h₁ := @forRange_induction _ (chainPhis ssa) (fun k c => ChainInfos ctx vinfoCap (fun t vi =>
    vi.defInstr = none ∧ vi.defCount = 0 ∧ (vi.defPhiBlock = none → NoPhiBefore ssa t k)) c)
    { ctx with vinfo := vinfoInit vinfoCap } ctx.cfg.numBlocks ?_ ?_
  · have h₂ := forRange_induction (fun k c => ChainInfos ctx vinfoCap (ChainInfoAt ctx ssa k) c)
      ctx.ir.nextInstructionIndex (h₁.mono ?_) (fun i c _ hc => chainInfos_chainInstr ctx i hc)
    · rw [h₁.ir]
      refine forRange_induction (fun _ c => ChainInfos ctx vinfoCap (ChainInfoAt ctx ssa _) c) _ h₂ ?_
      intro b c _ hc
      refine ChainInfos.foldl ?_ _ hc
      intro c phi hc
      refine ChainInfos.foldl ?_ _ hc
      intro c o hc
      exact hc.modifyVinfo _ (fun _ _ _ hp => hp) fun _ _ _ hp => hp
    · rintro t vi ⟨h1, h2, h3⟩
      exact ⟨h1, h2, h3⟩
  · have hinit : ∀ t vi, vinfoInit vinfoCap t = some vi → t < vinfoCap ∧
        vi.defInstr = none ∧ vi.defCount = 0 ∧ (vi.defPhiBlock = none → NoPhiBefore ssa t 0) := by
      intro t vi hvi
      unfold vinfoInit at hvi
      by_cases ht : t < vinfoCap
      · rw [if_pos ht] at hvi
        cases hvi
        exact ⟨ht, rfl, rfl, fun _ b hb => absurd hb (Nat.not_lt_zero b)⟩
      · rw [if_neg ht] at hvi
        cases hvi
    exact ⟨rfl, rfl, fun t vi hvi => (hinit t vi hvi).1, fun t vi hvi => (hinit t vi hvi).2⟩
  · intro i c _ hc
    exact chainInfos_chainPhis ctx i hc

theorem chainsOf_buildChains (ctx : IRSSAOptCtx) (ssa : IRSSAState) (vinfoCap : ℕ) :
    ChainsOf (ctx.ssaOptBuildChains ssa vinfoCap) ssa := by
  have R := chainInfos_buildChains ctx ssa vinfoCap
  have hq : ∀ k, (ctx.ssaOptBuildChains ssa vinfoCap).quad k = ctx.quad k := by
    intro k
    unfold IRSSAOptCtx.quad
    rw [R.ir]
  refine ⟨?_, ?_⟩
  · intro t vi hvi h1
    obtain ⟨hlast, hcount, _⟩ := R.info t vi hvi
    rw [h1] at hcount
    obtain ⟨d, hd⟩ := List.length_eq_one_iff.mp hcount.symm
    have hmem : ∀ k, k ∈ defsBefore ctx t ctx.ir.nextInstructionIndex ↔ k = d := by
      intro k
      rw [hd, mem_singleton]
    rw [R.ir]
    refine ⟨d, ?_, ?_, ?_⟩
    · have := (hmem d).mpr rfl
      exact List.mem_range.mp (List.mem_filter.mp this).1
    · rw [hlast, hd]
      rfl
    · intro k hk
      rw [hq, ← hmem k]
      unfold defsBefore
      rw [mem_filter, mem_range]
      exact ⟨fun h => ⟨hk, h⟩, fun h => h.2⟩
  · intro t vi hvi hnone b hb
    rw [R.cfg] at hb
    exact (R.info t vi hvi).2.2 hnone b hb

end Build

end Tinycc
