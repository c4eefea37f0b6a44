import Tinycc.Cfg.BuildSound
import Tinycc.Cfg.Dominators

namespace Tinycc
open Lib Flowgraph Function

def IRCFG.Edge (cfg : IRCFG) (b c : ℕ) : Prop := c ∈ (cfg.blocks b).succs

/-- A graph whose edges join its blocks and whose two edge lists agree. -/
structure IRCFG.WellFormed (cfg : IRCFG) : Prop where
  pos : 0 < cfg.numBlocks
  edge_lt : ∀ b c, cfg.Edge b c → b < cfg.numBlocks ∧ c < cfg.numBlocks
  pred_iff : ∀ b c, b ∈ (cfg.blocks c).preds ↔ cfg.Edge b c

theorem tccIrCfgBuild_wellFormed {ir : TCCIRState} {cfg : IRCFG}
    (h : tccIrCfgBuild ir = .ok (some cfg)) : cfg.WellFormed where
  pos := (tccIrCfgBuild_isPartition h).pos
  edge_lt b c hbc := by
    obtain ⟨hb, hc⟩ := (mem_succs_iff h).mp hbc
    exact ⟨hb, cfgTargets_lt h hc⟩
  pred_iff b c := (mem_preds_iff h).trans (mem_succs_iff h).symm

structure SameGraph (cfg cfg' : IRCFG) : Prop where
  numBlocks : cfg'.numBlocks = cfg.numBlocks
  succs : ∀ b, (cfg'.blocks b).succs = (cfg.blocks b).succs
  preds : ∀ b, (cfg'.blocks b).preds = (cfg.blocks b).preds

section Graph

variable {cfg cfg' : IRCFG}

theorem SameGraph.refl (cfg : IRCFG) : SameGraph cfg cfg := ⟨rfl, fun _ => rfl, fun _ => rfl⟩

theorem SameGraph.trans {cfg'' : IRCFG} (h : SameGraph cfg cfg') (h' : SameGraph cfg' cfg'') :
    SameGraph cfg cfg'' :=
  ⟨h'.numBlocks.trans h.numBlocks, fun b => (h'.succs b).trans (h.succs b),
    fun b => (h'.preds b).trans (h.preds b)⟩

theorem SameGraph.edge (h : SameGraph cfg cfg') : cfg'.Edge = cfg.Edge := by
  funext b c
  simp only [IRCFG.Edge, h.succs]

theorem SameGraph.wellFormed (h : SameGraph cfg cfg') (W : cfg.WellFormed) : cfg'.WellFormed where
  pos := h.numBlocks ▸ W.pos
  edge_lt b c hbc := by
    rw [h.edge] at hbc
    rw [h.numBlocks]
    exact W.edge_lt b c hbc
  pred_iff b c := by
    rw [h.edge, h.preds]
    exact W.pred_iff b c

theorem sameGraph_modifyBlock (cfg : IRCFG) (b : ℕ) (f : IRBasicBlock → IRBasicBlock)
    (hs : ∀ bb, (f bb).succs = bb.succs) (hp : ∀ bb, (f bb).preds = bb.preds) :
    SameGraph cfg (cfg.modifyBlock b f) := by
  refine ⟨rfl, fun x => ?_, fun x => ?_⟩ <;> simp only [IRCFG.modifyBlock, update_apply]
  · split
    · next h => rw [hs, h]
    · rfl
  · split
    · next h => rw [hp, h]
    · rfl

theorem succEdge_eq (W : cfg.WellFormed) :
    SuccEdge cfg.numBlocks (fun b => (cfg.blocks b).succs) = cfg.Edge := by
  funext b c
  exact propext ⟨fun h => h.1, fun h => ⟨h, (W.edge_lt b c h).2⟩⟩

def rpoOfDfs (s : DfsState) : RpoState :=
  { visited := fun b => (s.pre b).isSome, postorder := s.post, stack := s.stack }

theorem rpoStep_rpoOfDfs (cfg : IRCFG) (s : DfsState) :
    rpoStep cfg (rpoOfDfs s) =
      rpoOfDfs (dfsStep cfg.numBlocks (fun b => (cfg.blocks b).succs) s) := by
  unfold rpoStep dfsStep
  have hstack : (rpoOfDfs s).stack = s.stack := rfl
  rw [hstack]
  cases s.stack with
  | nil => rfl
  | cons top rest =>
    dsimp only
    cases hc : (cfg.blocks top.block).succs[top.ci]? with
    | none => rfl
    | some c =>
      have hv : (rpoOfDfs s).visited c = false ↔ s.pre c = none := by simp [rpoOfDfs]
      by_cases h : c < cfg.numBlocks ∧ s.pre c = none
      · dsimp only
        rw [if_pos h, if_pos ⟨h.1, hv.mpr h.2⟩]
        simp only [rpoOfDfs, RpoState.mk.injEq, and_true]
        funext b
        by_cases hb : b = c <;> simp [hb]
      · dsimp only
        rw [if_neg h, if_neg fun h' => h ⟨h'.1, hv.mp h'.2⟩]
        rfl

theorem rpoNumber_loop (rpoOrder : List ℕ) (cfg : IRCFG) (n : ℕ) :
    let cfg' := forRange n
      (fun cfg i => cfg.modifyBlock (rpoOrder.getD i 0) fun bb => { bb with rpoNumber := some i })
      cfg
    cfg'.numBlocks = cfg.numBlocks ∧ cfg'.rpoOrder = cfg.rpoOrder ∧
      ∀ b, cfg'.blocks b = { cfg.blocks b with rpoNumber := (cfg'.blocks b).rpoNumber } := by
  refine forRange_induction (fun _ (cfg' : IRCFG) => cfg'.numBlocks = cfg.numBlocks ∧
    cfg'.rpoOrder = cfg.rpoOrder ∧
    ∀ b, cfg'.blocks b = { cfg.blocks b with rpoNumber := (cfg'.blocks b).rpoNumber })
    n ⟨rfl, rfl, fun _ => rfl⟩ ?_
  rintro i cfg' _ ⟨h1, h2, h3⟩
  refine ⟨h1, h2, fun b => ?_⟩
  simp only [IRCFG.modifyBlock, update_apply]
  split
  · next hb => rw [h3, hb]
  · exact h3 b

theorem tccIrCfgComputeRpo_spec (W : cfg.WellFormed) :
    ∃ cfg', tccIrCfgComputeRpo cfg = some cfg' ∧ cfg'.numBlocks = cfg.numBlocks ∧
      (∀ b, cfg'.blocks b = { cfg.blocks b with rpoNumber := (cfg'.blocks b).rpoNumber }) ∧
      cfg'.rpoOrder.Nodup ∧ ∀ b, b ∈ cfg'.rpoOrder ↔ Reachable cfg.Edge 0 b := by
  obtain ⟨t, ht, I, hstack⟩ := dfs_terminates (fun b => (cfg.blocks b).succs) W.pos
  have hloop := @whileLoop_map DfsState RpoState (fun s => !s.stack.isEmpty) _
    (fun s => !s.stack.isEmpty) _ rpoOfDfs (fun _ => rfl) (fun s _ => rpoStep_rpoOfDfs cfg s)
    (dfsFuel cfg.numBlocks fun b => (cfg.blocks b).succs) dfsInit
  rw [ht] at hloop
  have hinit : rpoOfDfs dfsInit =
      { visited := update (fun _ => false) 0 true, postorder := [], stack := [⟨0, 0⟩] } := by
    simp only [rpoOfDfs, dfsInit, RpoState.mk.injEq, and_true]
    funext b
    by_cases hb : b = 0 <;> simp [hb]
  rw [hinit] at hloop
  obtain ⟨h1, h2, h3⟩ := rpoNumber_loop t.post.reverse { cfg with rpoOrder := t.post.reverse }
    t.post.reverse.length
  refine ⟨_, ?_, h1, h3, ?_, ?_⟩
  · unfold tccIrCfgComputeRpo
    rw [if_neg W.pos.ne']
    simp only [hloop]
    rfl
  · rw [h2]
    exact List.nodup_reverse.mpr I.post_nodup
  · intro b
    rw [h2, List.mem_reverse, mem_post_iff I hstack, succEdge_eq W]

end Graph

end Tinycc
