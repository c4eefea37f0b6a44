import Tinycc.Cfg.Partition
import Tinycc.Lib.AppendNew

namespace Tinycc
open Lib Function List Nat

def cfgTargets (ir : TCCIRState) (cfg : IRCFG) (b : ℕ) : List ℕ :=
  if (cfg.blocks b).endIdx ≤ (cfg.blocks b).startIdx then []
  else
    let q := ir.quad ((cfg.blocks b).endIdx - 1)
    (explicitTargets ir q).filterMap cfg.blockOf ++
      if q.op = .jump ∨ q.op = .switchTable ∨ q.op = .returnvalue ∨ q.op = .returnvoid ∨
          q.op = .ijump ∨ cfgInstrEndsFlow q then []
      else cfg.nextBlock b

def IRCFG.addCaps (cfg : IRCFG) (b : ℕ) (dsts : List ℕ) : IRCFG :=
  { cfg with blocks := fun x =>
      { cfg.blocks x with
        succsCap := (cfg.blocks x).succsCap + if x = b then dsts.length else 0,
        predsCap := (cfg.blocks x).predsCap + dsts.count x } }

def IRCFG.addEdges (cfg : IRCFG) (b : ℕ) (dsts : List ℕ) : IRCFG :=
  { cfg with blocks := fun x =>
      { cfg.blocks x with
        succs := if x = b then dsts.foldl appendNew (cfg.blocks x).succs else (cfg.blocks x).succs,
        preds := (cfg.blocks x).preds ++ List.replicate (dsts.count x) b } }

section Step

variable {ir : TCCIRState} {cfg : IRCFG} {b : ℕ} {st : CfgEdgeState}

theorem cfgAddEdge_false (cfg : IRCFG) (b d : ℕ) :
    cfgAddEdge cfg b d false = cfg.addCaps b [d] := by
  simp only [cfgAddEdge, IRCFG.modifyBlock, IRCFG.addCaps, IRCFG.mk.injEq, and_true,
    Bool.not_false, if_true]
  funext x
  by_cases hx : x = b <;> by_cases hd : d = x <;> subst_vars <;>
    simp_all [update_apply, eq_comm]

theorem store_succ_eq (bb : IRBasicBlock) (d : ℕ) :
    (if d ∈ bb.succs then bb else { bb with succs := bb.succs ++ [d] }) =
      { bb with succs := appendNew bb.succs d } := by
  unfold appendNew
  split <;> rfl

theorem cfgAddEdge_true (cfg : IRCFG) (b d : ℕ) :
    cfgAddEdge cfg b d true = cfg.addEdges b [d] := by
  simp only [cfgAddEdge, IRCFG.modifyBlock, IRCFG.addEdges, IRCFG.mk.injEq, and_true,
    Bool.not_true, Bool.false_eq_true, if_false, store_succ_eq]
  funext x
  by_cases hx : x = b <;> by_cases hd : d = x <;> subst_vars <;>
    simp_all [update_apply, eq_comm]

theorem addCaps_nil (cfg : IRCFG) (b : ℕ) : cfg.addCaps b [] = cfg := by
  simp [IRCFG.addCaps]

theorem addCaps_append (cfg : IRCFG) (b : ℕ) (l l' : List ℕ) :
    (cfg.addCaps b l).addCaps b l' = cfg.addCaps b (l ++ l') := by
  simp only [IRCFG.addCaps, IRCFG.mk.injEq, and_true]
  funext x
  simp only [IRBasicBlock.mk.injEq, true_and, and_true, length_append, count_append]
  refine ⟨?_, by omega⟩
  split <;> omega

theorem addEdges_nil (cfg : IRCFG) (b : ℕ) : cfg.addEdges b [] = cfg := by
  simp [IRCFG.addEdges]

theorem addEdges_append (cfg : IRCFG) (b : ℕ) (l l' : List ℕ) :
    (cfg.addEdges b l).addEdges b l' = cfg.addEdges b (l ++ l') := by
  simp only [IRCFG.addEdges, IRCFG.mk.injEq, and_true]
  funext x
  simp only [IRBasicBlock.mk.injEq, true_and, and_true, foldl_append, count_append,
    replicate_add, append_assoc]
  split <;> rfl

theorem cfgAddEdges_false (b : ℕ) (dsts : List ℕ) :
    ∀ cfg, cfgAddEdges false b cfg dsts = cfg.addCaps b dsts := by
  induction dsts with
  | nil => exact fun cfg => (addCaps_nil cfg b).symm
  | cons d dsts ih =>
    intro cfg
    rw [← singleton_append, ← addCaps_append, ← ih, ← cfgAddEdge_false]
    rfl

theorem cfgAddEdges_true (b : ℕ) (dsts : List ℕ) :
    ∀ cfg, cfgAddEdges true b cfg dsts = cfg.addEdges b dsts := by
  induction dsts with
  | nil => exact fun cfg => (addEdges_nil cfg b).symm
  | cons d dsts ih =>
    intro cfg
    rw [← singleton_append, ← addEdges_append, ← ih, ← cfgAddEdge_true]
    rfl

theorem foldl_cfgAddSwitchEdge_false (b : ℕ) (dsts : List ℕ) :
    ∀ st, dsts.foldl (cfgAddSwitchEdge b false) st = { st with cfg := st.cfg.addCaps b dsts } := by
  induction dsts with
  | nil => intro st; rw [addCaps_nil]; rfl
  | cons d dsts ih =>
    intro st
    rw [foldl_cons, ih, ← singleton_append, ← addCaps_append, ← cfgAddEdge_false]
    rfl

theorem cfgAddSwitchEdge_true (d : ℕ)
    (hseen : ∀ x, st.seen x = some b ↔ x ∈ (st.cfg.blocks b).succs) :
    (cfgAddSwitchEdge b true st d).cfg = st.cfg.addEdges b [d] ∧
      ((cfgAddSwitchEdge b true st d).seen = st.seen ∨
        (cfgAddSwitchEdge b true st d).seen = update st.seen d (some b)) := by
  have hd := hseen d
  by_cases h : st.seen d = some b
  · have hm := hd.mp h
    refine ⟨?_, .inl (by simp [cfgAddSwitchEdge, h])⟩
    rw [← cfgAddEdge_true]
    simp [cfgAddSwitchEdge, h, cfgAddEdge, IRCFG.modifyBlock, hm]
  · have hm := mt hd.mpr h
    refine ⟨?_, .inr (by simp [cfgAddSwitchEdge, h])⟩
    rw [← cfgAddEdge_true]
    simp [cfgAddSwitchEdge, h, cfgAddEdge, IRCFG.modifyBlock, hm]

theorem addEdges_succs (cfg : IRCFG) (b : ℕ) (dsts : List ℕ) :
    ((cfg.addEdges b dsts).blocks b).succs = dsts.foldl appendNew (cfg.blocks b).succs := by
  simp [IRCFG.addEdges]

theorem foldl_cfgAddSwitchEdge_true (b : ℕ) (dsts : List ℕ) :
    ∀ st : CfgEdgeState, (∀ x, st.seen x = some b ↔ x ∈ (st.cfg.blocks b).succs) →
      (dsts.foldl (cfgAddSwitchEdge b true) st).cfg = st.cfg.addEdges b dsts ∧
      ∀ x c, c ≠ b → (dsts.foldl (cfgAddSwitchEdge b true) st).seen x = some c →
        st.seen x = some c := by
  induction dsts with
  | nil => exact fun st _ => ⟨(addEdges_nil st.cfg b).symm, fun _ _ _ h => h⟩
  | cons d dsts ih =>
    intro st hseen
    obtain ⟨hcfg, hupd⟩ := cfgAddSwitchEdge_true d hseen
    have hseen' : ∀ x, (cfgAddSwitchEdge b true st d).seen x = some b ↔
        x ∈ ((cfgAddSwitchEdge b true st d).cfg.blocks b).succs := by
      intro x
      rw [hcfg, addEdges_succs]
      simp only [foldl_cons, foldl_nil, mem_appendNew, ← hseen]
      by_cases hd : st.seen d = some b
      · have hkeep : (cfgAddSwitchEdge b true st d).seen = st.seen := by simp [cfgAddSwitchEdge, hd]
        rw [hkeep]
        constructor
        · exact .inl
        · rintro (h | rfl)
          · exact h
          · exact hd
      · have hset : (cfgAddSwitchEdge b true st d).seen = update st.seen d (some b) := by
          simp [cfgAddSwitchEdge, hd]
        rw [hset, update_apply]
        split <;> simp_all
    obtain ⟨h1, h2⟩ := ih _ hseen'
    refine ⟨?_, ?_⟩
    · rw [foldl_cons, h1, hcfg, addEdges_append, singleton_append]
    · intro x c hc h
      have h3 := h2 x c hc h
      rcases hupd with hu | hu
      · rwa [hu] at h3
      · rw [hu, update_apply] at h3
        split at h3
        · exact absurd (Option.some.inj h3).symm hc
        · exact h3

theorem filterMap_single {α β : Type*} (f : α → Option β) (a : α) :
    [a].filterMap f = (f a).toList := by
  cases h : f a <;> simp [h]

theorem cfgEdgeStep_cases (ir : TCCIRState) (fill : Bool) (st : CfgEdgeState) (b : ℕ) :
    cfgEdgeStep ir fill st b =
        { st with cfg := cfgAddEdges fill b st.cfg (cfgTargets ir st.cfg b) } ∨
      cfgEdgeStep ir fill st b = (cfgTargets ir st.cfg b).foldl (cfgAddSwitchEdge b fill) st := by
  simp only [cfgEdgeStep, cfgTargets]
  split
  · exact .inr rfl
  · generalize hq : ir.quad ((st.cfg.blocks b).endIdx - 1) = q
    split
    · next h => simp [explicitTargets, h, filterMap_single]
    · split
      · next h => simp [explicitTargets, h, filterMap_single, cfgInstrEndsFlow]
      · split
        · next h => simp [explicitTargets, h, cfgInstrEndsFlow]
        · split
          · next h =>
            cases ht : TCCIRState.lookup ir.switchTables q.getSrc2.getImmInt <;>
              simp [explicitTargets, h, ht]
          · next h1 h2 h3 h4 => split <;> next h => simp [explicitTargets, h1, h2, h3, h4, h]

theorem cfgEdgeStep_false (ir : TCCIRState) (st : CfgEdgeState) (b : ℕ) :
    cfgEdgeStep ir false st b =
      { st with cfg := st.cfg.addCaps b (cfgTargets ir st.cfg b) } := by
  rcases cfgEdgeStep_cases ir false st b with h | h
  · rw [h, cfgAddEdges_false]
  · rw [h, foldl_cfgAddSwitchEdge_false]

theorem cfgEdgeStep_true (ir : TCCIRState) (st : CfgEdgeState) (b : ℕ)
    (hseen : ∀ x, st.seen x = some b ↔ x ∈ (st.cfg.blocks b).succs) :
    (cfgEdgeStep ir true st b).cfg = st.cfg.addEdges b (cfgTargets ir st.cfg b) ∧
      ∀ x c, c ≠ b → (cfgEdgeStep ir true st b).seen x = some c → st.seen x = some c := by
  rcases cfgEdgeStep_cases ir true st b with h | h
  · rw [h]
    exact ⟨cfgAddEdges_true b _ _, fun _ _ _ h => h⟩
  · rw [h]
    exact foldl_cfgAddSwitchEdge_true b _ st hseen

end Step

section Passes

variable (ir : TCCIRState) (cfg : IRCFG)

def IRCFG.counted (k : ℕ) : IRCFG :=
  { cfg with blocks := fun x =>
      { cfg.blocks x with
        succsCap := if x < k then (cfgTargets ir cfg x).length else 0,
        predsCap := ((List.range k).flatMap (cfgTargets ir cfg)).count x } }

def IRCFG.filled (k : ℕ) : IRCFG :=
  { cfg with blocks := fun x =>
      { cfg.blocks x with
        succs := if x < k then (cfgTargets ir cfg x).foldl appendNew [] else [],
        preds := (List.range k).flatMap fun p =>
          List.replicate ((cfgTargets ir cfg p).count x) p } }

theorem counted_succ (k : ℕ) :
    (cfg.counted ir k).addCaps k (cfgTargets ir cfg k) = cfg.counted ir (k + 1) := by
  simp only [IRCFG.addCaps, IRCFG.counted, IRCFG.mk.injEq, and_true]
  funext x
  simp only [IRBasicBlock.mk.injEq, true_and, and_true, range_succ, flatMap_append,
    count_append, flatMap_singleton]
  rcases lt_trichotomy x k with h | rfl | h
  · simp [h, h.ne, h.trans (lt_succ_self k)]
  · simp
  · simp [h.ne', h.not_gt, (succ_le_of_lt h).not_gt]

theorem filled_succ (k : ℕ) :
    (cfg.filled ir k).addEdges k (cfgTargets ir cfg k) = cfg.filled ir (k + 1) := by
  simp only [IRCFG.addEdges, IRCFG.filled, IRCFG.mk.injEq, and_true]
  funext x
  simp only [IRBasicBlock.mk.injEq, true_and, and_true, range_succ, flatMap_append,
    flatMap_singleton]
  rcases lt_trichotomy x k with h | rfl | h
  · simp [h, h.ne, h.trans (lt_succ_self k)]
  · simp
  · simp [h.ne', h.not_gt, (succ_le_of_lt h).not_gt]

variable {cfg}

theorem cfgBuildEdges_false
    (h : ∀ b, (cfg.blocks b).succsCap = 0 ∧ (cfg.blocks b).predsCap = 0) :
    cfgBuildEdges ir cfg false = cfg.counted ir cfg.numBlocks := by
  refine forRange_induction (fun k (st : CfgEdgeState) => st.cfg = cfg.counted ir k)
    cfg.numBlocks ?_ ?_
  · have hb : ∀ b, (cfg.blocks b) = { cfg.blocks b with succsCap := 0, predsCap := 0 } := by
      intro b
      obtain ⟨h1, h2⟩ := h b
      cases hbb : cfg.blocks b
      simp_all
    simp only [IRCFG.counted]
    simp [← hb]
  · intro k st _ hst
    rw [cfgEdgeStep_false, hst]
    exact counted_succ ir cfg k

theorem cfgBuildEdges_true
    (h : ∀ b, (cfg.blocks b).succs = [] ∧ (cfg.blocks b).preds = []) :
    cfgBuildEdges ir cfg true = cfg.filled ir cfg.numBlocks := by
  refine (forRange_induction (fun k (st : CfgEdgeState) => st.cfg = cfg.filled ir k ∧
    ∀ x c, st.seen x = some c → c < k) cfg.numBlocks ⟨?_, by simp⟩ ?_).1
  · have hb : ∀ b, (cfg.blocks b) = { cfg.blocks b with succs := [], preds := [] } := by
      intro b
      obtain ⟨h1, h2⟩ := h b
      cases hbb : cfg.blocks b
      simp_all
    simp only [IRCFG.filled]
    simp [← hb]
  · rintro k st _ ⟨hst, hseen⟩
    have hk : ∀ x, st.seen x = some k ↔ x ∈ (st.cfg.blocks k).succs := by
      intro x
      have hne : st.seen x ≠ some k := fun e => (hseen x k e).ne rfl
      simp [hst, IRCFG.filled, hne]
    obtain ⟨h1, h2⟩ := cfgEdgeStep_true ir st k hk
    refine ⟨?_, ?_⟩
    · rw [h1, hst]
      exact filled_succ ir cfg k
    · intro x c hc
      by_cases hck : c = k
      · omega
      · have := hseen x c (h2 x c hck hc)
        omega

end Passes

end Tinycc
