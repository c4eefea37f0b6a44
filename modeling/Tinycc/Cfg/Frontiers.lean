import Tinycc.Cfg.DominatorsSound

namespace Tinycc
open Lib Flowgraph Relation Function List Relation.ReflTransGen

structure DfState where
  cfg : IRCFG
  lastDf : ℕ → Option ℕ

def dfRecord (fill : Bool) (b runner : ℕ) (st : DfState) : DfState :=
  { cfg := st.cfg.modifyBlock runner fun bb =>
      if fill then { bb with domFrontier := bb.domFrontier ++ [b] }
      else { bb with domFrontierCap := bb.domFrontierCap + 1 },
    lastDf := update st.lastDf runner (some b) }

/-- The climb of a runner towards `idom(b)`; the number bounds its steps. -/
def dfClimb (fill : Bool) (b : ℕ) (idomB : Option ℕ) : ℕ → ℕ → DfState → DfState
  | 0, _, st => st
  | n + 1, runner, st =>
    if some runner = idomB then st
    else if st.lastDf runner = some b then st
    else
      let st := dfRecord fill b runner st
      match (st.cfg.blocks runner).idom with
      | some d => if runner = d then st else dfClimb fill b idomB n d st
      | none => st

def dfPredStep (fill : Bool) (b : ℕ) (st : DfState) (p : ℕ) : DfState :=
  if (st.cfg.blocks p).idom = none then st
  else dfClimb fill b (st.cfg.blocks b).idom st.cfg.numBlocks p st

def dfBlockStep (fill : Bool) (st : DfState) (b : ℕ) : DfState :=
  if (st.cfg.blocks b).preds.length < 2 then st
  else if (st.cfg.blocks b).idom = none then st
  else (st.cfg.blocks b).preds.foldl (dfPredStep fill b) st

def cfgDfWalk (cfg : IRCFG) (fill : Bool) : IRCFG :=
  (forRange cfg.numBlocks (dfBlockStep fill) (DfState.mk cfg fun _ => none)).cfg

def domChildStep (fill : Bool) (cfg : IRCFG) (i : ℕ) : IRCFG :=
  let b := i + 1
  match (cfg.blocks b).idom with
  | some d =>
    if d ≠ b then
      cfg.modifyBlock d fun bb =>
        if fill then { bb with domChildren := bb.domChildren ++ [b] }
        else { bb with domChildrenCap := bb.domChildrenCap + 1 }
    else cfg
  | none => cfg

def tccIrCfgComputeDomFrontiers (cfg : IRCFG) : IRCFG :=
  if cfg.numBlocks = 0 then cfg
  else
    let cfg := { cfg with blocks := fun b =>
      { cfg.blocks b with
        domFrontierCap := 0, domFrontier := [], domChildrenCap := 0, domChildren := [] } }
    let cfg := forRange (cfg.numBlocks - 1) (domChildStep false) cfg
    let cfg := forRange (cfg.numBlocks - 1) (domChildStep true) cfg
    let cfg := cfgDfWalk cfg false
    cfgDfWalk cfg true

section Frame

structure SameTree (cfg cfg' : IRCFG) : Prop extends SameGraph cfg cfg' where
  idom : ∀ b, (cfg'.blocks b).idom = (cfg.blocks b).idom

variable {cfg cfg' cfg'' : IRCFG}

theorem SameTree.refl (cfg : IRCFG) : SameTree cfg cfg := ⟨SameGraph.refl cfg, fun _ => rfl⟩

theorem SameTree.trans (h : SameTree cfg cfg') (h' : SameTree cfg' cfg'') : SameTree cfg cfg'' :=
  ⟨h.toSameGraph.trans h'.toSameGraph, fun b => (h'.idom b).trans (h.idom b)⟩

theorem SameTree.hasIdoms (h : SameTree cfg cfg') (H : HasIdoms cfg) : HasIdoms cfg' where
  wellFormed := h.toSameGraph.wellFormed H.wellFormed
  root := by rw [h.idom, H.root]
  idom := by
    simp only [h.toSameGraph.edge, h.idom]
    exact H.idom
  unreachable := by
    simp only [h.toSameGraph.edge, h.idom]
    exact H.unreachable

def KeepsTree (f : IRBasicBlock → IRBasicBlock) : Prop :=
  ∀ bb, (f bb).succs = bb.succs ∧ (f bb).preds = bb.preds ∧ (f bb).idom = bb.idom

theorem sameTree_modifyBlock (cfg : IRCFG) (b : ℕ) {f : IRBasicBlock → IRBasicBlock}
    (hf : KeepsTree f) : SameTree cfg (cfg.modifyBlock b f) := by
  refine ⟨sameGraph_modifyBlock cfg b f (fun bb => (hf bb).1) (fun bb => (hf bb).2.1), fun x => ?_⟩
  simp only [IRCFG.modifyBlock, update_apply]
  split
  · next h => rw [(hf _).2.2, h]
  · rfl

theorem sameTree_dfRecord (fill : Bool) (b runner : ℕ) (st : DfState) :
    SameTree st.cfg (dfRecord fill b runner st).cfg := by
  unfold dfRecord
  dsimp only
  apply sameTree_modifyBlock
  intro bb
  cases fill <;> exact ⟨rfl, rfl, rfl⟩

theorem sameTree_domChildStep (fill : Bool) (cfg : IRCFG) (i : ℕ) :
    SameTree cfg (domChildStep fill cfg i) := by
  unfold domChildStep
  dsimp only
  split
  · split
    · apply sameTree_modifyBlock
      intro bb
      cases fill <;> exact ⟨rfl, rfl, rfl⟩
    · exact SameTree.refl cfg
  · exact SameTree.refl cfg

end Frame

def DfRecorded (fill : Bool) (bb : IRBasicBlock) (l : List ℕ) : Prop :=
  if fill then bb.domFrontier = l else bb.domFrontierCap = l.length

def OnClimb (cfg : IRCFG) (ib p x : ℕ) : Prop :=
  Dominates cfg.Edge 0 x p ∧ ¬ Dominates cfg.Edge 0 x ib

/-- The state reached from `st` by recording `b` for the blocks of a set. -/
structure DfMarked (fill : Bool) (b : ℕ) (S : ℕ → Prop) (st st' : DfState) : Prop where
  tree : SameTree st.cfg st'.cfg
  lastDf_mem : ∀ x, S x → st'.lastDf x = some b
  lastDf_not_mem : ∀ x, ¬ S x → st'.lastDf x = st.lastDf x
  recorded_mem : ∀ x l, S x → st.lastDf x ≠ some b → DfRecorded fill (st.cfg.blocks x) l →
    DfRecorded fill (st'.cfg.blocks x) (l ++ [b])
  recorded_marked : ∀ x l, st.lastDf x = some b → DfRecorded fill (st.cfg.blocks x) l →
    DfRecorded fill (st'.cfg.blocks x) l
  recorded_not_mem : ∀ x l, ¬ S x → DfRecorded fill (st.cfg.blocks x) l →
    DfRecorded fill (st'.cfg.blocks x) l

section Climb

variable {fill : Bool} {b : ℕ} {st : DfState}

variable {S S' : ℕ → Prop} {st' : DfState}

theorem DfMarked.of_empty (h : ∀ x, S x → st.lastDf x = some b) :
    DfMarked fill b S st st where
  tree := SameTree.refl _
  lastDf_mem := h
  lastDf_not_mem _ _ := rfl
  recorded_mem x _ hx hne := absurd (h x hx) hne
  recorded_marked _ _ _ hl := hl
  recorded_not_mem _ _ _ hl := hl

theorem dfMarked_dfRecord {r : ℕ} (hr : st.lastDf r ≠ some b) :
    DfMarked fill b (fun x => x = r) st (dfRecord fill b r st) := by
  have hother : ∀ x, x ≠ r → (dfRecord fill b r st).cfg.blocks x = st.cfg.blocks x := by
    intro x hx
    simp only [dfRecord, IRCFG.modifyBlock, update_of_ne hx]
  constructor
  case tree => exact sameTree_dfRecord fill b r st
  case lastDf_mem =>
    rintro x rfl
    simp [dfRecord]
  case lastDf_not_mem =>
    intro x hx
    simp only [dfRecord, update_of_ne hx]
  case recorded_mem =>
    rintro x l rfl _ hl
    cases fill <;> simpa [DfRecorded, dfRecord, IRCFG.modifyBlock] using hl
  case recorded_marked =>
    intro x l hx hl
    rw [hother x fun e => hr (e ▸ hx)]
    exact hl
  case recorded_not_mem =>
    intro x l hx hl
    rw [hother x hx]
    exact hl

theorem DfMarked.trans {st'' : DfState} (h : DfMarked fill b S st st')
    (h' : DfMarked fill b S' st' st'') : DfMarked fill b (fun x => S x ∨ S' x) st st'' := by
  have hmark : ∀ x, st.lastDf x = some b → st'.lastDf x = some b := by
    intro x hx
    by_cases hS : S x
    · exact h.lastDf_mem x hS
    · rw [h.lastDf_not_mem x hS, hx]
  constructor
  case tree => exact h.tree.trans h'.tree
  case lastDf_mem =>
    intro x hx
    by_cases hS' : S' x
    · exact h'.lastDf_mem x hS'
    · rw [h'.lastDf_not_mem x hS']
      exact h.lastDf_mem x (hx.resolve_right hS')
  case lastDf_not_mem =>
    intro x hx
    rw [not_or] at hx
    rw [h'.lastDf_not_mem x hx.2, h.lastDf_not_mem x hx.1]
  case recorded_mem =>
    intro x l hx hne hl
    by_cases hS : S x
    · exact h'.recorded_marked x _ (h.lastDf_mem x hS) (h.recorded_mem x l hS hne hl)
    · refine h'.recorded_mem x l (hx.resolve_left hS) ?_ (h.recorded_not_mem x l hS hl)
      rw [h.lastDf_not_mem x hS]
      exact hne
  case recorded_marked =>
    intro x l hx hl
    exact h'.recorded_marked x l (hmark x hx) (h.recorded_marked x l hx hl)
  case recorded_not_mem =>
    intro x l hx hl
    rw [not_or] at hx
    exact h'.recorded_not_mem x l hx.2 (h.recorded_not_mem x l hx.1 hl)

theorem DfMarked.congr (h : DfMarked fill b S st st') (hS : ∀ x, S x ↔ S' x) :
    DfMarked fill b S' st st' := by
  rwa [show S' = S from funext fun x => propext (hS x).symm]

end Climb

section Join

variable {fill : Bool} {b ib : ℕ} {cfg : IRCFG}

theorem onClimb_step {r d x : ℕ} (hr : Reachable cfg.Edge 0 r)
    (hib : Dominates cfg.Edge 0 ib r) (hne : r ≠ ib) (hd : IsIdom cfg.Edge 0 d r) :
    OnClimb cfg ib r x ↔ x = r ∨ OnClimb cfg ib d x := by
  have hnot : ¬ Dominates cfg.Edge 0 r ib := fun h =>
    hne (h.antisymm hib (hib.reachable hr))
  unfold OnClimb
  rw [hd.dominates_iff]
  constructor
  · rintro ⟨rfl | h, h'⟩
    · exact .inl rfl
    · exact .inr ⟨h, h'⟩
  · rintro (rfl | ⟨h, h'⟩)
    · exact ⟨.inl rfl, hnot⟩
    · exact ⟨.inr h, h'⟩

section

variable (H : HasIdoms cfg)
include H

theorem dfClimb_marked : ∀ (n r : ℕ) (st : DfState), SameTree cfg st.cfg →
    Reachable cfg.Edge 0 r → Dominates cfg.Edge 0 ib r →
    domRank cfg.Edge 0 (Finset.range cfg.numBlocks) r < n →
    (∀ x, Dominates cfg.Edge 0 x r → st.lastDf x = some b →
      ∀ z, OnClimb cfg ib x z → st.lastDf z = some b) →
    DfMarked fill b (OnClimb cfg ib r) st (dfClimb fill b (some ib) n r st) := by
  -- an early stop leaves out only what an earlier climb has recorded
  intro n
  induction n with
  | zero => intro r st _ _ _ h; omega
  | succ n ih =>
    intro r st hT hr hib hrank hclosed
    unfold dfClimb
    by_cases hri : r = ib
    · rw [if_pos (by rw [hri])]
      exact DfMarked.of_empty fun x hx => absurd (hri ▸ hx.1) hx.2
    rw [if_neg fun e => hri (Option.some.inj e)]
    by_cases hmark : st.lastDf r = some b
    · rw [if_pos hmark]
      exact DfMarked.of_empty fun x hx => hclosed r (dominates_refl _ _ _) hmark x hx
    rw [if_neg hmark]
    have hr0 : r ≠ 0 := by
      rintro rfl
      exact hri (hib.antisymm (dominates_root _ _ _) hr).symm
    obtain ⟨d, hd, hid⟩ := H.idom r hr0 hr
    have hrd := hid.1.1.reachable hr
    have hlt := hid.1.domRank_lt hr (Finset.mem_range.mpr (H.wellFormed.reachable_lt hrd))
    have hM := @dfMarked_dfRecord fill b st r hmark
    have hT' := hT.trans hM.tree
    have hidom : ((dfRecord fill b r st).cfg.blocks r).idom = some d := by rw [hT'.idom, hd]
    simp only [hidom]
    rw [if_neg fun e => hid.1.2 e.symm]
    have hib' : Dominates cfg.Edge 0 ib d := (hid.dominates_iff.mp hib).resolve_left fun e =>
      hri e.symm
    -- what lies above `d` has not been touched by the new record
    have hne : ∀ x, Dominates cfg.Edge 0 x d → x ≠ r := by
      rintro x hx rfl
      exact hid.1.2 (hid.1.1.antisymm hx hr)
    refine (hM.trans (ih d _ hT' hrd hib' (by omega) ?_)).congr fun x =>
      (onClimb_step hr hib hri hid).symm
    intro x hx hxb z hz
    rw [hM.lastDf_not_mem x (hne x hx)] at hxb
    rw [hM.lastDf_not_mem z (hne z (hz.1.trans hx))]
    exact hclosed x (hx.trans hid.1.1) hxb z hz

/-- The join `b` belongs to the frontier list of `x`. -/
def RecordsJoin (cfg : IRCFG) (x b : ℕ) : Prop :=
  2 ≤ (cfg.blocks b).preds.length ∧ ∃ ib, (cfg.blocks b).idom = some ib ∧
    ∃ p ∈ (cfg.blocks b).preds, Reachable cfg.Edge 0 p ∧ OnClimb cfg ib p x

theorem HasIdoms.idom_ne_none_iff (p : ℕ) :
    (cfg.blocks p).idom ≠ none ↔ Reachable cfg.Edge 0 p := by
  constructor
  · intro h
    by_contra hr
    exact h (H.unreachable p hr)
  · intro hr
    by_cases h0 : p = 0
    · simp [h0, H.root]
    · obtain ⟨d, hd, _⟩ := H.idom p h0 hr
      simp [hd]

theorem HasIdoms.idom_dominates_pred {p : ℕ}
    (hib : (cfg.blocks b).idom = some ib) (hp : cfg.Edge p b) : Dominates cfg.Edge 0 ib p := by
  by_cases h0 : b = 0
  · rw [h0, H.root] at hib
    cases hib
    exact dominates_root _ _ _
  · exact ((H.idom_eq_some_iff h0).mp hib).2.1.pred hp

theorem dfPred_marked {st : DfState} (hT : SameTree cfg st.cfg)
    (hfresh : ∀ x, st.lastDf x ≠ some b) (hib : (cfg.blocks b).idom = some ib) :
    DfMarked fill b (fun x => ∃ p ∈ (cfg.blocks b).preds, Reachable cfg.Edge 0 p ∧ OnClimb cfg ib p x)
      st ((cfg.blocks b).preds.foldl (dfPredStep fill b) st) := by
  refine foldl_induction (fun done st' => DfMarked fill b
    (fun x => ∃ p ∈ done, Reachable cfg.Edge 0 p ∧ OnClimb cfg ib p x) st st')
    (cfg.blocks b).preds ?_ (DfMarked.of_empty (by simp))
  intro done p st' hp hM
  have hT' := hT.trans hM.tree
  unfold dfPredStep
  by_cases hr : Reachable cfg.Edge 0 p
  · rw [if_neg (by rw [hT'.idom]; exact (H.idom_ne_none_iff p).mpr hr), hT'.idom, hib,
      hT'.numBlocks]
    have hrank := @domRank_lt_card ℕ cfg.Edge 0 p _
      (Finset.mem_range.mpr (H.wellFormed.reachable_lt hr))
    rw [Finset.card_range] at hrank
    have hdom := H.idom_dominates_pred hib ((H.wellFormed.pred_iff p b).mp hp)
    refine (hM.trans (dfClimb_marked H _ p st' hT' hr hdom hrank ?_)).congr fun x => ?_
    · intro x _ hx z hz
      have hS : ∃ q ∈ done, Reachable cfg.Edge 0 q ∧ OnClimb cfg ib q x := by
        by_contra hS
        rw [hM.lastDf_not_mem x hS] at hx
        exact hfresh x hx
      obtain ⟨q, hq, hrq, hxq⟩ := hS
      exact hM.lastDf_mem z ⟨q, hq, hrq, hz.1.trans hxq.1, hz.2⟩
    · simp [hr]
  · rw [if_pos (by rw [hT'.idom]; exact H.unreachable p hr)]
    refine hM.congr fun x => ?_
    simp [hr]

open Classical in
/-- The frontier lists after the joins below `k`. -/
structure DfInv (fill : Bool) (cfg : IRCFG) (k : ℕ) (st : DfState) : Prop where
  tree : SameTree cfg st.cfg
  fresh : ∀ x c, st.lastDf x = some c → c < k
  recorded : ∀ x, DfRecorded fill (st.cfg.blocks x)
    ((List.range k).filter fun b => RecordsJoin cfg x b)

theorem dfBlockStep_inv {k : ℕ} {st : DfState} (I : DfInv fill cfg k st) :
    DfInv fill cfg (k + 1) (dfBlockStep fill st k) := by
  classical
  have hT := I.tree
  have hskip : (∀ x, ¬ RecordsJoin cfg x k) → DfInv fill cfg (k + 1) st := by
    intro hno
    refine ⟨hT, fun x c hc => (I.fresh x c hc).trans (Nat.lt_succ_self k), fun x => ?_⟩
    rw [range_succ]
    simpa [hno x] using I.recorded x
  unfold dfBlockStep
  rw [hT.preds, hT.idom]
  split
  · next h => exact hskip fun x hx => by have := hx.1; omega
  · next h2 =>
    cases hib : (cfg.blocks k).idom with
    | none => exact hskip fun x hx => by simp [RecordsJoin, hib] at hx
    | some ib =>
      rw [if_neg (by simp)]
      have hfresh : ∀ x, st.lastDf x ≠ some k := fun x hx => lt_irrefl k (I.fresh x k hx)
      have hM := @dfPred_marked fill k ib cfg H st hT hfresh hib
      refine ⟨hT.trans hM.tree, fun x c hc => ?_, fun x => ?_⟩
      · by_cases hS : ∃ p ∈ (cfg.blocks k).preds, Reachable cfg.Edge 0 p ∧ OnClimb cfg ib p x
        · rw [hM.lastDf_mem x hS] at hc
          cases hc
          exact Nat.lt_succ_self _
        · rw [hM.lastDf_not_mem x hS] at hc
          exact (I.fresh x c hc).trans (Nat.lt_succ_self k)
      · have hiff : RecordsJoin cfg x k ↔
            ∃ p ∈ (cfg.blocks k).preds, Reachable cfg.Edge 0 p ∧ OnClimb cfg ib p x := by
          simp only [RecordsJoin, hib, Option.some.injEq, exists_eq_left', not_lt.mp h2, true_and]
        rw [range_succ]
        by_cases hS : RecordsJoin cfg x k
        · simpa [hS] using hM.recorded_mem x _ (hiff.mp hS) (hfresh x) (I.recorded x)
        · simpa [hS] using hM.recorded_not_mem x _ (fun h => hS (hiff.mpr h)) (I.recorded x)

end

end Join

section Walk

variable {cfg : IRCFG}

theorem cfgDfWalk_induction {fill : Bool} (P : IRCFG → Prop)
    (hrec : ∀ b r st, P st.cfg → P (dfRecord fill b r st).cfg) (h0 : P cfg) :
    P (cfgDfWalk cfg fill) := by
  have hclimb : ∀ b ib n r (st : DfState), P st.cfg → P (dfClimb fill b ib n r st).cfg := by
    intro b ib n
    induction n with
    | zero => exact fun r st h => h
    | succ n ih =>
      intro r st h
      unfold dfClimb
      split
      · exact h
      split
      · exact h
      dsimp only
      split
      · split
        · exact hrec b r st h
        · exact ih _ _ (hrec b r st h)
      · exact hrec b r st h
  refine forRange_induction (fun _ (st : DfState) => P st.cfg) _ h0 fun b st _ h => ?_
  unfold dfBlockStep
  split
  · exact h
  split
  · exact h
  refine foldl_induction (fun _ (st : DfState) => P st.cfg) _ (fun _ p st _ h => ?_) h
  unfold dfPredStep
  split
  · exact h
  · exact hclimb _ _ _ _ _ h

open Classical in
theorem cfgDfWalk_spec {fill : Bool} (H : HasIdoms cfg)
    (h0 : ∀ x, DfRecorded fill (cfg.blocks x) []) :
    SameTree cfg (cfgDfWalk cfg fill) ∧ ∀ x, DfRecorded fill ((cfgDfWalk cfg fill).blocks x)
      ((List.range cfg.numBlocks).filter fun b => RecordsJoin cfg x b) := by
  have I : DfInv fill cfg cfg.numBlocks
      (forRange cfg.numBlocks (dfBlockStep fill) (DfState.mk cfg fun _ => none)) := by
    refine forRange_induction (DfInv fill cfg) _ ?_ fun k st _ I => dfBlockStep_inv H I
    exact ⟨SameTree.refl cfg, by simp, h0⟩
  exact ⟨I.tree, I.recorded⟩

theorem recordsJoin_congr {cfg' : IRCFG} (h : SameTree cfg cfg') (x b : ℕ) :
    RecordsJoin cfg' x b ↔ RecordsJoin cfg x b := by
  simp only [RecordsJoin, OnClimb, h.preds, h.idom, h.toSameGraph.edge]

theorem domChildStep_keeps (fill : Bool) {cfg' : IRCFG} (n : ℕ)
    (h : SameTree cfg cfg' ∧ ∀ x, (cfg'.blocks x).domFrontier = [] ∧
      (cfg'.blocks x).domFrontierCap = 0) :
    SameTree cfg (forRange n (domChildStep fill) cfg') ∧
      ∀ x, ((forRange n (domChildStep fill) cfg').blocks x).domFrontier = [] ∧
        ((forRange n (domChildStep fill) cfg').blocks x).domFrontierCap = 0 := by
  refine forRange_induction (fun _ (c : IRCFG) => SameTree cfg c ∧ ∀ x,
    (c.blocks x).domFrontier = [] ∧ (c.blocks x).domFrontierCap = 0) _ h fun i c _ hc => ?_
  refine ⟨hc.1.trans (sameTree_domChildStep fill c i), fun x => ?_⟩
  unfold domChildStep
  dsimp only
  split
  · split
    · simp only [IRCFG.modifyBlock, update_apply]
      split
      · next hx =>
        cases fill <;> exact hc.2 _
      · exact hc.2 x
    · exact hc.2 x
  · exact hc.2 x

open Classical in
theorem tccIrCfgComputeDomFrontiers_spec (H : HasIdoms cfg) :
    SameTree cfg (tccIrCfgComputeDomFrontiers cfg) ∧
      ∀ x, ((tccIrCfgComputeDomFrontiers cfg).blocks x).domFrontier =
          ((List.range cfg.numBlocks).filter fun b => RecordsJoin cfg x b) ∧
        ((tccIrCfgComputeDomFrontiers cfg).blocks x).domFrontierCap =
          ((tccIrCfgComputeDomFrontiers cfg).blocks x).domFrontier.length := by
  unfold tccIrCfgComputeDomFrontiers
  rw [if_neg H.wellFormed.pos.ne']
  dsimp only
  obtain ⟨cfg₀, hcfg₀⟩ : ∃ c, c = { cfg with blocks := fun b =>
      { cfg.blocks b with
        domFrontierCap := 0, domFrontier := [], domChildrenCap := 0, domChildren := [] } } := ⟨_, rfl⟩
  have h₀ : SameTree cfg cfg₀ ∧ ∀ x, (cfg₀.blocks x).domFrontier = [] ∧
      (cfg₀.blocks x).domFrontierCap = 0 := by
    subst hcfg₀
    exact ⟨⟨⟨rfl, fun _ => rfl, fun _ => rfl⟩, fun _ => rfl⟩, fun _ => ⟨rfl, rfl⟩⟩
  rw [← hcfg₀]
  obtain ⟨cfg₁, hcfg₁⟩ : ∃ c, c = forRange (cfg.numBlocks - 1) (domChildStep false) cfg₀ := ⟨_, rfl⟩
  have h₁ := domChildStep_keeps false (cfg.numBlocks - 1) h₀
  rw [← hcfg₁] at h₁ ⊢
  obtain ⟨cfg₂, hcfg₂⟩ : ∃ c, c = forRange (cfg₁.numBlocks - 1) (domChildStep true) cfg₁ := ⟨_, rfl⟩
  have h₂ := domChildStep_keeps true (cfg₁.numBlocks - 1) h₁
  rw [← hcfg₂] at h₂ ⊢
  -- the counting pass leaves the lists empty
  have hcount := @cfgDfWalk_spec cfg₂ false (h₂.1.hasIdoms H) fun x => by
    simpa [DfRecorded] using (h₂.2 x).2
  have hempty : ∀ x, ((cfgDfWalk cfg₂ false).blocks x).domFrontier = [] := by
    refine cfgDfWalk_induction (fun c => ∀ x, (c.blocks x).domFrontier = []) ?_ fun x => (h₂.2 x).1
    intro b r st h x
    simp only [dfRecord, IRCFG.modifyBlock, update_apply]
    split
    · next hx => subst hx; exact h x
    · exact h x
  have hT := h₂.1.trans hcount.1
  have hfill := @cfgDfWalk_spec (cfgDfWalk cfg₂ false) true (hT.hasIdoms H) fun x => by
    simpa [DfRecorded] using hempty x
  have hcap : ∀ x, ((cfgDfWalk (cfgDfWalk cfg₂ false) true).blocks x).domFrontierCap =
      ((cfgDfWalk cfg₂ false).blocks x).domFrontierCap := by
    refine cfgDfWalk_induction (fun c => ∀ x, (c.blocks x).domFrontierCap =
      ((cfgDfWalk cfg₂ false).blocks x).domFrontierCap) ?_ fun x => rfl
    intro b r st h x
    simp only [dfRecord, IRCFG.modifyBlock, update_apply]
    split
    · next hx => subst hx; exact h x
    · exact h x
  refine ⟨hT.trans hfill.1, fun x => ?_⟩
  have hlist := hfill.2 x
  have hlen := hcount.2 x
  simp only [DfRecorded, if_true, Bool.false_eq_true, if_false, recordsJoin_congr hT,
    recordsJoin_congr h₂.1, hT.numBlocks, h₂.1.numBlocks] at hlist hlen
  exact ⟨hlist, by rw [hcap, hlen, hlist]⟩

end Walk

/-- The dominance frontier: what `b` dominates a reachable predecessor of, but not strictly. -/
def InFrontier (E : ℕ → ℕ → Prop) (r b y : ℕ) : Prop :=
  (∃ p, E p y ∧ Reachable E r p ∧ Dominates E r b p) ∧ ¬ StrictlyDominates E r b y

section Exact

variable {cfg : IRCFG}

theorem not_strictlyDominates_entry (E : ℕ → ℕ → Prop) (r b : ℕ) : ¬ StrictlyDominates E r b r :=
  fun h => h.2 (h.1.antisymm (dominates_root E r b) refl)

variable {x y : ℕ}

theorem two_le_preds_of_inFrontier (H : HasIdoms cfg) (hy : y ≠ 0) (h : InFrontier cfg.Edge 0 x y) :
    2 ≤ (cfg.blocks y).preds.length := by
  obtain ⟨⟨p, hpy, hp, hxp⟩, hns⟩ := h
  by_contra hlen
  have hmem := (H.wellFormed.pred_iff p y).mpr hpy
  have hone : ∀ q, cfg.Edge q y → q = p := by
    intro q hq
    have hq := (H.wellFormed.pred_iff q y).mpr hq
    obtain ⟨a, ha⟩ := List.length_eq_one_iff.mp
      (show (cfg.blocks y).preds.length = 1 by have := length_pos_of_mem hmem; omega)
    rw [ha, mem_singleton] at hq hmem
    rw [hq, hmem]
  have hall : ∀ z, Dominates cfg.Edge 0 z p → Dominates cfg.Edge 0 z y := fun z hz =>
    dominates_of_preds hy fun q hq _ => hone q hq ▸ hz
  have hxy : x = y := by
    by_contra hne
    exact hns ⟨hall x hxp, hne⟩
  -- but some predecessor is reached without passing the block
  have hyr : Reachable cfg.Edge 0 y := tail hp hpy
  obtain ⟨q, hqy, _, hnq⟩ := exists_pred_not_dominates hy hyr
  rw [hone q hqy] at hnq
  exact hnq (hxy ▸ hxp)

theorem recordsJoin_iff (H : HasIdoms cfg) (hy : y ≠ 0) :
    RecordsJoin cfg x y ↔ InFrontier cfg.Edge 0 x y := by
  have hclimb : ∀ {ib p}, IsIdom cfg.Edge 0 ib y → Reachable cfg.Edge 0 y →
      (OnClimb cfg ib p x ↔ Dominates cfg.Edge 0 x p ∧ ¬ StrictlyDominates cfg.Edge 0 x y) := by
    intro ib p hi hyr
    refine and_congr_right fun _ => not_congr ⟨fun h => ⟨h.trans hi.1.1, ?_⟩, fun h => hi.2 x h⟩
    rintro rfl
    exact hi.1.2 (hi.1.1.antisymm h hyr)
  constructor
  · rintro ⟨_, ib, hib, p, hp, hpr, hx⟩
    obtain ⟨hyr, hi⟩ := (H.idom_eq_some_iff hy).mp hib
    obtain ⟨hxp, hns⟩ := (hclimb hi hyr).mp hx
    exact ⟨⟨p, (H.wellFormed.pred_iff p y).mp hp, hpr, hxp⟩, hns⟩
  · intro h
    refine ⟨two_le_preds_of_inFrontier H hy h, ?_⟩
    obtain ⟨⟨p, hpy, hpr, hxp⟩, hns⟩ := h
    have hyr : Reachable cfg.Edge 0 y := tail hpr hpy
    obtain ⟨ib, hib, hi⟩ := H.idom y hy hyr
    exact ⟨ib, hib, p, (H.wellFormed.pred_iff p y).mpr hpy, hpr, (hclimb hi hyr).mpr ⟨hxp, hns⟩⟩

theorem mem_domFrontier_iff (H : HasIdoms cfg) {b : ℕ} :
    y ∈ ((tccIrCfgComputeDomFrontiers cfg).blocks b).domFrontier ↔
      y < cfg.numBlocks ∧ RecordsJoin cfg b y := by
  classical
  rw [((tccIrCfgComputeDomFrontiers_spec H).2 b).1, mem_filter, mem_range,
    decide_eq_true_eq]

theorem entry_not_mem_domFrontier (H : HasIdoms cfg) :
    y ∉ ((tccIrCfgComputeDomFrontiers cfg).blocks 0).domFrontier := by
  intro h
  obtain ⟨_, _, ib, _, _, _, _, hx⟩ := (mem_domFrontier_iff H).mp h
  exact hx.2 (dominates_root _ _ _)

theorem exists_dominators_of_build {ir : TCCIRState} (h : tccIrCfgBuild ir = .ok (some cfg)) :
    ∃ cfg₁ cfg₂, tccIrCfgComputeRpo cfg = some cfg₁ ∧ tccIrCfgComputeDominators cfg₁ = some cfg₂ ∧
      SameGraph cfg cfg₂ ∧ HasIdoms cfg₂ := by
  have W := tccIrCfgBuild_wellFormed h
  obtain ⟨cfg₁, h₁, hnum₁, hblk₁, _⟩ := tccIrCfgComputeRpo_spec W
  have hG₁ : SameGraph cfg cfg₁ := ⟨hnum₁, fun b => by rw [hblk₁], fun b => by rw [hblk₁]⟩
  obtain ⟨cfg₂, _, _, h₂, hG₂, H, _⟩ := tccIrCfgComputeDominators_spec (hG₁.wellFormed W)
    (fun b => by rw [hblk₁]; exact (tccIrCfgBuild_fresh h b).idom)
  exact ⟨cfg₁, cfg₂, h₁, h₂, hG₁.trans hG₂, H⟩

/-- The frontiers are the ones of the definition exactly when no reachable block leads back to the
entry block: the entry is never recorded in its own frontier. -/
theorem tccIrCfgComputeDomFrontiers_exact_iff {ir : TCCIRState}
    (h : tccIrCfgBuild ir = .ok (some cfg)) :
    ∃ cfg₁ cfg₂, tccIrCfgComputeRpo cfg = some cfg₁ ∧ tccIrCfgComputeDominators cfg₁ = some cfg₂ ∧
      ((∀ b, Reachable cfg.Edge 0 b →
          ((tccIrCfgComputeDomFrontiers cfg₂).blocks b).domFrontier.Nodup ∧
          ∀ y, y ∈ ((tccIrCfgComputeDomFrontiers cfg₂).blocks b).domFrontier ↔
            InFrontier cfg.Edge 0 b y) ↔
        ∀ p, cfg.Edge p 0 → ¬ Reachable cfg.Edge 0 p) := by
  obtain ⟨cfg₁, cfg₂, h₁, h₂, hG, H⟩ := exists_dominators_of_build h
  refine ⟨cfg₁, cfg₂, h₁, h₂, ?_⟩
  rw [← hG.edge]
  constructor
  · intro hexact p hp hpr
    have hin : InFrontier cfg₂.Edge 0 0 0 :=
      ⟨⟨p, hp, hpr, dominates_root _ _ _⟩, not_strictlyDominates_entry _ _ _⟩
    exact entry_not_mem_domFrontier H (((hexact 0 refl).2 0).mpr hin)
  · intro hno b _
    have hnodup : ((tccIrCfgComputeDomFrontiers cfg₂).blocks b).domFrontier.Nodup := by
      rw [((tccIrCfgComputeDomFrontiers_spec H).2 b).1]
      exact List.nodup_range.filter _
    refine ⟨hnodup, fun y => ?_⟩
    rw [mem_domFrontier_iff H]
    by_cases hy : y = 0
    · -- nothing reachable leads to the entry
      subst hy
      constructor
      · rintro ⟨_, _, _, _, p, hp, hpr, _⟩
        exact absurd hpr (hno p ((H.wellFormed.pred_iff p 0).mp hp))
      · rintro ⟨⟨p, hp, hpr, _⟩, _⟩
        exact absurd hpr (hno p hp)
    · rw [recordsJoin_iff H hy]
      refine ⟨fun h => h.2, fun h => ⟨?_, h⟩⟩
      obtain ⟨⟨p, hp, _⟩, _⟩ := h
      exact (H.wellFormed.edge_lt p y hp).2

theorem tccIrCfgComputeDomFrontiers_exact_twoEntryLoop :
    ∃ cfg cfg₁ cfg₂, tccIrCfgBuild twoEntryLoop = .ok (some cfg) ∧
      tccIrCfgComputeRpo cfg = some cfg₁ ∧ tccIrCfgComputeDominators cfg₁ = some cfg₂ ∧
      ∀ b, Reachable cfg.Edge 0 b →
        ((tccIrCfgComputeDomFrontiers cfg₂).blocks b).domFrontier.Nodup ∧
        ∀ y, y ∈ ((tccIrCfgComputeDomFrontiers cfg₂).blocks b).domFrontier ↔
          InFrontier cfg.Edge 0 b y := by
  obtain ⟨cfg, h, hpreds⟩ : ∃ cfg, tccIrCfgBuild twoEntryLoop = .ok (some cfg) ∧
      (cfg.blocks 0).preds = [] := ⟨_, rfl, rfl⟩
  obtain ⟨cfg₁, cfg₂, h₁, h₂, hiff⟩ := tccIrCfgComputeDomFrontiers_exact_iff h
  refine ⟨cfg, cfg₁, cfg₂, h, h₁, h₂, hiff.mpr fun p hp => ?_⟩
  rw [← (tccIrCfgBuild_wellFormed h).pred_iff, hpreds] at hp
  cases hp

def loopAtEntry : TCCIRState :=
  { compactInstructions :=
      [⟨.jumpif, 0, .int 0, .int 0x94, .none, .none⟩,
        ⟨.returnvoid, 1, .none, .none, .none, .none⟩] }

theorem loopAtEntry_frontier_misses_entry :
    ∃ cfg cfg₁ cfg₂, tccIrCfgBuild loopAtEntry = .ok (some cfg) ∧
      tccIrCfgComputeRpo cfg = some cfg₁ ∧ tccIrCfgComputeDominators cfg₁ = some cfg₂ ∧
      InFrontier cfg.Edge 0 0 0 ∧
      0 ∉ ((tccIrCfgComputeDomFrontiers cfg₂).blocks 0).domFrontier := by
  obtain ⟨cfg, h, hsuccs⟩ : ∃ cfg, tccIrCfgBuild loopAtEntry = .ok (some cfg) ∧
      0 ∈ (cfg.blocks 0).succs := ⟨_, rfl, by decide⟩
  obtain ⟨cfg₁, cfg₂, h₁, h₂, _, H⟩ := exists_dominators_of_build h
  exact ⟨cfg, cfg₁, cfg₂, h, h₁, h₂, ⟨⟨0, hsuccs, refl, dominates_refl _ _ _⟩,
    not_strictlyDominates_entry _ _ _⟩, entry_not_mem_domFrontier H⟩

end Exact

end Tinycc
