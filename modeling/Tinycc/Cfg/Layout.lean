import Tinycc.Cfg.DominatorsSound

namespace Tinycc
open Lib Flowgraph Relation Function Option

structure SameLayout (cfg cfg' : IRCFG) : Prop where
  numInstrs : cfg'.numInstrs = cfg.numInstrs
  instrToBlock : cfg'.instrToBlock = cfg.instrToBlock
  startIdx : ∀ b, (cfg'.blocks b).startIdx = (cfg.blocks b).startIdx
  endIdx : ∀ b, (cfg'.blocks b).endIdx = (cfg.blocks b).endIdx

section Layout

variable {cfg cfg' cfg'' : IRCFG}

theorem SameLayout.refl (cfg : IRCFG) : SameLayout cfg cfg :=
  ⟨rfl, rfl, fun _ => rfl, fun _ => rfl⟩

theorem SameLayout.trans (h : SameLayout cfg cfg') (h' : SameLayout cfg' cfg'') :
    SameLayout cfg cfg'' where
  numInstrs := h'.numInstrs.trans h.numInstrs
  instrToBlock := h'.instrToBlock.trans h.instrToBlock
  startIdx b := (h'.startIdx b).trans (h.startIdx b)
  endIdx b := (h'.endIdx b).trans (h.endIdx b)

theorem sameLayout_modifyBlock (cfg : IRCFG) (b : ℕ) {f : IRBasicBlock → IRBasicBlock}
    (hs : ∀ bb, (f bb).startIdx = bb.startIdx) (he : ∀ bb, (f bb).endIdx = bb.endIdx) :
    SameLayout cfg (cfg.modifyBlock b f) := by
  refine ⟨rfl, rfl, ?_, ?_⟩
  · intro c
    by_cases hc : c = b
    · subst hc
      simp only [IRCFG.modifyBlock, update_self, hs]
    · simp only [IRCFG.modifyBlock, update_of_ne hc]
  · intro c
    by_cases hc : c = b
    · subst hc
      simp only [IRCFG.modifyBlock, update_self, he]
    · simp only [IRCFG.modifyBlock, update_of_ne hc]

theorem sameLayout_computeRpo (h : tccIrCfgComputeRpo cfg = some cfg') : SameLayout cfg cfg' := by
  unfold tccIrCfgComputeRpo at h
  by_cases h0 : cfg.numBlocks = 0
  · rw [if_pos h0] at h
    cases h
    exact SameLayout.refl cfg
  · rw [if_neg h0] at h
    obtain ⟨st, _, hst⟩ := bind_eq_some_iff.mp h
    rw [← some.inj hst]
    refine forRange_induction (fun _ c => SameLayout cfg c) _ ?_ ?_
    · exact ⟨rfl, rfl, fun _ => rfl, fun _ => rfl⟩
    · intro i c _ hc
      apply hc.trans
      apply sameLayout_modifyBlock <;> intro bb <;> rfl

theorem sameLayout_sncaIdoms (h : sncaIdoms cfg = some cfg') : SameLayout cfg cfg' := by
  obtain ⟨dfs, _, h⟩ := bind_eq_some_iff.mp h
  obtain ⟨snca, _, h⟩ := bind_eq_some_iff.mp h
  obtain ⟨⟨pre, c⟩, hloop, hc⟩ := bind_eq_some_iff.mp h
  cases hc
  refine forRangeM_keeps (P := fun st : (ℕ → ℕ) × IRCFG => SameLayout cfg st.2) ?_ _
    (SameLayout.refl cfg) hloop
  intro t i t' ht hstep
  obtain ⟨a, _, ha⟩ := bind_eq_some_iff.mp hstep
  cases ha
  apply ht.trans
  dsimp only
  apply sameLayout_modifyBlock <;> intro bb <;> rfl

theorem sameLayout_domStamps (h : domStamps cfg = some cfg') : SameLayout cfg cfg' := by
  unfold domStamps at h
  split at h
  all_goals
    obtain ⟨st, _, hst⟩ := bind_eq_some_iff.mp h
    cases hst
    exact ⟨rfl, rfl, fun _ => rfl, fun _ => rfl⟩

theorem sameLayout_computeDominators (h : tccIrCfgComputeDominators cfg = some cfg') :
    SameLayout cfg cfg' := by
  unfold tccIrCfgComputeDominators at h
  by_cases h0 : cfg.numBlocks = 0
  · rw [if_pos h0] at h
    cases h
    exact SameLayout.refl cfg
  · rw [if_neg h0] at h
    obtain ⟨cfg₁, h₁, h⟩ := bind_eq_some_iff.mp h
    have hroot : SameLayout cfg₁ (cfg₁.modifyBlock 0 fun bb => { bb with idom := some 0 }) := by
      apply sameLayout_modifyBlock <;> intro bb <;> rfl
    apply ((sameLayout_computeRpo h₁).trans hroot).trans
    dsimp only at h
    split at h
    · obtain ⟨cfg₂, h₂, h⟩ := bind_eq_some_iff.mp h
      exact (sameLayout_sncaIdoms h₂).trans (sameLayout_domStamps h)
    · obtain ⟨cfg₂, h₂, h⟩ := bind_eq_some_iff.mp h
      cases h₂
      exact sameLayout_domStamps h

theorem SameLayout.isPartition {isLeader : ℕ → Bool} {n : ℕ} (h : SameLayout cfg cfg')
    (hnum : cfg'.numBlocks = cfg.numBlocks) (P : IsPartition isLeader n cfg) :
    IsPartition isLeader n cfg' where
  pos := hnum ▸ P.pos
  start_zero := (h.startIdx 0).trans P.start_zero
  next b hb := by
    rw [h.endIdx, h.startIdx]
    exact P.next b (hnum ▸ hb)
  end_last := by
    rw [h.endIdx, hnum]
    exact P.end_last
  start_lt_end b hb := by
    rw [h.startIdx, h.endIdx]
    exact P.start_lt_end b (hnum ▸ hb)
  index_lt j hj := by
    rw [h.instrToBlock, hnum]
    exact P.index_lt j hj
  start_le j hj := by
    rw [h.instrToBlock, h.startIdx]
    exact P.start_le j hj
  lt_end j hj := by
    rw [h.instrToBlock, h.endIdx]
    exact P.lt_end j hj
  leader j hj hl := by
    rw [h.instrToBlock, h.startIdx]
    exact P.leader j hj hl

end Layout

structure CfgOf (ir : TCCIRState) (cfg : IRCFG) : Prop where
  partition : IsPartition (cfgLeaders ir) ir.nextInstructionIndex cfg
  numInstrs : cfg.numInstrs = ir.nextInstructionIndex
  transfer : ∀ {i j : ℕ}, Transfer ir i j →
    (j = i + 1 ∧ cfg.instrToBlock j = cfg.instrToBlock i) ∨
      ((cfg.blocks (cfg.instrToBlock i)).endIdx = i + 1 ∧
        (cfg.blocks (cfg.instrToBlock j)).startIdx = j ∧
        cfg.Edge (cfg.instrToBlock i) (cfg.instrToBlock j))
  idoms : HasIdoms cfg

/-- The passes that the SSA optimizer runs on the graph. -/
def tccIrCfgWithDominators (ir : TCCIRState) : Option IRCFG :=
  match tccIrCfgBuild ir with
  | .ok (some cfg) => (tccIrCfgComputeRpo cfg).bind tccIrCfgComputeDominators
  | _ => none

theorem cfgOf_withDominators {ir : TCCIRState} {cfg : IRCFG}
    (h : tccIrCfgWithDominators ir = some cfg) : CfgOf ir cfg := by
  unfold tccIrCfgWithDominators at h
  split at h
  case h_2 => cases h
  case h_1 cfg₀ hb =>
    obtain ⟨cfg₁, h₁, h₂⟩ := bind_eq_some_iff.mp h
    have W := tccIrCfgBuild_wellFormed hb
    obtain ⟨cfg₁', h₁', hnum₁, hblk₁, _⟩ := tccIrCfgComputeRpo_spec W
    cases h₁.symm.trans h₁'
    have hG₁ : SameGraph cfg₀ cfg₁ := ⟨hnum₁, fun b => by rw [hblk₁], fun b => by rw [hblk₁]⟩
    obtain ⟨cfg₂', _, _, h₂', hG₂, H, _⟩ := tccIrCfgComputeDominators_spec (hG₁.wellFormed W)
      (fun b => by rw [hblk₁]; exact (tccIrCfgBuild_fresh hb b).idom)
    cases h₂.symm.trans h₂'
    have hG := hG₁.trans hG₂
    have hL := (sameLayout_computeRpo h₁).trans (sameLayout_computeDominators h₂)
    refine ⟨hL.isPartition hG.numBlocks (tccIrCfgBuild_isPartition hb),
      hL.numInstrs.trans (tccIrCfgBuild_numInstrs hb), ?_, H⟩
    intro i j ht
    rw [hL.instrToBlock, hL.startIdx, hL.endIdx, hG.edge]
    exact transfer_in_or_between hb ht

namespace CfgOf

variable {ir : TCCIRState} {cfg : IRCFG} {d i j : ℕ}

theorem transfer_lt (h : Transfer ir i j) :
    i < ir.nextInstructionIndex ∧ j < ir.nextInstructionIndex := by
  cases h
  case fallThrough h _ => exact ⟨by omega, h⟩
  all_goals exact ⟨‹_›, ‹_›⟩

/-- A path over the instructions that goes around `d` is before `d` in its block, or its blocks go
around that block. -/
theorem around (C : CfgOf ir cfg) (hd : d < ir.nextInstructionIndex) (h0 : 0 ≠ d)
    (h : Avoids (Transfer ir) d 0 i) :
    (cfg.instrToBlock i = cfg.instrToBlock d ∧ i < d) ∨
      (cfg.instrToBlock i ≠ cfg.instrToBlock d ∧ 0 ≠ cfg.instrToBlock d ∧
        Avoids cfg.Edge (cfg.instrToBlock d) 0 (cfg.instrToBlock i)) := by
  have P := C.partition
  have hblk0 : cfg.instrToBlock 0 = 0 := by
    have hlt := P.start_lt_end 0 P.pos
    exact P.instrToBlock_eq P.pos (le_of_eq P.start_zero) (by omega)
  induction h with
  | refl =>
    by_cases hb : cfg.instrToBlock d = 0
    · exact .inl ⟨hblk0.trans hb.symm, by omega⟩
    · rw [hblk0]
      exact .inr ⟨fun e => hb e.symm, fun e => hb e.symm, ReflTransGen.refl⟩
  | @tail j k _ hjk ih =>
    obtain ⟨htr, hkd⟩ := hjk
    rcases C.transfer htr with ⟨hk, hsame⟩ | ⟨hend, hstart, hedge⟩
    · -- inside a block the path goes on to the next instruction
      rw [hsame]
      rcases ih with ⟨hb, hlt⟩ | hout
      · exact .inl ⟨hb, by omega⟩
      · exact .inr hout
    · rcases ih with ⟨hb, hlt⟩ | ⟨hb, hne, hav⟩
      · have := P.lt_end d hd
        rw [hb] at hend
        omega
      · by_cases hkb : cfg.instrToBlock k = cfg.instrToBlock d
        · have := P.start_le d hd
          rw [hkb] at hstart
          exact .inl ⟨hkb, by omega⟩
        · exact .inr ⟨hkb, hne, ReflTransGen.tail hav ⟨hedge, hkb⟩⟩

theorem dominates (C : CfgOf ir cfg) (hd : d < ir.nextInstructionIndex)
    (hdom : Dominates cfg.Edge 0 (cfg.instrToBlock d) (cfg.instrToBlock i))
    (hord : cfg.instrToBlock i = cfg.instrToBlock d → d ≤ i) : Dominates (Transfer ir) 0 d i := by
  by_contra hn
  obtain ⟨h0, hav⟩ := not_dominates_iff.mp hn
  rcases C.around hd h0 hav with ⟨hb, hlt⟩ | ⟨_, hne, hout⟩
  · omega
  · exact not_dominates_iff.mpr ⟨hne, hout⟩ hdom

end CfgOf

/-- A step of control from one instruction to another; a computed goto may go anywhere. -/
inductive ControlStep (ir : TCCIRState) : ℕ → ℕ → Prop
  | transfer {i j : ℕ} : Transfer ir i j → ControlStep ir i j
  | ijump {i j : ℕ} : i < ir.nextInstructionIndex → j < ir.nextInstructionIndex →
      (ir.quad i).op = .ijump → ControlStep ir i j

def HasComputedGoto (ir : TCCIRState) : Prop :=
  ∃ i < ir.nextInstructionIndex, (ir.quad i).op = .ijump

theorem controlStep_eq_transfer {ir : TCCIRState} (h : ¬ HasComputedGoto ir) :
    ControlStep ir = Transfer ir := by
  funext i j
  refine propext ⟨?_, .transfer⟩
  rintro (hs | ⟨hi, _, hop⟩)
  · exact hs
  · exact absurd ⟨i, hi, hop⟩ h

/-- What the query says of two blocks holds of the control: every path to `i` goes through `d`. -/
def DominatesRight (ir : TCCIRState) (cfg : IRCFG) : Prop :=
  ∀ d < ir.nextInstructionIndex, ∀ i < ir.nextInstructionIndex,
    tccIrCfgDominates cfg (cfg.instrToBlock d) (cfg.instrToBlock i) = some true →
    (cfg.instrToBlock i = cfg.instrToBlock d → d ≤ i) → Dominates (ControlStep ir) 0 d i

theorem tccIrCfgDominates_control {ir : TCCIRState} {cfg₀ : IRCFG}
    (hb : tccIrCfgBuild ir = .ok (some cfg₀)) (hgoto : ¬ HasComputedGoto ir) :
    ∃ cfg, tccIrCfgWithDominators ir = some cfg ∧ DominatesRight ir cfg := by
  have W := tccIrCfgBuild_wellFormed hb
  obtain ⟨cfg₁, h₁, hnum₁, hblk₁, _⟩ := tccIrCfgComputeRpo_spec W
  have hG₁ : SameGraph cfg₀ cfg₁ := ⟨hnum₁, fun b => by rw [hblk₁], fun b => by rw [hblk₁]⟩
  obtain ⟨cfg, tin, tout, h₂, -, H, S, -⟩ := tccIrCfgComputeDominators_spec (hG₁.wellFormed W)
    (fun b => by rw [hblk₁]; exact (tccIrCfgBuild_fresh hb b).idom)
  have hcfg : tccIrCfgWithDominators ir = some cfg := by
    simp only [tccIrCfgWithDominators, hb, h₁, bind_some, h₂]
  have C := cfgOf_withDominators hcfg
  refine ⟨cfg, hcfg, fun d hd i hi hq hord => ?_⟩
  -- without computed gotos the edges of the graph are all the ways between blocks
  rw [controlStep_eq_transfer hgoto]
  refine C.dominates hd ?_ hord
  obtain ⟨r, hr, hiff⟩ := tccIrCfgDominates_of_stamps H S (C.partition.index_lt d hd)
    (C.partition.index_lt i hi)
  cases hq.symm.trans hr
  rcases hiff.mp rfl with heq | ⟨_, _, hdom⟩
  · rw [heq]
    exact dominates_refl _ _ _
  · exact hdom

theorem tccIrCfgDominates_control_twoEntryLoop :
    ∃ cfg, tccIrCfgWithDominators twoEntryLoop = some cfg ∧ DominatesRight twoEntryLoop cfg := by
  obtain ⟨cfg, h⟩ : ∃ cfg, tccIrCfgBuild twoEntryLoop = .ok (some cfg) := ⟨_, rfl⟩
  refine tccIrCfgDominates_control h ?_
  unfold HasComputedGoto
  decide

end Tinycc
