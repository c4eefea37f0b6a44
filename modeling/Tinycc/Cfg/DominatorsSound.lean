import Tinycc.Cfg.Stamps

namespace Tinycc
open Lib Flowgraph Relation Option ReflTransGen

structure HasIdoms (cfg : IRCFG) : Prop where
  wellFormed : cfg.WellFormed
  root : (cfg.blocks 0).idom = some 0
  idom : ∀ b, b ≠ 0 → Reachable cfg.Edge 0 b →
    ∃ d, (cfg.blocks b).idom = some d ∧ IsIdom cfg.Edge 0 d b
  unreachable : ∀ b, ¬ Reachable cfg.Edge 0 b → (cfg.blocks b).idom = none

section Tree

variable {cfg : IRCFG} {a b d : ℕ}

theorem IRCFG.WellFormed.reachable_lt (W : cfg.WellFormed) (h : Reachable cfg.Edge 0 b) :
    b < cfg.numBlocks := by
  rcases cases_tail h with rfl | ⟨p, _, hp⟩
  · exact W.pos
  · exact (W.edge_lt p b hp).2

section

variable (H : HasIdoms cfg)
include H

theorem HasIdoms.idom_eq_some_iff (hb : b ≠ 0) :
    (cfg.blocks b).idom = some d ↔ Reachable cfg.Edge 0 b ∧ IsIdom cfg.Edge 0 d b := by
  constructor
  · intro h
    have hr : Reachable cfg.Edge 0 b := by
      by_contra hr
      rw [H.unreachable b hr] at h
      cases h
    obtain ⟨d', hd', hi⟩ := H.idom b hb hr
    rw [h] at hd'
    cases hd'
    exact ⟨hr, hi⟩
  · rintro ⟨hr, hi⟩
    obtain ⟨d', hd', hi'⟩ := H.idom b hb hr
    rw [hd', IsIdom.unique hr hi' hi]

theorem domParent_eq_some_iff :
    domParent cfg b = some d ↔ b ≠ 0 ∧ Reachable cfg.Edge 0 b ∧ IsIdom cfg.Edge 0 d b := by
  unfold domParent
  by_cases hb : b = 0
  · simp only [hb, ne_eq, not_true_eq_false, false_and, if_false]
    split <;> simp
  · cases hi : (cfg.blocks b).idom with
    | none =>
      simp only [reduceCtorEq, false_iff]
      intro h
      rw [(H.idom_eq_some_iff hb).mpr h.2] at hi
      cases hi
    | some p =>
      obtain ⟨hr, hp⟩ := (H.idom_eq_some_iff hb).mp hi
      simp only [ne_eq, hb, not_false_eq_true, true_and, hp.1.2, if_true, Option.some.injEq]
      exact ⟨fun e => e ▸ ⟨hr, hp⟩, fun h => IsIdom.unique hr hp h.2⟩

theorem dominates_of_treeAnc (h : TreeAnc (domParent cfg) a b) :
    Dominates cfg.Edge 0 a b := by
  induction h with
  | refl => exact dominates_refl _ _ _
  | tail _ hc ih => exact ih.trans ((domParent_eq_some_iff H).mp hc).2.2.1.1

theorem treeAnc_of_dominates (hb : Reachable cfg.Edge 0 b)
    (h : Dominates cfg.Edge 0 a b) : TreeAnc (domParent cfg) a b := by
  induction hk : domRank cfg.Edge 0 (Finset.range cfg.numBlocks) b using Nat.strong_induction_on
    generalizing b with
  | _ k ih =>
    by_cases hb0 : b = 0
    · subst hb0
      rw [h.antisymm (dominates_root _ _ _) hb]
      exact ReflTransGen.refl
    · obtain ⟨d, hd, hi⟩ := H.idom b hb0 hb
      rcases hi.dominates_iff.mp h with rfl | had
      · exact ReflTransGen.refl
      · have hrd := hi.1.1.reachable hb
        have hlt := hi.1.domRank_lt hb (Finset.mem_range.mpr (H.wellFormed.reachable_lt hrd))
        exact ReflTransGen.tail (ih _ (hk ▸ hlt) hrd had rfl)
          ((domParent_eq_some_iff H).mpr ⟨hb0, hb, hi⟩)

theorem treeAnc_antisymm (hab : TreeAnc (domParent cfg) a b)
    (hba : TreeAnc (domParent cfg) b a) : a = b := by
  rcases cases_tail hab with e | ⟨p, _, hp⟩
  · exact e.symm
  · exact (dominates_of_treeAnc H hab).antisymm (dominates_of_treeAnc H hba)
      ((domParent_eq_some_iff H).mp hp).2.1

theorem treeAnc_zero_iff :
    TreeAnc (domParent cfg) 0 b ↔ Reachable cfg.Edge 0 b := by
  constructor
  · intro h
    rcases cases_tail h with rfl | ⟨p, _, hp⟩
    · exact ReflTransGen.refl
    · exact ((domParent_eq_some_iff H).mp hp).2.1
  · exact fun h => treeAnc_of_dominates H h (dominates_root _ _ _)

theorem domStamps_spec (hnodup : cfg.rpoOrder.Nodup)
    (hmem : ∀ b, b ∈ cfg.rpoOrder ↔ Reachable cfg.Edge 0 b) :
    ∃ tin tout, domStamps cfg =
        some { cfg with domTin := some tin, domTout := some tout, domDfsCount := cfg.numBlocks } ∧
      Stamped (domParent cfg) tin tout := by
  have A : ChildArrays cfg.numBlocks (domParent cfg) (domCstart cfg) (domChld cfg) := by
    refine childArrays_domChld hnodup ?_ fun a b => treeAnc_antisymm H
    intro b p hp
    obtain ⟨_, hr, hi⟩ := (domParent_eq_some_iff H).mp hp
    exact ⟨H.wellFormed.reachable_lt hr, H.wellFormed.reachable_lt (hi.1.1.reachable hr),
      (hmem b).mpr hr⟩
  obtain ⟨st, hst, S⟩ := stamp_loop A H.wellFormed.pos
  have hlen : 0 < cfg.rpoOrder.length :=
    List.length_pos_of_mem ((hmem 0).mpr ReflTransGen.refl)
  refine ⟨st.tin, st.tout, ?_, S⟩
  simp only [domStamps, hlen, if_true, hst, bind_eq_bind, bind_some]

theorem cfgDomWalk_spec (hb : Reachable cfg.Edge 0 b) {n : ℕ}
    (hn : domRank cfg.Edge 0 (Finset.range cfg.numBlocks) b < n) :
    ∃ r, cfgDomWalk cfg a n (some b) = some r ∧ (r = true ↔ Dominates cfg.Edge 0 a b) := by
  induction n generalizing b with
  | zero => omega
  | succ n ih =>
    unfold cfgDomWalk
    by_cases hba : b = a
    · rw [if_pos hba]
      exact ⟨true, rfl, by simp [hba, dominates_refl]⟩
    · rw [if_neg hba]
      by_cases hb0 : b = 0
      · subst hb0
        rw [if_pos H.root]
        refine ⟨_, rfl, ?_⟩
        simp only [decide_eq_true_eq, hba, false_iff]
        exact fun h => hba (h.antisymm (dominates_root _ _ _) hb).symm
      · obtain ⟨d, hd, hi⟩ := H.idom b hb0 hb
        have hrd := hi.1.1.reachable hb
        have hlt := hi.1.domRank_lt hb (Finset.mem_range.mpr (H.wellFormed.reachable_lt hrd))
        rw [hd, if_neg fun e => hi.1.2 (Option.some.inj e)]
        obtain ⟨r, hr, hiff⟩ := ih hrd (by omega)
        refine ⟨r, hr, hiff.trans ?_⟩
        rw [hi.dominates_iff]
        exact ⟨.inr, fun h => h.resolve_left fun e => hba e.symm⟩

theorem cfgDomWalk_of_unreachable (hb : ¬ Reachable cfg.Edge 0 b)
    (hba : b ≠ a) (n : ℕ) : cfgDomWalk cfg a (n + 2) (some b) = some false := by
  simp [cfgDomWalk, hba, H.unreachable b hb]

end

end Tree

structure HasStamps (cfg : IRCFG) (tin tout : ℕ → Option ℕ) : Prop where
  domTin : cfg.domTin = some tin
  domTout : cfg.domTout = some tout
  count : cfg.domDfsCount = cfg.numBlocks
  stamped : Stamped (domParent cfg) tin tout

section Query

variable {cfg : IRCFG} {a b : ℕ} {tin tout : ℕ → Option ℕ}

theorem tccIrCfgDominates_of_stamps (H : HasIdoms cfg) (S : HasStamps cfg tin tout)
    (ha : a < cfg.numBlocks) (hb : b < cfg.numBlocks) :
    ∃ r, tccIrCfgDominates cfg a b = some r ∧ (r = true ↔ a = b ∨
      (Reachable cfg.Edge 0 a ∧ Reachable cfg.Edge 0 b ∧ Dominates cfg.Edge 0 a b)) := by
  unfold tccIrCfgDominates
  rw [if_neg (by omega)]
  by_cases hab : a = b
  · exact ⟨true, by simp [hab], by simp [hab]⟩
  rw [if_neg (by omega)]
  have hvis : ∀ x, tin x ≠ none ↔ Reachable cfg.Edge 0 x := fun x =>
    (S.stamped.visited_iff x).trans (treeAnc_zero_iff H)
  simp only [S.domTin, S.domTout, S.count, Int.toNat_natCast]
  rw [if_pos ⟨by omega, by omega⟩]
  cases hta : tin a with
  | none =>
    refine ⟨false, rfl, ?_⟩
    simp only [Bool.false_eq_true, hab, false_or, false_iff]
    exact fun h => (hvis a).mpr h.1 hta
  | some ta =>
    cases htb : tin b with
    | none =>
      refine ⟨false, rfl, ?_⟩
      simp only [Bool.false_eq_true, hab, false_or, false_iff]
      exact fun h => (hvis b).mpr h.2.1 htb
    | some tb =>
      obtain ⟨oa, hoa⟩ := Option.ne_none_iff_exists'.mp (S.stamped.closed a (by simp [hta]))
      obtain ⟨ob, hob⟩ := Option.ne_none_iff_exists'.mp (S.stamped.closed b (by simp [htb]))
      have hra := (hvis a).mp (by simp [hta])
      have hrb := (hvis b).mp (by simp [htb])
      refine ⟨_, rfl, ?_⟩
      simp only [hoa, hob, hab, hra, hrb, false_or, true_and, Bool.and_eq_true, decide_eq_true_eq]
      rw [S.stamped.nested_iff a b ta tb oa ob hab hta htb hoa hob]
      exact ⟨dominates_of_treeAnc H, treeAnc_of_dominates H hrb⟩

theorem tccIrCfgDominates_of_walk (H : HasIdoms cfg) (hnone : cfg.domTin = none)
    (ha : a < cfg.numBlocks) (hb : b < cfg.numBlocks) :
    ∃ r, tccIrCfgDominates cfg a b = some r ∧ (r = true ↔ a = b ∨
      (Reachable cfg.Edge 0 a ∧ Reachable cfg.Edge 0 b ∧ Dominates cfg.Edge 0 a b)) := by
  unfold tccIrCfgDominates
  rw [if_neg (by omega)]
  by_cases hab : a = b
  · exact ⟨true, by simp [hab], by simp [hab]⟩
  rw [if_neg (by omega)]
  simp only [hnone, Int.toNat_natCast, hab, false_or]
  by_cases hrb : Reachable cfg.Edge 0 b
  · have hcard := @domRank_lt_card ℕ cfg.Edge 0 b _ (Finset.mem_range.mpr hb)
    rw [Finset.card_range] at hcard
    obtain ⟨r, hr, hiff⟩ := @cfgDomWalk_spec cfg a b H hrb (cfg.numBlocks + 1) (by omega)
    refine ⟨r, hr, hiff.trans ⟨fun h => ⟨h.reachable hrb, hrb, h⟩, fun h => h.2.2⟩⟩
  · obtain ⟨m, hm⟩ := Nat.exists_eq_succ_of_ne_zero H.wellFormed.pos.ne'
    refine ⟨false, ?_, by simp [hrb]⟩
    rw [hm]
    exact cfgDomWalk_of_unreachable H hrb (fun e => hab e.symm) m

end Query

section Compute

variable {cfg : IRCFG}

theorem reachable_zero_of_single (W : cfg.WellFormed) (h1 : ¬ 1 < cfg.numBlocks) {b : ℕ}
    (hb : Reachable cfg.Edge 0 b) : b = 0 := by
  have := W.reachable_lt hb
  omega

theorem tccIrCfgComputeDominators_spec (W : cfg.WellFormed)
    (hfresh : ∀ b, (cfg.blocks b).idom = none) :
    ∃ cfg' tin tout, tccIrCfgComputeDominators cfg = some cfg' ∧ SameGraph cfg cfg' ∧
      HasIdoms cfg' ∧ HasStamps cfg' tin tout ∧ cfg'.rpoOrder.Nodup ∧
      ∀ b, b ∈ cfg'.rpoOrder ↔ Reachable cfg.Edge 0 b := by
  obtain ⟨cfg₁, h₁, hnum₁, hblk₁, hnodup, hmem⟩ := tccIrCfgComputeRpo_spec W
  have hG₁ : SameGraph cfg cfg₁ :=
    ⟨hnum₁, fun b => by rw [hblk₁], fun b => by rw [hblk₁]⟩
  have hidom₁ : ∀ b, (cfg₁.blocks b).idom = none := by
    intro b
    rw [hblk₁]
    exact hfresh b
  -- the entry becomes its own dominator before the construction starts
  obtain ⟨cfg₂, hcfg₂⟩ : ∃ cfg₂, cfg₂ = cfg₁.modifyBlock 0 fun bb => { bb with idom := some 0 } :=
    ⟨_, rfl⟩
  have hG₂ : SameGraph cfg cfg₂ := by
    rw [hcfg₂]
    refine hG₁.trans (sameGraph_modifyBlock _ _ _ ?_ ?_) <;> exact fun _ => rfl
  have W₂ := hG₂.wellFormed W
  have hroot₂ : (cfg₂.blocks 0).idom = some 0 := by simp [hcfg₂, IRCFG.modifyBlock]
  have hidom₂ : ∀ b, b ≠ 0 → (cfg₂.blocks b).idom = none := by
    intro b hb
    simp only [hcfg₂, IRCFG.modifyBlock, Function.update_of_ne hb]
    exact hidom₁ b
  have hrpo₂ : cfg₂.rpoOrder = cfg₁.rpoOrder := by rw [hcfg₂]; rfl
  obtain ⟨cfg₃, h₃, hG₃, hrpo₃, H₃⟩ : ∃ cfg₃,
      (if 1 < cfg₂.numBlocks then sncaIdoms cfg₂ else some cfg₂) = some cfg₃ ∧
      SameGraph cfg₂ cfg₃ ∧ cfg₃.rpoOrder = cfg₂.rpoOrder ∧ HasIdoms cfg₃ := by
    by_cases h1 : 1 < cfg₂.numBlocks
    · obtain ⟨cfg₃, h₃, hG₃, hrpo₃, hid, hkept⟩ := sncaIdoms_spec W₂
      refine ⟨cfg₃, by rw [if_pos h1, h₃], hG₃, hrpo₃, hG₃.wellFormed W₂, ?_, ?_, ?_⟩
      · rw [hkept 0 (.inl rfl), hroot₂]
      · rw [hG₃.edge]
        exact hid
      · rw [hG₃.edge]
        intro b hb
        rw [hkept b (.inr hb)]
        exact hidom₂ b fun e => hb (e ▸ ReflTransGen.refl)
    · refine ⟨cfg₂, by rw [if_neg h1], SameGraph.refl _, rfl, W₂, hroot₂, ?_, ?_⟩
      · exact fun b hb hr => absurd (reachable_zero_of_single W₂ h1 hr) hb
      · exact fun b hb => hidom₂ b fun e => hb (e ▸ ReflTransGen.refl)
  have hG : SameGraph cfg cfg₃ := hG₂.trans hG₃
  have hrpo : cfg₃.rpoOrder = cfg₁.rpoOrder := hrpo₃.trans hrpo₂
  obtain ⟨tin, tout, hst, S⟩ := domStamps_spec H₃ (hrpo ▸ hnodup) (by rw [hrpo, hG.edge]; exact hmem)
  refine ⟨{ cfg₃ with domTin := some tin, domTout := some tout, domDfsCount := cfg₃.numBlocks },
    tin, tout, ?_, ⟨hG.numBlocks, hG.succs, hG.preds⟩,
    ⟨⟨H₃.wellFormed.pos, H₃.wellFormed.edge_lt, H₃.wellFormed.pred_iff⟩, H₃.root, H₃.idom,
      H₃.unreachable⟩, ⟨rfl, rfl, rfl, S⟩, hrpo ▸ hnodup, by rw [hrpo]; exact hmem⟩
  unfold tccIrCfgComputeDominators
  rw [if_neg W.pos.ne']
  simp only [h₁, bind_eq_bind, bind_some]
  rw [← hcfg₂]
  by_cases h1 : 1 < cfg₂.numBlocks
  · rw [if_pos h1] at h₃ ⊢
    rw [h₃]
    exact hst
  · rw [if_neg h1] at h₃ ⊢
    rw [Option.some.inj h₃]
    exact hst

/-- After both passes over the graph of a function the dominator tree is the one of the graph, and
both ways of asking for dominance answer by it. -/
theorem tccIrCfgComputeDominators_correct {ir : TCCIRState}
    (h : tccIrCfgBuild ir = .ok (some cfg)) :
    ∃ cfg₁ cfg₂, tccIrCfgComputeRpo cfg = some cfg₁ ∧ tccIrCfgComputeDominators cfg₁ = some cfg₂ ∧
      cfg₂.numBlocks = cfg.numBlocks ∧
      (∀ b < cfg.numBlocks, b ≠ 0 → Reachable cfg.Edge 0 b →
        ∃ d, (cfg₂.blocks b).idom = some d ∧ IsIdom cfg.Edge 0 d b ∧
          ∀ d', IsIdom cfg.Edge 0 d' b → d' = d) ∧
      (∀ b < cfg.numBlocks, ¬ Reachable cfg.Edge 0 b → (cfg₂.blocks b).idom = none) ∧
      (∀ a < cfg.numBlocks, ∀ b < cfg.numBlocks, ∃ r, tccIrCfgDominates cfg₂ a b = some r ∧
        (r = true ↔ a = b ∨
          (Reachable cfg.Edge 0 a ∧ Reachable cfg.Edge 0 b ∧ Dominates cfg.Edge 0 a b))) ∧
      (∀ a < cfg.numBlocks, ∀ b < cfg.numBlocks,
        tccIrCfgDominates { cfg₂ with domTin := none } a b = tccIrCfgDominates cfg₂ a b) := by
  have W := tccIrCfgBuild_wellFormed h
  obtain ⟨cfg₁, h₁, hnum₁, hblk₁, _⟩ := tccIrCfgComputeRpo_spec W
  have hG₁ : SameGraph cfg cfg₁ := ⟨hnum₁, fun b => by rw [hblk₁], fun b => by rw [hblk₁]⟩
  obtain ⟨cfg₂, tin, tout, h₂, hG₂, H, S, _⟩ := tccIrCfgComputeDominators_spec (hG₁.wellFormed W)
    (fun b => by rw [hblk₁]; exact (tccIrCfgBuild_fresh h b).idom)
  have hG := hG₁.trans hG₂
  have hedge := hG.edge
  refine ⟨cfg₁, cfg₂, h₁, h₂, hG.numBlocks, ?_, ?_, ?_, ?_⟩
  · intro b _ hb hr
    rw [← hedge] at hr ⊢
    obtain ⟨d, hd, hi⟩ := H.idom b hb hr
    exact ⟨d, hd, hi, fun d' hi' => IsIdom.unique hr hi' hi⟩
  · intro b _ hr
    rw [← hedge] at hr
    exact H.unreachable b hr
  · intro a ha b hb
    rw [← hedge]
    exact tccIrCfgDominates_of_stamps H S (hG.numBlocks ▸ ha) (hG.numBlocks ▸ hb)
  · intro a ha b hb
    -- without the stamps the answer comes from the walk up the tree
    have H' : HasIdoms { cfg₂ with domTin := none } :=
      ⟨⟨H.wellFormed.pos, H.wellFormed.edge_lt, H.wellFormed.pred_iff⟩, H.root, H.idom,
        H.unreachable⟩
    obtain ⟨r, hr, hiff⟩ :=
      tccIrCfgDominates_of_stamps H S (hG.numBlocks ▸ ha) (hG.numBlocks ▸ hb)
    obtain ⟨r', hr', hiff'⟩ :=
      tccIrCfgDominates_of_walk H' rfl (hG.numBlocks ▸ ha) (hG.numBlocks ▸ hb)
    rw [hr, hr', Bool.eq_iff_iff.mpr (hiff'.trans hiff.symm)]

def twoEntryLoop : TCCIRState :=
  -- the loop of blocks 1 and 3 has two entries, and nothing leads to block 2
  { compactInstructions :=
      [⟨.jumpif, 0, .int 3, .int 0x94, .none, .none⟩,
        ⟨.jump, 1, .int 3, .none, .none, .none⟩,
        ⟨.returnvoid, 2, .none, .none, .none, .none⟩,
        ⟨.jumpif, 3, .int 1, .int 0x95, .none, .none⟩,
        ⟨.returnvoid, 4, .none, .none, .none, .none⟩] }

theorem tccIrCfgComputeDominators_correct_twoEntryLoop :
    ∃ cfg cfg₁ cfg₂, tccIrCfgBuild twoEntryLoop = .ok (some cfg) ∧
      tccIrCfgComputeRpo cfg = some cfg₁ ∧ tccIrCfgComputeDominators cfg₁ = some cfg₂ ∧
      ∀ a < cfg.numBlocks, ∀ b < cfg.numBlocks,
        tccIrCfgDominates { cfg₂ with domTin := none } a b = tccIrCfgDominates cfg₂ a b := by
  obtain ⟨cfg, h⟩ : ∃ cfg, tccIrCfgBuild twoEntryLoop = .ok (some cfg) := ⟨_, rfl⟩
  obtain ⟨cfg₁, cfg₂, h₁, h₂, _, _, _, _, hagree⟩ := tccIrCfgComputeDominators_correct h
  exact ⟨cfg, cfg₁, cfg₂, h, h₁, h₂, hagree⟩

end Compute

end Tinycc
