import Tinycc.Cfg.Edges

namespace Tinycc
open Lib List

section Partition

variable {isLeader : ℕ → Bool} {n : ℕ} {cfg : IRCFG}

section

variable (P : IsPartition isLeader n cfg)
include P

theorem IsPartition.start_mono {b c : ℕ} (hbc : b < c)
    (hc : c < cfg.numBlocks) : (cfg.blocks b).endIdx ≤ (cfg.blocks c).startIdx := by
  induction c with
  | zero => omega
  | succ c ih =>
    have hnext := P.next c hc
    rcases Nat.lt_succ_iff_lt_or_eq.mp hbc with hlt | rfl
    · have h2 := P.start_lt_end c (by omega)
      omega
    · exact hnext.le

theorem IsPartition.end_le {b : ℕ} (hb : b < cfg.numBlocks) :
    (cfg.blocks b).endIdx ≤ n := by
  have hlast := P.end_last
  rcases Nat.lt_or_ge b (cfg.numBlocks - 1) with hlt | hge
  · have h1 := P.start_mono hlt (by omega)
    have h2 := P.start_lt_end (cfg.numBlocks - 1) (by omega)
    omega
  · rw [show b = cfg.numBlocks - 1 by omega, hlast]

theorem IsPartition.instrToBlock_eq {b j : ℕ}
    (hb : b < cfg.numBlocks) (hs : (cfg.blocks b).startIdx ≤ j) (he : j < (cfg.blocks b).endIdx) :
    cfg.instrToBlock j = b := by
  have hj := he.trans_le (P.end_le hb)
  have h1 := P.index_lt j hj
  have h2 := P.start_le j hj
  have h3 := P.lt_end j hj
  rcases lt_trichotomy (cfg.instrToBlock j) b with hlt | heq | hgt
  · have := P.start_mono hlt hb
    omega
  · exact heq
  · have := P.start_mono hgt h1
    omega

theorem IsPartition.end_eq {i : ℕ} (hi : i < n)
    (hl : i + 1 < n → isLeader (i + 1) = true) :
    (cfg.blocks (cfg.instrToBlock i)).endIdx = i + 1 := by
  have hb := P.index_lt i hi
  have hlt := P.lt_end i hi
  have hle := P.end_le hb
  by_contra hne
  have hn : i + 1 < n := by omega
  have heq : cfg.instrToBlock (i + 1) = cfg.instrToBlock i :=
    P.instrToBlock_eq hb (by have := P.start_le i hi; omega) (by omega)
  have hstart := P.leader (i + 1) hn (hl hn)
  have := P.start_le i hi
  rw [heq] at hstart
  omega

theorem IsPartition.next_block {i : ℕ} (hi : i + 1 < n)
    (he : (cfg.blocks (cfg.instrToBlock i)).endIdx = i + 1) :
    cfg.instrToBlock i + 1 < cfg.numBlocks ∧
      cfg.instrToBlock (i + 1) = cfg.instrToBlock i + 1 ∧
      (cfg.blocks (cfg.instrToBlock i + 1)).startIdx = i + 1 := by
  have hb := P.index_lt i (by omega)
  have hnb : cfg.instrToBlock i + 1 < cfg.numBlocks := by
    by_contra hge
    have hlast := P.end_last
    rw [show cfg.numBlocks - 1 = cfg.instrToBlock i by omega] at hlast
    omega
  have hs := P.next _ hnb
  have hse := P.start_lt_end _ hnb
  exact ⟨hnb, P.instrToBlock_eq hnb (by omega) (by omega), by omega⟩

end

end Partition

def fallsThrough (q : IRQuadCompact) : Bool :=
  !(q.op = .jump || q.op = .switchTable || q.op = .returnvalue || q.op = .returnvoid ||
    q.op = .ijump || cfgInstrEndsFlow q)

/-- A transfer of control from one instruction to another at run time, computed gotos apart. -/
inductive Transfer (ir : TCCIRState) : ℕ → ℕ → Prop
  | fallThrough {i : ℕ} : i + 1 < ir.nextInstructionIndex → fallsThrough (ir.quad i) = true →
      Transfer ir i (i + 1)
  | jump {i j : ℕ} : i < ir.nextInstructionIndex → j < ir.nextInstructionIndex →
      (ir.quad i).op = .jump → (ir.quad i).getDest.getImmInt = j → Transfer ir i j
  | jumpif {i j : ℕ} : i < ir.nextInstructionIndex → j < ir.nextInstructionIndex →
      (ir.quad i).op = .jumpif → (ir.quad i).getDest.getImmInt = j → Transfer ir i j
  | switchTable {i j : ℕ} {table : TCCIRSwitchTable} :
      i < ir.nextInstructionIndex → j < ir.nextInstructionIndex → (ir.quad i).op = .switchTable →
      TCCIRState.lookup ir.switchTables (ir.quad i).getSrc2.getImmInt = some table →
      (j : ℤ) ∈ table.targets → Transfer ir i j
  | asmGoto {i j : ℕ} : i < ir.nextInstructionIndex → j < ir.nextInstructionIndex →
      (ir.quad i).op = .inlineAsm → (j : ℤ) ∈ ir.asmGotoTargets (ir.quad i) → Transfer ir i j

section Build

variable {ir : TCCIRState} {cfg : IRCFG} {i j : ℕ}

section

variable (h : tccIrCfgBuild ir = .ok (some cfg))
include h

theorem tccIrCfgBuild_eq :
    0 < ir.nextInstructionIndex ∧
      cfg = ((cfgCreateBlocks ir.nextInstructionIndex (cfgLeaders ir)).counted ir
        (cfgCreateBlocks ir.nextInstructionIndex (cfgLeaders ir)).numBlocks).filled ir
        (cfgCreateBlocks ir.nextInstructionIndex (cfgLeaders ir)).numBlocks := by
  unfold tccIrCfgBuild at h
  dsimp only at h
  split at h
  · cases h
  · next hn =>
    split at h
    · cases h
    · have he := Option.some.inj (Except.ok.inj h)
      have hno := noEdges_create (cfgLeaders ir) ir.nextInstructionIndex
      have hc := cfgBuildEdges_false ir (fun b => ⟨(hno b).1, (hno b).2.1⟩)
      rw [hc, cfgBuildEdges_true] at he
      · exact ⟨Nat.pos_of_ne_zero hn, he.symm⟩
      · exact fun b => (hno b).2.2

theorem tccIrCfgBuild_isPartition :
    IsPartition (cfgLeaders ir) ir.nextInstructionIndex cfg := by
  obtain ⟨hn, rfl⟩ := tccIrCfgBuild_eq h
  have P := isPartition_create (cfgLeaders_zero ir) hn
  exact ⟨P.pos, P.start_zero, P.next, P.end_last, P.start_lt_end, P.index_lt, P.start_le,
    P.lt_end, P.leader⟩

theorem tccIrCfgBuild_numInstrs :
    cfg.numInstrs = ir.nextInstructionIndex := by
  obtain ⟨_, rfl⟩ := tccIrCfgBuild_eq h
  refine forRange_induction (fun _ (cfg : IRCFG) => cfg.numInstrs = ir.nextInstructionIndex)
    _ rfl ?_
  intro i cfg _ hcfg
  cases hl : cfgLeaders ir i <;> simpa [cfgCreateStep, hl, IRCFG.modifyBlock] using hcfg

theorem tccIrCfgBuild_fresh (b : ℕ) :
    (cfg.blocks b).Fresh := by
  obtain ⟨hn, rfl⟩ := tccIrCfgBuild_eq h
  have hf := fresh_create (cfgLeaders_zero ir) hn b
  exact ⟨hf.idom, hf.rpoNumber⟩

theorem tccIrCfgBuild_succs (b : ℕ) :
    (cfg.blocks b).succs =
      if b < cfg.numBlocks then (cfgTargets ir cfg b).foldl appendNew [] else [] := by
  obtain ⟨_, rfl⟩ := tccIrCfgBuild_eq h
  rfl

theorem tccIrCfgBuild_preds (b : ℕ) :
    (cfg.blocks b).preds = (List.range cfg.numBlocks).flatMap fun p =>
      List.replicate ((cfgTargets ir cfg p).count b) p := by
  obtain ⟨_, rfl⟩ := tccIrCfgBuild_eq h
  rfl

theorem tccIrCfgBuild_caps (b : ℕ) :
    (cfg.blocks b).succsCap = (if b < cfg.numBlocks then (cfgTargets ir cfg b).length else 0) ∧
      (cfg.blocks b).predsCap =
        ((List.range cfg.numBlocks).flatMap (cfgTargets ir cfg)).count b := by
  obtain ⟨_, rfl⟩ := tccIrCfgBuild_eq h
  exact ⟨rfl, rfl⟩

theorem cfgTargets_lt {b d : ℕ}
    (hd : d ∈ cfgTargets ir cfg b) : d < cfg.numBlocks := by
  have P := tccIrCfgBuild_isPartition h
  have hn := tccIrCfgBuild_numInstrs h
  unfold cfgTargets at hd
  split at hd
  · simp at hd
  · rcases List.mem_append.mp hd with hd | hd
    · obtain ⟨t, _, ht⟩ := List.mem_filterMap.mp hd
      unfold IRCFG.blockOf at ht
      split at ht
      · cases ht
        exact P.index_lt _ (by omega)
      · cases ht
    · split at hd
      · simp at hd
      · unfold IRCFG.nextBlock at hd
        split at hd
        · simp only [mem_singleton] at hd
          omega
        · simp at hd

theorem mem_succs_iff {p s : ℕ} :
    s ∈ (cfg.blocks p).succs ↔ p < cfg.numBlocks ∧ s ∈ cfgTargets ir cfg p := by
  rw [tccIrCfgBuild_succs h]
  split
  · next hp => simp [mem_foldl_appendNew, hp]
  · next hp => simp [hp]

theorem mem_preds_iff {p s : ℕ} :
    p ∈ (cfg.blocks s).preds ↔ p < cfg.numBlocks ∧ s ∈ cfgTargets ir cfg p := by
  rw [tccIrCfgBuild_preds h]
  simp only [mem_flatMap, mem_range, mem_replicate, ne_eq, count_eq_zero,
    not_not]
  constructor
  · rintro ⟨p', hp', hs, rfl⟩
    exact ⟨hp', hs⟩
  · rintro ⟨hp, hs⟩
    exact ⟨p, hp, hs, rfl⟩

theorem count_preds {p : ℕ} (hp : p < cfg.numBlocks)
    (s : ℕ) : (cfg.blocks s).preds.count p = (cfgTargets ir cfg p).count s := by
  rw [tccIrCfgBuild_preds h, count_flatMap]
  have hf : (List.count p ∘ fun q => List.replicate ((cfgTargets ir cfg q).count s) q) =
      fun q => if q = p then (cfgTargets ir cfg p).count s else 0 := by
    funext q
    rw [Function.comp_apply, count_replicate]
    by_cases hq : q = p <;> simp [hq]
  rw [hf]
  generalize (cfgTargets ir cfg p).count s = c
  have key : ∀ k, ((List.range k).map fun q => if q = p then c else 0).sum =
      if p < k then c else 0 := by
    intro k
    induction k with
    | zero => simp
    | succ k ih =>
      rw [range_succ, map_append, sum_append, ih]
      rcases lt_trichotomy p k with hlt | rfl | hgt
      · simp [hlt, hlt.ne', hlt.trans (Nat.lt_succ_self k)]
      · simp
      · simp [hgt.ne, hgt.not_gt, (Nat.succ_le_of_lt hgt).not_gt]
  rw [key, if_pos hp]

end

theorem asmGotoTargets_first {q : IRQuadCompact} {t : ℤ} (h : t ∈ ir.asmGotoTargets q) :
    0 ≤ ir.asmGotoTarget q 0 := by
  unfold TCCIRState.asmGotoTargets at h
  cases hc : ir.asmLabelCount q with
  | zero => simp [hc] at h
  | succ c =>
    rw [hc, range_succ_eq_map, map_cons] at h
    by_contra hneg
    rw [takeWhile_cons_of_neg (by simpa using hneg)] at h
    simp at h

theorem Transfer.cases (h : Transfer ir i j) :
    (j = i + 1 ∧ j < ir.nextInstructionIndex ∧ fallsThrough (ir.quad i) = true) ∨
      (i < ir.nextInstructionIndex ∧ j < ir.nextInstructionIndex ∧
        (j : ℤ) ∈ explicitTargets ir (ir.quad i) ∧ cfgInstrEndsBlock ir (ir.quad i) = true) := by
  cases h with
  | fallThrough hi hf => exact .inl ⟨rfl, hi, hf⟩
  | jump hi hj hop ht => exact .inr ⟨hi, hj, by simp [explicitTargets, hop, ht],
      by simp [cfgInstrEndsBlock, hop]⟩
  | jumpif hi hj hop ht => exact .inr ⟨hi, hj, by simp [explicitTargets, hop, ht],
      by simp [cfgInstrEndsBlock, hop]⟩
  | switchTable hi hj hop ht hm => exact .inr ⟨hi, hj, by simp [explicitTargets, hop, ht, hm],
      by simp [cfgInstrEndsBlock, hop]⟩
  | asmGoto hi hj hop hm => exact .inr ⟨hi, hj, by simp [explicitTargets, hop, hm],
      by simp [cfgInstrEndsBlock, hop, asmGotoTargets_first hm]⟩

/-- A transfer stays inside a block by falling through, or goes from the last instruction of a
block along an edge to the first instruction of a block. -/
theorem transfer_in_or_between (h : tccIrCfgBuild ir = .ok (some cfg)) (ht : Transfer ir i j) :
    (j = i + 1 ∧ cfg.instrToBlock j = cfg.instrToBlock i) ∨
      ((cfg.blocks (cfg.instrToBlock i)).endIdx = i + 1 ∧
        (cfg.blocks (cfg.instrToBlock j)).startIdx = j ∧
        cfg.instrToBlock j ∈ (cfg.blocks (cfg.instrToBlock i)).succs) := by
  have P := tccIrCfgBuild_isPartition h
  have hn := tccIrCfgBuild_numInstrs h
  have hstart := P.start_lt_end
  rcases ht.cases with ⟨rfl, hj, hf⟩ | ⟨hi, hj, hm, hends⟩
  · have hi : i < ir.nextInstructionIndex := by omega
    by_cases he : (cfg.blocks (cfg.instrToBlock i)).endIdx = i + 1
    · obtain ⟨hnb, hidx, hs⟩ := P.next_block hj he
      refine .inr ⟨he, by rw [hidx, hs], ?_⟩
      rw [mem_succs_iff h, hidx]
      refine ⟨P.index_lt i hi, ?_⟩
      have hlt := hstart _ (P.index_lt i hi)
      rw [cfgTargets, if_neg (by omega)]
      simp only [he, Nat.add_sub_cancel]
      refine mem_append_right _ ?_
      rw [if_neg (by simpa [fallsThrough, and_assoc] using hf), IRCFG.nextBlock, if_pos hnb]
      exact mem_singleton_self _
    · have hlt := P.lt_end i hi
      have hle := P.start_le i hi
      exact .inl ⟨rfl, P.instrToBlock_eq (P.index_lt i hi) (by omega) (by omega)⟩
  · have he := P.end_eq hi fun hlt => cfgLeaders_endsBlock hlt hends
    have hl := cfgLeaders_explicitTarget hi (Int.natCast_nonneg j) (by omega) hm
    refine .inr ⟨he, P.leader j hj (by simpa using hl), ?_⟩
    rw [mem_succs_iff h]
    refine ⟨P.index_lt i hi, ?_⟩
    have hlt := hstart _ (P.index_lt i hi)
    rw [cfgTargets, if_neg (by omega)]
    simp only [he, Nat.add_sub_cancel]
    refine mem_append_left _ (List.mem_filterMap.mpr ⟨j, hm, ?_⟩)
    simp [IRCFG.blockOf, hn, hj]

/-- The partition, its edges and the sizes reserved for them. -/
theorem tccIrCfgBuild_sound (h : tccIrCfgBuild ir = .ok (some cfg)) :
    IsPartition (cfgLeaders ir) ir.nextInstructionIndex cfg ∧
    (∀ i j, Transfer ir i j →
      (j = i + 1 ∧ cfg.instrToBlock j = cfg.instrToBlock i) ∨
      ((cfg.blocks (cfg.instrToBlock i)).endIdx = i + 1 ∧
        (cfg.blocks (cfg.instrToBlock j)).startIdx = j ∧
        cfg.instrToBlock j ∈ (cfg.blocks (cfg.instrToBlock i)).succs)) ∧
    (∀ p s, s ∈ (cfg.blocks p).succs ↔ p ∈ (cfg.blocks s).preds) ∧
    (∀ b, (cfg.blocks b).succs.Nodup) ∧
    (∀ p < cfg.numBlocks, ∀ s,
      (cfg.blocks s).preds.count p = (cfgTargets ir cfg p).count s) ∧
    (∀ b, (cfg.blocks b).succs.length ≤ (cfg.blocks b).succsCap ∧
      (cfg.blocks b).preds.length ≤ (cfg.blocks b).predsCap) := by
  refine ⟨tccIrCfgBuild_isPartition h, fun i j => transfer_in_or_between h, ?_, ?_,
    fun p hp s => count_preds h hp s, ?_⟩
  · intro p s
    rw [mem_succs_iff h, mem_preds_iff h]
  · intro b
    rw [tccIrCfgBuild_succs h]
    split
    · exact nodup_foldl_appendNew nodup_nil
    · exact nodup_nil
  · intro b
    obtain ⟨hs, hp⟩ := tccIrCfgBuild_caps h b
    refine ⟨?_, ?_⟩
    · rw [tccIrCfgBuild_succs h, hs]
      split
      · simpa using @length_foldl_appendNew_le ℕ _ (cfgTargets ir cfg b) []
      · simp
    · rw [tccIrCfgBuild_preds h, hp, count_flatMap]
      simp [Function.comp_def]

/-- A conditional branch to the next instruction: both of its ways lead to one block. -/
def branchToNext : TCCIRState :=
  { compactInstructions :=
      [⟨.jumpif, 0, .int 1, .int 0x94, .none, .none⟩,
        ⟨.returnvoid, 1, .none, .none, .none, .none⟩] }

theorem tccIrCfgBuild_sound_branchToNext :
    ∃ cfg, tccIrCfgBuild branchToNext = .ok (some cfg) ∧
      IsPartition (cfgLeaders branchToNext) 2 cfg ∧
      (∀ p s, s ∈ (cfg.blocks p).succs ↔ p ∈ (cfg.blocks s).preds) := by
  obtain ⟨cfg, h⟩ : ∃ cfg, tccIrCfgBuild branchToNext = .ok (some cfg) := ⟨_, rfl⟩
  have hs := tccIrCfgBuild_sound h
  exact ⟨cfg, h, hs.1, hs.2.2.1⟩

/-- The block is listed once as a successor and twice as a predecessor. -/
theorem branchToNext_preds_twice :
    ∃ cfg, tccIrCfgBuild branchToNext = .ok (some cfg) ∧
      (cfg.blocks 0).succs = [1] ∧ (cfg.blocks 1).preds = [0, 0] :=
  ⟨_, rfl, by decide, by decide⟩

end Build

end Tinycc
