import Tinycc.Cfg.Build

namespace Tinycc
open Lib Function

def explicitTargets (ir : TCCIRState) (q : IRQuadCompact) : List ℤ :=
  if q.op = .jump ∨ q.op = .jumpif then [q.getDest.getImmInt]
  else if q.op = .inlineAsm then ir.asmGotoTargets q
  else if q.op = .switchTable then
    match TCCIRState.lookup ir.switchTables q.getSrc2.getImmInt with
    | some table => table.targets
    | none => []
  else []

section Leaders

variable {ir : TCCIRState} {isLeader : ℕ → Bool} {i j : ℕ} {t : ℤ}

theorem markLeader_mono (h : isLeader j = true) (t : ℤ) : markLeader ir isLeader t j = true := by
  unfold markLeader
  split
  · rw [update_apply]
    split
    · rfl
    · exact h
  · exact h

theorem markLeader_self (h0 : 0 ≤ t) (hn : t < ir.nextInstructionIndex) :
    markLeader ir isLeader t t.toNat = true := by
  simp [markLeader, h0, hn]

theorem foldl_markLeader_mono (ts : List ℤ) :
    ∀ {isLeader : ℕ → Bool}, isLeader j = true → ts.foldl (markLeader ir) isLeader j = true := by
  induction ts with
  | nil => exact fun h => h
  | cons t ts ih => exact fun h => ih (markLeader_mono h t)

theorem foldl_markLeader_mem (ts : List ℤ) (h0 : 0 ≤ t) (hn : t < ir.nextInstructionIndex)
    (ht : t ∈ ts) :
    ∀ {isLeader : ℕ → Bool}, ts.foldl (markLeader ir) isLeader t.toNat = true := by
  induction ts with
  | nil => simp at ht
  | cons u ts ih =>
    intro isLeader
    rcases List.mem_cons.mp ht with rfl | ht
    · exact foldl_markLeader_mono ts (markLeader_self h0 hn)
    · exact ih ht

def leaderTargets (ir : TCCIRState) (i : ℕ) : List ℤ :=
  let q := ir.quad i
  (if q.op = .inlineAsm then ir.asmGotoTargets q else []) ++
    (if q.op = .jump ∨ q.op = .jumpif then [q.getDest.getImmInt] else []) ++
    (if q.op = .switchTable then
      match TCCIRState.lookup ir.switchTables q.getSrc2.getImmInt with
      | some table => table.targets ++ [table.defaultTarget]
      | none => []
    else []) ++
    (if cfgInstrEndsBlock ir q then [(i : ℤ) + 1] else [])

theorem cfgLeaderStep_eq (ir : TCCIRState) (isLeader : ℕ → Bool) (i : ℕ) :
    cfgLeaderStep ir isLeader i = (leaderTargets ir i).foldl (markLeader ir) isLeader := by
  simp only [cfgLeaderStep, leaderTargets, List.foldl_append]
  split <;> split <;> split <;> split <;> (try split) <;> simp_all [List.foldl_append]

theorem explicitTargets_subset (ht : t ∈ explicitTargets ir (ir.quad i)) :
    t ∈ leaderTargets ir i := by
  unfold explicitTargets at ht
  unfold leaderTargets
  split at ht
  · simp_all
  · split at ht
    · simp_all
    · split at ht
      · cases h : TCCIRState.lookup ir.switchTables (ir.quad i).getSrc2.getImmInt <;> simp_all
      · simp at ht

theorem cfgLeaders_zero (ir : TCCIRState) : cfgLeaders ir 0 = true := by
  refine forRange_induction (fun _ (l : ℕ → Bool) => l 0 = true) _ (by simp) ?_
  intro i l _ h
  rw [cfgLeaderStep_eq]
  exact foldl_markLeader_mono _ h

theorem cfgLeaders_of_mem (hi : i < ir.nextInstructionIndex) (h0 : 0 ≤ t)
    (hn : t < ir.nextInstructionIndex) (ht : t ∈ leaderTargets ir i) :
    cfgLeaders ir t.toNat = true := by
  refine forRange_induction (fun k (l : ℕ → Bool) => i < k → l t.toNat = true)
    _ (by simp) ?_ hi
  intro k l _ ih hk
  rw [cfgLeaderStep_eq]
  rcases Nat.lt_succ_iff_lt_or_eq.mp hk with hlt | rfl
  · exact foldl_markLeader_mono _ (ih hlt)
  · exact foldl_markLeader_mem _ h0 hn ht

theorem cfgLeaders_explicitTarget (hi : i < ir.nextInstructionIndex) (h0 : 0 ≤ t)
    (hn : t < ir.nextInstructionIndex) (ht : t ∈ explicitTargets ir (ir.quad i)) :
    cfgLeaders ir t.toNat = true :=
  cfgLeaders_of_mem hi h0 hn (explicitTargets_subset ht)

theorem cfgLeaders_endsBlock (hi : i + 1 < ir.nextInstructionIndex)
    (h : cfgInstrEndsBlock ir (ir.quad i) = true) : cfgLeaders ir (i + 1) = true := by
  have hm : (i : ℤ) + 1 ∈ leaderTargets ir i := by simp [leaderTargets, h]
  exact cfgLeaders_of_mem (by omega) (by omega) (by omega) hm

end Leaders

section Blocks

variable {isLeader : ℕ → Bool} {i n : ℕ} {cfg : IRCFG}

structure IRBasicBlock.Fresh (bb : IRBasicBlock) : Prop where
  idom : bb.idom = none
  rpoNumber : bb.rpoNumber = none

structure PartialPartition (isLeader : ℕ → Bool) (i : ℕ) (cfg : IRCFG) : Prop where
  pos : 0 < i → 0 < cfg.numBlocks
  start_zero : 0 < i → (cfg.blocks 0).startIdx = 0
  start_lt : ∀ b < cfg.numBlocks, (cfg.blocks b).startIdx < i
  next : ∀ b, b + 1 < cfg.numBlocks → (cfg.blocks b).endIdx = (cfg.blocks (b + 1)).startIdx
  start_lt_next : ∀ b, b + 1 < cfg.numBlocks →
    (cfg.blocks b).startIdx < (cfg.blocks (b + 1)).startIdx
  index_lt : ∀ j < i, cfg.instrToBlock j < cfg.numBlocks
  start_le : ∀ j < i, (cfg.blocks (cfg.instrToBlock j)).startIdx ≤ j
  lt_next : ∀ j < i, cfg.instrToBlock j + 1 < cfg.numBlocks →
    j < (cfg.blocks (cfg.instrToBlock j + 1)).startIdx
  leader : ∀ j < i, isLeader j = true → (cfg.blocks (cfg.instrToBlock j)).startIdx = j
  fresh : ∀ b, (cfg.blocks b).Fresh

theorem partialPartition_init (isLeader : ℕ → Bool) (n : ℕ) :
    PartialPartition isLeader 0 (IRCFG.init n) := by
  constructor <;> simp [IRCFG.init]
  exact ⟨rfl, rfl⟩

theorem cfgCreateStep_of_not (h : isLeader i = false) :
    cfgCreateStep isLeader cfg i =
      { cfg with instrToBlock := update cfg.instrToBlock i (cfg.numBlocks - 1) } := by
  simp [cfgCreateStep, h]

theorem partialPartition_step_of_not (h : isLeader i = false) (h0 : 0 < i)
    (P : PartialPartition isLeader i cfg) :
    PartialPartition isLeader (i + 1) (cfgCreateStep isLeader cfg i) := by
  rw [cfgCreateStep_of_not h]
  have hpos := P.pos h0
  constructor
  case pos => exact fun _ => hpos
  case start_zero => exact fun _ => P.start_zero h0
  case start_lt => exact fun b hb => (P.start_lt b hb).trans (Nat.lt_succ_self i)
  case next => exact P.next
  case start_lt_next => exact P.start_lt_next
  case fresh => exact P.fresh
  case index_lt =>
    intro j hj
    rcases Nat.lt_succ_iff_lt_or_eq.mp hj with hlt | rfl
    · simpa [hlt.ne] using P.index_lt j hlt
    · simp only [update_self]
      omega
  case start_le =>
    intro j hj
    rcases Nat.lt_succ_iff_lt_or_eq.mp hj with hlt | rfl
    · simpa [hlt.ne] using P.start_le j hlt
    · simpa using (P.start_lt (cfg.numBlocks - 1) (by omega)).le
  case lt_next =>
    intro j hj
    rcases Nat.lt_succ_iff_lt_or_eq.mp hj with hlt | rfl
    · simpa [hlt.ne] using P.lt_next j hlt
    · simp only [update_self]
      omega
  case leader =>
    intro j hj hl
    rcases Nat.lt_succ_iff_lt_or_eq.mp hj with hlt | rfl
    · simpa [hlt.ne] using P.leader j hlt hl
    · simp [h] at hl

section

variable (h : isLeader i = true)
include h

theorem cfgCreateStep_blocks (b : ℕ) :
    (cfgCreateStep isLeader cfg i).blocks b =
      if b = cfg.numBlocks then
        { cfg.blocks b with startIdx := i, idom := none, rpoNumber := none }
      else if b + 1 = cfg.numBlocks then { cfg.blocks b with endIdx := i }
      else cfg.blocks b := by
  simp only [cfgCreateStep, h, IRCFG.modifyBlock, if_true, Nat.add_sub_cancel,
    update_apply]
  split
  · next hb =>
    subst hb
    split
    · next hb =>
      rw [← hb, if_neg (by omega)]
    · rfl
  · split
    · next hb =>
      subst hb
      rw [if_pos (by omega), if_pos (by omega)]
    · rw [if_neg (by omega)]

theorem cfgCreateStep_numBlocks :
    (cfgCreateStep isLeader cfg i).numBlocks = cfg.numBlocks + 1 := by
  simp [cfgCreateStep, h, IRCFG.modifyBlock]

theorem cfgCreateStep_instrToBlock :
    (cfgCreateStep isLeader cfg i).instrToBlock =
      update cfg.instrToBlock i cfg.numBlocks := by
  simp [cfgCreateStep, h, IRCFG.modifyBlock]

theorem cfgCreateStep_startIdx (b : ℕ) :
    ((cfgCreateStep isLeader cfg i).blocks b).startIdx =
      if b = cfg.numBlocks then i else (cfg.blocks b).startIdx := by
  rw [cfgCreateStep_blocks h]
  split
  · rfl
  · split <;> rfl

theorem partialPartition_step (P : PartialPartition isLeader i cfg) :
    PartialPartition isLeader (i + 1) (cfgCreateStep isLeader cfg i) := by
  -- at a leader the last block is closed and a new one starts
  have hnb : ∀ b < cfg.numBlocks, b ≠ cfg.numBlocks := fun b hb => hb.ne
  constructor <;> try simp only [cfgCreateStep_numBlocks h, cfgCreateStep_instrToBlock h,
    cfgCreateStep_startIdx h]
  case pos => omega
  case start_zero =>
    intro _
    split
    · next h0 =>
      rcases Nat.eq_zero_or_pos i with rfl | hi
      · rfl
      · exact absurd h0 (P.pos hi).ne
    · next h0 =>
      refine P.start_zero ?_
      have := P.start_lt 0 (by omega)
      omega
  case start_lt =>
    intro b hb
    split
    · omega
    · have := P.start_lt b (by omega)
      omega
  case next =>
    intro b hb
    rw [cfgCreateStep_blocks h, if_neg (by omega)]
    by_cases hlast : b + 1 = cfg.numBlocks
    · simp [hlast]
    · simpa [hlast] using P.next b (by omega)
  case start_lt_next =>
    intro b hb
    rw [if_neg (by omega)]
    split
    · exact P.start_lt b (by omega)
    · exact P.start_lt_next b (by omega)
  case index_lt =>
    intro j hj
    rcases Nat.lt_succ_iff_lt_or_eq.mp hj with hlt | rfl
    · have := P.index_lt j hlt
      rw [update_of_ne hlt.ne]
      omega
    · simp
  case start_le =>
    intro j hj
    rcases Nat.lt_succ_iff_lt_or_eq.mp hj with hlt | rfl
    · rw [update_of_ne hlt.ne, if_neg (hnb _ (P.index_lt j hlt))]
      exact P.start_le j hlt
    · simp
  case lt_next =>
    intro j hj
    rcases Nat.lt_succ_iff_lt_or_eq.mp hj with hlt | rfl
    · rw [update_of_ne hlt.ne]
      intro _
      split
      · exact hlt
      · exact P.lt_next j hlt (by omega)
    · simp
  case leader =>
    intro j hj hl
    rcases Nat.lt_succ_iff_lt_or_eq.mp hj with hlt | rfl
    · rw [update_of_ne hlt.ne, if_neg (hnb _ (P.index_lt j hlt))]
      exact P.leader j hlt hl
    · simp
  case fresh =>
    intro b
    rw [cfgCreateStep_blocks h]
    split
    · exact ⟨rfl, rfl⟩
    · have hf := P.fresh b
      split
      · exact ⟨hf.idom, hf.rpoNumber⟩
      · exact hf

end

/-- The blocks are consecutive, non-empty, cover the instructions and start at every leader. -/
structure IsPartition (isLeader : ℕ → Bool) (n : ℕ) (cfg : IRCFG) : Prop where
  pos : 0 < cfg.numBlocks
  start_zero : (cfg.blocks 0).startIdx = 0
  next : ∀ b, b + 1 < cfg.numBlocks → (cfg.blocks b).endIdx = (cfg.blocks (b + 1)).startIdx
  end_last : (cfg.blocks (cfg.numBlocks - 1)).endIdx = n
  start_lt_end : ∀ b < cfg.numBlocks, (cfg.blocks b).startIdx < (cfg.blocks b).endIdx
  index_lt : ∀ j < n, cfg.instrToBlock j < cfg.numBlocks
  start_le : ∀ j < n, (cfg.blocks (cfg.instrToBlock j)).startIdx ≤ j
  lt_end : ∀ j < n, j < (cfg.blocks (cfg.instrToBlock j)).endIdx
  leader : ∀ j < n, isLeader j = true → (cfg.blocks (cfg.instrToBlock j)).startIdx = j

theorem partialPartition_create (h0 : isLeader 0 = true) (n : ℕ) :
    PartialPartition isLeader n (forRange n (cfgCreateStep isLeader) (IRCFG.init n)) := by
  refine forRange_induction (PartialPartition isLeader) n (partialPartition_init isLeader n) ?_
  intro i cfg _ P
  cases hl : isLeader i with
  | true => exact partialPartition_step hl P
  | false =>
    refine partialPartition_step_of_not hl ?_ P
    rcases Nat.eq_zero_or_pos i with rfl | hi
    · simp [h0] at hl
    · exact hi

theorem cfgCreateBlocks_blocks (hpos : 0 < (cfgCreateBlocks n isLeader).numBlocks) (b : ℕ) :
    (cfgCreateBlocks n isLeader).blocks b =
      let cfg := forRange n (cfgCreateStep isLeader) (IRCFG.init n)
      if b + 1 = cfg.numBlocks then { cfg.blocks b with endIdx := n } else cfg.blocks b := by
  simp only [cfgCreateBlocks, IRCFG.modifyBlock] at hpos ⊢
  rw [update_apply]
  split
  · next hb => rw [if_pos (by omega), ← hb]
  · rw [if_neg (by omega)]

theorem isPartition_create (h0 : isLeader 0 = true) (hn : 0 < n) :
    IsPartition isLeader n (cfgCreateBlocks n isLeader) := by
  have P := partialPartition_create h0 n
  have hpos : 0 < (cfgCreateBlocks n isLeader).numBlocks := P.pos hn
  have hnum : (cfgCreateBlocks n isLeader).numBlocks =
    (forRange n (cfgCreateStep isLeader) (IRCFG.init n)).numBlocks := rfl
  have hidx : (cfgCreateBlocks n isLeader).instrToBlock =
    (forRange n (cfgCreateStep isLeader) (IRCFG.init n)).instrToBlock := rfl
  have hb := cfgCreateBlocks_blocks hpos
  generalize forRange n (cfgCreateStep isLeader) (IRCFG.init n) = cfg at *
  have hs : ∀ b, ((cfgCreateBlocks n isLeader).blocks b).startIdx = (cfg.blocks b).startIdx := by
    intro b
    rw [hb]
    dsimp only
    split <;> rfl
  have he : ∀ b, b + 1 < cfg.numBlocks →
      ((cfgCreateBlocks n isLeader).blocks b).endIdx = (cfg.blocks b).endIdx := by
    intro b hlt
    rw [hb]
    exact congrArg _ (if_neg hlt.ne)
  have hlast : ∀ b, b + 1 = cfg.numBlocks →
      ((cfgCreateBlocks n isLeader).blocks b).endIdx = n := by
    intro b hlt
    rw [hb]
    simp [hlt]
  have hbound : ∀ j < n, j < ((cfgCreateBlocks n isLeader).blocks (cfg.instrToBlock j)).endIdx := by
    intro j hj
    have hlt := P.index_lt j hj
    rcases Nat.lt_or_ge (cfg.instrToBlock j + 1) cfg.numBlocks with hnx | hnx
    · rw [he _ hnx, P.next _ hnx]
      exact P.lt_next j hj hnx
    · rw [hlast _ (by omega)]
      exact hj
  constructor
  case pos => exact hpos
  case start_zero => rw [hs]; exact P.start_zero hn
  case next =>
    intro b hlt
    rw [hnum] at hlt
    rw [he b hlt, hs]
    exact P.next b hlt
  case end_last => exact hlast _ (by omega)
  case start_lt_end =>
    intro b hlt
    rw [hnum] at hlt
    rw [hs]
    rcases Nat.lt_or_ge (b + 1) cfg.numBlocks with hnx | hnx
    · rw [he b hnx, P.next b hnx]
      exact P.start_lt_next b hnx
    · rw [hlast b (by omega)]
      exact P.start_lt b hlt
  case index_lt => rw [hnum, hidx]; exact P.index_lt
  case start_le => simp only [hidx, hs]; exact P.start_le
  case lt_end => rw [hidx]; exact hbound
  case leader => simp only [hidx, hs]; exact P.leader

def IRCFG.NoEdges (cfg : IRCFG) : Prop :=
  ∀ b, (cfg.blocks b).succsCap = 0 ∧ (cfg.blocks b).predsCap = 0 ∧
    (cfg.blocks b).succs = [] ∧ (cfg.blocks b).preds = []

theorem noEdges_modifyBlock {f : IRBasicBlock → IRBasicBlock} (h : cfg.NoEdges) (b : ℕ)
    (hf : ∀ bb, (f bb).succsCap = bb.succsCap ∧ (f bb).predsCap = bb.predsCap ∧
      (f bb).succs = bb.succs ∧ (f bb).preds = bb.preds) : (cfg.modifyBlock b f).NoEdges := by
  intro x
  simp only [IRCFG.modifyBlock, update_apply]
  split
  · obtain ⟨h1, h2, h3, h4⟩ := hf (cfg.blocks b)
    rw [h1, h2, h3, h4]
    exact h b
  · exact h x

theorem noEdges_create (isLeader : ℕ → Bool) (n : ℕ) : (cfgCreateBlocks n isLeader).NoEdges := by
  have hloop : (forRange n (cfgCreateStep isLeader) (IRCFG.init n)).NoEdges := by
    refine forRange_induction (fun _ => IRCFG.NoEdges) n (by simp [IRCFG.NoEdges, IRCFG.init]) ?_
    intro i cfg _ h
    cases hl : isLeader i with
    | false => rw [cfgCreateStep_of_not hl]; exact h
    | true =>
      intro b
      rw [cfgCreateStep_blocks hl]
      split
      · exact h b
      · split <;> exact h b
  unfold cfgCreateBlocks
  apply noEdges_modifyBlock hloop
  intro bb
  split <;> exact ⟨rfl, rfl, rfl, rfl⟩

theorem fresh_create (h0 : isLeader 0 = true) (hn : 0 < n) (b : ℕ) :
    ((cfgCreateBlocks n isLeader).blocks b).Fresh := by
  have P := partialPartition_create h0 n
  have hf := P.fresh b
  rw [cfgCreateBlocks_blocks (P.pos hn)]
  dsimp only
  split
  · exact ⟨hf.idom, hf.rpoNumber⟩
  · exact hf

end Blocks

end Tinycc
