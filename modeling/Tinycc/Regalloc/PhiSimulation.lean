import Tinycc.Regalloc.PhiLayout
import Mathlib.Tactic.IntervalCases

namespace Tinycc
open Lib Function List Option IrSem
open Relation (ReflTransGen)

section Conditions

variable {tok : BitVec 32}

theorem raInvertCond_eq (tok : BitVec 32) : raInvertCond tok = tok ^^^ 1#32 := by
  unfold raInvertCond
  repeat' split
  all_goals first | rfl | (next h => rw [h]; rfl)

theorem condPassed_invert {code : ℕ} (h : code ≤ 0xd) (f : Nzcv) :
    condPassed (code ^^^ 1) f = !condPassed code f := by
  obtain ⟨n, z, c, v⟩ := f
  interval_cases code <;> cases n <;> cases z <;> cases c <;> cases v <;> rfl

theorem mapcc_eq_none (h : 160 ≤ tok.toNat) : mapcc tok = none := by
  have hne : ∀ c : BitVec 32, c.toNat < 160 → tok ≠ c := fun c hc e => by
    rw [e] at h
    omega
  unfold mapcc
  rw [if_neg (by omega)]
  repeat rw [if_neg (hne _ (by decide))]

theorem mapcc_small : ∀ k < 160, (∀ code ∈ mapcc (BitVec.ofNat 32 k), code ≤ 0xd) ∧
    mapcc (BitVec.ofNat 32 k ^^^ 1#32) = (mapcc (BitVec.ofNat 32 k)).map (· ^^^ 1) := by
  decide +kernel

theorem mapcc_invert (tok : BitVec 32) : (∀ code ∈ mapcc tok, code ≤ 0xd) ∧
    mapcc (tok ^^^ 1#32) = (mapcc tok).map (· ^^^ 1) := by
  rcases Nat.lt_or_ge tok.toNat 160 with h | h
  · have := mapcc_small tok.toNat h
    rwa [BitVec.ofNat_toNat] at this
  · have hhalf : (tok ^^^ 1#32).toNat / 2 = tok.toNat / 2 := by
      rw [BitVec.toNat_xor, Nat.xor_div_two]
      simp
    rw [mapcc_eq_none h, mapcc_eq_none (by omega)]
    exact ⟨fun _ h => (by cases h), rfl⟩

theorem jumpTaken_invert (tok : BitVec 32) (f : Nzcv) :
    jumpTaken (raInvertCond tok) f = (jumpTaken tok f).map (!·) := by
  obtain ⟨hle, hmap⟩ := mapcc_invert tok
  rw [raInvertCond_eq, jumpTaken, jumpTaken, hmap]
  cases hm : mapcc tok with
  | none => rfl
  | some code => exact congrArg some (condPassed_invert (hle code hm) f)

end Conditions

section Immediates

variable {op : IROperand} {v u : BitVec 32}

theorem getImm32_of_imm32 (h : op.data = .imm32 v) : op.getImm32 = v := by
  unfold IROperand.getImm32 IROperand.getImm64
  rw [h]
  apply BitVec.eq_of_getLsbD_eq
  intro i hi
  rw [BitVec.getLsbD_setWidth, BitVec.getLsbD_signExtend]
  simp [hi, show i < 64 by omega]

theorem getImmInt_of_imm32 (h : op.data = .imm32 v) : op.getImmInt = v.toInt := by
  rw [IROperand.getImmInt_eq, getImm32_of_imm32 h]

theorem setImm32_data (h : op.data = .imm32 v) : (op.setImm32 u).data = .imm32 u := by
  unfold IROperand.setImm32
  rw [h]

theorem toInt_ofInt_of_fits {z : ℤ} (h1 : -0x80000000 ≤ z) (h2 : z < 0x80000000) :
    (BitVec.ofInt 32 z).toInt = z := by
  rw [BitVec.toInt_ofInt]
  exact Int.bmod_eq_of_le_mul_two (by push_cast; omega) (by push_cast; omega)

end Immediates

def CodeAt (instrs : List IRQuadCompact) (pos : ℕ) (qs : List IRQuadCompact) : Prop :=
  ∀ k q, qs[k]? = some q → instrs[pos + k]? = some q

section CodeAt

variable {instrs qs qs' : List IRQuadCompact} {q : IRQuadCompact} {pos : ℕ}

theorem CodeAt.left (h : CodeAt instrs pos (qs ++ qs')) : CodeAt instrs pos qs := by
  intro k q hk
  apply h k q
  rw [List.getElem?_append_left (List.getElem?_eq_some_iff.mp hk).1]
  exact hk

theorem CodeAt.right (h : CodeAt instrs pos (qs ++ qs')) : CodeAt instrs (pos + qs.length) qs' := by
  intro k q hk
  have := h (qs.length + k) q
  rw [List.getElem?_append_right (Nat.le_add_right _ _), Nat.add_sub_cancel_left] at this
  rw [Nat.add_assoc]
  exact this hk

theorem CodeAt.head (h : CodeAt instrs pos (q :: qs)) : instrs[pos]? = some q := h 0 q rfl

theorem CodeAt.tail (h : CodeAt instrs pos (q :: qs)) : CodeAt instrs (pos + 1) qs :=
  CodeAt.right (show CodeAt instrs pos ([q] ++ qs) from h)

theorem quad_of_getElem? {ir : TCCIRState} (h : ir.compactInstructions[pos]? = some q) :
    pos < ir.nextInstructionIndex ∧ ir.quad pos = q :=
  ⟨(List.getElem?_eq_some_iff.mp h).1, by rw [TCCIRState.quad, List.getD_eq_getElem?_getD, h]; rfl⟩

end CodeAt

/-- An `ASSIGN` between vregs hands the value on and does nothing else. -/
def CopiesValues {Val World : Type} (sem : IrSem Val World) : Prop :=
  ∀ d s b σ w, sem.exec (phiCopyQuad d s b) σ w = .ok (update σ d (σ s), w)

section Run

variable {Val World : Type} {sem : IrSem Val World} {ir : TCCIRState}

theorem flatMachine_phiCopy (hsem : CopiesValues sem) {pos : ℕ} {d s : Vreg} {b : IropBtype}
    (h : ir.compactInstructions[pos]? = some (phiCopyQuad d s b)) (τ : Vreg → Val) (w : World) :
    sem.flatMachine ir ⟨pos, τ, w⟩ = .inl ⟨pos + 1, execAssign τ (phiCopyQuad d s b), w⟩ := by
  obtain ⟨hlt, hq⟩ := quad_of_getElem? h
  have heffect : sem.effect (ir.quad pos) τ w = .ok (update τ d (τ s), w) := by
    rw [hq, effect_of_not_branch rfl, hsem]
  have hcontrol : sem.control ir pos (update τ d (τ s)) w = some ((pos : ℤ) + 1) := by
    unfold IrSem.control
    rw [hq]
    rfl
  rw [IrSem.flatMachine, machine_of_ok hlt heffect, hcontrol]
  rfl

theorem runs_phiCopies (hsem : CopiesValues sem) {qs : List IRQuadCompact}
    (hform : ∀ q ∈ qs, ∃ d s b, q = phiCopyQuad d s b) {pos : ℕ}
    (h : CodeAt ir.compactInstructions pos qs) (τ : Vreg → Val) (w : World) :
    (sem.flatMachine ir).Runs (fun u => u.world = w) qs.length ⟨pos, τ, w⟩
      ⟨pos + qs.length, execAssigns τ qs, w⟩ := by
  induction qs generalizing pos τ with
  | nil => exact .refl _
  | cons q qs ih =>
    obtain ⟨d, s, b, rfl⟩ := hform q mem_cons_self
    have hstep := flatMachine_phiCopy hsem h.head τ w
    have hrest := ih (fun q hq => hform q (mem_cons_of_mem _ hq)) h.tail
      (execAssign τ (phiCopyQuad d s b))
    rw [length_cons, Nat.add_comm qs.length, ← Nat.add_assoc]
    exact (Machine.Runs.one (P := fun u => u.world = w) hstep rfl).trans hrest

end Run

/-- The instruction is a `SWITCH_TABLE` that control can come to. -/
def SwitchAt (ir : TCCIRState) (i : ℕ) : Prop :=
  i < ir.nextInstructionIndex ∧ (ir.quad i).op = .switchTable ∧ ReflTransGen (Transfer ir) 0 i

/-- A phi that needs a copy at the end of the block `p`, into a vreg that is not its operand. -/
def IRPhiNode.Changes (phi : IRPhiNode) (p : ℕ) : Prop :=
  ∃ s, phi.operandFor p = some s ∧ s ≠ phi.destVreg

/-- What a `SWITCH_TABLE` needs, as the copies of all its edges stand in front of it: if there are
copies its table stays inside the function, its index is no phi destination that a copy changes, and
none of one target is live at another. -/
structure SwitchSafe {Val World : Type} (sem : IrSem Val World) (ir : TCCIRState) (cfg : IRCFG)
    (ssa : IRSSAState) : Prop where
  target : (∃ b < cfg.numBlocks, copiesPerBlock cfg ssa b ≠ 0) → ∀ i, SwitchAt ir i →
    ∀ table, TCCIRState.lookup ir.switchTables (ir.quad i).getSrc2.getImmInt = some table →
      ∀ t ∈ table.targets, t < ir.nextInstructionIndex
  index : ∀ i, SwitchAt ir i → ∀ b < cfg.numBlocks, ∀ phi ∈ ssa.blockPhis b,
    phi.Changes (cfg.instrToBlock i) → phi.destVreg ∉ sem.uses (ir.quad i)
  live : ∀ i, SwitchAt ir i → ∀ j, Transfer ir i j → ∀ b < cfg.numBlocks,
    b ≠ cfg.instrToBlock j → ∀ phi ∈ ssa.blockPhis b, phi.Changes (cfg.instrToBlock i) →
      ¬ LiveAt sem ir cfg ssa phi.destVreg j

/-- The place of an old instruction: where its block's code begins and as many instructions on, or
past the end. -/
def newIndex (ir : TCCIRState) (cfg : IRCFG) (codes : List (List IRQuadCompact)) (i : ℕ) : ℕ :=
  if i < ir.nextInstructionIndex then
    codeOffset codes (cfg.instrToBlock i) + (i - (cfg.blocks (cfg.instrToBlock i)).startIdx)
  else codes.flatten.length + (i - ir.nextInstructionIndex)

/-- A resolved function with everything its correctness depends on. -/
structure ResolveCtx {Val World : Type} (sem : IrSem Val World) (ir : TCCIRState) (cfg : IRCFG)
    (ssa : IRSSAState) (next : ℕ) (st : RaResolve) (codes : List (List IRQuadCompact)) : Prop where
  build : tccIrCfgBuild ir = .ok (some cfg)
  isSsa : IsSsa sem ir cfg ssa next
  copies : CopiesValues sem
  copied : ∃ b < cfg.numBlocks, copiesPerBlock cfg ssa b ≠ 0
  safe : SwitchSafe sem ir cfg ssa
  resolved : Resolved ir cfg ssa next st codes
  length : codes.length = cfg.numBlocks
  fits : st.wp < 0x80000000

section Layout

variable {Val World : Type} {sem : IrSem Val World} {ir : TCCIRState} {cfg : IRCFG}
  {ssa : IRSSAState} {next : ℕ} {st : RaResolve} {codes : List (List IRQuadCompact)} {b i j : ℕ}
  {code : List IRQuadCompact}

theorem codeOffset_succ (h : codes[b]? = some code) :
    codeOffset codes (b + 1) = codeOffset codes b + code.length := by
  rw [codeOffset, codeOffset, take_add_one, h, flatten_append]
  simp

theorem codeAt_code (h : codes[b]? = some code) (f : IRQuadCompact → IRQuadCompact) :
    CodeAt (codes.flatten.map f) (codeOffset codes b) (code.map f) := by
  intro k q hk
  obtain ⟨hb, hcode⟩ := List.getElem?_eq_some_iff.mp h
  have hsplit : codes.flatten =
      (codes.take b).flatten ++ (code ++ (codes.drop (b + 1)).flatten) := by
    rw [← flatten_cons, ← flatten_append, ← hcode, getElem_cons_drop,
      take_append_drop]
  have hk' : k < code.length := by
    have := (List.getElem?_eq_some_iff.mp hk).1
    rwa [length_map] at this
  rw [List.getElem?_map] at hk ⊢
  rw [codeOffset, hsplit, List.getElem?_append_right (Nat.le_add_right _ _),
    Nat.add_sub_cancel_left, List.getElem?_append_left hk']
  exact hk

variable (K : ResolveCtx sem ir cfg ssa next st codes)
include K

theorem ResolveCtx.partition : IsPartition (cfgLeaders ir) ir.nextInstructionIndex cfg :=
  tccIrCfgBuild_isPartition K.build

theorem ResolveCtx.wp_eq : st.wp = codes.flatten.length := by
  rw [RaResolve.wp, K.resolved.instrs]

theorem ResolveCtx.nextInstructionIndex :
    (raFixTargets ir st).nextInstructionIndex = codes.flatten.length := by
  rw [TCCIRState.nextInstructionIndex, raFixTargets, length_map, K.resolved.instrs]

theorem ResolveCtx.exists_code (hb : b < cfg.numBlocks) : ∃ code, codes[b]? = some code :=
  ⟨_, List.getElem?_eq_getElem (by rw [K.length]; exact hb)⟩

theorem ResolveCtx.codeAt (hb : codes[b]? = some code) :
    CodeAt (raFixTargets ir st).compactInstructions (codeOffset codes b)
      (code.map (raFixJump ir.nextInstructionIndex st)) := by
  rw [raFixTargets, K.resolved.instrs]
  exact codeAt_code hb _

theorem ResolveCtx.newIndex_start (hb : b < cfg.numBlocks) :
    newIndex ir cfg codes (cfg.blocks b).startIdx = codeOffset codes b := by
  have P := K.partition
  have hlt := P.start_lt_end b hb
  have hle := P.end_le hb
  have hblock := P.instrToBlock_eq hb (Nat.le_refl _) hlt
  rw [newIndex, if_pos (by omega), hblock, Nat.sub_self, Nat.add_zero]

theorem ResolveCtx.newIndex_end (hb : b < cfg.numBlocks) (hcode : codes[b]? = some code) :
    newIndex ir cfg codes (cfg.blocks b).endIdx = codeOffset codes b + code.length := by
  have P := K.partition
  rw [← codeOffset_succ hcode]
  rcases Nat.lt_or_ge (b + 1) cfg.numBlocks with h | h
  · rw [P.next b h]
    exact K.newIndex_start h
  · have hlast : b = cfg.numBlocks - 1 := by omega
    have hend := P.end_last
    rw [← hlast] at hend
    rw [newIndex, hend, if_neg (Nat.lt_irrefl _), Nat.sub_self, Nat.add_zero, ← codeOffset_length]
    congr 1
    rw [K.length]
    omega

theorem ResolveCtx.fixTarget_eq {t : ℤ} (h0 : 0 ≤ t) (hle : t ≤ ir.nextInstructionIndex)
    (hstart : t < ir.nextInstructionIndex →
      (cfg.blocks (cfg.instrToBlock t.toNat)).startIdx = t.toNat) :
    raFixTarget ir.nextInstructionIndex st t = newIndex ir cfg codes t.toNat := by
  have P := K.partition
  unfold raFixTarget
  rw [if_neg (by omega)]
  split
  · next hlt =>
    have hb := P.index_lt t.toNat (by omega)
    have hplace := K.resolved.start (cfg.instrToBlock t.toNat) (by rw [K.length]; exact hb)
    have hnew := K.newIndex_start hb
    rw [hstart hlt] at hplace hnew
    rw [hplace, hnew]
  · next hge =>
    rw [newIndex, if_neg (by omega), K.wp_eq]
    omega

theorem ResolveCtx.newIndex_lt (hi : i ≤ ir.nextInstructionIndex)
    (hstart : i < ir.nextInstructionIndex → (cfg.blocks (cfg.instrToBlock i)).startIdx = i) :
    newIndex ir cfg codes i < 0x80000000 := by
  have hfits := K.fits
  rw [K.wp_eq] at hfits
  unfold newIndex
  split
  · next hlt =>
    have hle : codeOffset codes (cfg.instrToBlock i) ≤ codes.flatten.length := by
      exact ((take_sublist _ codes).flatten).length_le
    omega
  · omega

end Layout

section Agree

variable {Val World : Type} {sem : IrSem Val World} {ir : TCCIRState} {cfg : IRCFG}
  {ssa : IRSSAState} {next : ℕ} {i j : ℕ} {v s : Vreg} {σ σ' τ τ' : Vreg → Val} {w w' : World}

/-- The vregs that may still be read have the same values. -/
def AgreeAt (sem : IrSem Val World) (ir : TCCIRState) (cfg : IRCFG) (ssa : IRSSAState) (i : ℕ)
    (σ τ : Vreg → Val) : Prop :=
  ∀ v, v.type ≠ .temp ∨ LiveAt sem ir cfg ssa v i → σ v = τ v

def AgreeAfter (sem : IrSem Val World) (ir : TCCIRState) (cfg : IRCFG) (ssa : IRSSAState) (i : ℕ)
    (σ τ : Vreg → Val) : Prop :=
  ∀ v, v.type ≠ .temp ∨ v ∈ sem.defs (ir.quad i) ∨ LiveAt sem ir cfg ssa v i → σ v = τ v

theorem AgreeAt.uses (h : AgreeAt sem ir cfg ssa i σ τ) (hi : i < ir.nextInstructionIndex) :
    ∀ v, v ∈ sem.uses (ir.quad i) ∨ v.type ≠ .temp → σ v = τ v := fun v hv =>
  h v (hv.elim (fun hu => .inr (.use hi hu)) .inl)

theorem isBranch_iff (op : TccIrOp) :
    op.isBranch = true ↔ op = .jump ∨ op = .jumpif ∨ op = .switchTable := by
  cases op <;> simp [TccIrOp.isBranch]

theorem AgreeAt.after_branch (h : AgreeAt sem ir cfg ssa i σ τ)
    (hop : (ir.quad i).op.isBranch = true) : AgreeAfter sem ir cfg ssa i σ τ := by
  intro v hv
  apply h
  rcases hv with hv | hv | hv
  · exact .inl hv
  · rw [sem.defs_branch ((isBranch_iff _).mp hop)] at hv
    cases hv
  · exact .inr hv

theorem effect_agree (h : AgreeAt sem ir cfg ssa i σ τ) (hi : i < ir.nextInstructionIndex)
    (he : sem.effect (ir.quad i) σ w = .ok (σ', w')) :
    ∃ τ', sem.effect (ir.quad i) τ w = .ok (τ', w') ∧ AgreeAfter sem ir cfg ssa i σ' τ' := by
  cases hb : (ir.quad i).op.isBranch with
  | true =>
    rw [effect_of_branch hb] at he
    obtain ⟨rfl, rfl⟩ := Prod.mk.inj (Except.ok.inj he)
    exact ⟨τ, effect_of_branch hb, h.after_branch hb⟩
  | false =>
    rw [effect_of_not_branch hb] at he
    obtain ⟨τ', hτ', hagree⟩ := sem.exec_ok (h.uses hi) he
    refine ⟨τ', by rw [effect_of_not_branch hb, hτ'], fun v hv => ?_⟩
    by_cases hdef : v ∈ sem.defs (ir.quad i) ∨ v.type ≠ .temp
    · exact hagree v hdef
    · rw [not_or, not_not] at hdef
      have hlive : LiveAt sem ir cfg ssa v i :=
        (hv.resolve_left (not_not_intro hdef.2)).resolve_left hdef.1
      rw [sem.exec_frame he v hdef.2 hdef.1, sem.exec_frame hτ' v hdef.2 hdef.1]
      exact h v (.inr hlive)

theorem effect_error (h : AgreeAt sem ir cfg ssa i σ τ) (hi : i < ir.nextInstructionIndex)
    (he : sem.effect (ir.quad i) σ w = .error w') : sem.effect (ir.quad i) τ w = .error w' := by
  cases hb : (ir.quad i).op.isBranch with
  | true =>
    rw [effect_of_branch hb] at he
    cases he
  | false =>
    rw [effect_of_not_branch hb] at he ⊢
    exact sem.exec_error (h.uses hi) he

variable (S : IsSsa sem ir cfg ssa next) (hbuild : tccIrCfgBuild ir = .ok (some cfg))

include hbuild in
theorem phiSource_eq_some (h : ssa.phiSource cfg i j v = some s) :
    j < ir.nextInstructionIndex ∧ cfg.instrToBlock j < cfg.numBlocks ∧
      (cfg.blocks (cfg.instrToBlock j)).startIdx = j ∧
      ∃ phi ∈ ssa.blockPhis (cfg.instrToBlock j), phi.destVreg = v ∧
        phi.operandFor (cfg.instrToBlock i) = some s := by
  unfold IRSSAState.phiSource IRSSAState.blockAt at h
  split at h
  · next hj =>
    rw [bind_some] at h
    obtain ⟨phi, hphi, hs⟩ := Option.bind_eq_some_iff.mp h
    have hlt := tccIrCfgBuild_numInstrs hbuild ▸ hj.1
    exact ⟨hlt, (tccIrCfgBuild_isPartition hbuild).index_lt j hlt, hj.2, phi,
      List.mem_of_find?_eq_some hphi, by simpa using List.find?_some hphi, hs⟩
  · cases h
include S in
theorem dest_inj {b : ℕ} (hb : b < cfg.numBlocks) {phi phi' : IRPhiNode}
    (h : phi ∈ ssa.blockPhis b) (h' : phi' ∈ ssa.blockPhis b)
    (e : phi.destVreg = phi'.destVreg) : phi = phi' := by
  have hnd : ((ssa.blockPhis b).map IRPhiNode.destVreg).Nodup :=
    (List.nodup_flatMap.mp S.dest_once).1 b (List.mem_range.mpr hb)
  exact inj_on_of_nodup_map hnd h h' e

include S hbuild in
theorem phiSource_of_mem (hj : j < ir.nextInstructionIndex)
    (hstart : (cfg.blocks (cfg.instrToBlock j)).startIdx = j) {phi : IRPhiNode}
    (hphi : phi ∈ ssa.blockPhis (cfg.instrToBlock j))
    (hs : phi.operandFor (cfg.instrToBlock i) = some s) :
    ssa.phiSource cfg i j phi.destVreg = some s := by
  have hb := (tccIrCfgBuild_isPartition hbuild).index_lt j hj
  unfold IRSSAState.phiSource IRSSAState.blockAt
  rw [if_pos ⟨by rw [tccIrCfgBuild_numInstrs hbuild]; exact hj, hstart⟩, bind_some]
  cases hfind : (ssa.blockPhis (cfg.instrToBlock j)).find? fun p => p.destVreg = phi.destVreg with
  | none => exact absurd (List.find?_eq_none.mp hfind phi hphi) (by simp)
  | some phi' =>
    have hdest : phi'.destVreg = phi.destVreg := by simpa using List.find?_some hfind
    rw [dest_inj S hb (List.mem_of_find?_eq_some hfind) hphi hdest]
    exact hs

include S hbuild in
theorem phiSource_eq_none_of_ne_temp (hv : v.type ≠ .temp) : ssa.phiSource cfg i j v = none := by
  cases h : ssa.phiSource cfg i j v with
  | none => rfl
  | some s =>
    obtain ⟨_, hb, _, phi, hphi, rfl, _⟩ := phiSource_eq_some hbuild h
    exact absurd (S.dest_temp _ hb phi hphi).1 hv

include S hbuild in
theorem phiSource_alloc (h : ssa.phiSource cfg i j v = some s) : AllocatedTemp next s := by
  obtain ⟨_, hb, _, phi, hphi, _, hs⟩ := phiSource_eq_some hbuild h
  obtain ⟨o, ho, _, hos⟩ := exists_operand hs
  exact S.operand_temp _ hb phi hphi o ho s hos

include S hbuild in
theorem live_alloc (h : LiveAt sem ir cfg ssa v i) : AllocatedTemp next v := by
  induction h with
  | use hi hv => exact S.use_temp _ hi _ hv
  | @edge v i j _ _ _ ih =>
    cases hs : ssa.phiSource cfg i j v with
    | none => exact ih
    | some s => exact phiSource_alloc S hbuild hs

theorem not_live_end (h : LiveAt sem ir cfg ssa v i) : i < ir.nextInstructionIndex := by
  cases h with
  | use hi _ => exact hi
  | edge ht _ _ =>
    cases ht
    case fallThrough hi _ => omega
    all_goals assumption

include S hbuild in
theorem agree_goto (h : AgreeAfter sem ir cfg ssa i σ τ)
    (hj : j < ir.nextInstructionIndex → Transfer ir i j)
    (hmoves : ∀ v, v.type ≠ .temp ∨ LiveAt sem ir cfg ssa v j →
      τ' v = τ ((ssa.phiSource cfg i j v).getD v)) :
    AgreeAt sem ir cfg ssa j (ssa.onEdge cfg i j σ) τ' := by
  intro v hv
  rw [IRSSAState.onEdge, hmoves v hv]
  by_cases ht : v.type ≠ .temp
  · rw [phiSource_eq_none_of_ne_temp S hbuild ht]
    exact h v (.inl ht)
  · have hlive := hv.resolve_left ht
    apply h
    by_cases hdef : (ssa.phiSource cfg i j v).getD v ∈ sem.defs (ir.quad i)
    · exact .inr (.inl hdef)
    · exact .inr (.inr (.edge (hj (not_live_end hlive)) hlive hdef))

/-- Copies that may stand for the phis on an edge: those are among them, and the others change no
vreg that is still read. -/
structure EdgeCopies (sem : IrSem Val World) (ir : TCCIRState) (cfg : IRCFG) (ssa : IRSSAState)
    (i j : ℕ) (copies : List RAPhiCopy) : Prop where
  phi : ∀ v s, ssa.phiSource cfg i j v = some s → ∃ c ∈ copies, c.destVreg = v ∧ c.srcVreg = s
  dead : ∀ c ∈ copies, c.destVreg.type = .temp ∧ (ssa.phiSource cfg i j c.destVreg = none →
    c.srcVreg = c.destVreg ∨ ¬ LiveAt sem ir cfg ssa c.destVreg j)

include S hbuild in
theorem EdgeCopies.moves {copies : List RAPhiCopy} {qs : List IRQuadCompact}
    (E : EdgeCopies sem ir cfg ssa i j copies) (hqs : PhiSeq copies next qs) (τ : Vreg → Val) :
    ∀ v, v.type ≠ .temp ∨ LiveAt sem ir cfg ssa v j →
      execAssigns τ qs v = τ ((ssa.phiSource cfg i j v).getD v) := by
  intro v hv
  cases hs : ssa.phiSource cfg i j v with
  | some s =>
    obtain ⟨c, hc, rfl, rfl⟩ := E.phi v s hs
    exact hqs.copy Val τ c hc
  | none =>
    refine hqs.unchanged τ v (fun c hc e => ?_) ?_
    · rw [e] at hs hv
      have hlive := hv.resolve_left (not_not_intro (E.dead c hc).1)
      exact ((E.dead c hc).2 hs).resolve_right (not_not_intro hlive)
    · exact hv.elim (fun h ht => absurd ht h) (live_alloc S hbuild)

end Agree

section Edges

variable {Val World : Type} {sem : IrSem Val World} {ir : TCCIRState} {cfg : IRCFG}
  {ssa : IRSSAState} {next : ℕ} {i j b : ℕ} {v s : Vreg} {c : RAPhiCopy}
  (S : IsSsa sem ir cfg ssa next) (hbuild : tccIrCfgBuild ir = .ok (some cfg))
include S hbuild

theorem mem_collect_of_phiSource {f : Option ℕ} (hf : f = none ∨ f = some (cfg.instrToBlock j))
    (h : ssa.phiSource cfg i j v = some s) :
    ∃ c ∈ raCollectPhiCopiesForPred cfg ssa (cfg.instrToBlock i) f,
      c.destVreg = v ∧ c.srcVreg = s := by
  obtain ⟨_, hb, _, phi, hphi, rfl, hs⟩ := phiSource_eq_some hbuild h
  refine ⟨phi.copyFrom s, (mem_collect S.toPhisWf (raPhiScanRange_lt f)).mpr
    ⟨cfg.instrToBlock j, ?_, phi, hphi, s, hs, rfl⟩, rfl, rfl⟩
  rcases hf with rfl | rfl
  · exact List.mem_range.mpr hb
  · simp [raPhiScanRange, hb]

theorem phiSource_of_mem_collect (hj : j < ir.nextInstructionIndex)
    (hstart : (cfg.blocks (cfg.instrToBlock j)).startIdx = j)
    (hc : c ∈ raCollectPhiCopiesForPred cfg ssa (cfg.instrToBlock i)
      (some (cfg.instrToBlock j))) :
    c.destVreg.type = .temp ∧ ssa.phiSource cfg i j c.destVreg = some c.srcVreg := by
  obtain ⟨b, hb, phi, hphi, s, hs, rfl⟩ := (mem_collect S.toPhisWf (raPhiScanRange_lt _)).mp hc
  have hlt := raPhiScanRange_lt _ b hb
  have hbj : b = cfg.instrToBlock j := by
    unfold raPhiScanRange at hb
    dsimp only at hb
    split at hb
    · exact List.mem_singleton.mp hb
    · cases hb
  refine ⟨(S.dest_temp b hlt phi hphi).1, ?_⟩
  rw [hbj] at hphi
  exact phiSource_of_mem S hbuild hj hstart hphi hs

theorem mem_collect_none (hc : c ∈ raCollectPhiCopiesForPred cfg ssa b none) :
    c.destVreg.type = .temp ∧ ∃ b' ∈ (cfg.blocks b).succs,
      c ∈ raCollectPhiCopiesForPred cfg ssa b (some b') ∧ b' < cfg.numBlocks ∧
      ∃ phi ∈ ssa.blockPhis b', phi.operandFor b = some c.srcVreg ∧
        phi.destVreg = c.destVreg := by
  obtain ⟨b', hb', phi, hphi, s, hs, rfl⟩ := (mem_collect S.toPhisWf (raPhiScanRange_lt _)).mp hc
  have hlt : b' < cfg.numBlocks := raPhiScanRange_lt none b' hb'
  obtain ⟨o, ho, hp, hos⟩ := exists_operand hs
  have hpred := S.pred_edge b' hlt phi hphi o ho b s hp hos
  refine ⟨(S.dest_temp b' hlt phi hphi).1, b', ?_, ?_, hlt, phi, hphi, hs, rfl⟩
  · exact (mem_succs_iff hbuild).mpr ((mem_preds_iff hbuild).mp hpred)
  · exact (mem_collect S.toPhisWf (raPhiScanRange_lt _)).mpr
      ⟨b', by simp [raPhiScanRange, hlt], phi, hphi, s, hs, rfl⟩

omit S in
theorem EdgeCopies.nil (h : j < ir.nextInstructionIndex →
      (cfg.blocks (cfg.instrToBlock j)).startIdx ≠ j) : EdgeCopies sem ir cfg ssa i j [] := by
  refine ⟨fun v s hs => ?_, fun c hc => (by cases hc)⟩
  obtain ⟨hj, _, hstart, _⟩ := phiSource_eq_some hbuild hs
  exact absurd hstart (h hj)

theorem EdgeCopies.of_edge (hj : j < ir.nextInstructionIndex)
    (hstart : (cfg.blocks (cfg.instrToBlock j)).startIdx = j) :
    EdgeCopies sem ir cfg ssa i j (raCollectPhiCopiesForPred cfg ssa (cfg.instrToBlock i)
      (some (cfg.instrToBlock j))) := by
  refine ⟨fun v s hs => mem_collect_of_phiSource S hbuild (.inr rfl) hs, fun c hc => ?_⟩
  obtain ⟨htemp, hs⟩ := phiSource_of_mem_collect S hbuild hj hstart hc
  refine ⟨htemp, fun hnone => ?_⟩
  rw [hs] at hnone
  cases hnone

theorem EdgeCopies.of_block (hother : ∀ b' ∈ (cfg.blocks (cfg.instrToBlock i)).succs,
      ∀ phi ∈ ssa.blockPhis b', phi.Changes (cfg.instrToBlock i) →
        (j < ir.nextInstructionIndex ∧ (cfg.blocks (cfg.instrToBlock j)).startIdx = j ∧
          b' = cfg.instrToBlock j) ∨ ¬ LiveAt sem ir cfg ssa phi.destVreg j) :
    EdgeCopies sem ir cfg ssa i j
      (raCollectPhiCopiesForPred cfg ssa (cfg.instrToBlock i) none) := by
  refine ⟨fun v s hs => mem_collect_of_phiSource S hbuild (.inl rfl) hs, fun c hc => ?_⟩
  obtain ⟨htemp, b', hb', hc', _, phi, hphi, hop, hdest⟩ := mem_collect_none S hbuild hc
  refine ⟨htemp, fun hnone => ?_⟩
  by_cases hsame : c.srcVreg = c.destVreg
  · exact .inl hsame
  · rcases hother b' hb' phi hphi ⟨_, hop, hdest ▸ hsame⟩ with ⟨hj, hstart, rfl⟩ | hdead
    · rw [(phiSource_of_mem_collect S hbuild hj hstart hc').2] at hnone
      cases hnone
    · exact .inr (hdest ▸ hdead)

omit S in
theorem succ_cases (hb : b < cfg.numBlocks) {b' : ℕ} (h : b' ∈ (cfg.blocks b).succs) :
    (∃ t ∈ explicitTargets ir (ir.quad ((cfg.blocks b).endIdx - 1)), 0 ≤ t ∧
        t < ir.nextInstructionIndex ∧ b' = cfg.instrToBlock t.toNat) ∨
      fallsThrough (ir.quad ((cfg.blocks b).endIdx - 1)) = true ∧ b' = b + 1 ∧
        b + 1 < cfg.numBlocks := by
  have hlt := (tccIrCfgBuild_isPartition hbuild).start_lt_end b hb
  have ht := ((mem_succs_iff hbuild).mp h).2
  unfold cfgTargets at ht
  rw [if_neg (by omega)] at ht
  rcases List.mem_append.mp ht with ht | ht
  · left
    obtain ⟨t, ht, hblock⟩ := List.mem_filterMap.mp ht
    unfold IRCFG.blockOf at hblock
    split at hblock
    · next hr =>
      rw [tccIrCfgBuild_numInstrs hbuild] at hr
      exact ⟨t, ht, hr.1, hr.2, (Option.some.inj hblock).symm⟩
    · cases hblock
  · right
    split at ht
    · cases ht
    · next hn =>
      unfold IRCFG.nextBlock at ht
      split at ht
      · next hlt =>
        exact ⟨by simpa [fallsThrough, not_or, and_assoc] using hn, List.mem_singleton.mp ht,
          hlt⟩
      · cases ht

end Edges

/-- The points of the two runs that belong together. -/
structure ResolveRel {Val World : Type} (sem : IrSem Val World) (ir : TCCIRState) (cfg : IRCFG)
    (ssa : IRSSAState) (codes : List (List IRQuadCompact)) (s t : IrState Val World) : Prop where
  pc : t.pc = newIndex ir cfg codes s.pc
  pc_le : s.pc ≤ ir.nextInstructionIndex
  reach : s.pc < ir.nextInstructionIndex → ReflTransGen (Transfer ir) 0 s.pc
  world : t.world = s.world
  regs : AgreeAt sem ir cfg ssa s.pc s.regs t.regs

section Matched

variable {Val World : Type} (sem : IrSem Val World) (ir : TCCIRState) (cfg : IRCFG)
  (ssa : IRSSAState) (st : RaResolve) (codes : List (List IRQuadCompact))

/-- The resolved function does from `t` what the function with phis does from `s`. -/
def Matched (s t : IrState Val World) : Prop :=
  (∀ s', sem.ssaMachine ir cfg ssa s = .inl s' → ∃ k t', 0 < k ∧
    (sem.flatMachine (raFixTargets ir st)).Runs
      (fun u => u.world = s.world ∨ u.world = s'.world) k t t' ∧
    ResolveRel sem ir cfg ssa codes s' t') ∧
  ∀ r, sem.ssaMachine ir cfg ssa s = .inr r → ∃ k t',
    (sem.flatMachine (raFixTargets ir st)).Runs (fun u => u.world = s.world) k t t' ∧
    sem.flatMachine (raFixTargets ir st) t' = .inr r ∧ t'.world = s.world

variable {sem ir cfg ssa st codes} {s t t₁ : IrState Val World} {k : ℕ} {σ τ : Vreg → Val} {w : World}

theorem Matched.of_runs (hruns : (sem.flatMachine (raFixTargets ir st)).Runs
      (fun u => u.world = s.world) k t t₁) (h : Matched sem ir cfg ssa st codes s t₁) :
    Matched sem ir cfg ssa st codes s t := by
  refine ⟨fun s' hs' => ?_, fun r hr => ?_⟩
  · obtain ⟨l, t', hpos, hl, hrel⟩ := h.1 s' hs'
    exact ⟨k + l, t', by omega, (hruns.mono fun u hu => .inl hu).trans hl, hrel⟩
  · obtain ⟨l, t', hl, ht', hw⟩ := h.2 r hr
    exact ⟨k + l, t', hruns.trans hl, ht', hw⟩

theorem Matched.of_stop (h1 : sem.ssaMachine ir cfg ssa s = .inr w)
    (h2 : sem.flatMachine (raFixTargets ir st) t = .inr w) (hw : t.world = s.world) :
    Matched sem ir cfg ssa st codes s t := by
  refine ⟨fun s' hs' => ?_, fun r hr => ?_⟩
  · rw [h1] at hs'
    cases hs'
  · rw [h1] at hr
    obtain rfl := Sum.inr.inj hr
    exact ⟨0, t, .refl t, h2, hw⟩

theorem Matched.of_ok (hs : s.pc < ir.nextInstructionIndex)
    (hreach : ReflTransGen (Transfer ir) 0 s.pc)
    (he : sem.effect (ir.quad s.pc) s.regs s.world = .ok (σ, w))
    (ht : t.pc < (raFixTargets ir st).nextInstructionIndex)
    (he' : sem.effect ((raFixTargets ir st).quad t.pc) t.regs t.world = .ok (τ, w))
    (hw : t.world = s.world)
    (hgo : ∀ z, sem.control ir s.pc σ w = some z → 0 ≤ z →
      ∃ p k τ', sem.control (raFixTargets ir st) t.pc τ w = some p ∧ 0 ≤ p ∧
        z ≤ ir.nextInstructionIndex ∧
        (sem.flatMachine (raFixTargets ir st)).Runs (fun u => u.world = w) k ⟨p.toNat, τ, w⟩
          ⟨newIndex ir cfg codes z.toNat, τ', w⟩ ∧
        AgreeAt sem ir cfg ssa z.toNat (ssa.onEdge cfg s.pc z.toNat σ) τ')
    (hneg : ∀ z, sem.control ir s.pc σ w = some z → z < 0 →
      sem.control (raFixTargets ir st) t.pc τ w = some z)
    (hnone : sem.control ir s.pc σ w = none →
      sem.control (raFixTargets ir st) t.pc τ w = none) :
    Matched sem ir cfg ssa st codes s t := by
  -- both functions execute the instruction; on the way to where control goes there may be
  -- copies
  have h1 : sem.ssaMachine ir cfg ssa s =
      IrSem.goto (ssa.onEdge cfg) s.pc σ w (sem.control ir s.pc σ w) := machine_of_ok hs he
  have h2 : sem.flatMachine (raFixTargets ir st) t = IrSem.goto (fun _ _ σ => σ) t.pc τ w
      (sem.control (raFixTargets ir st) t.pc τ w) := machine_of_ok ht he'
  cases hc : sem.control ir s.pc σ w with
  | none =>
    rw [hc] at h1
    rw [hnone hc] at h2
    exact .of_stop h1 h2 hw
  | some z =>
    rcases lt_or_ge z 0 with hz | hz
    · rw [hc, goto_of_neg hz] at h1
      rw [hneg z hc hz, goto_of_neg hz] at h2
      exact .of_stop h1 h2 hw
    · obtain ⟨p, k, τ', hp, hp0, hzn, hruns, hagree⟩ := hgo z hc hz
      rw [hc, goto_of_nonneg hz] at h1
      rw [hp, goto_of_nonneg hp0] at h2
      refine ⟨fun s' hs' => ?_, fun r hr => ?_⟩
      · rw [h1] at hs'
        obtain rfl := Sum.inl.inj hs'
        refine ⟨1 + k, _, by omega, (Machine.Runs.one h2 (.inl hw)).trans
          (hruns.mono fun u hu => .inr hu), rfl, ?_, fun hlt => ?_, rfl, hagree⟩
        · dsimp only
          omega
        · exact hreach.tail (transfer_of_control hs hc hz (by dsimp only at hlt; omega))
      · rw [h1] at hr
        cases hr

end Matched

end Tinycc
