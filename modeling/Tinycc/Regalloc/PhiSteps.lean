import Tinycc.Regalloc.PhiSimulation

namespace Tinycc
open Lib Option IrSem Int
open Relation (ReflTransGen)

section Fixed

variable {n : ℕ} {st : RaResolve} {q : IRQuadCompact} {v : BitVec 32}

theorem raFixJump_of_ne (h1 : q.op ≠ .jump) (h2 : q.op ≠ .jumpif) : raFixJump n st q = q :=
  if_neg (by rintro (h | h); exacts [h1 h, h2 h])

theorem raFixJump_op (q : IRQuadCompact) : (raFixJump n st q).op = q.op := by
  unfold raFixJump
  split <;> rfl

theorem raFixJump_getSrc1 (q : IRQuadCompact) : (raFixJump n st q).getSrc1 = q.getSrc1 := by
  unfold raFixJump
  split <;> rfl

theorem getDest_of_jump (hop : q.op = .jump ∨ q.op = .jumpif) : q.getDest = q.dest := by
  rcases hop with h | h <;> simp [IRQuadCompact.getDest, h, iropConfig]

theorem getSrc1_of_jumpif (hop : q.op = .jumpif) : q.getSrc1 = q.src1 := by
  simp [IRQuadCompact.getSrc1, hop, iropConfig]

theorem raFixJump_target (hop : q.op = .jump ∨ q.op = .jumpif) (hd : q.dest.data = .imm32 v)
    {p : ℕ} (hp : raFixTarget n st v.toInt = p) (hfits : p < 0x80000000) :
    (raFixJump n st q).getDest.getImmInt = p := by
  have hget := getDest_of_jump hop
  have hfix : (raFixJump n st q).dest = q.dest.setImm32 (BitVec.ofInt 32 p) := by
    unfold raFixJump
    rw [if_pos hop, hget, getImmInt_of_imm32 hd, hp]
  rw [getDest_of_jump (by rw [raFixJump_op]; exact hop), hfix,
    getImmInt_of_imm32 (setImm32_data hd), toInt_ofInt_of_fits (by omega) (by omega)]

end Fixed

section Control

variable {Val World : Type} {sem : IrSem Val World} {ir : TCCIRState} {i : ℕ} {σ : Vreg → Val}
  {w : World}

theorem control_of_not_branch (h : (ir.quad i).op.isBranch = false) :
    sem.control ir i σ w = if fallsThrough (ir.quad i) then some ((i : ℤ) + 1) else none := by
  have hne : ∀ op : TccIrOp, op.isBranch = true → (ir.quad i).op ≠ op := fun op hop e => by
    rw [e, hop] at h
    cases h
  unfold IrSem.control
  rw [if_neg (hne _ rfl), if_neg (hne _ rfl), if_neg (hne _ rfl)]

theorem control_jump (h : (ir.quad i).op = .jump) :
    sem.control ir i σ w = some (ir.quad i).getDest.getImmInt := if_pos h

theorem control_jumpif (h : (ir.quad i).op = .jumpif) :
    sem.control ir i σ w = (jumpTaken (ir.quad i).getSrc1.getImm32 (sem.flags w)).map fun taken =>
      if taken then (ir.quad i).getDest.getImmInt else (i : ℤ) + 1 := by
  unfold IrSem.control
  rw [if_neg (by rw [h]; decide), if_pos h]

theorem control_switchTable (h : (ir.quad i).op = .switchTable) :
    sem.control ir i σ w =
      (TCCIRState.lookup ir.switchTables (ir.quad i).getSrc2.getImmInt).bind fun table =>
        TCCIRState.lookup table.targets (sem.switchIndex (ir.quad i) σ w) := by
  unfold IrSem.control
  rw [if_neg (by rw [h]; decide), if_neg (by rw [h]; decide), if_pos h]

end Control

section Steps

variable {Val World : Type} {sem : IrSem Val World} {ir : TCCIRState} {cfg : IRCFG}
  {ssa : IRSSAState} {next : ℕ} {st : RaResolve} {codes : List (List IRQuadCompact)}
  {s t : IrState Val World} (K : ResolveCtx sem ir cfg ssa next st codes)
  (hs : s.pc < ir.nextInstructionIndex) (hreach : ReflTransGen (Transfer ir) 0 s.pc)
  (hw : t.world = s.world)
include K hs hreach hw

theorem matched_exec (hop : (ir.quad s.pc).op.isBranch = false)
    (hq : (raFixTargets ir st).compactInstructions[t.pc]? = some (ir.quad s.pc))
    (hregs : AgreeAt sem ir cfg ssa s.pc s.regs t.regs) (copies : List RAPhiCopy)
    (qs : List IRQuadCompact) (hfall : fallsThrough (ir.quad s.pc) = true →
      PhiSeq copies next qs ∧ CodeAt (raFixTargets ir st).compactInstructions (t.pc + 1) qs ∧
        newIndex ir cfg codes (s.pc + 1) = t.pc + 1 + qs.length ∧
        EdgeCopies sem ir cfg ssa s.pc (s.pc + 1) copies) :
    Matched sem ir cfg ssa st codes s t := by
  obtain ⟨ht, hquad⟩ := quad_of_getElem? hq
  cases he : sem.effect (ir.quad s.pc) s.regs s.world with
  | error w =>
    refine .of_stop (machine_of_error hs he) (machine_of_error ht ?_) hw
    rw [hquad, hw]
    exact effect_error hregs hs he
  | ok r =>
    obtain ⟨σ, w⟩ := r
    obtain ⟨τ, hτ, hagree⟩ := effect_agree hregs hs he
    have hcontrol := @control_of_not_branch _ _ sem ir s.pc σ w hop
    have hcontrol' : sem.control (raFixTargets ir st) t.pc τ w =
        if fallsThrough (ir.quad s.pc) then some ((t.pc : ℤ) + 1) else none := by
      rw [control_of_not_branch (by rw [hquad]; exact hop), hquad]
    refine Matched.of_ok hs hreach he ht (by rw [hquad, hw]; exact hτ) hw (fun z hz h0 => ?_)
      (fun z hz h0 => ?_) (fun hz => ?_)
    · cases hf : fallsThrough (ir.quad s.pc) with
      | false =>
        rw [hcontrol, hf] at hz
        cases hz
      | true =>
        obtain ⟨hseq, hcode, hnew, E⟩ := hfall hf
        have hz' : z = (s.pc : ℤ) + 1 := by
          rw [hcontrol, hf] at hz
          exact (Option.some.inj hz).symm
        have hnat : z.toNat = s.pc + 1 := by omega
        have htransfer : s.pc + 1 < ir.nextInstructionIndex → Transfer ir s.pc (s.pc + 1) :=
          fun hlt => .fallThrough hlt hf
        refine ⟨(t.pc : ℤ) + 1, qs.length, execAssigns τ qs, by rw [hcontrol', hf]; rfl, by omega,
          by omega, ?_, ?_⟩
        · rw [hnat, hnew]
          exact runs_phiCopies K.copies hseq.form hcode τ w
        · rw [hnat]
          exact agree_goto K.isSsa K.build hagree htransfer (E.moves K.isSsa K.build hseq τ)
    · rw [hcontrol] at hz
      split at hz
      · have := Option.some.inj hz
        omega
      · cases hz
    · rw [hcontrol] at hz
      split at hz
      · cases hz
      · next hf => rw [hcontrol', if_neg hf]

omit hreach hw in
theorem ResolveCtx.target_start {z : ℤ} (hz : z ∈ explicitTargets ir (ir.quad s.pc)) (h0 : 0 ≤ z)
    (hlt : z < ir.nextInstructionIndex) :
    (cfg.blocks (cfg.instrToBlock z.toNat)).startIdx = z.toNat :=
  K.partition.leader z.toNat (by omega) (cfgLeaders_explicitTarget hs h0 hlt hz)

omit hreach hw in
theorem ResolveCtx.branch_target
    (hop : (ir.quad s.pc).op = .jump ∨ (ir.quad s.pc).op = .jumpif) :
    ∃ z : ℤ, (ir.quad s.pc).getDest.getImmInt = z ∧ 0 ≤ z ∧ z ≤ ir.nextInstructionIndex ∧
      (z < ir.nextInstructionIndex →
        (cfg.blocks (cfg.instrToBlock z.toNat)).startIdx = z.toNat) ∧
      ∀ q : IRQuadCompact, q.op = .jump ∨ q.op = .jumpif → q.dest = (ir.quad s.pc).dest →
        (raFixJump ir.nextInstructionIndex st q).getDest.getImmInt =
          newIndex ir cfg codes z.toNat := by
  obtain ⟨v, hv, h0, hle⟩ := K.isSsa.jump_target s.pc hs hop
  have hget : (ir.quad s.pc).getDest.getImmInt = v.toInt := by
    rw [getDest_of_jump hop, getImmInt_of_imm32 hv]
  have hstart : v.toInt < ir.nextInstructionIndex →
      (cfg.blocks (cfg.instrToBlock v.toInt.toNat)).startIdx = v.toInt.toNat := by
    refine K.target_start hs ?_ h0
    unfold explicitTargets
    rw [if_pos hop, hget]
    exact List.mem_singleton.mpr rfl
  refine ⟨v.toInt, hget, h0, hle, hstart, fun q hq hdest => ?_⟩
  refine raFixJump_target hq (hdest ▸ hv) (K.fixTarget_eq h0 hle hstart) (K.newIndex_lt (by omega) ?_)
  intro hlt
  exact hstart (by omega)

theorem matched_jump (hop : (ir.quad s.pc).op = .jump)
    (hq : (raFixTargets ir st).compactInstructions[t.pc]? =
      some (raFixJump ir.nextInstructionIndex st (ir.quad s.pc)))
    (hregs : ∀ j : ℕ, (ir.quad s.pc).getDest.getImmInt = j →
      AgreeAt sem ir cfg ssa j (ssa.onEdge cfg s.pc j s.regs) t.regs) :
    Matched sem ir cfg ssa st codes s t := by
  obtain ⟨ht, hquad⟩ := quad_of_getElem? hq
  obtain ⟨z, hz, h0, hle, _, hfix⟩ := K.branch_target hs (.inl hop)
  have hop' : ((raFixTargets ir st).quad t.pc).op = .jump := by rw [hquad, raFixJump_op, hop]
  have hbranch : (ir.quad s.pc).op.isBranch = true := by rw [hop]; rfl
  have hbranch' : ((raFixTargets ir st).quad t.pc).op.isBranch = true := by rw [hop']; rfl
  refine Matched.of_ok (σ := s.regs) (τ := t.regs) (w := s.world) hs hreach
    (effect_of_branch hbranch) ht (by rw [effect_of_branch hbranch', hw]) hw
    (fun z' hz' _ => ?_) (fun z' hz' hneg => ?_) (fun hnone => ?_)
  · rw [control_jump hop, hz] at hz'
    obtain rfl := Option.some.inj hz'
    refine ⟨newIndex ir cfg codes z.toNat, 0, t.regs, ?_, by omega, hle, ?_, ?_⟩
    · rw [control_jump hop', hquad, hfix _ (.inl hop) rfl]
    · exact .refl _
    · exact hregs z.toNat (by omega)
  · rw [control_jump hop] at hz'
    have := Option.some.inj hz'
    omega
  · rw [control_jump hop] at hnone
    cases hnone

section

variable (hop : (ir.quad s.pc).op = .jumpif)
include hop

variable {copiesT copiesF : List RAPhiCopy} {qsT qsF : List IRQuadCompact}

theorem matched_of_jumpif (ht : t.pc < (raFixTargets ir st).nextInstructionIndex)
    (hbranch' : ((raFixTargets ir st).quad t.pc).op.isBranch = true)
    (hregs : AgreeAt sem ir cfg ssa s.pc s.regs t.regs) {pT pF : ℕ}
    (hcontrol' : sem.control (raFixTargets ir st) t.pc t.regs s.world =
      (jumpTaken (ir.quad s.pc).getSrc1.getImm32 (sem.flags s.world)).map fun taken =>
        if taken then (pT : ℤ) else (pF : ℤ)) (hseqT : PhiSeq copiesT next qsT)
    (hseqF : PhiSeq copiesF next qsF) (hrunT : ∀ j : ℕ, (ir.quad s.pc).getDest.getImmInt = j →
      ∃ k, (sem.flatMachine (raFixTargets ir st)).Runs (fun u => u.world = s.world) k
        ⟨pT, t.regs, s.world⟩ ⟨newIndex ir cfg codes j, execAssigns t.regs qsT, s.world⟩)
    (hrunF : ∃ k, (sem.flatMachine (raFixTargets ir st)).Runs (fun u => u.world = s.world) k
        ⟨pF, t.regs, s.world⟩
        ⟨newIndex ir cfg codes (s.pc + 1), execAssigns t.regs qsF, s.world⟩)
    (ET : ∀ j : ℕ, (ir.quad s.pc).getDest.getImmInt = j → EdgeCopies sem ir cfg ssa s.pc j copiesT)
    (EF : EdgeCopies sem ir cfg ssa s.pc (s.pc + 1) copiesF) :
    Matched sem ir cfg ssa st codes s t := by
  obtain ⟨z, hz, h0, hle, _, _⟩ := K.branch_target hs (.inr hop)
  obtain ⟨j, rfl⟩ : ∃ j : ℕ, z = j := ⟨z.toNat, by omega⟩
  have hbranch : (ir.quad s.pc).op.isBranch = true := by rw [hop]; rfl
  have hcontrol := @control_jumpif _ _ sem ir s.pc s.regs s.world hop
  have hafter := hregs.after_branch hbranch
  refine Matched.of_ok (σ := s.regs) (τ := t.regs) (w := s.world) hs hreach
    (effect_of_branch hbranch) ht (by rw [effect_of_branch hbranch', hw]) hw
    (fun z' hz' h0' => ?_) (fun z' hz' hneg => ?_) (fun hnone => ?_)
  · have htransfer : ∀ i : ℕ, z' = i → i < ir.nextInstructionIndex → Transfer ir s.pc i := by
      intro i hi hlt
      have := transfer_of_control hs hz' h0' (by omega)
      rwa [hi] at this
    rw [hcontrol, hz] at hz'
    obtain ⟨taken, htk, hz'⟩ := Option.map_eq_some_iff.mp hz'
    rw [htk] at hcontrol'
    -- each way runs through the copies of its own edge
    cases taken with
    | true =>
      obtain rfl : (j : ℤ) = z' := hz'
      obtain ⟨k, hk⟩ := hrunT j hz
      refine ⟨pT, k, execAssigns t.regs qsT, hcontrol', by omega, hle, ?_, ?_⟩
      · rwa [toNat_natCast]
      · exact agree_goto K.isSsa K.build hafter (htransfer j rfl)
          ((ET j hz).moves K.isSsa K.build hseqT t.regs)
    | false =>
      obtain rfl : (s.pc : ℤ) + 1 = z' := hz'
      have hnat : ((s.pc : ℤ) + 1).toNat = s.pc + 1 := by omega
      obtain ⟨k, hk⟩ := hrunF
      refine ⟨pF, k, execAssigns t.regs qsF, hcontrol', by omega, by omega, ?_, ?_⟩
      · rwa [hnat]
      · exact agree_goto K.isSsa K.build hafter (htransfer (s.pc + 1) (by omega))
          (EF.moves K.isSsa K.build hseqF t.regs)
  · rw [hcontrol, hz] at hz'
    obtain ⟨taken, _, hz'⟩ := Option.map_eq_some_iff.mp hz'
    cases taken with
    | true =>
      obtain rfl : (j : ℤ) = z' := hz'
      omega
    | false =>
      obtain rfl : (s.pc : ℤ) + 1 = z' := hz'
      omega
  · rw [hcontrol] at hnone
    rw [hcontrol', Option.map_eq_none_iff.mp hnone]
    rfl

theorem matched_jumpif
    (hq : (raFixTargets ir st).compactInstructions[t.pc]? =
      some (raFixJump ir.nextInstructionIndex st (ir.quad s.pc)))
    (hregs : AgreeAt sem ir cfg ssa s.pc s.regs t.regs)
    (htaken : ∀ j : ℕ, (ir.quad s.pc).getDest.getImmInt = j →
      EdgeCopies sem ir cfg ssa s.pc j [])
    {copies : List RAPhiCopy} {qs : List IRQuadCompact} (hseq : PhiSeq copies next qs)
    (hcode : CodeAt (raFixTargets ir st).compactInstructions (t.pc + 1) qs)
    (hnew : newIndex ir cfg codes (s.pc + 1) = t.pc + 1 + qs.length)
    (E : EdgeCopies sem ir cfg ssa s.pc (s.pc + 1) copies) :
    Matched sem ir cfg ssa st codes s t := by
  obtain ⟨ht, hquad⟩ := quad_of_getElem? hq
  obtain ⟨z, hz, h0, _, _, hfix⟩ := K.branch_target hs (.inr hop)
  have hop' : ((raFixTargets ir st).quad t.pc).op = .jumpif := by rw [hquad, raFixJump_op, hop]
  have hcontrol' : sem.control (raFixTargets ir st) t.pc t.regs s.world =
      (jumpTaken (ir.quad s.pc).getSrc1.getImm32 (sem.flags s.world)).map fun taken =>
        if taken then (newIndex ir cfg codes z.toNat : ℤ) else ((t.pc + 1 : ℕ) : ℤ) := by
    rw [control_jumpif hop', hquad, raFixJump_getSrc1, hfix _ (.inr hop) rfl]
    rfl
  refine matched_of_jumpif K hs hreach hw hop ht (by rw [hop']; rfl) hregs hcontrol' (.nil next) hseq
    (fun j hj => ⟨0, ?_⟩) ⟨qs.length, ?_⟩ htaken E
  · rw [show z.toNat = j by omega]
    exact .refl _
  · rw [hnew]
    exact runs_phiCopies K.copies hseq.form hcode t.regs s.world

omit hreach hw in
theorem ResolveCtx.skip_fixed {target : ℕ}
    (hfits : target < 0x80000000) :
    (raFixJump ir.nextInstructionIndex st (raSkip (ir.quad s.pc) target)).op = .jumpif ∧
      (raFixJump ir.nextInstructionIndex st (raSkip (ir.quad s.pc) target)).getDest.getImmInt =
        target ∧
      (raFixJump ir.nextInstructionIndex st (raSkip (ir.quad s.pc) target)).getSrc1.getImm32 =
        raInvertCond (ir.quad s.pc).getSrc1.getImm32 := by
  obtain ⟨v, hv, _⟩ := K.isSsa.jump_target s.pc hs (.inr hop)
  obtain ⟨c, hc⟩ := K.isSsa.jump_cond s.pc hs hop
  have hop' : (raSkip (ir.quad s.pc) target).op = .jumpif := hop
  have hdest : (raSkip (ir.quad s.pc) target).dest.data =
      .imm32 (BitVec.ofInt 32 (-((target : ℤ) + 1))) := by
    rw [raSkip, getDest_of_jump (.inr hop)]
    exact setImm32_data hv
  refine ⟨by rw [raFixJump_op, hop'], raFixJump_target (.inr hop') hdest ?_ hfits, ?_⟩
  · rw [toInt_ofInt_of_fits (by omega) (by omega), raFixTarget]
    omega
  · rw [raFixJump_getSrc1, getSrc1_of_jumpif hop', raSkip, getSrc1_of_jumpif hop]
    exact getImm32_of_imm32 (setImm32_data hc)

theorem matched_taken (hregs : AgreeAt sem ir cfg ssa s.pc s.regs t.regs)
    (hcode : CodeAt (raFixTargets ir st).compactInstructions t.pc
      (raFixJump ir.nextInstructionIndex st (raSkip (ir.quad s.pc) (t.pc + qsT.length + 2)) ::
        (qsT ++ [raFixJump ir.nextInstructionIndex st (raEdgeJump (ir.quad s.pc))]) ++ qsF))
    (hfits : t.pc + qsT.length + 2 < 0x80000000) (hseqT : PhiSeq copiesT next qsT)
    (hseqF : PhiSeq copiesF next qsF)
    (ET : ∀ j : ℕ, (ir.quad s.pc).getDest.getImmInt = j → EdgeCopies sem ir cfg ssa s.pc j copiesT)
    (hnew : newIndex ir cfg codes (s.pc + 1) = t.pc + qsT.length + 2 + qsF.length)
    (EF : EdgeCopies sem ir cfg ssa s.pc (s.pc + 1) copiesF) :
    Matched sem ir cfg ssa st codes s t := by
  have hskip := hcode.left.head
  have hcodeT := hcode.left.tail.left
  have hjump := hcode.left.tail.right.head
  have hcodeF := hcode.right
  obtain ⟨ht, hquad⟩ := quad_of_getElem? hskip
  obtain ⟨hop', hdest', hcond'⟩ := K.skip_fixed hs hop hfits
  obtain ⟨z, hz, h0, _, _, hfix⟩ := K.branch_target hs (.inr hop)
  have hcontrol' : sem.control (raFixTargets ir st) t.pc t.regs s.world =
      (jumpTaken (ir.quad s.pc).getSrc1.getImm32 (sem.flags s.world)).map fun taken =>
        if taken then ((t.pc + 1 : ℕ) : ℤ) else ((t.pc + qsT.length + 2 : ℕ) : ℤ) := by
    rw [control_jumpif (by rw [hquad, hop']), hquad, hcond', hdest', jumpTaken_invert, map_map]
    congr 1
    funext taken
    cases taken <;> rfl
  -- the jump after the copies
  obtain ⟨hjlt, hjquad⟩ := quad_of_getElem? hjump
  have hjump' : ∀ τ, sem.flatMachine (raFixTargets ir st)
      ⟨t.pc + 1 + qsT.length, τ, s.world⟩ = .inl ⟨newIndex ir cfg codes z.toNat, τ, s.world⟩ := by
    intro τ
    have hjop : ((raFixTargets ir st).quad (t.pc + 1 + qsT.length)).op = .jump := by
      rw [hjquad]
      rfl
    rw [IrSem.flatMachine, machine_of_ok (σ := τ) (w := s.world) hjlt
      (effect_of_branch (by rw [hjop]; rfl)), control_jump hjop, hjquad,
      hfix _ (.inl rfl) (getDest_of_jump (.inr hop)), goto_of_nonneg (by omega),
      toNat_natCast]
  refine matched_of_jumpif K hs hreach hw hop ht (by rw [hquad, hop']; rfl) hregs hcontrol' hseqT hseqF
    (fun j hj => ⟨qsT.length + 1, ?_⟩) ⟨qsF.length, ?_⟩ ET EF
  · rw [show j = z.toNat by omega]
    exact (runs_phiCopies K.copies hseqT.form hcodeT t.regs s.world).trans (.one (hjump' _) rfl)
  · rw [hnew]
    refine runs_phiCopies K.copies hseqF.form ?_ t.regs s.world
    simpa [Nat.add_assoc] using hcodeF

end

theorem matched_switchTable (hop : (ir.quad s.pc).op = .switchTable)
    (hq : (raFixTargets ir st).compactInstructions[t.pc]? = some (ir.quad s.pc))
    (huses : ∀ v, v ∈ sem.uses (ir.quad s.pc) ∨ v.type ≠ .temp → s.regs v = t.regs v)
    (hregs : ∀ j : ℕ, Transfer ir s.pc j →
      AgreeAt sem ir cfg ssa j (ssa.onEdge cfg s.pc j s.regs) t.regs) :
    Matched sem ir cfg ssa st codes s t := by
  obtain ⟨ht, hquad⟩ := quad_of_getElem? hq
  have hbranch : (ir.quad s.pc).op.isBranch = true := by rw [hop]; rfl
  have hindex := sem.switchIndex_congr s.world huses
  obtain ⟨id, hid⟩ : ∃ id, id = (ir.quad s.pc).getSrc2.getImmInt := ⟨_, rfl⟩
  have hlookup : TCCIRState.lookup (raFixTargets ir st).switchTables id =
      (TCCIRState.lookup ir.switchTables id).map (raFixSwitchTable ir.nextInstructionIndex st) := by
    unfold TCCIRState.lookup
    split
    · exact List.getElem?_map
    · rfl
  have hcontrol := @control_switchTable _ _ sem ir s.pc s.regs s.world hop
  -- the fixed table sends every index to the fixed target
  have hcontrol' : sem.control (raFixTargets ir st) t.pc t.regs s.world =
      (sem.control ir s.pc s.regs s.world).map (raFixSwitchTarget ir.nextInstructionIndex st) := by
    rw [control_switchTable (by rw [hquad]; exact hop), hcontrol, hquad, ← hid, hlookup, hindex]
    cases TCCIRState.lookup ir.switchTables id with
    | none => rfl
    | some table =>
      simp only [map_some, bind_some, raFixSwitchTable, TCCIRState.lookup]
      split
      · exact List.getElem?_map
      · rfl
  refine Matched.of_ok (σ := s.regs) (τ := t.regs) (w := s.world) hs hreach
    (effect_of_branch hbranch) ht
    (by rw [hquad, effect_of_branch hbranch, hw]) hw
    (fun z hz h0 => ?_) (fun z hz hneg => ?_) (fun hnone => ?_)
  · have hmem : z ∈ explicitTargets ir (ir.quad s.pc) ∧ z < ir.nextInstructionIndex := by
      rw [hcontrol] at hz
      obtain ⟨table, htable, hentry⟩ := Option.bind_eq_some_iff.mp hz
      have hz' : z ∈ table.targets := by
        unfold TCCIRState.lookup at hentry
        split at hentry
        · exact List.mem_of_getElem? hentry
        · cases hentry
      refine ⟨?_, K.safe.target K.copied s.pc ⟨hs, hop, hreach⟩ table htable z hz'⟩
      unfold explicitTargets
      rw [if_neg (by rw [hop]; decide), if_neg (by rw [hop]; decide), if_pos hop, htable]
      exact hz'
    have hstart := K.target_start hs hmem.1 h0 hmem.2
    have hfix := K.fixTarget_eq h0 hmem.2.le fun _ => hstart
    -- inside the function the table is fixed as a jump is
    have hsame : raFixSwitchTarget ir.nextInstructionIndex st z =
        raFixTarget ir.nextInstructionIndex st z := by
      unfold raFixSwitchTarget raFixTarget
      rw [if_pos ⟨h0, hmem.2⟩, if_neg (by omega), if_pos hmem.2]
    refine ⟨newIndex ir cfg codes z.toNat, 0, t.regs, ?_, by omega, hmem.2.le, ?_,
      hregs z.toNat (transfer_of_control hs hz h0 hmem.2)⟩
    · rw [hcontrol', hz, map_some, hsame, hfix]
    · exact .refl _
  · rw [hcontrol', hz, map_some, raFixSwitchTarget, if_neg (by omega)]
  · rw [hcontrol', hnone]
    rfl

end Steps

section Blocks

variable {Val World : Type} {sem : IrSem Val World} {ir : TCCIRState} {cfg : IRCFG}
  {ssa : IRSSAState} {next : ℕ} {st : RaResolve} {codes : List (List IRQuadCompact)}
  {s t : IrState Val World} {b i j : ℕ} {qs : List IRQuadCompact}

variable {hi : ℕ}

theorem getElem?_quadsOf {lo k : ℕ} (h : k < hi - lo) :
    (quadsOf ir lo hi)[k]? = some (ir.quad (lo + k)) := by
  rw [quadsOf, List.getElem?_map, List.getElem?_range' h, map_some, Nat.one_mul]

theorem quadsOf_last (h : 0 < hi) : quadsOf ir (hi - 1) hi = [ir.quad (hi - 1)] := by
  rw [quadsOf, show hi - (hi - 1) = 1 by omega]
  rfl

theorem map_raFixJump_phi (hform : ∀ q ∈ qs, ∃ d s b, q = phiCopyQuad d s b) (n : ℕ) :
    qs.map (raFixJump n st) = qs := by
  refine (List.map_congr_left fun q hq => ?_).trans (List.map_id qs)
  obtain ⟨d, s, b, rfl⟩ := hform q hq
  exact raFixJump_of_ne (fun h => by cases h) (fun h => by cases h)

variable (K : ResolveCtx sem ir cfg ssa next st codes)
include K

theorem ResolveCtx.inner (hi : i + 1 < (cfg.blocks (cfg.instrToBlock i)).endIdx)
    (hlt : i < ir.nextInstructionIndex) :
    cfg.instrToBlock (i + 1) = cfg.instrToBlock i ∧ (ir.quad i).op.isBranch = false ∧
      (ir.quad i).op ≠ .jump ∧ (ir.quad i).op ≠ .jumpif ∧ fallsThrough (ir.quad i) = true := by
  have P := K.partition
  have hb := P.index_lt i hlt
  have hle := P.end_le hb
  have hstart := P.start_le i hlt
  have hsame := P.instrToBlock_eq hb (show _ ≤ i + 1 by omega) hi
  have hnot : cfgInstrEndsBlock ir (ir.quad i) = false := by
    by_contra h
    have hl := cfgLeaders_endsBlock (show i + 1 < ir.nextInstructionIndex by omega)
      (by simpa using h)
    have := P.leader (i + 1) (by omega) hl
    rw [hsame] at this
    omega
  simp only [cfgInstrEndsBlock, Bool.or_eq_false_iff, decide_eq_false_iff_not] at hnot
  obtain ⟨⟨⟨⟨⟨⟨⟨h1, h2⟩, h3⟩, h4⟩, h5⟩, h6⟩, _⟩, h7⟩ := hnot
  refine ⟨hsame, ?_, h1, h2, by simp [fallsThrough, h1, h3, h4, h5, h6, h7]⟩
  by_contra h
  rcases (isBranch_iff _).mp (by simpa using h) with h | h | h
  · exact h1 h
  · exact h2 h
  · exact h6 h

theorem matched_inner (hs : s.pc < ir.nextInstructionIndex)
    (hrel : ResolveRel sem ir cfg ssa codes s t)
    (hi : s.pc + 1 < (cfg.blocks (cfg.instrToBlock s.pc)).endIdx) :
    Matched sem ir cfg ssa st codes s t := by
  have P := K.partition
  have hb := P.index_lt s.pc hs
  have hstart := P.start_le s.pc hs
  obtain ⟨code, hcode⟩ := K.exists_code hb
  obtain ⟨hsame, hbranch, h1, h2, _⟩ := K.inner hi hs
  have hle := P.end_le hb
  have hpc : t.pc = codeOffset codes (cfg.instrToBlock s.pc) +
      (s.pc - (cfg.blocks (cfg.instrToBlock s.pc)).startIdx) := by
    rw [hrel.pc, newIndex, if_pos hs]
  have hget : code[s.pc - (cfg.blocks (cfg.instrToBlock s.pc)).startIdx]? =
      some (ir.quad s.pc) := by
    have hbody : ∀ hi', s.pc < hi' → ∀ l : List IRQuadCompact,
        (quadsOf ir (cfg.blocks (cfg.instrToBlock s.pc)).startIdx hi' ++ l)[s.pc -
          (cfg.blocks (cfg.instrToBlock s.pc)).startIdx]? = some (ir.quad s.pc) := by
      intro hi' hlt l
      rw [List.getElem?_append_left (by rw [length_quadsOf]; omega), getElem?_quadsOf (by omega)]
      congr 2
      omega
    cases K.resolved.block _ code hcode with
    | plain qs _ _ =>
      apply hbody
      rcases raInsertBefore_cases ir cfg _ (P.start_lt_end _ hb) with h | h <;> omega
    | taken target qsT qsF _ _ _ _ => exact hbody _ (by omega) _
    | branch qsF _ _ _ => exact hbody _ (by omega) _
  have hq : (raFixTargets ir st).compactInstructions[t.pc]? = some (ir.quad s.pc) := by
    rw [hpc]
    apply K.codeAt hcode
    rw [List.getElem?_map, hget, map_some, raFixJump_of_ne h1 h2]
  refine matched_exec K hs (hrel.reach hs) hrel.world hbranch hq hrel.regs [] [] fun _ =>
    ⟨.nil next, fun k q hk => (by cases hk), ?_, EdgeCopies.nil K.build fun _ => ?_⟩
  · rw [newIndex, if_pos (by omega), hsame, List.length_nil]
    omega
  · rw [hsame]
    omega

theorem ResolveCtx.agree_nil {σ τ : Vreg → Val} (h : AgreeAt sem ir cfg ssa i σ τ)
    (hqs : PhiSeq [] next qs) : AgreeAt sem ir cfg ssa i σ (execAssigns τ qs) := by
  intro v hv
  rw [hqs.frame Val τ v (fun c hc => (by cases hc))
    (hv.elim (fun h ht => absurd ht h) (live_alloc K.isSsa K.build))]
  exact h v hv

theorem ResolveCtx.edge_of_nil
    (h : raCollectPhiCopiesForPred cfg ssa (cfg.instrToBlock i) none = []) :
    EdgeCopies sem ir cfg ssa i j [] := by
  refine ⟨fun v s hs => ?_, fun c hc => (by cases hc)⟩
  have := mem_collect_of_phiSource K.isSsa K.build (.inl rfl) hs
  rwa [h] at this

theorem ResolveCtx.after_last (hs : i < ir.nextInstructionIndex)
    (hend : (cfg.blocks (cfg.instrToBlock i)).endIdx = i + 1) :
    (i + 1 < ir.nextInstructionIndex ∧ cfg.instrToBlock i + 1 < cfg.numBlocks ∧
        cfg.instrToBlock (i + 1) = cfg.instrToBlock i + 1 ∧
        (cfg.blocks (cfg.instrToBlock (i + 1))).startIdx = i + 1) ∨
      (i + 1 = ir.nextInstructionIndex ∧ ¬ cfg.instrToBlock i + 1 < cfg.numBlocks) := by
  have P := K.partition
  rcases Nat.lt_or_ge (i + 1) ir.nextInstructionIndex with h | h
  · obtain ⟨h1, h2, h3⟩ := P.next_block h hend
    exact .inl ⟨h, h1, h2, by rw [h2]; exact h3⟩
  · refine .inr ⟨by omega, fun hlt => ?_⟩
    have h1 := P.next _ hlt
    have h2 := P.start_lt_end _ hlt
    have h3 := P.end_le hlt
    omega

theorem ResolveCtx.edge_fallthrough (hs : i < ir.nextInstructionIndex)
    (hend : (cfg.blocks (cfg.instrToBlock i)).endIdx = i + 1) :
    EdgeCopies sem ir cfg ssa i (i + 1)
      (edgeCopies cfg ssa (cfg.instrToBlock i) (raFallthroughBlock cfg (cfg.instrToBlock i))) := by
  unfold raFallthroughBlock
  rcases K.after_last hs hend with ⟨h1, h2, h3, h4⟩ | ⟨h1, h2⟩
  · rw [if_pos h2, ← h3]
    exact .of_edge K.isSsa K.build h1 h4
  · rw [if_neg h2]
    exact .nil K.build fun h => absurd h (by omega)

end Blocks

end Tinycc
