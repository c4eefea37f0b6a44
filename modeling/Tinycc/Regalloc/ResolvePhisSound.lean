import Tinycc.Regalloc.PhiSteps

namespace Tinycc
open Lib Function List Option

section Last

variable {Val World : Type} {sem : IrSem Val World} {ir : TCCIRState} {cfg : IRCFG}
  {ssa : IRSSAState} {next : ℕ} {st : RaResolve} {codes : List (List IRQuadCompact)}
  {s t : IrState Val World} {qs : List IRQuadCompact}
  (K : ResolveCtx sem ir cfg ssa next st codes) (hs : s.pc < ir.nextInstructionIndex)
  (hrel : ResolveRel sem ir cfg ssa codes s t)
  (hend : (cfg.blocks (cfg.instrToBlock s.pc)).endIdx = s.pc + 1)
include K hs hend

theorem ResolveCtx.succ_last {b' : ℕ} (h : b' ∈ (cfg.blocks (cfg.instrToBlock s.pc)).succs) :
    (∃ z ∈ explicitTargets ir (ir.quad s.pc), 0 ≤ z ∧ z < ir.nextInstructionIndex ∧
        b' = cfg.instrToBlock z.toNat) ∨
      fallsThrough (ir.quad s.pc) = true ∧ b' = cfg.instrToBlock s.pc + 1 ∧
        cfg.instrToBlock s.pc + 1 < cfg.numBlocks := by
  have := succ_cases K.build (K.partition.index_lt s.pc hs) h
  rwa [hend] at this

theorem ResolveCtx.collect_of_exit (h1 : explicitTargets ir (ir.quad s.pc) = [])
    (h2 : fallsThrough (ir.quad s.pc) = false) :
    raCollectPhiCopiesForPred cfg ssa (cfg.instrToBlock s.pc) none = [] := by
  apply List.eq_nil_iff_forall_not_mem.mpr
  intro c hc
  obtain ⟨_, b', hb', _⟩ := mem_collect_none K.isSsa K.build hc
  rcases K.succ_last hs hend hb' with ⟨z, hz, _⟩ | ⟨hf, _⟩
  · rw [h1] at hz
    cases hz
  · rw [h2] at hf
    cases hf

include hrel

theorem ResolveRel.pc_last {code : List IRQuadCompact}
    (hcode : codes[cfg.instrToBlock s.pc]? = some code) :
    t.pc = codeOffset codes (cfg.instrToBlock s.pc) +
        (s.pc - (cfg.blocks (cfg.instrToBlock s.pc)).startIdx) ∧
      newIndex ir cfg codes (s.pc + 1) =
        codeOffset codes (cfg.instrToBlock s.pc) + code.length := by
  refine ⟨by rw [hrel.pc, newIndex, if_pos hs], ?_⟩
  rw [← hend]
  exact K.newIndex_end (K.partition.index_lt s.pc hs) hcode

theorem matched_last_plain (hop : (ir.quad s.pc).op.isTerminator = false)
    (hqs : PhiSeq (raCollectPhiCopiesForPred cfg ssa (cfg.instrToBlock s.pc) none) next qs)
    (hq : (raFixTargets ir st).compactInstructions[t.pc]? = some (ir.quad s.pc))
    (hcode : CodeAt (raFixTargets ir st).compactInstructions (t.pc + 1) qs)
    (hnew : newIndex ir cfg codes (s.pc + 1) = t.pc + 1 + qs.length) :
    Matched sem ir cfg ssa st codes s t := by
  have hne : ∀ op : TccIrOp, op.isTerminator = true → (ir.quad s.pc).op ≠ op := fun op h e => by
    rw [e, h] at hop
    cases hop
  have hbranch : (ir.quad s.pc).op.isBranch = false := by
    by_contra h
    rcases (isBranch_iff _).mp (by simpa using h) with h | h | h
    all_goals exact hne _ rfl h
  have htargets : explicitTargets ir (ir.quad s.pc) = [] := by
    unfold explicitTargets
    rw [if_neg (by rintro (h | h) <;> exact hne _ rfl h)]
    split
    · exact (K.isSsa.supported s.pc hs).2.2.2
    · rw [if_neg (hne _ rfl)]
  refine matched_exec K hs (hrel.reach hs) hrel.world hbranch hq hrel.regs _ _ fun _ => ⟨hqs, hcode, hnew,
    .of_block K.isSsa K.build fun b' hb' phi hphi _ => .inl ?_⟩
  rcases K.succ_last hs hend hb' with ⟨z, hz, _⟩ | ⟨_, rfl, hlt⟩
  · rw [htargets] at hz
    cases hz
  · rcases K.after_last hs hend with ⟨h1, _, h3, h4⟩ | ⟨_, h2⟩
    · exact ⟨h1, h4, h3.symm⟩
    · exact absurd hlt h2

theorem matched_last_terminator (hop : (ir.quad s.pc).op.isTerminator = true)
    (hjumpif : ¬ (0 < copiesPerBlock cfg ssa (cfg.instrToBlock s.pc) ∧
      (ir.quad s.pc).op = .jumpif))
    (hqs : PhiSeq (raCollectPhiCopiesForPred cfg ssa (cfg.instrToBlock s.pc) none) next qs)
    (hcode : CodeAt (raFixTargets ir st).compactInstructions t.pc
      (qs ++ [raFixJump ir.nextInstructionIndex st (ir.quad s.pc)]))
    (hnew : newIndex ir cfg codes (s.pc + 1) = t.pc + qs.length + 1) :
    Matched sem ir cfg ssa st codes s t := by
  -- the terminator comes after all the copies of the block
  have hruns := runs_phiCopies K.copies hqs.form hcode.left t.regs t.world
  refine Matched.of_runs (hruns.mono fun u hu => hu.trans hrel.world) ?_
  have hquad := hcode.right.head
  have hsucc : ∀ {j : ℕ}, (j < ir.nextInstructionIndex → Transfer ir s.pc j) →
      (ir.quad s.pc).op.isBranch = true → EdgeCopies sem ir cfg ssa s.pc j
        (raCollectPhiCopiesForPred cfg ssa (cfg.instrToBlock s.pc) none) →
      AgreeAt sem ir cfg ssa j (ssa.onEdge cfg s.pc j s.regs) (execAssigns t.regs qs) :=
    fun ht hbranch E => agree_goto K.isSsa K.build (hrel.regs.after_branch hbranch) ht
      (E.moves K.isSsa K.build hqs t.regs)
  cases hq : (ir.quad s.pc).op
  case jump =>
    refine matched_jump K hs (hrel.reach hs) hrel.world hq hquad fun j hj => ?_
    have htargets : explicitTargets ir (ir.quad s.pc) = [(j : ℤ)] := by
      unfold explicitTargets
      rw [if_pos (.inl hq), hj]
    refine hsucc (fun hlt => .jump hs hlt hq hj) (by rw [hq]; rfl)
      (.of_block K.isSsa K.build fun b' hb' phi _ _ => .inl ?_)
    rcases K.succ_last hs hend hb' with ⟨z, hz, h0, hlt, hb⟩ | ⟨hf, _⟩
    · rw [htargets] at hz
      obtain rfl := List.mem_singleton.mp hz
      have hstart := K.target_start hs (by rw [htargets]; exact hz) h0 hlt
      exact ⟨by omega, hstart, hb⟩
    · simp [fallsThrough, hq] at hf
  case jumpif =>
    have hnil : raCollectPhiCopiesForPred cfg ssa (cfg.instrToBlock s.pc) none = [] :=
      List.length_eq_zero_iff.mp (Nat.eq_zero_of_not_pos fun h => hjumpif ⟨h, hq⟩)
    rw [hnil] at hqs
    exact matched_jumpif K hs (hrel.reach hs) hrel.world hq hquad (K.agree_nil hrel.regs hqs)
      (fun j _ => K.edge_of_nil hnil) (.nil next) (fun k q hk => (by cases hk)) hnew
      (K.edge_of_nil hnil)
  case switchTable =>
    rw [raFixJump_of_ne (by rw [hq]; decide) (by rw [hq]; decide)] at hquad
    have hswitch : SwitchAt ir s.pc := ⟨hs, hq, hrel.reach hs⟩
    refine matched_switchTable K hs (hrel.reach hs) hrel.world hq hquad (fun v hv => ?_) fun j ht => ?_
    · rw [hrel.regs.uses hs v hv]
      refine (hqs.unchanged t.regs v (fun c hc e => ?_) ?_).symm
      · obtain ⟨htemp, b', _, _, hlt, phi, hphi, hop, hdest⟩ := mem_collect_none K.isSsa K.build hc
        rcases hv with hv | hv
        · by_contra hne
          rw [e, ← hdest] at hv
          exact K.safe.index s.pc hswitch b' hlt phi hphi ⟨_, hop, hdest ▸ hne⟩ hv
        · exact absurd (e ▸ htemp) hv
      · exact hv.elim (K.isSsa.use_temp s.pc hs v) fun h ht => absurd ht h
    · refine hsucc (fun _ => ht) (by rw [hq]; rfl)
        (.of_block K.isSsa K.build fun b' hb' phi hphi hne => ?_)
      have hlt := ((mem_preds_iff K.build).mpr ((mem_succs_iff K.build).mp hb'))
      have hb'lt : b' < cfg.numBlocks := cfgTargets_lt K.build ((mem_preds_iff K.build).mp hlt).2
      by_cases hb : b' = cfg.instrToBlock j
      · left
        rcases ht.cases with ⟨_, _, hf⟩ | ⟨_, hjlt, hz, _⟩
        · simp [fallsThrough, hq] at hf
        · have hstart := K.target_start hs hz (by omega) (by omega)
          exact ⟨hjlt, hstart, hb⟩
      · exact .inr (K.safe.live s.pc hswitch j ht b' hb'lt hb phi hphi hne)
  case ijump => exact absurd hq (K.isSsa.supported s.pc hs).1
  case returnvalue | returnvoid =>
    have hnil := K.collect_of_exit hs hend (by simp [explicitTargets, hq]) (by simp [fallsThrough, hq])
    rw [hnil] at hqs
    rw [raFixJump_of_ne (by rw [hq]; decide) (by rw [hq]; decide)] at hquad
    refine matched_exec K hs (hrel.reach hs) hrel.world (by rw [hq]; rfl) hquad
      (K.agree_nil hrel.regs hqs) [] []
      fun hf => ?_
    simp [fallsThrough, hq] at hf
  all_goals
    rw [hq] at hop
    cases hop

theorem matched_last : Matched sem ir cfg ssa st codes s t := by
  have P := K.partition
  have hb := P.index_lt s.pc hs
  have hstart := P.start_le s.pc hs
  obtain ⟨code, hcode⟩ := K.exists_code hb
  obtain ⟨hpc, hnew⟩ := hrel.pc_last K hs hend hcode
  have hat := K.codeAt hcode
  have hlast : (cfg.blocks (cfg.instrToBlock s.pc)).endIdx - 1 = s.pc := by omega
  have hfits := K.newIndex_lt (i := s.pc + 1) (by omega) fun hlt => by
    rcases K.after_last hs hend with ⟨_, _, _, h⟩ | ⟨h, _⟩
    · exact h
    · omega
  cases K.resolved.block _ code hcode with
  | plain qs hj hqs =>
    rw [hlast] at hj
    rw [map_append, map_append, map_raFixJump_phi hqs.form] at hat
    simp only [length_append, length_quadsOf] at hnew
    -- the copies go before a terminator, and behind any other instruction
    rcases raInsertBefore_cases ir cfg _ (P.start_lt_end _ hb) with ⟨hib, hterm⟩ | ⟨hib, hterm⟩
    · rw [hlast] at hib hterm
      rw [hib] at hat hnew
      refine matched_last_terminator K hs hrel hend hterm hj hqs ?_ (by omega)
      have hcodeT := hat.right
      rw [length_map, length_quadsOf, ← hpc, hend] at hcodeT
      have hquads : quadsOf ir s.pc (s.pc + 1) = [ir.quad s.pc] := quadsOf_last (Nat.succ_pos _)
      rwa [hquads] at hcodeT
    · rw [hlast] at hterm
      rw [hib] at hat hnew
      refine matched_last_plain K hs hrel hend hterm hqs ?_ ?_ (by omega)
      · rw [hpc]
        apply hat
        rw [List.getElem?_append_left (by rw [length_map, length_quadsOf]; omega),
          List.getElem?_map, getElem?_quadsOf (by omega), map_some,
          Nat.add_sub_cancel' hstart, raFixJump_of_ne]
        · intro h
          rw [h] at hterm
          cases hterm
        · intro h
          rw [h] at hterm
          cases hterm
      · have hcodeT := hat.right.left
        rw [length_map, length_quadsOf] at hcodeT
        rwa [show t.pc + 1 = codeOffset codes (cfg.instrToBlock s.pc) +
          ((cfg.blocks (cfg.instrToBlock s.pc)).endIdx -
            (cfg.blocks (cfg.instrToBlock s.pc)).startIdx) by omega]
  | taken target qsT qsF hop htarget hqsT hqsF =>
    -- the copies of the taken edge are skipped on the way through
    rw [hlast] at hop htarget hat hnew
    simp only [length_append, length_cons, length_quadsOf, length_nil] at hnew
    refine matched_taken K hs (hrel.reach hs) hrel.world hop hrel.regs ?_ (by omega) hqsT hqsF
      (fun j hj => ?_)
      (by omega) (K.edge_fallthrough hs hend)
    · rw [map_append] at hat
      have hcodeT := hat.right
      rw [length_map, length_quadsOf, ← hpc] at hcodeT
      simpa only [map_append, map_cons, map_nil, map_raFixJump_phi hqsT.form,
        map_raFixJump_phi hqsF.form] using hcodeT
    · unfold raTargetBlock at htarget
      rw [hj] at htarget
      split at htarget
      · next h =>
        obtain rfl := some.inj htarget
        have hz : ((j : ℕ) : ℤ) ∈ explicitTargets ir (ir.quad s.pc) := by
          unfold explicitTargets
          rw [if_pos (.inr hop), hj]
          exact List.mem_singleton.mpr rfl
        have hstart := K.target_start hs hz h.1 h.2
        exact .of_edge K.isSsa K.build (by omega) hstart
      · cases htarget
  | branch qsF hop hnil hqsF =>
    -- only the edge that falls through has copies
    rw [hlast] at hop hnil hat hnew
    simp only [length_append, length_cons, length_quadsOf, length_nil] at hnew
    rw [map_append, map_append, map_raFixJump_phi hqsF.form] at hat
    have hcodeF := hat.right
    rw [length_map, length_quadsOf, ← hpc] at hcodeF
    refine matched_jumpif K hs (hrel.reach hs) hrel.world hop hcodeF.left.head hrel.regs
      (fun j hj => ?_) hqsF
      hcodeF.right (by omega) (K.edge_fallthrough hs hend)
    refine ⟨fun v s' hv => ?_, fun c hc => (by cases hc)⟩
    obtain ⟨hjlt, _⟩ := phiSource_eq_some K.build hv
    have := mem_collect_of_phiSource K.isSsa K.build (.inr rfl) hv
    rw [raTargetBlock, hj, if_pos (by omega)] at hnil
    rwa [show raCollectPhiCopiesForPred cfg ssa (cfg.instrToBlock s.pc)
      (some (cfg.instrToBlock j)) = [] from hnil] at this

end Last

section Simulation

variable {Val World : Type} {sem : IrSem Val World} {ir : TCCIRState} {cfg : IRCFG}
  {ssa : IRSSAState} {next : ℕ} {st : RaResolve} {codes : List (List IRQuadCompact)}
  {s t : IrState Val World} (K : ResolveCtx sem ir cfg ssa next st codes)
include K

theorem matched_of_rel (hrel : ResolveRel sem ir cfg ssa codes s t) :
    Matched sem ir cfg ssa st codes s t := by
  rcases Nat.lt_or_ge s.pc ir.nextInstructionIndex with hs | hs
  · have P := K.partition
    have hlt := P.lt_end s.pc hs
    rcases Nat.lt_or_ge (s.pc + 1) (cfg.blocks (cfg.instrToBlock s.pc)).endIdx with h | h
    · exact matched_inner K hs hrel h
    · exact matched_last K hs hrel (by omega)
  · have h1 : sem.ssaMachine ir cfg ssa s = .inr s.world := IrSem.machine_of_ge hs
    have h2 : sem.flatMachine (raFixTargets ir st) t = .inr t.world := by
      apply IrSem.machine_of_ge
      rw [K.nextInstructionIndex, hrel.pc, newIndex, if_neg (by omega)]
      omega
    exact .of_stop h1 (hrel.world ▸ h2) hrel.world

theorem resolve_simulation :
    Simulation (sem.ssaMachine ir cfg ssa) (sem.flatMachine (raFixTargets ir st)) IrState.world
      IrState.world (ResolveRel sem ir cfg ssa codes) where
  obs hrel := hrel.world.symm
  step hrel hs' := (matched_of_rel K hrel).1 _ hs'
  halt hrel hr := (matched_of_rel K hrel).2 _ hr

theorem resolveRel_entry (σ : Vreg → Val) (w : World) :
    ResolveRel sem ir cfg ssa codes ⟨0, σ, w⟩ ⟨0, σ, w⟩ := by
  have P := K.partition
  refine ⟨?_, Nat.zero_le _, fun _ => .refl, rfl, fun _ _ => rfl⟩
  have := K.newIndex_start P.pos
  rw [P.start_zero] at this
  exact this.symm

end Simulation

section Correct

variable {Val World : Type} {sem : IrSem Val World} {ir : TCCIRState} {cfg : IRCFG}
  {ssa : IRSSAState} {next : ℕ}

theorem phiSource_of_no_copies (hbuild : tccIrCfgBuild ir = .ok (some cfg))
    (S : IsSsa sem ir cfg ssa next) (h : ∀ b < cfg.numBlocks, copiesPerBlock cfg ssa b = 0)
    (i j : ℕ) (v : Vreg) : ssa.phiSource cfg i j v = none := by
  cases hs : ssa.phiSource cfg i j v with
  | none => rfl
  | some s =>
    obtain ⟨c, hc, _⟩ := mem_collect_of_phiSource S hbuild (.inl rfl) hs
    obtain ⟨_, b', hb', _⟩ := mem_collect_none S hbuild hc
    have hlt := ((mem_succs_iff hbuild).mp hb').1
    rw [List.length_eq_zero_iff.mp (h _ hlt)] at hc
    cases hc

/-- Where the old instructions are and what the machines agree on, for every run. -/
def ResolvesTo (sem : IrSem Val World) (ir : TCCIRState) (cfg : IRCFG) (ssa : IRSSAState)
    (ir' : TCCIRState) : Prop :=
  ∃ place : ℕ → ℕ, ∀ (σ : Vreg → Val) (w : World),
    SameBehaviour (sem.ssaMachine ir cfg ssa) (sem.flatMachine ir') IrState.world IrState.world
      ⟨0, σ, w⟩ ⟨0, σ, w⟩ ∧
    ∀ s, (sem.ssaMachine ir cfg ssa).Reaches ⟨0, σ, w⟩ s →
      ∃ t, (sem.flatMachine ir').Reaches ⟨0, σ, w⟩ t ∧ t.pc = place s.pc ∧ t.world = s.world ∧
        ∀ v, v.type ≠ .temp ∨ LiveAt sem ir cfg ssa v s.pc → t.regs v = s.regs v

/-- Unless the temporaries run out, the function without phis behaves as the one with them: what is
read after an edge has the value the phis give it, all at once. -/
theorem raResolvePhis_correct (sem : IrSem Val World) (hsem : CopiesValues sem) (ir : TCCIRState)
    (cfg : IRCFG) (ssa : IRSSAState) (nextTemp : ℕ) (stackLocations : List ℤ)
    (hbuild : tccIrCfgBuild ir = .ok (some cfg)) (hssa : IsSsa sem ir cfg ssa nextTemp)
    (hsafe : SwitchSafe sem ir cfg ssa) :
    raResolvePhis ir cfg ssa nextTemp stackLocations = some (.error vregPositionError) ∨
      ∃ r, raResolvePhis ir cfg ssa nextTemp stackLocations = some (.ok r) ∧
        (∀ i j v, r.ssa.phiSource cfg i j v = none) ∧
        (r.ir.nextInstructionIndex < 0x80000000 → ResolvesTo sem ir cfg ssa r.ir) := by
  unfold raResolvePhis
  split
  · next h =>
    -- without copies no phi has a source, and the function is left as it is
    have hnone := phiSource_of_no_copies hbuild hssa h
    refine .inr ⟨_, rfl, hnone, fun _ => ⟨id, fun σ w => ?_⟩⟩
    have hmachine : sem.ssaMachine ir cfg ssa = sem.flatMachine ir := by
      unfold IrSem.ssaMachine IrSem.flatMachine
      congr 1
      funext i j σ v
      rw [IRSSAState.onEdge, hnone]
      rfl
    rw [hmachine]
    exact ⟨⟨fun _ => Iff.rfl, fun _ => Iff.rfl⟩, fun s hs => ⟨s, hs, rfl, rfl, fun _ _ => rfl⟩⟩
  · next hcopies =>
    simp only [not_forall] at hcopies
    obtain ⟨b, hb, hcopied⟩ := hcopies
    dsimp only
    obtain ⟨st₀, hst₀⟩ : ∃ st₀ : RaResolve, st₀ =
      ⟨⟨[], nextTemp, raFindPhiSpillCursor ir stackLocations⟩, fun _ => 0⟩ := ⟨_, rfl⟩
    rw [← hst₀]
    have hempty : st₀.out.instrs = [] := by rw [hst₀]
    have hnext : nextTemp ≤ st₀.out.nextTemporaryVariable := by rw [hst₀]
    rcases raResolveBlocks_spec (tccIrCfgBuild_isPartition hbuild) hssa.toPhisWf hempty hnext
      cfg.numBlocks (Nat.le_refl _) with
      h | ⟨st, codes, h, hlen, R⟩
    · exact .inl (by rw [h]; rfl)
    · refine .inr ⟨_, by rw [h]; rfl, fun i j v => ?_, fun hfits => ?_⟩
      · unfold IRSSAState.phiSource
        cases IRSSAState.blockAt cfg j <;> rfl
      · have hwp : st.wp < 0x80000000 := by
          rw [TCCIRState.nextInstructionIndex] at hfits
          simpa [raFixTargets, RaResolve.wp] using hfits
        have K : ResolveCtx sem ir cfg ssa nextTemp st codes :=
          ⟨hbuild, hssa, hsem, ⟨b, hb, hcopied⟩, hsafe, R, hlen, hwp⟩
        refine ⟨newIndex ir cfg codes, fun σ w => ?_⟩
        have hentry := resolveRel_entry K σ w
        refine ⟨(resolve_simulation K).sameBehaviour hentry, fun s hs => ?_⟩
        obtain ⟨t, ht, hrel⟩ := (resolve_simulation K).reaches hentry hs
        exact ⟨t, ht, hrel.pc, hrel.world, fun v hv => (hrel.regs v hv).symm⟩

end Correct

def moveValue (op : IROperand) (σ : Vreg → ℤ) : ℤ :=
  match op.vreg with
  | some v => σ v
  | none => op.getImmInt

def moveExec (q : IRQuadCompact) (σ : Vreg → ℤ) (w : Option ℤ) :
    Except (Option ℤ) ((Vreg → ℤ) × Option ℤ) :=
  if q.op = .assign then
    match q.dest.vreg with
    | some d => .ok (update σ d (moveValue q.src1 σ), w)
    | none => .ok (σ, w)
  else if q.op = .returnvalue then .ok (σ, some (moveValue q.src1 σ))
  else .ok (σ, w)

theorem moveValue_congr {op : IROperand} {σ τ : Vreg → ℤ} (h : ∀ v, op.vreg = some v → σ v = τ v) :
    moveValue op σ = moveValue op τ := by
  unfold moveValue
  split
  · next v hv => exact h v hv
  · rfl

def moveRegs (q : IRQuadCompact) (x : ℤ) (σ : Vreg → ℤ) (v : Vreg) : ℤ :=
  if q.op = .assign ∧ q.dest.vreg = some v then x else σ v

theorem moveExec_eq (q : IRQuadCompact) (σ : Vreg → ℤ) (w : Option ℤ) :
    moveExec q σ w = .ok (moveRegs q (moveValue q.src1 σ) σ,
      if q.op = .returnvalue then some (moveValue q.src1 σ) else w) := by
  unfold moveExec moveRegs
  by_cases hop : q.op = .assign
  · cases hd : q.dest.vreg with
    | none => simp [hop]
    | some d =>
      simp only [hop, true_and, if_true, some.injEq, reduceCtorEq, if_false]
      congr 2
      funext v
      rw [update_apply]
      simp only [eq_comm]
  · by_cases hr : q.op = .returnvalue <;> simp [hop, hr]

def moveSem : IrSem ℤ (Option ℤ) where
  exec := moveExec
  switchIndex q σ _ := moveValue q.src1 σ
  flags _ := default
  uses q := { v | q.src1.vreg = some v }
  defs q := { v | q.op = .assign ∧ q.dest.vreg = some v }
  exec_error _ h := by
    rw [moveExec_eq] at h
    cases h
  exec_ok {q σ τ σ' w w'} hagree h := by
    rw [moveExec_eq, moveValue_congr fun v hv => hagree v (.inl hv)] at h
    cases h
    refine ⟨_, moveExec_eq q τ w, fun v hv => ?_⟩
    unfold moveRegs
    split
    · rfl
    · next hnot => exact hagree v (.inr (hv.resolve_left hnot))
  exec_frame h v _ hv := by
    rw [moveExec_eq] at h
    cases h
    exact if_neg hv
  defs_branch {q} h := by
    apply Set.eq_empty_of_forall_notMem
    rintro v ⟨hop, _⟩
    rw [hop] at h
    simp at h
  switchIndex_congr _ h := moveValue_congr fun v hv => h v (.inl hv)

theorem moveSem_copiesValues : CopiesValues moveSem := fun _ _ _ _ _ => rfl

def IROperand.immOf (op : IROperand) : Option (BitVec 32) :=
  match op.data with
  | .imm32 v => some v
  | _ => .none

theorem IROperand.data_of_immOf {op : IROperand} {v : BitVec 32} (h : v ∈ op.immOf) :
    op.data = .imm32 v := by
  unfold immOf at h
  split at h
  · next hd => rw [hd, mem_some_iff.mp h]
  · cases h

/-- `IsSsa` for functions of moves, in a form that can be computed: the phis and the instructions. -/
def movePhisCheck (cfg : IRCFG) (ssa : IRSSAState) (nextTemp : ℕ) : Bool :=
  decide <|
    (∀ b < cfg.numBlocks, ∀ phi ∈ ssa.blockPhis b,
      (∀ o ∈ phi.operands, ∀ p ∈ o.predBlock, ∀ _ ∈ o.vreg, p ∈ (cfg.blocks b).preds) ∧
      (phi.operands.filterMap fun o => if o.vreg.isSome then o.predBlock else none).Nodup ∧
      (phi.destVreg.type = .temp ∧ phi.destVreg.position < nextTemp) ∧
      ∀ o ∈ phi.operands, ∀ s ∈ o.vreg, s.type = .temp → s.position < nextTemp) ∧
    ((List.range cfg.numBlocks).flatMap fun b =>
      (ssa.blockPhis b).map IRPhiNode.destVreg).Nodup

def moveInstrsCheck (ir : TCCIRState) (nextTemp : ℕ) : Bool :=
  decide <| ∀ i < ir.nextInstructionIndex,
    (∀ v ∈ (ir.quad i).src1.vreg, v.type = .temp → v.position < nextTemp) ∧
    ((ir.quad i).op = .jump ∨ (ir.quad i).op = .jumpif →
      (ir.quad i).dest.immOf.any fun (v : BitVec 32) =>
        0 ≤ v.toInt ∧ v.toInt ≤ (ir.nextInstructionIndex : ℤ)) ∧
    ((ir.quad i).op = .jumpif → (ir.quad i).src1.immOf ≠ none) ∧
    (ir.quad i).op ≠ .ijump ∧ (ir.quad i).op ≠ .setjmp ∧ (ir.quad i).op ≠ .nlSetjmp ∧
      ir.asmGotoTargets (ir.quad i) = []

theorem isSsa_of_check {ir : TCCIRState} {cfg : IRCFG} {ssa : IRSSAState} {nextTemp : ℕ}
    (hphis : movePhisCheck cfg ssa nextTemp = true)
    (hinstrs : moveInstrsCheck ir nextTemp = true) : IsSsa moveSem ir cfg ssa nextTemp := by
  obtain ⟨hphi, honce⟩ := of_decide_eq_true hphis
  have hinstr := of_decide_eq_true hinstrs
  exact {
    pred_edge := fun b hb phi hp o ho p s hop hos => (hphi b hb phi hp).1 o ho p hop s hos
    pred_once := fun b hb phi hp => (hphi b hb phi hp).2.1
    dest_once := honce
    dest_temp := fun b hb phi hp => (hphi b hb phi hp).2.2.1
    operand_temp := fun b hb phi hp o ho s hs => (hphi b hb phi hp).2.2.2 o ho s hs
    use_temp := fun i hi v hv => (hinstr i hi).1 v hv
    jump_target := fun i hi hop => by
      obtain ⟨v, hv, hrange⟩ := (Option.any_eq_true ..).mp ((hinstr i hi).2.1 hop)
      exact ⟨v, IROperand.data_of_immOf hv, of_decide_eq_true hrange⟩
    jump_cond := fun i hi hop => by
      obtain ⟨v, hv⟩ := Option.ne_none_iff_exists'.mp ((hinstr i hi).2.2.1 hop)
      exact ⟨v, IROperand.data_of_immOf hv⟩
    supported := fun i hi => (hinstr i hi).2.2.2 }

def temp (i : ℕ) : Vreg := ⟨.temp, i⟩

def moveImm (i d : ℕ) (v : BitVec 32) : IRQuadCompact :=
  ⟨.assign, i, .temp d, .int v, .none, .none⟩

def returnTemp (i s : ℕ) : IRQuadCompact :=
  ⟨.returnvalue, i, .none, .temp s, .none, .none⟩

def switchOnOne (i : ℕ) : IRQuadCompact :=
  ⟨.switchTable, i, .none, .int 1, .int 0, .none⟩

def onePhi (operands : List IRPhiOperand) : IRSSAState :=
  { blockPhis := fun b => if b = 1 then [⟨temp 1, ⟨.var, 0⟩, operands, .int32⟩] else [],
    nextSsaVreg := 3, isPromotable := fun _ => true, varStoreDefOk := fun _ => 4, numVars := 1 }

def switchLoop : TCCIRState :=
  { compactInstructions := [moveImm 0 0 5, moveImm 1 2 7, switchOnOne 2, returnTemp 3 1],
    switchTables := [⟨0, 1, 3, [1, 3]⟩] }

def switchLoopPhi : IRSSAState := onePhi [⟨some (temp 0), some 0⟩, ⟨some (temp 2), some 1⟩]

def switchToEnd : TCCIRState :=
  { compactInstructions := [moveImm 0 0 5, switchOnOne 1, returnTemp 2 1],
    switchTables := [⟨0, 1, 3, [2, 3]⟩] }

def switchToEndPhi : IRSSAState := onePhi [⟨some (temp 0), some 0⟩]

/-- A loop around its table, with two phis that swap their values on the way back. -/
def tableLoop : TCCIRState :=
  { compactInstructions := [moveImm 0 0 1, moveImm 1 2 7,
      ⟨.switchTable, 2, .none, .temp 0, .int 0, .none⟩,
      returnTemp 3 2],
    switchTables := [⟨0, 1, 3, [2, 3]⟩] }

def tableLoopPhis : IRSSAState :=
  { blockPhis := fun b => if b = 1 then
      [⟨temp 1, ⟨.var, 0⟩, [⟨some (temp 0), some 0⟩, ⟨some (temp 3), some 1⟩], .int32⟩,
        ⟨temp 3, ⟨.var, 1⟩, [⟨some (temp 2), some 0⟩, ⟨some (temp 1), some 1⟩], .int32⟩] else [],
    nextSsaVreg := 4, isPromotable := fun _ => true, varStoreDefOk := fun _ => 4, numVars := 2 }

theorem tableLoop_switchSafe {cfg : IRCFG} (hblock : cfg.instrToBlock 2 = 1) :
    SwitchSafe moveSem tableLoop cfg tableLoopPhis := by
  -- the copies of the way back are made on the way out too, but there nothing reads them
  have hat : ∀ i, SwitchAt tableLoop i → i = 2 := by
    have : ∀ i < 4, (tableLoop.quad i).op = .switchTable → i = 2 := by decide
    exact fun i hi => this i hi.1 hi.2.1
  have hphi : ∀ {b phi}, phi ∈ tableLoopPhis.blockPhis b →
      b = 1 ∧ (phi.destVreg = temp 1 ∨ phi.destVreg = temp 3) := by
    intro b phi h
    unfold tableLoopPhis at h
    dsimp only at h
    split at h
    · next hb =>
      simp only [mem_cons, not_mem_nil, or_false] at h
      rcases h with rfl | rfl
      · exact ⟨hb, .inl rfl⟩
      · exact ⟨hb, .inr rfl⟩
    · cases h
  have hexit : ∀ v, LiveAt moveSem tableLoop cfg tableLoopPhis v 3 → v = temp 2 := by
    intro v h
    generalize hi : 3 = i at h
    cases h with
    | use _ hv =>
      subst hi
      exact (some.inj hv).symm
    | @edge v i j ht _ _ =>
      subst hi
      rcases ht.cases with ⟨_, _, hf⟩ | ⟨_, _, hz, _⟩
      · cases hf
      · cases hz
  refine ⟨fun _ i hi table htable t ht => ?_, fun i hi b _ phi hmem _ hu => ?_,
    fun i hi j ht b _ hne phi hmem _ hlive => ?_⟩
  · obtain rfl := hat i hi
    cases htable
    have : ∀ t ∈ [(2 : ℤ), 3], t < 4 := by decide
    exact this t ht
  · obtain rfl := hat i hi
    have h0 : temp 0 = phi.destVreg := some.inj hu
    rcases (hphi hmem).2 with h | h
    · rw [h] at h0
      cases h0
    · rw [h] at h0
      cases h0
  · obtain rfl := hat i hi
    rcases ht.cases with ⟨_, _, hf⟩ | ⟨_, _, hz, _⟩
    · cases hf
    · have hj : (j : ℤ) ∈ [(2 : ℤ), 3] := hz
      simp only [mem_cons, not_mem_nil, or_false] at hj
      rcases hj with hj | hj
      · obtain rfl : j = 2 := by omega
        exact hne ((hphi hmem).1.trans hblock.symm)
      · obtain rfl : j = 3 := by omega
        have h2 := hexit _ hlive
        rcases (hphi hmem).2 with h | h
        · rw [h] at h2
          cases h2
        · rw [h] at h2
          cases h2

theorem raResolvePhis_correct_tableLoop :
    ∃ cfg r, tccIrCfgBuild tableLoop = .ok (some cfg) ∧
      raResolvePhis tableLoop cfg tableLoopPhis 4 [] = some (.ok r) ∧
      (∀ i j v, r.ssa.phiSource cfg i j v = none) ∧
      ResolvesTo moveSem tableLoop cfg tableLoopPhis r.ir := by
  obtain ⟨cfg, r, h, hr, hphis, hn, hblock⟩ : ∃ cfg r, tccIrCfgBuild tableLoop = .ok (some cfg) ∧
      raResolvePhis tableLoop cfg tableLoopPhis 4 [] = some (.ok r) ∧
      movePhisCheck cfg tableLoopPhis 4 = true ∧
      r.ir.nextInstructionIndex < 0x80000000 ∧ cfg.instrToBlock 2 = 1 :=
    ⟨_, _, rfl, rfl, by decide, by decide, by decide⟩
  rcases raResolvePhis_correct moveSem moveSem_copiesValues tableLoop cfg tableLoopPhis 4 [] h
    (isSsa_of_check hphis (by decide)) (tableLoop_switchSafe hblock) with herr | ⟨r', hr', hnone, hto⟩
  · rw [hr] at herr
    cases herr
  · obtain rfl : r = r' := Except.ok.inj (some.inj (hr.symm.trans hr'))
    exact ⟨cfg, r, h, hr, hnone, hto hn⟩

theorem not_resolvesTo_of_halts {Val World : Type} {sem : IrSem Val World} {ir ir' : TCCIRState}
    {cfg : IRCFG} {ssa : IRSSAState} {σ : Vreg → Val} {w r r' : World}
    (h : (sem.ssaMachine ir cfg ssa).Halts ⟨0, σ, w⟩ r)
    (h' : (sem.flatMachine ir').Halts ⟨0, σ, w⟩ r') (hne : r ≠ r') :
    ¬ ResolvesTo sem ir cfg ssa ir' := fun ⟨_, hto⟩ =>
  hne (((hto σ w).1.1 r).mp h |>.unique h')

/-- The copies before a table are made on every way out of it, and the way to the end is not moved. -/
theorem raResolvePhis_switch_not_correct :
    (∃ cfg r, tccIrCfgBuild switchLoop = .ok (some cfg) ∧
      IsSsa moveSem switchLoop cfg switchLoopPhi 3 ∧
      raResolvePhis switchLoop cfg switchLoopPhi 3 [] = some (.ok r) ∧
      r.ir.nextInstructionIndex < 0x80000000 ∧
      ¬ ResolvesTo moveSem switchLoop cfg switchLoopPhi r.ir) ∧
    ∃ cfg r, tccIrCfgBuild switchToEnd = .ok (some cfg) ∧
      IsSsa moveSem switchToEnd cfg switchToEndPhi 3 ∧
      raResolvePhis switchToEnd cfg switchToEndPhi 3 [] = some (.ok r) ∧
      r.ir.nextInstructionIndex < 0x80000000 ∧
      ¬ ResolvesTo moveSem switchToEnd cfg switchToEndPhi r.ir := by
  constructor
  · refine ⟨_, _, rfl, isSsa_of_check (by decide) (by decide), rfl, by decide, ?_⟩
    apply @not_resolvesTo_of_halts _ _ _ _ _ _ _ (fun _ => 0) none (some 5) (some 7)
      ⟨4, rfl⟩ ⟨7, rfl⟩
    decide
  · refine ⟨_, _, rfl, isSsa_of_check (by decide) (by decide), rfl, by decide, ?_⟩
    apply @not_resolvesTo_of_halts _ _ _ _ _ _ _ (fun _ => 0) none none (some 5) ⟨4, rfl⟩ ⟨7, rfl⟩
    decide

end Tinycc
