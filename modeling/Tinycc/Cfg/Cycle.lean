import Tinycc.Cfg.Rpo
import Tinycc.Lib.TopoSort

namespace Tinycc
open Lib Relation List

def unknownSuccessors (q : IRQuadCompact) : Bool :=
  q.op = .ijump || q.op = .switchTable || q.op = .switchLoad

def flatBackedgeAt (ir : TCCIRState) (i : ℕ) : Bool :=
  let q := ir.quad i
  (q.op = .inlineAsm && (ir.asmGotoTargets q).any fun target => target ≤ i) ||
    unknownSuccessors q ||
    ((q.op = .jump || q.op = .jumpif) &&
      (0 ≤ q.getDest.getImmInt && q.getDest.getImmInt ≤ i : Bool))

def tccIrCfgFlatHasBackedge (ir : TCCIRState) : Bool :=
  (List.range ir.nextInstructionIndex).any (flatBackedgeAt ir)

/-- `tcc_ir_cfg_has_cycle`; `workInit` says whether the work sequence could be allocated. -/
def tccIrCfgHasCycle (ir : TCCIRState) (workInit : Bool) : Except String Bool :=
  if !tccIrCfgFlatHasBackedge ir then .ok false
  else if (List.range ir.nextInstructionIndex).any fun i => unknownSuccessors (ir.quad i) then
    .ok true
  else
    (tccIrCfgBuild ir).map fun built =>
      match built with
      | none => false
      | some cfg =>
        if workInit then
          let work := kahn (fun b => (cfg.blocks b).succs) (List.range cfg.numBlocks)
          work.map (·.queue.length) ≠ some cfg.numBlocks
        else true

/-- One step of control inside a function; an indirect jump may go anywhere. -/
inductive FlowStep (ir : TCCIRState) : ℕ → ℕ → Prop
  | transfer {i j : ℕ} : Transfer ir i j → FlowStep ir i j
  | ijump {i j : ℕ} : i < ir.nextInstructionIndex → j < ir.nextInstructionIndex →
      (ir.quad i).op = .ijump → FlowStep ir i j
  | switchDefault {i j : ℕ} {table : TCCIRSwitchTable} :
      i < ir.nextInstructionIndex → j < ir.nextInstructionIndex → (ir.quad i).op = .switchTable →
      TCCIRState.lookup ir.switchTables (ir.quad i).getSrc2.getImmInt = some table →
      table.defaultTarget = j → FlowStep ir i j

def callsFunction (q : IRQuadCompact) : Bool :=
  q.op = .funccallval || q.op = .funccallvoid || q.op = .builtinApply

/-- Control can come back from the instruction a second time. -/
def returnsTwice (q : IRQuadCompact) : Bool := q.op = .setjmp || q.op = .nlSetjmp || callsFunction q

/-- Control can leave the instruction for the place a jump buffer names. -/
def unwinds (q : IRQuadCompact) : Bool := q.op = .longjmp || q.op = .nlLongjmp || callsFunction q

/-- A run of the function: the instructions executed so far, the last one first, cut wherever
an instruction returned a second time. -/
inductive ControlRun (ir : TCCIRState) : List (List ℕ) → Prop
  | start : 0 < ir.nextInstructionIndex → ControlRun ir [[0]]
  | flow {i j : ℕ} {seg : List ℕ} {segs : List (List ℕ)} : ControlRun ir ((i :: seg) :: segs) →
      FlowStep ir i j → ControlRun ir ((j :: i :: seg) :: segs)
  | secondReturn {i k : ℕ} {seg : List ℕ} {segs : List (List ℕ)} :
      ControlRun ir ((i :: seg) :: segs) → unwinds (ir.quad i) = true →
      k ∈ ((i :: seg) :: segs).flatten → returnsTwice (ir.quad k) = true →
      k + 1 < ir.nextInstructionIndex → ControlRun ir ([k + 1] :: (i :: seg) :: segs)

section Flat

variable {ir : TCCIRState} {i j : ℕ}

section

variable (h : tccIrCfgFlatHasBackedge ir = false)
include h

section

variable (hi : i < ir.nextInstructionIndex)
include hi

theorem flatBackedgeAt_eq_false : flatBackedgeAt ir i = false := by
  unfold tccIrCfgFlatHasBackedge at h
  rw [any_eq_false] at h
  simpa using h i (List.mem_range.mpr hi)

theorem unknownSuccessors_of_flat : unknownSuccessors (ir.quad i) = false := by
  have hb := flatBackedgeAt_eq_false h hi
  simp only [flatBackedgeAt, Bool.or_eq_false_iff] at hb
  exact hb.1.2

theorem explicitTarget_gt {t : ℤ} (ht : t ∈ explicitTargets ir (ir.quad i))
    (h0 : 0 ≤ t) : i < t := by
  have hb := flatBackedgeAt_eq_false h hi
  have hu := unknownSuccessors_of_flat h hi
  simp only [flatBackedgeAt, Bool.or_eq_false_iff] at hb
  obtain ⟨⟨hasm, _⟩, hjump⟩ := hb
  unfold explicitTargets at ht
  by_cases hj : (ir.quad i).op = .jump ∨ (ir.quad i).op = .jumpif
  · rw [if_pos hj, mem_singleton] at ht
    have hj' : (decide ((ir.quad i).op = .jump) || decide ((ir.quad i).op = .jumpif)) = true := by
      simpa using hj
    rw [hj', Bool.true_and, Bool.and_eq_false_iff, decide_eq_false_iff_not,
      decide_eq_false_iff_not] at hjump
    omega
  · rw [if_neg hj] at ht
    by_cases ha : (ir.quad i).op = .inlineAsm
    · rw [if_pos ha] at ht
      simp only [ha, decide_true, Bool.true_and, any_eq_false, decide_eq_true_eq] at hasm
      exact not_le.mp (hasm t ht)
    · rw [if_neg ha] at ht
      by_cases hs : (ir.quad i).op = .switchTable
      · simp [unknownSuccessors, hs] at hu
      · simp [hs] at ht

end

theorem transfer_lt_of_flat (ht : Transfer ir i j) :
    i < j := by
  rcases ht.cases with ⟨rfl, _, _⟩ | ⟨hi, _, hm, _⟩
  · exact Nat.lt_succ_self i
  · have := explicitTarget_gt h hi hm (Int.natCast_nonneg j)
    omega

end

end Flat

section Graph

variable {ir : TCCIRState} {cfg : IRCFG} {b c i j : ℕ}

theorem IsPartition.lt_instrToBlock {isLeader : ℕ → Bool} {n : ℕ} (P : IsPartition isLeader n cfg)
    (hb : b < cfg.numBlocks) (hj : j < n) (he : (cfg.blocks b).endIdx ≤ j) :
    b < cfg.instrToBlock j := by
  have hlt := P.lt_end j hj
  by_contra hge
  rcases Nat.lt_or_eq_of_le (not_lt.mp hge) with h | h
  · have h1 := P.start_mono h hb
    have h2 := P.start_lt_end b hb
    omega
  · rw [h] at hlt
    omega

section

variable (h : tccIrCfgBuild ir = .ok (some cfg))
include h

theorem edge_lt_of_flat
    (hflat : tccIrCfgFlatHasBackedge ir = false) (he : cfg.Edge b c) : b < c := by
  -- without a flat back edge the blocks are in topological order
  have P := tccIrCfgBuild_isPartition h
  obtain ⟨hb, hm⟩ := (mem_succs_iff h).mp he
  have hse := P.start_lt_end b hb
  have hend := P.end_le hb
  rw [cfgTargets, if_neg (by omega)] at hm
  rcases List.mem_append.mp hm with hm | hm
  · obtain ⟨t, ht, hbt⟩ := List.mem_filterMap.mp hm
    unfold IRCFG.blockOf at hbt
    split at hbt
    · next hr =>
      cases hbt
      rw [tccIrCfgBuild_numInstrs h] at hr
      have hgt := explicitTarget_gt hflat (by omega) ht hr.1
      exact P.lt_instrToBlock hb (by omega) (by omega)
    · cases hbt
  · split at hm
    · simp at hm
    · unfold IRCFG.nextBlock at hm
      split at hm
      · rw [mem_singleton] at hm
        omega
      · simp at hm

theorem transGen_edge_lt_of_flat
    (hflat : tccIrCfgFlatHasBackedge ir = false) (hp : TransGen cfg.Edge b c) : b < c := by
  induction hp with
  | single he => exact edge_lt_of_flat h hflat he
  | tail _ he ih => exact ih.trans (edge_lt_of_flat h hflat he)

theorem acyclic_of_kahn
    (hk : (kahn (fun b => (cfg.blocks b).succs) (List.range cfg.numBlocks)).map (·.queue.length) =
      some cfg.numBlocks) : ¬ TransGen cfg.Edge b b := by
  have hsub : ∀ u ∈ List.range cfg.numBlocks,
      (cfg.blocks u).succs ⊆ List.range cfg.numBlocks := by
    intro u _ v hv
    exact List.mem_range.mpr (cfgTargets_lt h ((mem_succs_iff h).mp hv).2)
  obtain ⟨st, hst, hinv⟩ := kahn_spec nodup_range hsub
  rw [hst, Option.map_some, Option.some.injEq] at hk
  intro hp
  obtain ⟨c, he, _⟩ := TransGen.head'_iff.mp hp
  have hb := List.mem_range.mpr ((mem_succs_iff h).mp he).1
  exact hinv.acyclic hsub (hk.trans List.length_range.symm) hb hp

theorem transGen_transfer
    (hp : TransGen (Transfer ir) i j) :
    (cfg.instrToBlock j = cfg.instrToBlock i ∧ i < j) ∨
      TransGen cfg.Edge (cfg.instrToBlock i) (cfg.instrToBlock j) := by
  induction hp with
  | single ht =>
    rcases transfer_in_or_between h ht with ⟨rfl, hb⟩ | ⟨_, _, he⟩
    · exact .inl ⟨hb, Nat.lt_succ_self i⟩
    · exact .inr (.single he)
  | tail _ ht ih =>
    rcases transfer_in_or_between h ht with ⟨rfl, hb⟩ | ⟨_, _, he⟩
    · rw [hb]
      exact ih.imp_left fun ⟨h1, h2⟩ => ⟨h1, by omega⟩
    · rcases ih with ⟨h1, _⟩ | hp
      · rw [h1] at he
        exact .inr (.single he)
      · exact .inr (hp.tail he)

end

end Graph

section Runs

variable {ir : TCCIRState} {workInit : Bool}

section

variable (h : tccIrCfgHasCycle ir workInit = .ok false)
include h

/-- What a negative answer of the cycle check says about the steps of control. -/
theorem transfer_acyclic (i : ℕ) :
    ¬ TransGen (Transfer ir) i i := by
  unfold tccIrCfgHasCycle at h
  cases hflat : tccIrCfgFlatHasBackedge ir with
  | false =>
    have key : ∀ {j}, TransGen (Transfer ir) i j → i < j := by
      intro j hp
      induction hp with
      | single ht => exact transfer_lt_of_flat hflat ht
      | tail _ ht ih => exact ih.trans (transfer_lt_of_flat hflat ht)
    exact fun hp => lt_irrefl i (key hp)
  | true =>
    rw [hflat] at h
    by_cases hu : (List.range ir.nextInstructionIndex).any
        (fun i => unknownSuccessors (ir.quad i)) = true
    · rw [if_pos hu] at h
      cases h
    rw [if_neg hu] at h
    cases hb : tccIrCfgBuild ir with
    | error e => rw [hb] at h; cases h
    | ok built =>
      rw [hb] at h
      have h := Except.ok.inj h
      cases built with
      | none =>
        -- an empty function has no graph, and no steps
        intro hp
        obtain ⟨j, ht, _⟩ := TransGen.head'_iff.mp hp
        have hn : ir.nextInstructionIndex = 0 := by
          unfold tccIrCfgBuild at hb
          dsimp only at hb
          by_contra hn
          rw [if_neg hn] at hb
          split at hb <;> cases hb
        rcases ht.cases with ⟨_, hlt, _⟩ | ⟨hlt, _⟩ <;> omega
      | some cfg =>
        cases workInit with
        | false => cases h
        | true =>
          have hk := of_decide_eq_false h
          rw [not_not] at hk
          intro hp
          rcases transGen_transfer hb hp with ⟨_, hlt⟩ | hcycle
          · exact lt_irrefl i hlt
          · exact acyclic_of_kahn hb hk hcycle

theorem flowStep_transfer {i j : ℕ}
    (hs : FlowStep ir i j) : Transfer ir i j := by
  have known : ∀ k < ir.nextInstructionIndex, unknownSuccessors (ir.quad k) = false := by
    intro k hk
    unfold tccIrCfgHasCycle at h
    cases hflat : tccIrCfgFlatHasBackedge ir with
    | false => exact unknownSuccessors_of_flat hflat hk
    | true =>
      rw [hflat] at h
      by_cases hu : (List.range ir.nextInstructionIndex).any
          (fun i => unknownSuccessors (ir.quad i)) = true
      · rw [if_pos hu] at h
        cases h
      · rw [Bool.not_eq_true, any_eq_false] at hu
        simpa using hu k (List.mem_range.mpr hk)
  cases hs with
  | transfer ht => exact ht
  | ijump hi _ hop => simpa [unknownSuccessors, hop] using known i hi
  | switchDefault hi _ hop _ _ => simpa [unknownSuccessors, hop] using known i hi

/-- Each stretch of a run between two second returns is a chain of transfers. -/
theorem ControlRun.isChain
    {segs : List (List ℕ)} (hr : ControlRun ir segs) :
    ∀ seg ∈ segs, seg.IsChain fun j i => Transfer ir i j := by
  induction hr with
  | start _ => simp
  | flow _ hs ih =>
    intro seg' hm
    rcases List.mem_cons.mp hm with rfl | hm
    · exact List.isChain_cons_cons.mpr ⟨flowStep_transfer h hs, ih _ mem_cons_self⟩
    · exact ih _ (mem_cons_of_mem _ hm)
  | secondReturn _ _ _ _ _ ih =>
    intro seg' hm
    rcases List.mem_cons.mp hm with rfl | hm
    · exact isChain_singleton _
    · exact ih _ hm

theorem nodup_of_isChain {seg : List ℕ}
    (hc : seg.IsChain fun j i => Transfer ir i j) : seg.Nodup := by
  have hc' : seg.IsChain fun j i => TransGen (Transfer ir) i j := hc.imp fun _ _ => .single
  refine (List.isChain_iff_pairwise.mp hc').imp ?_
  rintro j i hp rfl
  exact transfer_acyclic h j hp

end

end Runs

/-- After a negative answer of either check no instruction is executed twice between two second
returns, and a graph that passes the flat check has no cycle. -/
theorem tccIrCfgHasCycle_sound (ir : TCCIRState) (workInit : Bool) :
    (tccIrCfgHasCycle ir workInit = .ok false ∨ tccIrCfgFlatHasBackedge ir = false →
      ∀ segs, ControlRun ir segs → ∀ seg ∈ segs, seg.Nodup) ∧
    (tccIrCfgFlatHasBackedge ir = false → tccIrCfgHasCycle ir workInit = .ok false ∧
      ∀ cfg, tccIrCfgBuild ir = .ok (some cfg) → ∀ b, ¬ TransGen cfg.Edge b b) := by
  have hflat : tccIrCfgFlatHasBackedge ir = false → tccIrCfgHasCycle ir workInit = .ok false := by
    intro h
    rw [tccIrCfgHasCycle, h]
    rfl
  refine ⟨fun h segs hr seg hm => ?_, fun h => ⟨hflat h, fun cfg hb b hp => ?_⟩⟩
  · have h := h.elim id hflat
    exact nodup_of_isChain h (hr.isChain h seg hm)
  · exact lt_irrefl b (transGen_edge_lt_of_flat hb h hp)

def backwardJump : TCCIRState :=
  { compactInstructions :=
      [⟨.jump, 0, .int 2, .none, .none, .none⟩,
        ⟨.returnvoid, 1, .none, .none, .none, .none⟩,
        ⟨.jump, 2, .int 1, .none, .none, .none⟩] }

theorem tccIrCfgHasCycle_sound_backwardJump :
    tccIrCfgFlatHasBackedge backwardJump = true ∧ tccIrCfgHasCycle backwardJump true = .ok false ∧
      ∀ segs, ControlRun backwardJump segs → ∀ seg ∈ segs, seg.Nodup := by
  have h : tccIrCfgHasCycle backwardJump true = .ok false := rfl
  exact ⟨by decide, h, (tccIrCfgHasCycle_sound backwardJump true).1 (.inl h)⟩

/-- `if (!__builtin_setjmp(buf)) __builtin_longjmp(buf, 1);` -/
def jumpsBack : TCCIRState :=
  { compactInstructions :=
      [⟨.setjmp, 0, .none, .none, .none, .none⟩,
        ⟨.testZero, 1, .none, .none, .none, .none⟩,
        ⟨.jumpif, 2, .int 4, .int 0x95, .none, .none⟩,
        ⟨.longjmp, 3, .none, .none, .none, .none⟩,
        ⟨.returnvoid, 4, .none, .none, .none, .none⟩] }

/-- The instruction after a setjmp is executed a second time, though there is no cycle. -/
theorem jumpsBack_executes_twice :
    tccIrCfgFlatHasBackedge jumpsBack = false ∧ tccIrCfgHasCycle jumpsBack true = .ok false ∧
      ∃ segs, ControlRun jumpsBack segs ∧ ¬ segs.flatten.Nodup := by
  refine ⟨by decide, rfl, [[1], [3, 2, 1, 0]], ?_, by decide⟩
  have h0 : ControlRun jumpsBack [[0]] := .start (by decide)
  have h1 : ControlRun jumpsBack [[1, 0]] := .flow h0 (.transfer (.fallThrough (by decide) rfl))
  have h2 : ControlRun jumpsBack [[2, 1, 0]] := .flow h1 (.transfer (.fallThrough (by decide) rfl))
  have h3 : ControlRun jumpsBack [[3, 2, 1, 0]] :=
    .flow h2 (.transfer (.fallThrough (by decide) rfl))
  exact .secondReturn h3 rfl (by decide) rfl (by decide)

end Tinycc
