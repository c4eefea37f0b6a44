import Tinycc.Regalloc.ResolvePhis
import Mathlib.Data.List.Flatten
import Mathlib.Data.List.GetD

namespace Tinycc
open Lib Function List

section Collect

variable {cfg : IRCFG} {ssa : IRSSAState} {next : ℕ} {phi : IRPhiNode} {p b : ℕ} {c : RAPhiCopy}

def IRPhiNode.copyFrom (phi : IRPhiNode) (s : Vreg) : RAPhiCopy := ⟨phi.destVreg, s, phi.btype, false⟩

theorem phiCopiesOf_eq (h : (phi.operands.filterMap fun o =>
      if o.vreg.isSome then o.predBlock else none).Nodup) :
    phiCopiesOf p phi = (phi.operandFor p).toList.map phi.copyFrom := by
  unfold phiCopiesOf IRPhiNode.operandFor
  obtain ⟨l, hl⟩ : ∃ l, l = phi.operands := ⟨_, rfl⟩
  rw [← hl] at h ⊢
  clear hl
  induction l with
  | nil => rfl
  | cons o l ih =>
    rw [filterMap_cons] at h
    rw [filterMap_cons, List.findSome?_cons]
    cases hv : o.vreg with
    | none =>
      rw [hv] at h
      simpa using ih h
    | some s =>
      rw [hv] at h
      by_cases hp : o.predBlock = some p
      · rw [hp] at h
        have hnot := (List.nodup_cons.mp h).1
        have hrest : (l.filterMap fun o =>
            if o.predBlock = some p then o.vreg.map phi.copyFrom else none) = [] := by
          apply List.filterMap_eq_nil_iff.mpr
          intro o' ho'
          split
          · next hp' =>
            cases hv' : o'.vreg with
            | none => rfl
            | some s' => exact absurd (List.mem_filterMap.mpr ⟨o', ho', by simp [hv', hp']⟩) hnot
          · rfl
        simpa [hp, IRPhiNode.copyFrom] using hrest
      · have hl : (l.filterMap fun o => if o.vreg.isSome then o.predBlock else none).Nodup := by
          cases hb : o.predBlock with
          | none => rwa [hb] at h
          | some b =>
            rw [hb] at h
            exact (List.nodup_cons.mp h).2
        simpa [hp] using ih hl

theorem exists_operand {s : Vreg} (h : phi.operandFor p = some s) :
    ∃ o ∈ phi.operands, o.predBlock = some p ∧ o.vreg = some s := by
  obtain ⟨o, ho, hos⟩ := List.exists_of_findSome?_eq_some h
  split at hos
  · next hp => exact ⟨o, ho, hp, hos⟩
  · cases hos

variable (W : PhisWf cfg ssa next)
include W

variable {f : Option ℕ}

theorem mem_collect (hf : ∀ b ∈ raPhiScanRange cfg f, b < cfg.numBlocks) :
    c ∈ raCollectPhiCopiesForPred cfg ssa p f ↔ ∃ b ∈ raPhiScanRange cfg f,
      ∃ phi ∈ ssa.blockPhis b, ∃ s, phi.operandFor p = some s ∧ c = phi.copyFrom s := by
  unfold raCollectPhiCopiesForPred
  simp only [mem_flatMap]
  constructor
  · rintro ⟨b, hb, phi, hphi, hc⟩
    rw [phiCopiesOf_eq (W.pred_once b (hf b hb) phi hphi)] at hc
    obtain ⟨s, hs, rfl⟩ := List.mem_map.mp hc
    exact ⟨b, hb, phi, hphi, s, Option.mem_toList.mp hs, rfl⟩
  · rintro ⟨b, hb, phi, hphi, s, hs, rfl⟩
    refine ⟨b, hb, phi, hphi, ?_⟩
    rw [phiCopiesOf_eq (W.pred_once b (hf b hb) phi hphi), hs]
    exact List.mem_singleton.mpr rfl

omit W in
theorem raPhiScanRange_lt (f : Option ℕ) : ∀ b ∈ raPhiScanRange cfg f, b < cfg.numBlocks := by
  intro b hb
  unfold raPhiScanRange at hb
  split at hb
  · exact List.mem_range.mp hb
  · split at hb
    · next h => exact (List.mem_singleton.mp hb) ▸ h
    · cases hb

omit W in
theorem raPhiScanRange_sublist (f : Option ℕ) :
    (raPhiScanRange cfg f).Sublist (List.range cfg.numBlocks) := by
  unfold raPhiScanRange
  split
  · exact List.Sublist.refl _
  · split
    · next h => exact List.singleton_sublist.mpr (List.mem_range.mpr h)
    · exact nil_sublist _

theorem map_dest_sublist (f : Option ℕ) :
    ((raCollectPhiCopiesForPred cfg ssa p f).map RAPhiCopy.destVreg).Sublist
      ((List.range cfg.numBlocks).flatMap fun b => (ssa.blockPhis b).map IRPhiNode.destVreg) := by
  unfold raCollectPhiCopiesForPred
  rw [map_flatMap]
  refine (List.Sublist.flatMap_right _ fun b hb => ?_).trans ((raPhiScanRange_sublist f).flatMap _)
  rw [map_flatMap, map_eq_flatMap]
  refine List.Sublist.flatMap_right _ fun phi hphi => ?_
  rw [phiCopiesOf_eq (W.pred_once b (raPhiScanRange_lt f b hb) phi hphi)]
  cases phi.operandFor p with
  | none => exact nil_sublist _
  | some s => exact List.Sublist.refl _

theorem collect_nodup (f : Option ℕ) :
    ((raCollectPhiCopiesForPred cfg ssa p f).map RAPhiCopy.destVreg).Nodup :=
  W.dest_once.sublist (map_dest_sublist W f)

theorem collect_alloc (hc : c ∈ raCollectPhiCopiesForPred cfg ssa p f) :
    AllocatedTemp next c.srcVreg ∧ AllocatedTemp next c.destVreg ∧ c.emitted = false := by
  obtain ⟨b, hb, phi, hphi, s, hs, rfl⟩ := (mem_collect W (raPhiScanRange_lt f)).mp hc
  have hlt := raPhiScanRange_lt f b hb
  obtain ⟨o, ho, _, hos⟩ := exists_operand hs
  exact ⟨W.operand_temp b hlt phi hphi o ho s hos, fun _ => (W.dest_temp b hlt phi hphi).2, rfl⟩

end Collect

/-- Moves that carry out a set of copies at once and disturb nothing but temporaries from `next`
on. -/
structure PhiSeq (copies : List RAPhiCopy) (next : ℕ) (qs : List IRQuadCompact) : Prop where
  form : ∀ q ∈ qs, ∃ d s b, q = phiCopyQuad d s b
  copy : ∀ (α : Type) (σ : Vreg → α), ∀ c ∈ copies, execAssigns σ qs c.destVreg = σ c.srcVreg
  frame : ∀ (α : Type) (σ : Vreg → α) (v : Vreg), (∀ c ∈ copies, v ≠ c.destVreg) →
    AllocatedTemp next v → execAssigns σ qs v = σ v

theorem PhiSeq.nil (next : ℕ) : PhiSeq [] next [] :=
  ⟨fun _ h => (by cases h), fun _ _ _ h => (by cases h), fun _ _ _ _ _ => rfl⟩

variable {v : Vreg}

theorem PhiSeq.unchanged {copies : List RAPhiCopy} {next : ℕ} {qs : List IRQuadCompact} {α : Type}
    (h : PhiSeq copies next qs) (σ : Vreg → α) (v : Vreg)
    (hself : ∀ c ∈ copies, v = c.destVreg → c.srcVreg = c.destVreg) (hv : AllocatedTemp next v) :
    execAssigns σ qs v = σ v := by
  by_cases hdest : ∃ c ∈ copies, v = c.destVreg
  · obtain ⟨c, hc, rfl⟩ := hdest
    rw [h.copy α σ c hc, hself c hc rfl]
  · simp only [not_exists, not_and] at hdest
    exact h.frame α σ v hdest hv

theorem AllocatedTemp.mono {next next' : ℕ} (h : AllocatedTemp next v) (hle : next ≤ next') :
    AllocatedTemp next' v := fun ht => (h ht).trans_le hle

theorem AllocatedTemp.not_fresh {next n n' : ℕ} (h : AllocatedTemp next v) (hle : next ≤ n) :
    v ∉ freshTemps n n' := fun hv =>
  absurd (h hv.1) (Nat.not_lt.mpr (hle.trans hv.2.1))

section Emit

variable {ir : TCCIRState} {cfg : IRCFG} {ssa : IRSSAState} {next p b : ℕ} {st : RaResolve}

theorem emitCopies_spec (W : PhisWf cfg ssa next) (hnext : next ≤ st.out.nextTemporaryVariable)
    (f : Option ℕ) :
    st.emitCopies cfg ssa p f = some (.error vregPositionError) ∨
      ∃ out qs, st.emitCopies cfg ssa p f = some (.ok { st with out := out }) ∧
        out.instrs = st.out.instrs ++ qs ∧ next ≤ out.nextTemporaryVariable ∧
        PhiSeq (raCollectPhiCopiesForPred cfg ssa p f) next qs := by
  obtain ⟨copies, hcopies⟩ : ∃ copies, copies = raCollectPhiCopiesForPred cfg ssa p f := ⟨_, rfl⟩
  have hget : ∀ i (hi : i < copies.length), copies.getD i default = copies[i] := fun i hi =>
    getD_eq_getElem _ _ hi
  have hmem : ∀ i (hi : i < copies.length), copies[i] ∈ raCollectPhiCopiesForPred cfg ssa p f :=
    fun i hi => hcopies ▸ getElem_mem hi
  have hinj : Set.InjOn (fun i => (copies.getD i default).destVreg)
      (Finset.range copies.length) := by
    intro i hi j hj e
    have hi' : i < copies.length := by simpa using hi
    have hj' : j < copies.length := by simpa using hj
    have hnd : (copies.map RAPhiCopy.destVreg).Nodup := hcopies ▸ collect_nodup W f
    have hnd' := @List.Nodup.getElem_inj_iff _ _ hnd i (by simpa using hi') j (by simpa using hj')
    apply hnd'.mp
    rw [getElem_map, getElem_map, ← hget i hi', ← hget j hj']
    exact e
  have halloc : ∀ i < copies.length, AllocatedTemp st.out.nextTemporaryVariable
      (copies.getD i default).srcVreg ∧ AllocatedTemp st.out.nextTemporaryVariable
      (copies.getD i default).destVreg ∧ (copies.getD i default).emitted = false := by
    intro i hi
    rw [hget i hi]
    obtain ⟨h1, h2, h3⟩ := collect_alloc W (hmem i hi)
    exact ⟨h1.mono hnext, h2.mono hnext, h3⟩
  unfold RaResolve.emitCopies
  rw [← hcopies]
  rcases raEmitScheduledPhiCopies_spec st.out hinj (fun i hi => (halloc i hi).2.2)
    (fun i hi => (halloc i hi).1) (fun i hi => (halloc i hi).2.1) with
    ⟨h, _⟩ | ⟨out', qs, h, hqs, hform, hle, hexec⟩
  · left
    simp only [h]
    rfl
  · right
    refine ⟨out', qs, by simp only [h]; rfl, hqs, hnext.trans hle, hform, fun α σ c hc => ?_,
      fun α σ v hv halloc => ?_⟩
    · obtain ⟨i, hi, rfl⟩ := getElem_of_mem hc
      have := (hexec α σ).1 i hi
      rwa [hget i hi] at this
    · refine (hexec α σ).2 v (fun i hi => ?_) (halloc.not_fresh hnext)
      rw [hget i hi]
      exact hv _ (getElem_mem hi)

def quadsOf (ir : TCCIRState) (lo hi : ℕ) : List IRQuadCompact := (List.range' lo (hi - lo)).map ir.quad

theorem foldl_copy_spec (g : RaResolve → ℕ → ℕ) (k lo : ℕ) (st : RaResolve) :
    ∃ f, (List.range' lo k).foldl (fun st i => (st.mapTo i (g st i)).emit (ir.quad i)) st =
        ⟨{ st.out with instrs := st.out.instrs ++ (List.range' lo k).map ir.quad }, f⟩ ∧
      (∀ i, i < lo ∨ lo + k ≤ i → f i = st.oldToNew i) ∧ (0 < k → f lo = g st lo) := by
  induction k generalizing lo st with
  | zero =>
    refine ⟨st.oldToNew, ?_, fun _ _ => rfl, fun h => absurd h (by decide)⟩
    simp only [range'_zero, foldl_nil, map_nil, append_nil]
  | succ k ih =>
    obtain ⟨f, hf, hout, _⟩ := ih (lo + 1) ((st.mapTo lo (g st lo)).emit (ir.quad lo))
    rw [range'_succ, foldl_cons, hf]
    refine ⟨f, ?_, fun i hi => ?_, fun _ => ?_⟩
    · simp [RaResolve.emit, RaResolve.mapTo]
    · rw [hout i (by omega)]
      exact update_of_ne (by omega) _ _
    · rw [hout lo (by omega)]
      exact update_self _ _ _

theorem copyInstrs_spec (lo hi : ℕ) (st : RaResolve) :
    ∃ f, st.copyInstrs ir lo hi =
        ⟨{ st.out with instrs := st.out.instrs ++ quadsOf ir lo hi }, f⟩ ∧
      (∀ i, i < lo ∨ max lo hi ≤ i → f i = st.oldToNew i) ∧ (lo < hi → f lo = st.wp) := by
  obtain ⟨f, hf, hout, hlo⟩ := @foldl_copy_spec ir (fun st _ => st.wp) (hi - lo) lo st
  exact ⟨f, hf, fun i h => hout i (by omega), fun h => hlo (by omega)⟩

def Appends (next : ℕ) (r : Option (Except String RaResolve)) (st : RaResolve)
    (P : List IRQuadCompact → (ℕ → ℕ) → Prop) : Prop :=
  r = some (.error vregPositionError) ∨
    ∃ st' seg, r = some (.ok st') ∧ st'.out.instrs = st.out.instrs ++ seg ∧
      next ≤ st'.out.nextTemporaryVariable ∧ P seg st'.oldToNew

section

variable {r : Option (Except String RaResolve)} {P Q : List IRQuadCompact → (ℕ → ℕ) → Prop}

theorem Appends.imp (h : Appends next r st P) (hPQ : ∀ seg places, P seg places → Q seg places) :
    Appends next r st Q :=
  h.imp_right fun ⟨st', seg, hr, hseg, hn, hP⟩ => ⟨st', seg, hr, hseg, hn, hPQ _ _ hP⟩

theorem Appends.after {st₁ : RaResolve} {body : List IRQuadCompact}
    (hbody : st₁.out.instrs = st.out.instrs ++ body)
    (h : Appends next r st₁ fun seg => Q (body ++ seg)) : Appends next r st Q := by
  rcases h with h | ⟨st', seg, h, hseg, hn, hQ⟩
  · exact .inl h
  · exact .inr ⟨st', body ++ seg, h, by rw [hseg, hbody, append_assoc], hn, hQ⟩

theorem Appends.andThen {f : RaResolve → Option (Except String RaResolve)}
    (h : Appends next r st P)
    (hf : ∀ st' seg, st'.out.instrs = st.out.instrs ++ seg → next ≤ st'.out.nextTemporaryVariable →
      P seg st'.oldToNew → Appends next (f st') st' fun seg' => Q (seg ++ seg')) :
    Appends next (raThen r f) st Q := by
  rcases h with h | ⟨st', seg, h, hseg, hn, hP⟩
  · exact .inl (by rw [h]; rfl)
  · rw [h]
    exact (hf st' seg hseg hn hP).after hseg

end

variable (W : PhisWf cfg ssa next) (hnext : next ≤ st.out.nextTemporaryVariable)
include W hnext

theorem emitCopies_appends (f : Option ℕ) :
    Appends next (st.emitCopies cfg ssa p f) st fun qs places =>
      PhiSeq (raCollectPhiCopiesForPred cfg ssa p f) next qs ∧ places = st.oldToNew := by
  rcases emitCopies_spec W hnext f with h | ⟨out, qs, h, hqs, hn, hseq⟩
  · exact .inl h
  · exact .inr ⟨_, qs, h, hqs, hn, hseq, rfl⟩

def edgeCopies (cfg : IRCFG) (ssa : IRSSAState) (b : ℕ) : Option ℕ → List RAPhiCopy
  | some s => raCollectPhiCopiesForPred cfg ssa b (some s)
  | none => []

theorem raEmitEdge_appends (succ : Option ℕ) :
    Appends next (raEmitEdge cfg ssa b succ st) st fun qs places =>
      PhiSeq (edgeCopies cfg ssa b succ) next qs ∧ places = st.oldToNew := by
  have hskip : edgeCopies cfg ssa b succ = [] → Appends next (some (.ok st)) st fun qs places =>
      PhiSeq (edgeCopies cfg ssa b succ) next qs ∧ places = st.oldToNew := by
    intro hnil
    rw [hnil]
    exact .inr ⟨st, [], rfl, (append_nil _).symm, hnext, .nil next, rfl⟩
  cases succ with
  | none => exact hskip rfl
  | some s =>
    unfold raEmitEdge
    dsimp only
    split
    · exact emitCopies_appends W hnext (some s)
    · next h => exact hskip (List.length_eq_zero_iff.mp (Nat.eq_zero_of_not_pos h))

theorem raResolveTaken_appends (term : IRQuadCompact) (target : ℕ) :
    Appends next (raResolveTaken cfg ssa b term target st) st fun seg places =>
      places = st.oldToNew ∧
      ∃ qs, PhiSeq (edgeCopies cfg ssa b (some target)) next qs ∧
        seg = raSkip term (st.wp + qs.length + 2) :: (qs ++ [raEdgeJump term]) := by
  rcases @emitCopies_spec cfg ssa next b (st.emit term) W hnext (some target) with
    h | ⟨out, qs, h, hqs, hn, hseq⟩
  · left
    simp only [raResolveTaken, h]
    rfl
  · right
    have hwp : (st.out.instrs ++ term :: (qs ++ [raEdgeJump term])).length =
        st.wp + qs.length + 2 := by
      simp only [RaResolve.wp, length_append, length_cons, length_nil]
      omega
    have hinstrs : out.instrs ++ [raEdgeJump term] =
        st.out.instrs ++ term :: (qs ++ [raEdgeJump term]) := by
      rw [hqs]
      simp only [RaResolve.emit, append_assoc, cons_append, nil_append]
    obtain ⟨l, hl⟩ : ∃ l, l = (out.instrs ++ [raEdgeJump term]).set st.wp
      (raSkip term (out.instrs ++ [raEdgeJump term]).length) := ⟨_, rfl⟩
    refine ⟨⟨{ out with instrs := l }, st.oldToNew⟩, _, ?_, ?_, hn, rfl, qs, hseq, rfl⟩
    · simp only [raResolveTaken, h, hl]
      rfl
    rw [hl]
    rw [hinstrs, hwp, RaResolve.wp, set_append_right _ _ (Nat.le_refl _), Nat.sub_self,
      set_cons_zero]

end Emit

section Blocks

variable {ir : TCCIRState} {cfg : IRCFG} {ssa : IRSSAState} {next b : ℕ} {st : RaResolve}

/-- What the resolver writes for a block at `off`. -/
inductive BlockCode (ir : TCCIRState) (cfg : IRCFG) (ssa : IRSSAState) (next b off : ℕ) :
    List IRQuadCompact → Prop
  | plain (qs : List IRQuadCompact) :
      ¬ (0 < copiesPerBlock cfg ssa b ∧ (ir.quad ((cfg.blocks b).endIdx - 1)).op = .jumpif) →
      PhiSeq (raCollectPhiCopiesForPred cfg ssa b none) next qs →
      BlockCode ir cfg ssa next b off
        (quadsOf ir (cfg.blocks b).startIdx (raInsertBefore ir cfg b) ++
          (qs ++ quadsOf ir (raInsertBefore ir cfg b) (cfg.blocks b).endIdx))
  | taken (target : ℕ) (qsT qsF : List IRQuadCompact) :
      (ir.quad ((cfg.blocks b).endIdx - 1)).op = .jumpif →
      raTargetBlock ir cfg (ir.quad ((cfg.blocks b).endIdx - 1)).getDest.getImmInt = some target →
      PhiSeq (edgeCopies cfg ssa b (some target)) next qsT →
      PhiSeq (edgeCopies cfg ssa b (raFallthroughBlock cfg b)) next qsF →
      BlockCode ir cfg ssa next b off
        (quadsOf ir (cfg.blocks b).startIdx ((cfg.blocks b).endIdx - 1) ++
          (raSkip (ir.quad ((cfg.blocks b).endIdx - 1))
              (off + ((cfg.blocks b).endIdx - 1 - (cfg.blocks b).startIdx) + qsT.length + 2) ::
            (qsT ++ [raEdgeJump (ir.quad ((cfg.blocks b).endIdx - 1))]) ++ qsF))
  | branch (qsF : List IRQuadCompact) :
      (ir.quad ((cfg.blocks b).endIdx - 1)).op = .jumpif →
      edgeCopies cfg ssa b
        (raTargetBlock ir cfg (ir.quad ((cfg.blocks b).endIdx - 1)).getDest.getImmInt) = [] →
      PhiSeq (edgeCopies cfg ssa b (raFallthroughBlock cfg b)) next qsF →
      BlockCode ir cfg ssa next b off
        (quadsOf ir (cfg.blocks b).startIdx ((cfg.blocks b).endIdx - 1) ++
          ([ir.quad ((cfg.blocks b).endIdx - 1)] ++ qsF))

def StartsAt (cfg : IRCFG) (b : ℕ) (st : RaResolve) (places : ℕ → ℕ) : Prop :=
  places (cfg.blocks b).startIdx = st.wp ∧
    ∀ i, i < (cfg.blocks b).startIdx ∨ (cfg.blocks b).endIdx ≤ i → places i = st.oldToNew i

theorem length_quadsOf (ir : TCCIRState) (lo hi : ℕ) : (quadsOf ir lo hi).length = hi - lo := by
  simp [quadsOf]

theorem raInsertBefore_cases (ir : TCCIRState) (cfg : IRCFG) (b : ℕ)
    (hb : (cfg.blocks b).startIdx < (cfg.blocks b).endIdx) :
    raInsertBefore ir cfg b = (cfg.blocks b).endIdx - 1 ∧
        (ir.quad ((cfg.blocks b).endIdx - 1)).op.isTerminator = true ∨
      raInsertBefore ir cfg b = (cfg.blocks b).endIdx ∧
        (ir.quad ((cfg.blocks b).endIdx - 1)).op.isTerminator = false := by
  unfold raInsertBefore
  dsimp only
  split
  · next h => exact .inl ⟨rfl, h.2⟩
  · next h => exact .inr ⟨rfl, by simpa [hb] using h⟩

variable (W : PhisWf cfg ssa next) (hnext : next ≤ st.out.nextTemporaryVariable)
  (hb : (cfg.blocks b).startIdx < (cfg.blocks b).endIdx)
include W hnext hb

theorem raResolveJumpif_appends
    (hop : (ir.quad ((cfg.blocks b).endIdx - 1)).op = .jumpif) :
    Appends next (raResolveJumpif ir cfg ssa b st) st fun seg places =>
      BlockCode ir cfg ssa next b st.wp seg ∧ StartsAt cfg b st places := by
  obtain ⟨f, hcopy, hout, hstart⟩ := @copyInstrs_spec ir (cfg.blocks b).startIdx
    ((cfg.blocks b).endIdx - 1) st
  obtain ⟨body, hbody⟩ : ∃ body,
      body = quadsOf ir (cfg.blocks b).startIdx ((cfg.blocks b).endIdx - 1) := ⟨_, rfl⟩
  obtain ⟨term, hterm⟩ : ∃ term, term = ir.quad ((cfg.blocks b).endIdx - 1) := ⟨_, rfl⟩
  have hlen : body.length = (cfg.blocks b).endIdx - 1 - (cfg.blocks b).startIdx := by
    rw [hbody, length_quadsOf]
  rw [← hbody] at hcopy
  -- the state after the body, with the place of the branch noted
  obtain ⟨st₁, hst₁⟩ : ∃ st₁ : RaResolve,
      st₁ = RaResolve.mapTo ⟨{ st.out with instrs := st.out.instrs ++ body }, f⟩
        ((cfg.blocks b).endIdx - 1) (st.wp + body.length) := ⟨_, rfl⟩
  have hinstrs₁ : st₁.out.instrs = st.out.instrs ++ body := by rw [hst₁]; rfl
  have hnext₁ : next ≤ st₁.out.nextTemporaryVariable := by rw [hst₁]; exact hnext
  have hwp₁ : st₁.wp = st.wp + body.length := by
    rw [RaResolve.wp, hinstrs₁, length_append]
    rfl
  have hplaces₁ : StartsAt cfg b st st₁.oldToNew := by
    rw [hst₁]
    refine ⟨?_, fun i hi => ?_⟩
    · dsimp only [RaResolve.mapTo]
      rw [update_apply]
      split
      · next h => omega
      · exact hstart (by omega)
    · dsimp only [RaResolve.mapTo]
      rw [update_of_ne (by omega)]
      exact hout i (by omega)
  have heq : raResolveJumpif ir cfg ssa b st =
      raThen (raResolveTerm cfg ssa b term (raTargetBlock ir cfg term.getDest.getImmInt) st₁)
        (raEmitEdge cfg ssa b (raFallthroughBlock cfg b)) := by
    unfold raResolveJumpif
    dsimp only
    rw [hcopy, hst₁, hterm, RaResolve.wp, length_append]
    rfl
  rw [heq]
  refine Appends.after hinstrs₁ ?_
  have hplain : edgeCopies cfg ssa b (raTargetBlock ir cfg term.getDest.getImmInt) = [] →
      Appends next (raThen (some (.ok (st₁.emit term)))
        (raEmitEdge cfg ssa b (raFallthroughBlock cfg b))) st₁ fun seg places =>
        BlockCode ir cfg ssa next b st.wp (body ++ seg) ∧ StartsAt cfg b st places := by
    intro hnil
    refine .after rfl ((@raEmitEdge_appends cfg ssa next b (st₁.emit term) W hnext₁
      (raFallthroughBlock cfg b)).imp ?_)
    rintro qsF places ⟨hseq, rfl⟩
    rw [hbody, hterm]
    rw [hterm] at hnil
    exact ⟨.branch qsF hop hnil hseq, hplaces₁⟩
  cases htarget : raTargetBlock ir cfg term.getDest.getImmInt with
  | none => exact hplain (by rw [htarget]; rfl)
  | some target =>
    unfold raResolveTerm
    dsimp only
    split
    · refine (raResolveTaken_appends W hnext₁ term target).andThen ?_
      rintro st' _ _ hn ⟨hplaces, qsT, hqsT, rfl⟩
      refine (raEmitEdge_appends W hn (raFallthroughBlock cfg b)).imp ?_
      rintro qsF places ⟨hseq, rfl⟩
      rw [hplaces, hwp₁, hlen, hbody, hterm]
      rw [hterm] at htarget
      exact ⟨.taken target qsT qsF hop htarget hqsT hseq, hplaces₁⟩
    · next h =>
      exact hplain (by
        rw [htarget]
        exact List.length_eq_zero_iff.mp (Nat.eq_zero_of_not_pos h))

theorem raResolvePlain_appends
    (hop : ¬ (0 < copiesPerBlock cfg ssa b ∧
      (ir.quad ((cfg.blocks b).endIdx - 1)).op = .jumpif)) :
    Appends next (raResolvePlain ir cfg ssa b st) st fun seg places =>
      BlockCode ir cfg ssa next b st.wp seg ∧ StartsAt cfg b st places := by
  have hib : (cfg.blocks b).startIdx ≤ raInsertBefore ir cfg b ∧
      raInsertBefore ir cfg b ≤ (cfg.blocks b).endIdx := by
    rcases raInsertBefore_cases ir cfg b hb with h | h <;> omega
  obtain ⟨f, hcopy, hout, hstart⟩ := @copyInstrs_spec ir (cfg.blocks b).startIdx
    (raInsertBefore ir cfg b) st
  obtain ⟨body, hbody⟩ : ∃ body,
      body = quadsOf ir (cfg.blocks b).startIdx (raInsertBefore ir cfg b) := ⟨_, rfl⟩
  have hlen : body.length = raInsertBefore ir cfg b - (cfg.blocks b).startIdx := by
    rw [hbody, length_quadsOf]
  rw [← hbody] at hcopy
  obtain ⟨st₁, hst₁⟩ : ∃ st₁ : RaResolve,
      st₁ = ⟨{ st.out with instrs := st.out.instrs ++ body }, f⟩ := ⟨_, rfl⟩
  have hinstrs₁ : st₁.out.instrs = st.out.instrs ++ body := by rw [hst₁]
  have hwp₁ : st₁.wp = st.wp + body.length := by
    rw [RaResolve.wp, hinstrs₁, length_append]
    rfl
  have hnext₁ : next ≤ st₁.out.nextTemporaryVariable := by rw [hst₁]; exact hnext
  have hf : st₁.oldToNew = f := by rw [hst₁]
  unfold raResolvePlain
  dsimp only
  rw [hcopy, ← hst₁]
  refine Appends.after hinstrs₁ ?_
  refine Appends.andThen (P := fun qs places => places = f ∧
    (copiesPerBlock cfg ssa b = 0 → qs = []) ∧
    PhiSeq (raCollectPhiCopiesForPred cfg ssa b none) next qs) ?_ ?_
  · split
    · next hpos =>
      exact (emitCopies_appends W hnext₁ none).imp fun qs places h =>
        ⟨h.2.trans hf, fun h0 => by omega, h.1⟩
    · next h0 =>
      refine .inr ⟨st₁, [], rfl, (append_nil _).symm, hnext₁, hf, fun _ => rfl, ?_⟩
      rw [List.length_eq_zero_iff.mp (Nat.eq_zero_of_not_pos h0)]
      exact .nil next
  · rintro st' qs hseg hn ⟨hplaces, hnone, hqs⟩
    obtain ⟨g, htail, hgout, hgstart⟩ := @foldl_copy_spec ir
      (fun st i => if i = (cfg.blocks b).startIdx ∧ 0 < copiesPerBlock cfg ssa b then st₁.wp
        else st.wp) ((cfg.blocks b).endIdx - raInsertBefore ir cfg b) (raInsertBefore ir cfg b) st'
    obtain ⟨tail, htl⟩ : ∃ tail,
        tail = quadsOf ir (raInsertBefore ir cfg b) (cfg.blocks b).endIdx := ⟨_, rfl⟩
    rw [← quadsOf, ← htl] at htail
    rw [htail]
    refine .inr ⟨⟨{ st'.out with instrs := st'.out.instrs ++ tail }, g⟩, tail, rfl, rfl, hn, ?_, ?_,
      fun i hi => ?_⟩
    · rw [hbody, htl]
      exact .plain qs hop hqs
    · dsimp only
      rcases Nat.lt_or_ge (cfg.blocks b).startIdx (raInsertBefore ir cfg b) with hlt | hge
      · rw [hgout _ (.inl hlt), hplaces]
        exact hstart hlt
      · -- the terminator is the whole block
        have heq : raInsertBefore ir cfg b = (cfg.blocks b).startIdx := by omega
        have hnil : body = [] := List.length_eq_zero_iff.mp (by omega)
        rw [heq] at hgstart
        rw [hgstart (by omega)]
        split
        · rw [hwp₁, hnil]
          rfl
        · next h =>
          have h0 : copiesPerBlock cfg ssa b = 0 := by
            by_contra hne
            exact h ⟨rfl, Nat.pos_of_ne_zero hne⟩
          rw [RaResolve.wp, hseg, hnone h0, append_nil, hinstrs₁, hnil, append_nil]
          rfl
    · dsimp only
      rw [hgout i (by omega), hplaces]
      exact hout i (by omega)

theorem raResolveBlock_appends :
    Appends next (raResolveBlock ir cfg ssa b st) st fun seg places =>
      BlockCode ir cfg ssa next b st.wp seg ∧ StartsAt cfg b st places := by
  unfold raResolveBlock
  dsimp only
  split
  · next h => exact raResolveJumpif_appends W hnext hb h.2.2
  · next h => exact raResolvePlain_appends W hnext hb fun hj => h ⟨hj.1, hb, hj.2⟩

end Blocks

def codeOffset (codes : List (List IRQuadCompact)) (b : ℕ) : ℕ := (codes.take b).flatten.length

/-- The resolver after as many blocks as there are codes. -/
structure Resolved (ir : TCCIRState) (cfg : IRCFG) (ssa : IRSSAState) (next : ℕ) (st : RaResolve)
    (codes : List (List IRQuadCompact)) : Prop where
  instrs : st.out.instrs = codes.flatten
  next_le : next ≤ st.out.nextTemporaryVariable
  block : ∀ b code, codes[b]? = some code → BlockCode ir cfg ssa next b (codeOffset codes b) code
  start : ∀ b < codes.length, st.oldToNew (cfg.blocks b).startIdx = codeOffset codes b

section Loop

variable {ir : TCCIRState} {cfg : IRCFG} {ssa : IRSSAState} {next : ℕ} {st : RaResolve}
  {codes : List (List IRQuadCompact)} {code : List IRQuadCompact} {b : ℕ}

theorem codeOffset_append_of_le (h : b ≤ codes.length) (code : List IRQuadCompact) :
    codeOffset (codes ++ [code]) b = codeOffset codes b := by
  rw [codeOffset, codeOffset, take_append_of_le_length h]

theorem codeOffset_length (codes : List (List IRQuadCompact)) :
    codeOffset codes codes.length = codes.flatten.length := by
  rw [codeOffset, take_length]

variable {isLeader : ℕ → Bool} {n : ℕ}

theorem Resolved.snoc (P : IsPartition isLeader n cfg) (I : Resolved ir cfg ssa next st codes)
    {st' : RaResolve} (hb : codes.length < cfg.numBlocks)
    (hinstrs : st'.out.instrs = st.out.instrs ++ code) (hn : next ≤ st'.out.nextTemporaryVariable)
    (hcode : BlockCode ir cfg ssa next codes.length st.wp code)
    (hplaces : StartsAt cfg codes.length st st'.oldToNew) :
    Resolved ir cfg ssa next st' (codes ++ [code]) := by
  have hwp : st.wp = codeOffset codes codes.length := by
    rw [RaResolve.wp, I.instrs, codeOffset_length]
  constructor
  case instrs => rw [hinstrs, I.instrs, flatten_append, flatten_singleton]
  case next_le => exact hn
  case block =>
    intro b c hc
    rcases Nat.lt_or_ge b codes.length with hlt | hge
    · rw [codeOffset_append_of_le hlt.le]
      exact I.block b c (by rwa [List.getElem?_append_left hlt] at hc)
    · rw [List.getElem?_append_right hge, List.getElem?_singleton] at hc
      split at hc
      · next h0 =>
        obtain rfl : b = codes.length := by omega
        obtain rfl := Option.some.inj hc
        rw [codeOffset_append_of_le (Nat.le_refl _), ← hwp]
        exact hcode
      · cases hc
  case start =>
    intro b hlt
    rw [length_append, length_singleton] at hlt
    rcases Nat.lt_or_ge b codes.length with h | h
    · have hle := P.start_mono h hb
      have hse := P.start_lt_end b (by omega)
      rw [codeOffset_append_of_le h.le, hplaces.2 _ (.inl (by omega))]
      exact I.start b h
    · obtain rfl : b = codes.length := by omega
      rw [codeOffset_append_of_le (Nat.le_refl _), hplaces.1, hwp]

theorem raResolveBlocks_spec (P : IsPartition isLeader n cfg) (W : PhisWf cfg ssa next)
    (hempty : st.out.instrs = []) (hnext : next ≤ st.out.nextTemporaryVariable) (k : ℕ)
    (hk : k ≤ cfg.numBlocks) :
    raResolveBlocks ir cfg ssa k st = some (.error vregPositionError) ∨
      ∃ st' codes, raResolveBlocks ir cfg ssa k st = some (.ok st') ∧ codes.length = k ∧
        Resolved ir cfg ssa next st' codes := by
  induction k with
  | zero =>
    refine .inr ⟨st, [], rfl, rfl, hempty, hnext, fun b c h => ?_, fun b h => ?_⟩
    · cases h
    · cases h
  | succ k ih =>
    have heq : raResolveBlocks ir cfg ssa (k + 1) st =
        raThen (raResolveBlocks ir cfg ssa k st) (raResolveBlock ir cfg ssa k) := by
      unfold raResolveBlocks
      rw [range_succ, foldl_append]
      rfl
    rw [heq]
    rcases ih (by omega) with h | ⟨st', codes, h, hlen, I⟩
    · exact .inl (by rw [h]; rfl)
    rw [h]
    rcases raResolveBlock_appends W I.next_le (P.start_lt_end k hk) with
      h' | ⟨st'', code, h', hinstrs, hn, hcode, hplaces⟩
    · exact .inl h'
    · refine .inr ⟨st'', codes ++ [code], h', by simp [hlen], ?_⟩
      subst hlen
      exact I.snoc P hk hinstrs hn hcode hplaces

end Loop

end Tinycc
