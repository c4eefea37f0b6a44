import Tinycc.Cfg.Cycle
import Tinycc.Lib.Interference
import Tinycc.Regalloc.DeadCopies

namespace Tinycc
open Lib Relation

/-- A step of control; a `setjmp` of the function may return again after any call. -/
inductive RunStep (ir : TCCIRState) : ℕ → ℕ → Prop
  | flow {i j : ℕ} : FlowStep ir i j → RunStep ir i j
  | secondReturn {i k : ℕ} : unwinds (ir.quad i) = true → k + 1 < ir.nextInstructionIndex →
      (ir.quad k).op = .setjmp ∨ (ir.quad k).op = .nlSetjmp → RunStep ir i (k + 1)

/-- The instruction goes to the next one or to one that it names. -/
def plainFlow (q : IRQuadCompact) : Bool := q.op ≠ .ijump && q.op ≠ .switchTable && !unwinds q

def plainSuccs (ir : TCCIRState) (i : ℕ) : List ℤ :=
  (if fallsThrough (ir.quad i) then [(i : ℤ) + 1] else []) ++ explicitTargets ir (ir.quad i)

theorem RunStep.mem_plainSuccs {ir : TCCIRState} {i t : ℕ} (h : RunStep ir i t)
    (hp : plainFlow (ir.quad i) = true) : (t : ℤ) ∈ plainSuccs ir i := by
  simp only [plainFlow, Bool.and_eq_true, decide_eq_true_eq, Bool.not_eq_true'] at hp
  obtain ⟨⟨hi, hs⟩, hu⟩ := hp
  rw [plainSuccs, List.mem_append]
  cases h with
  | flow hf =>
    cases hf with
    | transfer hf =>
      rcases hf.cases with ⟨rfl, _, hfall⟩ | ⟨_, _, hm, _⟩
      · exact .inl (by simp [hfall])
      · exact .inr hm
    | ijump _ _ ho => exact absurd ho hi
    | switchDefault _ _ ho => exact absurd ho hs
  | secondReturn hw => exact absurd (hu.symm.trans hw) Bool.false_ne_true

section Uses

def callId (q : IRQuadCompact) : ℕ := (q.getSrc2.getImm64.truncate 32 >>> 16 : BitVec 32).toNat

def isFuncCall (q : IRQuadCompact) : Bool := q.op = .funccallvoid || q.op = .funccallval

/-- The call reads the vreg as an argument that an earlier instruction passed: arguments are
marshalled at the call. -/
def DeferredRead (ir : TCCIRState) (v : Vreg) (j : ℕ) : Prop :=
  isFuncCall (ir.quad j) = true ∧ ∃ p < j, (ir.quad p).op = .funcparamval ∧
    (ir.quad p).getSrc1.vreg = some v ∧ callId (ir.quad j) = callId (ir.quad p) ∧
    ∀ k, p < k → k < j → isFuncCall (ir.quad k) = true → callId (ir.quad k) ≠ callId (ir.quad p)

def ReadsAt (ir : TCCIRState) (v : Vreg) (j : ℕ) : Prop :=
  (ir.quad j).Reads v ∨ DeferredRead ir v j

namespace IRQuadCompact

variable (q : IRQuadCompact)

def Rewrites (v : Vreg) : Prop :=
  q.destUse = .result ∧ q.dest.destDefinesVreg = true ∧ q.dest.vreg = some v

/-- The instruction writes through the vreg without being a store. -/
def DerefsVreg (v : Vreg) : Prop :=
  q.op.destUse = .result ∧ q.dest.writesThrough = true ∧ q.dest.vreg = some v

/-- A move of a vreg to a vreg as it is: values narrower than a register are extended anew where
their signedness changes. -/
def MovesVreg (dst src : Vreg) : Prop :=
  q.op = .assign ∧ (q.dest.destDefinesVreg = true ∧ q.dest.vreg = some dst) ∧
    (q.src1.isVregValue = true ∧ q.src1.vreg = some src) ∧ q.dest.btype = q.src1.btype ∧
    ((q.dest.btype = .int8 ∨ q.dest.btype = .int16) → q.dest.isUnsigned = q.src1.isUnsigned)

instance (v : Vreg) : Decidable (q.Reads v) :=
  inferInstanceAs (Decidable (((_ = true ∧ _ = some v) ∨ (_ = true ∧ _ = some v) ∨
    (_ = true ∧ _ = some v)) ∨ (_ = true ∧ _ = some v)))

instance (v : Vreg) : Decidable (q.Rewrites v) :=
  inferInstanceAs (Decidable (_ = OperandUse.result ∧ _ = true ∧ _ = some v))

instance (dst src : Vreg) : Decidable (q.MovesVreg dst src) :=
  inferInstanceAs (Decidable (_ = TccIrOp.assign ∧ (_ = true ∧ _ = some dst) ∧
    (_ = true ∧ _ = some src) ∧ q.dest.btype = _ ∧
    ((_ = IropBtype.int8 ∨ _ = IropBtype.int16) → _ = _)))

end IRQuadCompact

variable {ir : TCCIRState} {q : IRQuadCompact} {v d s : Vreg} {j : ℕ}

theorem IRQuadCompact.DerefsVreg.reads (h : q.DerefsVreg v) : q.Reads v := by
  have hd : q.dest.destDefinesVreg = false := by
    by_contra hne
    have := IROperand.writesThrough_of_defines (by simpa using hne : q.dest.destDefinesVreg = true)
    exact Bool.false_ne_true (this.symm.trans h.2.1)
  exact .inr ⟨by simp [destUse, hd, OperandUse.readsVreg, h.1, h.2.1], h.2.2⟩

theorem IRQuadCompact.MovesVreg.reads (h : q.MovesVreg d s) : q.Reads s :=
  .inl (.inl ⟨by rw [h.1]; rfl, h.2.2.1.2⟩)

theorem lt_of_rewrites (h : (ir.quad j).Rewrites v) : j < ir.nextInstructionIndex := by
  by_contra hj
  rw [quad_of_ge (Nat.not_lt.mp hj)] at h
  cases h.1

theorem IRQuadCompact.MovesVreg.rewrites (h : q.MovesVreg d s) : q.Rewrites d :=
  ⟨by rw [destUse, h.1]; rfl, h.2.1⟩

end Uses

section Liveness

variable {ir : TCCIRState} {v : Vreg}

/-- On some path after the instruction the vreg is read before it is rewritten. -/
inductive LiveAfter (ir : TCCIRState) (v : Vreg) : ℕ → Prop
  | read {i j : ℕ} : RunStep ir i j → ReadsAt ir v j → LiveAfter ir v i
  | pass {i j : ℕ} : RunStep ir i j → ¬ (ir.quad j).Rewrites v → LiveAfter ir v j →
      LiveAfter ir v i

def LiveBefore (ir : TCCIRState) (v : Vreg) (j : ℕ) : Prop :=
  ReadsAt ir v j ∨ (¬ (ir.quad j).Rewrites v ∧ LiveAfter ir v j)

theorem liveAfter_iff {i : ℕ} : LiveAfter ir v i ↔ ∃ j, RunStep ir i j ∧ LiveBefore ir v j := by
  constructor
  · rintro (⟨hs, hr⟩ | ⟨hs, hw, hl⟩)
    · exact ⟨_, hs, .inl hr⟩
    · exact ⟨_, hs, .inr ⟨hw, hl⟩⟩
  · rintro ⟨j, hs, hr | ⟨hw, hl⟩⟩
    · exact .read hs hr
    · exact .pass hs hw hl

def irCode (ir : TCCIRState) : Code ℕ Vreg where
  Step := RunStep ir
  Reads i v := ReadsAt ir v i
  Writes i v := (ir.quad i).Rewrites v
  Copies i d s := (ir.quad i).MovesVreg d s
  reads_of_copies h := .inl h.reads
  writes_of_copies h := h.rewrites
  copies_unique h h' := Option.some.inj (h.2.2.1.2.symm.trans h'.2.2.1.2)
  writes_unique h h' := Option.some.inj (h.2.2.symm.trans h'.2.2)

/-- One register for the two vregs preserves the behaviour of every run. -/
def SharesRegister (ir : TCCIRState) (cur partner : Vreg) : Prop :=
  (irCode ir).Shares cur partner 0

/-- What the checks need of liveness before an instruction. -/
structure Liveness (ir : TCCIRState) (v : Vreg) (live : ℕ → Prop) : Prop where
  call {t : ℕ} : DeferredRead ir v t → live t
  deref {t : ℕ} : (ir.quad t).DerefsVreg v → live t
  pass {t u : ℕ} : ¬ (ir.quad t).Rewrites v → RunStep ir t u → live u → live t
  /-- The vreg is dead in a set of instructions that control leaves only where it is dead or
  rewritten and none of which reads it. -/
  region {R : ℕ → Prop} : (∀ j t, R j → RunStep ir j t →
      (¬ ReadsAt ir v t ∧ ((ir.quad t).Rewrites v ∨ R t)) ∨ ¬ live t) →
    ∀ {j}, R j → ∀ t, RunStep ir j t → ¬ live t

theorem liveness_liveBefore (ir : TCCIRState) (v : Vreg) : Liveness ir v (LiveBefore ir v) where
  call h := .inl (.inr h)
  deref h := .inl (.inl h.reads)
  pass hw hs hl := .inr ⟨hw, liveAfter_iff.mpr ⟨_, hs, hl⟩⟩
  region {R} hstep {j} hj t ht hl := by
    have hafter := liveAfter_iff.mpr ⟨t, ht, hl⟩
    clear ht hl
    induction hafter with
    | read hs hr =>
      rcases hstep _ _ hj hs with ⟨hno, _⟩ | hdead
      · exact hno hr
      · exact hdead (.inl hr)
    | pass hs hw hl ih =>
      rcases hstep _ _ hj hs with ⟨_, h | h⟩ | hdead
      · exact hw h
      · exact ih h
      · exact hdead (.inr ⟨hw, hl⟩)

theorem liveness_live (ir : TCCIRState) {a b : Vreg} (hv : Code.Pair a b v) :
    Liveness ir v ((irCode ir).Live a b v) where
  call h := by
    refine .read hv ⟨.inr h, fun d _ hm => ?_⟩
    have hcall := h.1
    rw [isFuncCall, show (ir.quad _).op = .assign from hm.1] at hcall
    cases hcall
  deref h := by
    refine .read hv ⟨.inl h.reads, fun d _ hm => ?_⟩
    have hthrough := IROperand.writesThrough_of_defines hm.2.1.1
    exact Bool.false_ne_true (hthrough.symm.trans h.2.1)
  pass hw hs hl := .pass hw hs hl
  region hstep _ hj :=
    Code.deadAfter_of_region (C := irCode ir) (a := a) (b := b) (v := v) hstep hj

def DeadIn (ir : TCCIRState) (v : Vreg) (D : List ℕ) : Prop :=
  ∀ j ∈ D, isFuncCall (ir.quad j) = false ∧ ¬ (ir.quad j).Reads v ∧
    ((ir.quad j).Rewrites v ∨
      (plainFlow (ir.quad j) = true ∧ ∀ t ∈ plainSuccs ir j, ∃ k ∈ D, (k : ℤ) = t))

instance (ir : TCCIRState) (v : Vreg) (D : List ℕ) : Decidable (DeadIn ir v D) :=
  inferInstanceAs (Decidable (∀ j ∈ D, _ ∧ _ ∧ (_ ∨ (_ ∧ ∀ t ∈ plainSuccs ir j, ∃ k ∈ D, _))))

theorem DeadIn.mem_of_step {D : List ℕ} (h : DeadIn ir v D) {j t : ℕ} (hj : j ∈ D)
    (hw : ¬ (ir.quad j).Rewrites v) (hs : RunStep ir j t) : t ∈ D := by
  obtain ⟨hp, hsucc⟩ := (h j hj).2.2.resolve_left hw
  obtain ⟨k, hk, he⟩ := hsucc _ (hs.mem_plainSuccs hp)
  exact Int.ofNat.inj he ▸ hk

theorem DeadIn.not_live {a b : Vreg} {D : List ℕ} (h : DeadIn ir v D) {j : ℕ} (hj : j ∈ D) :
    ¬ (irCode ir).Live a b v j := by
  have hread : ∀ j ∈ D, ¬ ReadsAt ir v j := by
    rintro j hj (hr | hr)
    · exact (h j hj).2.1 hr
    · exact Bool.false_ne_true ((h j hj).1.symm.trans hr.1)
  intro hl
  induction hl with
  | read _ ho => exact hread _ hj ho.1
  | copy _ _ hc => exact hread _ hj (.inl hc.reads)
  | pass hw hs _ ih => exact ih h (h.mem_of_step hj hw hs) hread

end Liveness

end Tinycc
