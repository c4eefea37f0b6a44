import Tinycc.Regalloc.ResolvePhisSound

namespace Tinycc
open Lib Function List IrSem

variable (op : TccIrOp)

def TccIrOp.isMac : Bool := op = .mla || op = .umaal

def TccIrOp.isStoreClass : Bool :=
  op = .store || op = .storeIndexed || op = .storePostinc

def VregType.code : VregType → ℕ
  | .var => 1
  | .temp => 2
  | .param => 3

structure VregCounts where
  nextLocalVariable : ℕ
  nextTemporaryVariable : ℕ
  nextParameter : ℕ

def VregCounts.maxPos (c : VregCounts) : ℕ :=
  max c.nextLocalVariable (max c.nextTemporaryVariable c.nextParameter)

def raDeadcopyIdx (maxPos : ℕ) (v : Vreg) : ℕ := v.type.code * maxPos + v.position

def raDeadcopyMark (maxPos : ℕ) (readMap : ℕ → Bool) (v : Option Vreg) : ℕ → Bool :=
  match v with
  | some v =>
    if raDeadcopyIdx maxPos v < 4 * maxPos then
      update readMap (raDeadcopyIdx maxPos v) true
    else readMap
  | none => readMap

def raDeadcopyReads (q : IRQuadCompact) : List (Option Vreg) :=
  if q.op = .nop then []
  else
    (if (iropConfig q.op).hasSrc1 then [q.getSrc1.vreg] else []) ++
    (if (iropConfig q.op).hasSrc2 then [q.getSrc2.vreg] else []) ++
    (if q.op.isMac then [q.extra.vreg] else []) ++
    (if q.op.isStoreClass then [q.getDest.vreg] else [])

def raDeadcopyReadMap (maxPos : ℕ) (ir : TCCIRState) : ℕ → Bool :=
  ir.compactInstructions.foldl
    (fun readMap q => (raDeadcopyReads q).foldl (raDeadcopyMark maxPos) readMap) fun _ => false

/-- A copy into a TEMP that nothing reads. -/
def raDeadcopyDead (maxPos : ℕ) (readMap : ℕ → Bool) (q : IRQuadCompact) : Bool :=
  q.op = .assign &&
    match q.getDest.vreg with
    | some dv =>
      dv.type = .temp && (raDeadcopyIdx maxPos dv < 4 * maxPos : Bool) &&
        !readMap (raDeadcopyIdx maxPos dv)
    | none => false

def raDeadcopySweep (maxPos : ℕ) (ir : TCCIRState) : TCCIRState × Bool :=
  let dead := raDeadcopyDead maxPos (raDeadcopyReadMap maxPos ir)
  ({ ir with compactInstructions :=
      ir.compactInstructions.map fun q => if dead q then { q with op := .nop } else q },
    ir.compactInstructions.any dead)

def raEliminateDeadRegCopies (c : VregCounts) (ir : TCCIRState) : Option TCCIRState :=
  if c.maxPos ≤ 0 then some ir
  else
    (whileLoop (·.2) (fun st => raDeadcopySweep c.maxPos st.1) (ir.nextInstructionIndex + 2)
      (raDeadcopySweep c.maxPos ir)).map (·.1)

/-- The volatility of memory accesses: whether the function has any, the marks on the operands, and
the variables that are volatile themselves. -/
structure AccessMarks where
  funcHasVolatileAccess : Bool
  dest : IRQuadCompact → Bool
  src1 : IRQuadCompact → Bool
  src2 : IRQuadCompact → Bool
  volatileVar : Vreg → Bool

def tccIrInstrAccessIsVolatile (m : AccessMarks) (q : IRQuadCompact) : Bool :=
  m.funcHasVolatileAccess &&
    match q.op with
    | .loadIndexed | .loadPostinc => m.src1 q
    | .storeIndexed | .storePostinc => m.dest q
    | _ =>
      ((iropConfig q.op).hasDest && q.getDest.isLval && m.dest q) ||
        ((iropConfig q.op).hasSrc1 && q.getSrc1.isLval && m.src1 q) ||
        ((iropConfig q.op).hasSrc2 && q.getSrc2.isLval && m.src2 q)

def tccIrOperandNamesVolatileVar (m : AccessMarks) (op : IROperand) : Bool :=
  op.vreg.any m.volatileVar

/-- What an operation does with an operand. -/
inductive OperandUse
  | absent
  | value
  | address
  | result
  /-- A label, a number, a symbol or a slot of the frame: no vreg is read. -/
  | constant
  deriving DecidableEq

def TccIrOp.destUse : OperandUse :=
  match op with
  | .store | .storeIndexed | .storePostinc => .address
  | .jump | .jumpif | .vlaSpSave | .blockCopy => .constant
  | .cmp | .returnvoid | .returnvalue | .setChain | .ijump | .testZero | .funcparamvoid
  | .funcparamval | .funccallvoid | .fcmp | .vlaAlloc | .vlaSpRestore | .asmInput | .inlineAsm
  | .callseqBegin | .callargReg | .callargStack | .callseqEnd | .initChainSlot | .nop | .prefetch
  | .trap | .longjmp | .nlLongjmp | .builtinReturn | .switchTable => .absent
  | _ => .result

def TccIrOp.src1Use : OperandUse :=
  match op with
  | .returnvoid | .jump | .funcparamvoid | .vlaSpSave | .asmOutput | .nop | .trap
  | .builtinApplyArgs | .returnAddress => .absent
  | .jumpif | .setif | .setChain | .inlineAsm | .callseqBegin | .callseqEnd | .initChainSlot
  | .blockCopy => .constant
  | _ => .value

def TccIrOp.src2Use : OperandUse :=
  match op with
  | .add | .adcUse | .adcGen | .sub | .subcUse | .subcGen | .mul | .mla | .umull | .div | .umod
  | .imod | .and | .or | .xor | .shl | .sar | .shr | .pdiv | .udiv | .cmp | .loadIndexed
  | .storeIndexed | .bfi | .fadd | .fsub | .fmul | .fdiv | .fcmp | .pack64 | .boolOr | .boolAnd
  | .setjmp | .builtinApply | .select | .ror | .smull | .umaal => .value
  | .funcparamvoid | .funcparamval | .funccallvoid | .funccallval | .ubfx | .sbfx | .vlaAlloc
  | .callseqBegin | .callargReg | .callargStack | .callseqEnd | .initChainSlot | .prefetch
  | .switchTable | .switchLoad | .blockCopy => .constant
  | _ => .absent

def TccIrOp.extraUse : OperandUse :=
  match op with
  | .mla | .umaal => .value
  | .loadIndexed | .storeIndexed | .loadPostinc | .storePostinc | .select => .constant
  | _ => .absent

/-- A destination that stands for the memory its vreg points to. -/
def IROperand.writesThrough (op : IROperand) : Bool := op.data = .vreg && op.isLval

/-- An operand in a position of the given use makes the instruction read its vreg. -/
def OperandUse.readsVreg (use : OperandUse) (op : IROperand) : Bool :=
  use = .value || use = .address || (use = .result && op.writesThrough)

namespace IRQuadCompact

variable (q : IRQuadCompact)

/-- A store to a variable by its name defines the variable. -/
def destUse : OperandUse :=
  if q.op = .store && q.dest.destDefinesVreg then .result else q.op.destUse

def ReadsSource (v : Vreg) : Prop :=
  (q.op.src1Use.readsVreg q.src1 = true ∧ q.src1.vreg = some v) ∨
  (q.op.src2Use.readsVreg q.src2 = true ∧ q.src2.vreg = some v) ∨
  (q.op.extraUse.readsVreg q.extra = true ∧ q.extra.vreg = some v)

/-- The vregs an instruction reads, by the meaning of its operation. -/
def Reads (v : Vreg) : Prop :=
  q.ReadsSource v ∨ (q.destUse.readsVreg q.dest = true ∧ q.dest.vreg = some v)

def derefsResult : Bool := q.op.destUse = .result && q.dest.writesThrough

/-- A move that reads or writes volatile memory, or reads a volatile variable. -/
def movesVolatile (m : AccessMarks) : Bool :=
  tccIrInstrAccessIsVolatile m q || tccIrOperandNamesVolatileVar m q.getSrc1

end IRQuadCompact

section Coverage

variable {q : IRQuadCompact} {v : Vreg}

theorem src1Use_config (op : TccIrOp) (o : IROperand) (h : op.src1Use.readsVreg o = true) :
    (iropConfig op).hasSrc1 = true := by
  cases op <;> first | rfl | cases h

theorem src2Use_config (op : TccIrOp) (o : IROperand) (h : op.src2Use.readsVreg o = true) :
    (iropConfig op).hasSrc2 = true := by
  cases op <;> first | rfl | cases h

theorem extraUse_isMac (op : TccIrOp) (o : IROperand) (h : op.extraUse.readsVreg o = true) :
    op.isMac = true := by
  cases op <;> first | rfl | cases h

theorem destUse_isStoreClass {op : TccIrOp} (h : op.destUse = .address) :
    op.isStoreClass = true ∧ (iropConfig op).hasDest = true := by
  cases op <;> first | exact ⟨rfl, rfl⟩ | cases h

theorem destUse_ne_value (op : TccIrOp) : op.destUse ≠ .value := by
  cases op <;> decide

theorem IROperand.writesThrough_of_defines {op : IROperand} (h : op.destDefinesVreg = true) :
    op.writesThrough = false := by
  unfold destDefinesVreg isVregValue at h
  unfold writesThrough
  cases hd : op.data <;> simp_all

theorem IRQuadCompact.destUse_of_reads (h : q.destUse.readsVreg q.dest = true) :
    q.destUse = q.op.destUse := by
  unfold destUse at h ⊢
  split
  · next hs =>
    have hdef := (Bool.and_eq_true_iff.mp hs).2
    rw [if_pos hs] at h
    simp [OperandUse.readsVreg, IROperand.writesThrough_of_defines hdef] at h
  · rfl

theorem IRQuadCompact.not_reads_nop (h : q.op = .nop) : ¬ q.Reads v := by
  simp [Reads, ReadsSource, IRQuadCompact.destUse, h, TccIrOp.src1Use, TccIrOp.src2Use,
    TccIrOp.extraUse, TccIrOp.destUse, OperandUse.readsVreg]

theorem mem_raDeadcopyReads_source (h : q.ReadsSource v) : some v ∈ raDeadcopyReads q := by
  have hnop : q.op ≠ .nop := fun hn => IRQuadCompact.not_reads_nop hn (.inl h)
  simp only [raDeadcopyReads, if_neg hnop, mem_append]
  rcases h with ⟨hu, hv⟩ | ⟨hu, hv⟩ | ⟨hu, hv⟩
  · have hc := src1Use_config _ _ hu
    simp [hc, IRQuadCompact.getSrc1, hv]
  · have hc := src2Use_config _ _ hu
    simp [hc, IRQuadCompact.getSrc2, hv]
  · simp [extraUse_isMac _ _ hu, hv]

/-- Every vreg that an instruction reads is marked, but for the address of a dereferenced
result. -/
theorem mem_raDeadcopyReads (h : q.Reads v) :
    some v ∈ raDeadcopyReads q ∨ q.derefsResult = true ∧ q.dest.vreg = some v := by
  rcases h with h | ⟨hu, hv⟩
  · exact .inl (mem_raDeadcopyReads_source h)
  · have hd := q.destUse_of_reads hu
    have hne := destUse_ne_value q.op
    rw [hd] at hu
    cases hop : q.op.destUse with
    | address =>
      obtain ⟨hs, hc⟩ := destUse_isStoreClass hop
      have hnop : q.op ≠ .nop := by
        intro hn
        rw [hn] at hs
        cases hs
      exact .inl (by simp [raDeadcopyReads, hnop, hs, hc, IRQuadCompact.getDest, hv])
    | result =>
      exact .inr ⟨by simpa [IRQuadCompact.derefsResult, OperandUse.readsVreg, hop] using hu, hv⟩
    | _ => simp_all [OperandUse.readsVreg]

end Coverage

section ReadMap

variable {maxPos : ℕ} {ir : TCCIRState} {q : IRQuadCompact} {v : Vreg} {m : ℕ → Bool}

theorem raDeadcopyMark_mono {o : Option Vreg} {i : ℕ} (h : m i = true) :
    raDeadcopyMark maxPos m o i = true := by
  unfold raDeadcopyMark
  split
  · split
    · rw [update_apply]
      split
      · rfl
      · exact h
    · exact h
  · exact h

theorem foldl_mark_mono (l : List (Option Vreg)) : ∀ {m : ℕ → Bool} {i : ℕ}, m i = true →
    l.foldl (raDeadcopyMark maxPos) m i = true := by
  induction l with
  | nil => exact fun h => h
  | cons o l ih => exact fun h => ih (raDeadcopyMark_mono h)

theorem foldl_mark_mem (l : List (Option Vreg)) (hi : raDeadcopyIdx maxPos v < 4 * maxPos)
    (hv : some v ∈ l) : ∀ {m : ℕ → Bool},
    l.foldl (raDeadcopyMark maxPos) m (raDeadcopyIdx maxPos v) = true := by
  induction l with
  | nil => cases hv
  | cons o l ih =>
    intro m
    rcases List.mem_cons.mp hv with rfl | hv
    · refine foldl_mark_mono l ?_
      simp [raDeadcopyMark, hi]
    · exact ih hv

theorem raDeadcopyReadMap_mem (hq : q ∈ ir.compactInstructions)
    (hv : some v ∈ raDeadcopyReads q) (hi : raDeadcopyIdx maxPos v < 4 * maxPos) :
    raDeadcopyReadMap maxPos ir (raDeadcopyIdx maxPos v) = true := by
  unfold raDeadcopyReadMap
  generalize (fun _ => false : ℕ → Bool) = m
  generalize ir.compactInstructions = l at hq
  induction l generalizing m with
  | nil => cases hq
  | cons q' l ih =>
    rcases List.mem_cons.mp hq with rfl | hq
    · have hmark : ∀ (l : List IRQuadCompact) {m : ℕ → Bool} {i : ℕ}, m i = true →
          l.foldl (fun m q => (raDeadcopyReads q).foldl (raDeadcopyMark maxPos) m) m i = true := by
        intro l
        induction l with
        | nil => exact fun h => h
        | cons q l ih => exact fun h => ih (foldl_mark_mono _ h)
      exact hmark l (foldl_mark_mem _ hi hv)
    · exact ih _ hq

theorem raDeadcopyDead_iff (m : ℕ → Bool) : raDeadcopyDead maxPos m q = true ↔
    q.op = .assign ∧ ∃ p, q.dest.vreg = some ⟨.temp, p⟩ ∧
      raDeadcopyIdx maxPos ⟨.temp, p⟩ < 4 * maxPos ∧ m (raDeadcopyIdx maxPos ⟨.temp, p⟩) = false := by
  unfold raDeadcopyDead
  constructor
  · intro h
    rw [Bool.and_eq_true, decide_eq_true_eq] at h
    obtain ⟨hop, h⟩ := h
    have hd : q.getDest = q.dest := by simp [IRQuadCompact.getDest, hop, iropConfig]
    rw [hd] at h
    cases hv : q.dest.vreg with
    | none => simp [hv] at h
    | some dv =>
      obtain ⟨type, p⟩ := dv
      simp only [hv, Bool.and_eq_true, decide_eq_true_eq, Bool.not_eq_true'] at h
      obtain ⟨⟨rfl, hi⟩, hm⟩ := h
      exact ⟨hop, p, rfl, hi, hm⟩
  · rintro ⟨hop, p, hv, hi, hm⟩
    have hd : q.getDest = q.dest := by simp [IRQuadCompact.getDest, hop, iropConfig]
    simp [hop, hd, hv, hi, hm]

end ReadMap

/-- A move that the function can do without: into a TEMP that only such moves read. -/
inductive DeadMove (ir : TCCIRState) : ℕ → Prop
  | intro {i p : ℕ} : (ir.quad i).op = .assign → (ir.quad i).dest.vreg = some ⟨.temp, p⟩ →
      (∀ j, (ir.quad j).Reads ⟨.temp, p⟩ → DeadMove ir j) → DeadMove ir i

/-- The second function is the first with dead moves removed: each into a TEMP that no instruction
of the second one reads. -/
structure DropsDeadMoves (ir ir' : TCCIRState) : Prop where
  switchTables : ir'.switchTables = ir.switchTables
  length : ir'.nextInstructionIndex = ir.nextInstructionIndex
  quad : ∀ i, ir'.quad i = ir.quad i ∨
    (DeadMove ir i ∧ (ir.quad i).op = .assign ∧ ir'.quad i = { ir.quad i with op := .nop } ∧
      ∃ p, (ir.quad i).dest.vreg = some ⟨.temp, p⟩ ∧ ∀ j, ¬ (ir'.quad j).Reads ⟨.temp, p⟩)

/-- An instruction other than a store that writes through a vreg reads it as a source too. -/
def WritesCovered (ir : TCCIRState) : Prop :=
  ∀ q ∈ ir.compactInstructions, q.derefsResult = true → ∀ v, q.dest.vreg = some v → q.ReadsSource v

/-- A dead move gives its TEMP a value, without a volatile access. -/
def DeadMovesPlain (m : AccessMarks) (ir : TCCIRState) : Prop :=
  ∀ i, DeadMove ir i → (ir.quad i).dest.destDefinesVreg = true ∧ (ir.quad i).movesVolatile m = false

theorem WritesCovered.mem_reads {ir : TCCIRState} (h : WritesCovered ir) {q : IRQuadCompact}
    (hq : q ∈ ir.compactInstructions) {v : Vreg} (hr : q.Reads v) : some v ∈ raDeadcopyReads q := by
  rcases mem_raDeadcopyReads hr with hm | ⟨hd, hv⟩
  · exact hm
  · exact mem_raDeadcopyReads_source (h q hq hd v hv)

namespace DropsDeadMoves

variable {ir ir' ir'' : TCCIRState}

theorem refl (ir : TCCIRState) : DropsDeadMoves ir ir := ⟨rfl, rfl, fun _ => .inl rfl⟩

theorem reads (h : DropsDeadMoves ir ir') {j : ℕ} {v : Vreg} (hr : (ir'.quad j).Reads v) :
    (ir.quad j).Reads v := by
  rcases h.quad j with he | ⟨_, _, he, _⟩
  · rwa [he] at hr
  · rw [he] at hr
    exact absurd hr (IRQuadCompact.not_reads_nop rfl)

/-- What is dead once dead moves are gone was dead before. -/
theorem deadMove (h : DropsDeadMoves ir ir') {i : ℕ} (hd : DeadMove ir' i) : DeadMove ir i := by
  induction hd with
  | @intro i p hop hv _ ih =>
    rcases h.quad i with he | ⟨_, _, he, _⟩
    · rw [he] at hop hv
      refine .intro hop hv fun j hj => ?_
      rcases h.quad j with he' | ⟨hdead, _⟩
      · exact ih j (by rwa [he'])
      · exact hdead
    · rw [he] at hop
      cases hop

theorem trans (h : DropsDeadMoves ir ir') (h' : DropsDeadMoves ir' ir'') :
    DropsDeadMoves ir ir'' where
  switchTables := h'.switchTables.trans h.switchTables
  length := h'.length.trans h.length
  quad i := by
    rcases h.quad i with he | ⟨hdead, hop, he, p, hv, hr⟩
    · rcases h'.quad i with he' | ⟨hdead', hq⟩
      · exact .inl (he'.trans he)
      · rw [he] at hq
        exact .inr ⟨h.deadMove hdead', hq⟩
    · rcases h'.quad i with he' | ⟨_, hop', _⟩
      · exact .inr ⟨hdead, hop, he'.trans he, p, hv, fun j hj => hr j (h'.reads hj)⟩
      · rw [he] at hop'
        cases hop'

end DropsDeadMoves

section Sweep

variable {maxPos : ℕ} {ir : TCCIRState}

theorem raDeadcopySweep_quad (i : ℕ) : (raDeadcopySweep maxPos ir).1.quad i =
    if raDeadcopyDead maxPos (raDeadcopyReadMap maxPos ir) (ir.quad i) then
      { ir.quad i with op := .nop } else ir.quad i := by
  unfold raDeadcopySweep TCCIRState.quad
  rw [List.getD_eq_getElem?_getD, List.getD_eq_getElem?_getD, List.getElem?_map]
  cases ir.compactInstructions[i]? with
  | some q => rfl
  | none =>
    split <;> rfl

theorem quad_mem {i : ℕ} (hi : i < ir.nextInstructionIndex) :
    ir.quad i ∈ ir.compactInstructions := by
  unfold TCCIRState.quad
  rw [List.getD_eq_getElem?_getD, List.getElem?_eq_getElem hi]
  exact getElem_mem hi

theorem quad_of_ge {i : ℕ} (hi : ir.nextInstructionIndex ≤ i) : ir.quad i = default := by
  unfold TCCIRState.quad
  rw [List.getD_eq_getElem?_getD, List.getElem?_eq_none hi]
  rfl

theorem writesCovered_sweep (h : WritesCovered ir) :
    WritesCovered (raDeadcopySweep maxPos ir).1 := by
  intro q hq hd v hv
  obtain ⟨q', hq', rfl⟩ := List.mem_map.mp hq
  by_cases hdead : raDeadcopyDead maxPos (raDeadcopyReadMap maxPos ir) q' = true
  · rw [if_pos hdead] at hd
    cases hd
  · rw [if_neg hdead] at hd hv ⊢
    exact h q' hq' hd v hv

theorem dropsDeadMoves_sweep (h : WritesCovered ir) :
    DropsDeadMoves ir (raDeadcopySweep maxPos ir).1 where
  switchTables := rfl
  length := length_map _
  quad i := by
    by_cases hd : raDeadcopyDead maxPos (raDeadcopyReadMap maxPos ir) (ir.quad i) = true
    · refine .inr ?_
      obtain ⟨hop, p, hv, hi, hm⟩ := (raDeadcopyDead_iff _).mp hd
      -- what is not marked is not read at all
      have hunread : ∀ j, ¬ (ir.quad j).Reads ⟨.temp, p⟩ := by
        intro j hr
        by_cases hj : j < ir.nextInstructionIndex
        · have hmem := quad_mem hj
          have := raDeadcopyReadMap_mem hmem (h.mem_reads hmem hr) hi
          rw [hm] at this
          cases this
        · rw [quad_of_ge (Nat.not_lt.mp hj)] at hr
          exact IRQuadCompact.not_reads_nop rfl hr
      refine ⟨.intro hop hv fun j hr => absurd hr (hunread j), hop,
        by rw [raDeadcopySweep_quad, if_pos hd], p, hv, fun j hr => ?_⟩
      rw [raDeadcopySweep_quad] at hr
      split at hr
      · exact IRQuadCompact.not_reads_nop rfl hr
      · exact hunread j hr
    · exact .inl (by rw [raDeadcopySweep_quad, if_neg hd])

def countAssigns (ir : TCCIRState) : ℕ := ir.compactInstructions.countP (·.op = .assign)

theorem countAssigns_sweep : countAssigns (raDeadcopySweep maxPos ir).1 +
    (if (raDeadcopySweep maxPos ir).2 then 1 else 0) ≤ countAssigns ir := by
  have hdead : ∀ q, raDeadcopyDead maxPos (raDeadcopyReadMap maxPos ir) q = true →
      q.op = .assign := fun q hq => ((raDeadcopyDead_iff _).mp hq).1
  unfold countAssigns raDeadcopySweep
  dsimp only
  generalize raDeadcopyDead maxPos (raDeadcopyReadMap maxPos ir) = dead at hdead
  induction ir.compactInstructions with
  | nil => simp
  | cons q l ih =>
    cases hq : dead q with
    | true =>
      simp only [map_cons, hq, if_true, any_cons, Bool.true_or, countP_cons,
        hdead q hq, decide_true, reduceCtorEq, decide_false, Bool.false_eq_true, if_false]
      split at ih <;> omega
    | false =>
      simp only [map_cons, hq, any_cons, Bool.false_or, countP_cons,
        Bool.false_eq_true, if_false]
      omega

end Sweep

section Behaviour

variable {Val World : Type} (sem : IrSem Val World)

/-- What is asked of the meaning of a function: an instruction reads no other TEMPs than its
operation says, and a move into a TEMP does nothing else, volatile accesses apart. -/
structure MoveMeaning (m : AccessMarks) (ir : TCCIRState) : Prop where
  uses : ∀ q ∈ ir.compactInstructions, q.op ≠ .nop → ∀ v ∈ sem.uses q, v.type = .temp → q.Reads v
  nop : ∀ (q : IRQuadCompact) σ w, q.op = .nop → sem.exec q σ w = .ok (σ, w)
  assign : ∀ q ∈ ir.compactInstructions, ∀ p σ w, q.op = .assign →
    q.dest.vreg = some ⟨.temp, p⟩ → q.dest.destDefinesVreg = true → q.movesVolatile m = false →
    ∃ x, sem.exec q σ w = .ok (update σ ⟨.temp, p⟩ x, w)

variable {sem} {m : AccessMarks} {ir ir' : TCCIRState} {i : ℕ} {σ τ : Vreg → Val} {w : World}

theorem control_congr (hq : ir'.quad i = ir.quad i) (hsw : ir'.switchTables = ir.switchTables)
    (h : (ir.quad i).op.isBranch = true →
      ∀ v, v ∈ sem.uses (ir.quad i) ∨ v.type ≠ .temp → σ v = τ v) :
    sem.control ir i σ w = sem.control ir' i τ w := by
  unfold IrSem.control
  rw [hq, hsw]
  dsimp only
  by_cases hs : (ir.quad i).op = .switchTable
  · rw [sem.switchIndex_congr w (h (by rw [hs]; rfl))]
  · simp only [if_neg hs]

/-- The vregs agree that are no TEMP or that the second function still reads. -/
def AgreeOnRead (ir' : TCCIRState) (σ τ : Vreg → Val) : Prop :=
  ∀ v, v.type ≠ .temp ∨ (∃ j, (ir'.quad j).Reads v) → σ v = τ v

def StatesAgree (ir' : TCCIRState) (s t : IrState Val World) : Prop :=
  s.pc = t.pc ∧ s.world = t.world ∧ AgreeOnRead ir' s.regs t.regs

/-- Two runs end alike, or go on in states that agree. -/
def OutcomesAgree (ir' : TCCIRState) (a b : IrState Val World ⊕ World) : Prop :=
  (∃ w, a = .inr w ∧ b = .inr w) ∨ ∃ s t, a = .inl s ∧ b = .inl t ∧ StatesAgree ir' s t

theorem outcomesAgree_goto (h : AgreeOnRead ir' σ τ) (t : Option ℤ) :
    OutcomesAgree ir' (IrSem.goto (fun _ _ σ => σ) i σ w t)
      (IrSem.goto (fun _ _ σ => σ) i τ w t) := by
  cases t with
  | none => exact .inl ⟨w, rfl, rfl⟩
  | some t =>
    by_cases h0 : 0 ≤ t
    · rw [goto_of_nonneg h0, goto_of_nonneg h0]
      exact .inr ⟨_, _, rfl, rfl, rfl, rfl, h⟩
    · rw [goto_of_neg (by omega), goto_of_neg (by omega)]
      exact .inl ⟨w, rfl, rfl⟩

theorem uses_agree (M : MoveMeaning sem m ir) (hi : i < ir.nextInstructionIndex)
    (hq : ir'.quad i = ir.quad i) (hnop : (ir.quad i).op ≠ .nop) (h : AgreeOnRead ir' σ τ) :
    ∀ v, v ∈ sem.uses (ir.quad i) ∨ v.type ≠ .temp → σ v = τ v := by
  intro v hv
  by_cases ht : v.type = .temp
  · have hr := M.uses _ (quad_mem hi) hnop v (hv.resolve_right (fun hn => hn ht)) ht
    exact h v (.inr ⟨i, by rwa [hq]⟩)
  · exact h v (.inl ht)

theorem effect_same (M : MoveMeaning sem m ir) (hi : i < ir.nextInstructionIndex)
    (hq : ir'.quad i = ir.quad i) (h : AgreeOnRead ir' σ τ) :
    (∃ w', sem.effect (ir.quad i) σ w = .error w' ∧ sem.effect (ir.quad i) τ w = .error w') ∨
      ∃ σ' τ' w', sem.effect (ir.quad i) σ w = .ok (σ', w') ∧
        sem.effect (ir.quad i) τ w = .ok (τ', w') ∧ AgreeOnRead ir' σ' τ' := by
  by_cases hb : (ir.quad i).op.isBranch = true
  · exact .inr ⟨σ, τ, w, effect_of_branch hb, effect_of_branch hb, h⟩
  rw [Bool.not_eq_true] at hb
  rw [effect_of_not_branch hb, effect_of_not_branch hb]
  by_cases hnop : (ir.quad i).op = .nop
  · exact .inr ⟨σ, τ, w, M.nop _ σ w hnop, M.nop _ τ w hnop, h⟩
  have huses := uses_agree M hi hq hnop h
  cases he : sem.exec (ir.quad i) σ w with
  | error w' => exact .inl ⟨w', rfl, sem.exec_error huses he⟩
  | ok r =>
    obtain ⟨σ', w'⟩ := r
    obtain ⟨τ', he', hdefs⟩ := sem.exec_ok huses he
    refine .inr ⟨σ', τ', w', rfl, he', fun v hv => ?_⟩
    by_cases hd : v ∈ sem.defs (ir.quad i) ∨ v.type ≠ .temp
    · exact hdefs v hd
    · -- a TEMP that the instruction does not define keeps its value on both sides
      rw [not_or, not_not] at hd
      rw [sem.exec_frame he v hd.2 hd.1, sem.exec_frame he' v hd.2 hd.1]
      exact h v hv

theorem control_of_move {q : IRQuadCompact} (hq : ir.quad i = q) (h : q.op = .assign ∨ q.op = .nop) :
    sem.control ir i σ w = some (i + 1) := by
  subst hq
  rcases h with h | h <;> simp [IrSem.control, fallsThrough, cfgInstrEndsFlow, h]

theorem step_agrees (M : MoveMeaning sem m ir) (P : DeadMovesPlain m ir) (D : DropsDeadMoves ir ir')
    {s t : IrState Val World} (h : StatesAgree ir' s t) :
    OutcomesAgree ir' (sem.flatMachine ir s) (sem.flatMachine ir' t) := by
  obtain ⟨pc, σ, w⟩ := s
  obtain ⟨pc', τ, w'⟩ := t
  obtain ⟨hpc, hw, hagree⟩ := h
  dsimp only at hpc hw hagree
  subst hpc hw
  unfold IrSem.flatMachine
  by_cases hi : pc < ir.nextInstructionIndex
  · have hi' : pc < ir'.nextInstructionIndex := by rwa [D.length]
    rcases D.quad pc with hq | ⟨hdead, hop, hq, p, hv, hr⟩
    · rcases effect_same (w := w) M hi hq hagree with ⟨w', h1, h2⟩ | ⟨σ', τ', w', h1, h2, h3⟩
      · rw [machine_of_error hi h1, machine_of_error hi' (by rw [hq]; exact h2)]
        exact .inl ⟨w', rfl, rfl⟩
      · rw [machine_of_ok hi h1, machine_of_ok hi' (by rw [hq]; exact h2)]
        have hc : sem.control ir pc σ' w' = sem.control ir' pc τ' w' := by
          refine control_congr hq D.switchTables fun hb => ?_
          exact uses_agree M hi hq (by rintro hn; rw [hn] at hb; cases hb) h3
        rw [hc]
        exact outcomesAgree_goto h3 _
    · -- a move on one side, nothing on the other
      obtain ⟨x, hx⟩ := M.assign _ (quad_mem hi) p σ w hop hv (P pc hdead).1 (P pc hdead).2
      have hb : (ir.quad pc).op.isBranch = false := by rw [hop]; rfl
      have hb' : (ir'.quad pc).op.isBranch = false := by rw [hq]; rfl
      rw [machine_of_ok hi ((effect_of_not_branch hb).trans hx),
        machine_of_ok hi' ((effect_of_not_branch hb').trans
          (M.nop _ τ w (by rw [hq]))), control_of_move rfl (.inl hop),
        control_of_move hq (.inr rfl)]
      refine outcomesAgree_goto (fun v hv' => ?_) _
      rw [update_of_ne, hagree v hv']
      rintro rfl
      rcases hv' with hne | ⟨j, hj⟩
      · exact hne rfl
      · exact hr j hj
  · rw [machine_of_ge (Nat.not_lt.mp hi),
      machine_of_ge (by rw [D.length]; exact Nat.not_lt.mp hi)]
    exact .inl ⟨w, rfl, rfl⟩

theorem simulation_dropsDeadMoves (M : MoveMeaning sem m ir) (P : DeadMovesPlain m ir)
    (D : DropsDeadMoves ir ir') :
    Simulation (sem.flatMachine ir) (sem.flatMachine ir') (fun s => (s.pc, s.world))
      (fun s => (s.pc, s.world)) (StatesAgree ir') where
  obs h := Prod.ext h.1 h.2.1
  step {s s' t} h hs := by
    rcases step_agrees M P D h with ⟨w, h1, _⟩ | ⟨s₁, t₁, h1, h2, h3⟩
    · rw [hs] at h1
      cases h1
    · rw [hs] at h1
      cases h1
      exact ⟨1, t₁, Nat.one_pos, .one h2 (.inl (Prod.ext h.1.symm h.2.1.symm)), h3⟩
  halt {s t r} h hs := by
    rcases step_agrees M P D h with ⟨w, h1, h2⟩ | ⟨s₁, t₁, h1, _⟩
    · rw [hs] at h1
      cases h1
      exact ⟨0, t, .refl t, h2, Prod.ext h.1.symm h.2.1.symm⟩
    · rw [hs] at h1
      cases h1

end Behaviour

theorem raEliminateDeadRegCopies_drops (c : VregCounts) {ir : TCCIRState} (h : WritesCovered ir) :
    ∃ ir', raEliminateDeadRegCopies c ir = some ir' ∧ DropsDeadMoves ir ir' := by
  unfold raEliminateDeadRegCopies
  by_cases h0 : c.maxPos ≤ 0
  · rw [if_pos h0]
    exact ⟨ir, rfl, .refl ir⟩
  rw [if_neg h0]
  have step : ∀ st : TCCIRState × Bool, WritesCovered st.1 ∧ DropsDeadMoves ir st.1 →
      st.2 = true → (WritesCovered (raDeadcopySweep c.maxPos st.1).1 ∧
        DropsDeadMoves ir (raDeadcopySweep c.maxPos st.1).1) ∧
      countAssigns (raDeadcopySweep c.maxPos st.1).1 +
        (if (raDeadcopySweep c.maxPos st.1).2 then 1 else 0) <
        countAssigns st.1 + if st.2 then 1 else 0 := by
    rintro st ⟨hn, hd⟩ hst
    refine ⟨⟨writesCovered_sweep hn, hd.trans (dropsDeadMoves_sweep hn)⟩, ?_⟩
    rw [if_pos hst]
    exact Nat.lt_succ_of_le countAssigns_sweep
  have hinit : countAssigns (raDeadcopySweep c.maxPos ir).1 +
      (if (raDeadcopySweep c.maxPos ir).2 then 1 else 0) < ir.nextInstructionIndex + 2 := by
    have h1 := @countAssigns_sweep c.maxPos ir
    have h2 : countAssigns ir ≤ ir.nextInstructionIndex := countP_le_length
    omega
  obtain ⟨st, hst, hinv, _⟩ := whileLoop_total
    (fun st : TCCIRState × Bool => WritesCovered st.1 ∧ DropsDeadMoves ir st.1)
    (fun st => countAssigns st.1 + if st.2 then 1 else 0) step (ir.nextInstructionIndex + 2)
    (raDeadcopySweep c.maxPos ir) ⟨writesCovered_sweep h, dropsDeadMoves_sweep h⟩ hinit
  exact ⟨st.1, by rw [hst]; rfl, hinv.2⟩

/-- Where writes through a vreg are covered, the pass removes only moves into TEMPs that no
instruction left reads; it keeps the behaviour if none of the moves it can remove has a volatile
access or writes elsewhere than to its TEMP. -/
theorem raEliminateDeadRegCopies_correct (c : VregCounts) (m : AccessMarks) (ir : TCCIRState)
    (hw : WritesCovered ir) (hp : DeadMovesPlain m ir) :
    (∀ q ∈ ir.compactInstructions, ∀ v, q.Reads v → some v ∈ raDeadcopyReads q) ∧
    ∃ ir', raEliminateDeadRegCopies c ir = some ir' ∧ DropsDeadMoves ir ir' ∧
      ∀ {Val World : Type} (sem : IrSem Val World), MoveMeaning sem m ir →
        ∀ s, SameBehaviour (sem.flatMachine ir) (sem.flatMachine ir') (fun s => (s.pc, s.world))
          (fun s => (s.pc, s.world)) s s := by
  obtain ⟨ir', hir', hd⟩ := raEliminateDeadRegCopies_drops c hw
  refine ⟨fun q hq v hr => hw.mem_reads hq hr, ir', hir', hd, ?_⟩
  intro Val World sem M s
  exact (simulation_dropsDeadMoves M hp hd).sameBehaviour ⟨rfl, rfl, fun _ _ => rfl⟩

def copyOf (i d : ℕ) (src : Vreg) : IRQuadCompact :=
  ⟨.assign, i, .makeVreg ⟨.temp, d⟩ .int32, .makeVreg src .int32, .none, .none⟩

def deadChain : TCCIRState :=
  { compactInstructions :=
      [copyOf 0 0 ⟨.param, 0⟩, copyOf 1 1 ⟨.temp, 0⟩,
        ⟨.assign, 2, .temp 2, ⟨.vreg, some ⟨.param, 0⟩, true, .int32, false⟩,
          .none, .none⟩,
        ⟨.assign, 3, ⟨.stackoff 0xfffffffc#32, some ⟨.var, 0⟩, true, .int32, false⟩,
          .temp 2, .none, .none⟩,
        ⟨.returnvalue, 4, .none, .temp 2, .none, .none⟩] }

def volatileSource (i : ℕ) : AccessMarks :=
  ⟨true, fun _ => false, fun q => q.origIndex = i, fun _ => false, fun _ => false⟩

theorem deadMovesPlain_deadChain : DeadMovesPlain (volatileSource 2) deadChain := by
  have hplain : ∀ i < 5, i ≠ 2 → (deadChain.quad i).op = .assign →
      (deadChain.quad i).dest.destDefinesVreg = true ∧
        (deadChain.quad i).movesVolatile (volatileSource 2) = false := by decide
  rintro i ⟨hop, hv, hread⟩
  have hi : i < 5 := by
    by_contra hge
    rw [quad_of_ge (Nat.not_lt.mp hge)] at hop
    cases hop
  refine hplain i hi ?_ hop
  rintro rfl
  -- the value is returned, so it is not dead
  cases hv
  have hreturned : (deadChain.quad 4).Reads ⟨.temp, 2⟩ := by
    unfold IRQuadCompact.Reads IRQuadCompact.ReadsSource
    decide
  obtain ⟨hret, _⟩ := hread 4 hreturned
  cases hret

theorem moveMeaning_deadChain : MoveMeaning moveSem (volatileSource 2) deadChain where
  uses q hq _ v hv _ := by
    refine .inl (.inl ⟨?_, hv⟩)
    clear hv
    revert q
    decide
  nop q σ w hop := by
    change moveExec q σ w = _
    simp [moveExec, hop]
  assign q _ p σ w hop hv _ _ := by
    refine ⟨moveValue q.src1 σ, ?_⟩
    change moveExec q σ w = _
    simp [moveExec, hop, hv]

theorem raEliminateDeadRegCopies_correct_deadChain :
    ∃ ir', raEliminateDeadRegCopies ⟨1, 3, 1⟩ deadChain = some ir' ∧
      ir'.compactInstructions.map (·.op) = [.nop, .nop, .assign, .assign, .returnvalue] ∧
      ∀ s, SameBehaviour (moveSem.flatMachine deadChain) (moveSem.flatMachine ir')
        (fun s => (s.pc, s.world)) (fun s => (s.pc, s.world)) s s := by
  have hcovered : WritesCovered deadChain := by
    have : ∀ q ∈ deadChain.compactInstructions, q.derefsResult = false := by decide
    intro q hq hd
    rw [this q hq] at hd
    cases hd
  obtain ⟨_, ir', hir', _, hs⟩ := raEliminateDeadRegCopies_correct ⟨1, 3, 1⟩ (volatileSource 2)
    deadChain hcovered deadMovesPlain_deadChain
  refine ⟨ir', hir', ?_, hs moveSem moveMeaning_deadChain⟩
  have hops : (raEliminateDeadRegCopies ⟨1, 3, 1⟩ deadChain).map
      (·.compactInstructions.map (·.op)) =
        some [.nop, .nop, .assign, .assign, .returnvalue] := by decide
  rw [hir'] at hops
  exact Option.some.inj hops

/-- A volatile read whose value is not used, or what is left of it. -/
def volatileRead : TCCIRState :=
  { compactInstructions :=
      [⟨op, 0, .temp 0, ⟨.vreg, some ⟨.param, 0⟩, true, .int32, false⟩,
          .none, .none⟩,
        ⟨.returnvoid, 1, .none, .none, .none, .none⟩] }

/-- The meaning that only counts the reads of memory. -/
def countSem : IrSem Unit ℕ where
  exec q σ w := .ok (σ, if q.op = .assign ∧ q.src1.isLval then w + 1 else w)
  switchIndex _ _ _ := 0
  flags _ := default
  uses _ := ∅
  defs _ := ∅
  exec_error _ h := by cases h
  exec_ok _ h := by
    cases h
    exact ⟨_, rfl, fun _ _ => rfl⟩
  exec_frame _ _ _ _ := rfl
  defs_branch _ := rfl
  switchIndex_congr _ _ := rfl

def writeThroughMove : TCCIRState :=
  -- a move gives a TEMP the address that a second move writes to
  { compactInstructions :=
      [copyOf 0 0 ⟨.param, 0⟩,
        ⟨.assign, 1, ⟨.vreg, some ⟨.temp, 0⟩, true, .int32, false⟩, .int 5, .none,
          .none⟩,
        ⟨.returnvoid, 2, .none, .none, .none, .none⟩] }

/-- A volatile read is removed with the move it is in; and an address that a move writes to is not
counted as read, so that both moves are removed. -/
theorem raEliminateDeadRegCopies_drops_access :
    (((volatileRead .assign).quad 0).movesVolatile (volatileSource 0) = true ∧
      MoveMeaning countSem (volatileSource 0) (volatileRead .assign) ∧
      raEliminateDeadRegCopies ⟨0, 1, 1⟩ (volatileRead .assign) = some (volatileRead .nop) ∧
      ¬ SameBehaviour (countSem.flatMachine (volatileRead .assign))
        (countSem.flatMachine (volatileRead .nop)) (fun s => (s.pc, s.world))
        (fun s => (s.pc, s.world)) ⟨0, fun _ => (), 0⟩ ⟨0, fun _ => (), 0⟩) ∧
    (writeThroughMove.quad 1).Reads ⟨.temp, 0⟩ ∧
      some ⟨.temp, 0⟩ ∉ raDeadcopyReads (writeThroughMove.quad 1) ∧
      (raEliminateDeadRegCopies ⟨0, 1, 1⟩ writeThroughMove).map
        (·.compactInstructions.map (·.op)) = some [.nop, .nop, .returnvoid] := by
  refine ⟨⟨by decide, ⟨fun _ _ _ v hv => absurd hv (Set.notMem_empty v), fun q σ w hop => ?_,
    fun q hq p σ w hop _ _ hvol => ?_⟩, rfl, fun h => ?_⟩, ?_, by decide, by decide⟩
  · change Except.ok (σ, if q.op = .assign ∧ q.src1.isLval then w + 1 else w) = _
    rw [if_neg (by simp [hop])]
  · have hall : ∀ q ∈ (volatileRead .assign).compactInstructions, q.op = .assign →
        q.movesVolatile (volatileSource 0) = true := by decide
    rw [hall q hq hop] at hvol
    cases hvol
  · have h1 : (countSem.flatMachine (volatileRead .assign)).Halts ⟨0, fun _ => (), 0⟩ 1 :=
      ⟨2, rfl⟩
    have h0 : (countSem.flatMachine (volatileRead .nop)).Halts ⟨0, fun _ => (), 0⟩ 0 := ⟨2, rfl⟩
    exact absurd (((h.1 1).mp h1).unique h0) (by decide)
  · unfold IRQuadCompact.Reads IRQuadCompact.ReadsSource
    decide

end Tinycc
