import Tinycc.Lib.Marking
import Tinycc.Regalloc.VregLiveness

namespace Tinycc
open Lib Relation List

structure SSAInterval where
  vreg : Vreg
  start : ℕ
  stop : ℕ

def hasSourceVreg (q : IRQuadCompact) (v : Vreg) : Bool :=
  ((iropConfig q.op).hasSrc1 && q.getSrc1.vreg = some v) ||
    ((iropConfig q.op).hasSrc2 && q.getSrc2.vreg = some v) ||
    (q.op.isMac && q.extra.vreg = some v)

def hasDestVreg (q : IRQuadCompact) (v : Vreg) : Bool :=
  (iropConfig q.op).hasDest && q.getDest.vreg = some v

def copiesVreg (q : IRQuadCompact) (dst src : Vreg) : Bool :=
  q.op = .assign && q.getDest.vreg = some dst && q.getSrc1.vreg = some src

def definesVreg (q : IRQuadCompact) (v : Vreg) : Bool :=
  q.op ≠ .nop && !q.op.isStoreClass && hasDestVreg q v

/-- The scan after the definition of `cur`; `found` says whether the copy back was seen. -/
def loopPhiScan (ir : TCCIRState) (cur partner : Vreg) : List ℕ → Bool → Bool
  | [], found => found
  | j :: js, found =>
    let q := ir.quad j
    if q.op = .nop then loopPhiScan ir cur partner js found
    else if hasDestVreg q cur then false
    else if hasSourceVreg q partner then
      if copiesVreg q partner cur && !found then loopPhiScan ir cur partner js true else false
    else if hasDestVreg q partner then
      if q.op.isStoreClass then false
      else if copiesVreg q partner cur && !found then loopPhiScan ir cur partner js true
      else false
    else loopPhiScan ir cur partner js found

def raSafeLoopPhiCoalesce (ir : TCCIRState) (cur partner : SSAInterval) : Bool :=
  let n := ir.nextInstructionIndex
  if n ≤ cur.start ∨ partner.stop < cur.start ∨ n ≤ partner.stop then false
  else if partner.stop < cur.stop then false
  else
    match (range' cur.start (partner.stop + 1 - cur.start)).find?
      fun j => definesVreg (ir.quad j) cur.vreg with
    | none => false
    | some d =>
      hasSourceVreg (ir.quad d) partner.vreg &&
        loopPhiScan ir cur.vreg partner.vreg (range' (d + 1) (partner.stop - d)) false

def raInstrTouchesVreg (q : IRQuadCompact) (v : Vreg) : Bool :=
  q.op ≠ .nop && (hasSourceVreg q v || hasDestVreg q v)

/-- The successors that the exit check pushes, without those out of range. -/
def exitPhiSuccs (ir : TCCIRState) (i : ℕ) : List ℕ :=
  let q := ir.quad i
  let targets : List ℤ :=
    if q.op = .returnvoid ∨ q.op = .returnvalue ∨ q.op = .trap then []
    else if q.op = .jump then [q.getDest.getImmInt]
    else if q.op = .jumpif then [q.getDest.getImmInt, i + 1]
    else [(i : ℤ) + 1]
  (targets.filter fun x : ℤ => 0 ≤ x ∧ x < (ir.nextInstructionIndex : ℤ)).map Int.toNat

def exitPhiStep (ir : TCCIRState) (v : Vreg) (s : MarkState × Bool) : MarkState × Bool :=
  match s.1.work with
  | [] => s
  | i :: rest =>
    if raInstrTouchesVreg (ir.quad i) v || unknownSuccessors (ir.quad i) then
      ({ s.1 with work := rest }, false)
    else (s.1.step (exitPhiSuccs ir), s.2)

def exitPhiSearch (ir : TCCIRState) (v : Vreg) (d : ℕ) : Option (MarkState × Bool) :=
  whileLoop (fun s => s.1.pending && s.2) (exitPhiStep ir v) (ir.nextInstructionIndex + 1)
    (MarkState.markAll ⟨fun _ => false, []⟩ (exitPhiSuccs ir d), true)

def exitPhiDef (ir : TCCIRState) (cur : SSAInterval) : Option ℕ :=
  (range' cur.start (ir.nextInstructionIndex - cur.start)).find? fun j =>
    (ir.quad j).op ≠ .nop && hasDestVreg (ir.quad j) cur.vreg

def raSafeExitPhiCoalesce (ir : TCCIRState) (cur partner : SSAInterval) : Option Bool :=
  let n := ir.nextInstructionIndex
  if n ≤ cur.start then some false
  else if cur.stop < partner.stop then some false
  else
    match exitPhiDef ir cur with
    | none => some false
    | some d =>
      if copiesVreg (ir.quad d) cur.vreg partner.vreg then
        (exitPhiSearch ir partner.vreg d).map fun s =>
          s.2 && (range n).all fun j =>
            j = d || !definesVreg (ir.quad j) cur.vreg || s.1.used j ||
              copiesVreg (ir.quad j) cur.vreg partner.vreg
      else some false

section Meaning

variable {q : IRQuadCompact} {v w : Vreg}

theorem hasDest_of_destUse {op : TccIrOp} (h : op.destUse = .result ∨ op.destUse = .address) :
    (iropConfig op).hasDest = true ∧ op ≠ .nop := by
  cases op <;> first | exact ⟨rfl, by decide⟩ | simp [TccIrOp.destUse] at h

theorem IRQuadCompact.Rewrites.hasDest (h : q.Rewrites v) :
    q.op ≠ .nop ∧ hasDestVreg q v = true := by
  obtain ⟨hu, _, hv⟩ := h
  have hop : q.op.destUse = .result ∨ q.op.destUse = .address := by
    unfold destUse at hu
    split at hu
    · next hs =>
      simp only [Bool.and_eq_true, decide_eq_true_eq] at hs
      exact .inr (by rw [hs.1]; rfl)
    · exact .inl hu
  obtain ⟨hc, hn⟩ := hasDest_of_destUse hop
  exact ⟨hn, by simp [hasDestVreg, IRQuadCompact.getDest, hc, hv]⟩

theorem IRQuadCompact.Rewrites.definesVreg (h : q.Rewrites v) (hs : ¬ q.op.isStoreClass = true) :
    definesVreg q v = true := by
  simp [Tinycc.definesVreg, h.hasDest, hs]

theorem IRQuadCompact.Reads.cases (h : q.Reads v) :
    q.op ≠ .nop ∧ (hasSourceVreg q v = true ∨ (q.op.isStoreClass = true ∧ hasDestVreg q v = true) ∨
      q.DerefsVreg v) := by
  refine ⟨fun hn => IRQuadCompact.not_reads_nop hn h, ?_⟩
  rcases h with (⟨hu, hv⟩ | ⟨hu, hv⟩ | ⟨hu, hv⟩) | ⟨hu, hv⟩
  · have hc := src1Use_config _ _ hu
    exact .inl (by simp [hasSourceVreg, hc, IRQuadCompact.getSrc1, hv])
  · have hc := src2Use_config _ _ hu
    exact .inl (by simp [hasSourceVreg, hc, IRQuadCompact.getSrc2, hv])
  · exact .inl (by simp [hasSourceVreg, extraUse_isMac _ _ hu, hv])
  · have hne := destUse_ne_value q.op
    rw [q.destUse_of_reads hu] at hu
    cases hd : q.op.destUse with
    | address =>
      obtain ⟨hs, hc⟩ := destUse_isStoreClass hd
      exact .inr (.inl ⟨hs, by simp [hasDestVreg, hc, IRQuadCompact.getDest, hv]⟩)
    | result => exact .inr (.inr ⟨hd, by simpa [OperandUse.readsVreg, hd] using hu, hv⟩)
    | _ => simp_all [OperandUse.readsVreg]

theorem IRQuadCompact.Reads.touches (h : q.Reads v) : raInstrTouchesVreg q v = true := by
  obtain ⟨hn, h | ⟨_, h⟩ | h⟩ := h.cases
  · simp [raInstrTouchesVreg, hn, h]
  · simp [raInstrTouchesVreg, hn, h]
  · obtain ⟨hc, _⟩ := hasDest_of_destUse (.inl h.1)
    simp [raInstrTouchesVreg, hn, hasDestVreg, hc, IRQuadCompact.getDest, h.2.2]

theorem IRQuadCompact.Rewrites.touches (h : q.Rewrites v) : raInstrTouchesVreg q v = true := by
  obtain ⟨hn, hd⟩ := h.hasDest
  simp [raInstrTouchesVreg, hn, hd]

end Meaning

section Loop

variable {q : IRQuadCompact} {v w : Vreg}

theorem copiesVreg_cases (h : copiesVreg q v w = true) :
    q.op = .assign ∧ q.dest.vreg = some v ∧ q.src1.vreg = some w := by
  simp only [copiesVreg, Bool.and_eq_true, decide_eq_true_eq] at h
  obtain ⟨⟨ho, hd⟩, hs⟩ := h
  have hc1 : (iropConfig .assign).hasDest = true := rfl
  have hc2 : (iropConfig .assign).hasSrc1 = true := rfl
  simp only [IRQuadCompact.getDest, IRQuadCompact.getSrc1, ho, hc1, hc2, if_true] at hd hs
  exact ⟨ho, hd, hs⟩

theorem hasDestVreg_of_copies (h : copiesVreg q v w = true) : hasDestVreg q v = true := by
  obtain ⟨ho, hd, _⟩ := copiesVreg_cases h
  have hc : (iropConfig .assign).hasDest = true := rfl
  simp [hasDestVreg, IRQuadCompact.getDest, ho, hc, hd]

def loopPhiOk (cur partner : Vreg) (q : IRQuadCompact) : Prop :=
  q.op = .nop ∨ (hasDestVreg q cur = false ∧ (copiesVreg q partner cur = true ∨
    (hasSourceVreg q partner = false ∧ hasDestVreg q partner = false)))

theorem loopPhiOk.reads (h : loopPhiOk w v q) (hr : q.Reads v) : q.DerefsVreg v := by
  obtain ⟨hn, hr⟩ := hr.cases
  obtain ⟨hd, hc | ⟨hs, hp⟩⟩ := h.resolve_left hn
  · obtain ⟨ho, hv, hw⟩ := copiesVreg_cases hc
    have hne : v ≠ w := by
      rintro rfl
      exact Bool.false_ne_true (hd.symm.trans (hasDestVreg_of_copies hc))
    have hc1 : (iropConfig .assign).hasSrc1 = true := rfl
    have hc2 : (iropConfig .assign).hasSrc2 = false := rfl
    rcases hr with hs | ⟨hs, _⟩ | hr
    · simp [hasSourceVreg, IRQuadCompact.getSrc1, ho, hc1, hc2, hw, TccIrOp.isMac, hne.symm] at hs
    · simp [TccIrOp.isStoreClass, ho] at hs
    · exact hr
  · rcases hr with h | ⟨_, h⟩ | hr
    · exact absurd (hs.symm.trans h) Bool.false_ne_true
    · exact absurd (hp.symm.trans h) Bool.false_ne_true
    · exact hr

variable {ir : TCCIRState} {cur partner : Vreg} {js : List ℕ} {found : Bool}

/-- What an accepting scan says: the instructions hold exactly one copy, with the one found
before. -/
structure LoopPhiScanned (ir : TCCIRState) (cur partner : Vreg) (js : List ℕ) (found : Bool) :
    Prop where
  ok : ∀ j ∈ js, loopPhiOk cur partner (ir.quad j)
  none : found = true → ∀ j ∈ js, copiesVreg (ir.quad j) partner cur = false
  one : found = false → ∃ c ∈ js, copiesVreg (ir.quad c) partner cur = true ∧
    ∀ j ∈ js, copiesVreg (ir.quad j) partner cur = true → j = c

theorem loopPhiScan_spec (h : loopPhiScan ir cur partner js found = true) :
    LoopPhiScanned ir cur partner js found := by
  induction js generalizing found with
  | nil => exact ⟨by simp, by simp, fun hf => absurd (hf.symm.trans h) Bool.false_ne_true⟩
  | cons j js ih =>
    -- an accepted copy sets the flag for the rest
    have hcopy (hd : hasDestVreg (ir.quad j) cur = false)
        (hc : (if copiesVreg (ir.quad j) partner cur && !found then
          loopPhiScan ir cur partner js true else false) = true) :
        LoopPhiScanned ir cur partner (j :: js) found := by
      split at hc
      · next hq =>
        obtain ⟨hq, hf⟩ := Bool.and_eq_true_iff.mp hq
        obtain ⟨hall, hnone, _⟩ := ih hc
        refine ⟨forall_mem_cons.mpr ⟨.inr ⟨hd, .inl hq⟩, hall⟩, fun ht => ?_, fun _ => ?_⟩
        · simp [ht] at hf
        · refine ⟨j, mem_cons_self, hq, forall_mem_cons.mpr ⟨fun _ => rfl, ?_⟩⟩
          intro i hi hci
          exact absurd ((hnone rfl i hi).symm.trans hci) Bool.false_ne_true
      · cases hc
    have hrest (hok : loopPhiOk cur partner (ir.quad j))
        (hj : copiesVreg (ir.quad j) partner cur = false)
        (hs : loopPhiScan ir cur partner js found = true) :
        LoopPhiScanned ir cur partner (j :: js) found := by
      obtain ⟨hall, hnone, hone⟩ := ih hs
      refine ⟨forall_mem_cons.mpr ⟨hok, hall⟩,
        fun hf => forall_mem_cons.mpr ⟨hj, hnone hf⟩, fun hf => ?_⟩
      obtain ⟨c, hc, hq, huniq⟩ := hone hf
      refine ⟨c, mem_cons_of_mem _ hc, hq, forall_mem_cons.mpr ⟨fun hji => ?_, huniq⟩⟩
      exact absurd (hj.symm.trans hji) Bool.false_ne_true
    unfold loopPhiScan at h
    dsimp only at h
    split at h
    · next hn => exact hrest (.inl hn) (by simp [copiesVreg, hn]) h
    · split at h
      · cases h
      · next hd =>
        have hd' : hasDestVreg (ir.quad j) cur = false := by simpa using hd
        split at h
        · exact hcopy hd' h
        · next hs =>
          split at h
          · split at h
            · cases h
            · exact hcopy hd' h
          · next hp =>
            refine hrest (.inr ⟨hd', .inr ⟨by simpa using hs, by simpa using hp⟩⟩) ?_ h
            by_contra hc
            exact hp (hasDestVreg_of_copies (by simpa using hc))

end Loop

section LoopPaths

variable {ir : TCCIRState} {cur partner : SSAInterval}

/-- The instructions that control reaches from the definition at `d` while it stays in the range up
to the copy at `c` and the vreg is not rewritten. -/
inductive LoopBody (ir : TCCIRState) (v : Vreg) (d c : ℕ) : ℕ → Prop
  | enter : LoopBody ir v d c d
  | step {j t : ℕ} : LoopBody ir v d c j → RunStep ir j t → d < t → t ≤ c →
      ¬ (ir.quad t).Rewrites v → LoopBody ir v d c t

/-- Where control leaves the range before the copy the vreg is dead, and inside the range nothing
reads it that the scan does not see. -/
def LoopExitsDead (ir : TCCIRState) (v : Vreg) (live : ℕ → Prop) (d c : ℕ) : Prop :=
  ∀ j t, LoopBody ir v d c j → RunStep ir j t →
    (d < t ∧ t ≤ c → ¬ DeferredRead ir v t ∧ ¬ (ir.quad t).DerefsVreg v) ∧
      (¬ (d < t ∧ t ≤ c) → ¬ live t)

/-- If the range holds no other reads, the vreg is dead after the definition exactly if the exits
are. -/
theorem dead_iff_loopExitsDead {v : Vreg} {live : ℕ → Prop} (L : Liveness ir v live) {d c : ℕ}
    (hread : ∀ t, d < t → t ≤ c → (ir.quad t).Reads v → (ir.quad t).DerefsVreg v) :
    (∀ t, RunStep ir d t → ¬ live t) ↔ LoopExitsDead ir v live d c := by
  constructor
  · intro hdead j t hb hs
    -- no instruction of the body rewrites the vreg, so it is dead in the whole body
    have hbody : ∀ t, RunStep ir j t → ¬ live t := by
      clear hs
      induction hb with
      | enter => exact hdead
      | step _ hs _ _ hw ih => exact fun t ht hl => ih _ hs (L.pass hw ht hl)
    exact ⟨fun _ => ⟨fun hr => hbody t hs (L.call hr), fun hr => hbody t hs (L.deref hr)⟩,
      fun _ => hbody t hs⟩
  · intro hexit
    refine L.region (R := LoopBody ir v d c) (fun j t hb hs => ?_) .enter
    obtain ⟨hin, hout⟩ := hexit j t hb hs
    by_cases ht : d < t ∧ t ≤ c
    · obtain ⟨hcall, hderef⟩ := hin ht
      refine .inl ⟨?_, ?_⟩
      · rintro (hr | hr)
        · exact hderef (hread t ht.1 ht.2 hr)
        · exact hcall hr
      · by_cases hw : (ir.quad t).Rewrites v
        · exact .inl hw
        · exact .inr (.step hb hs ht.1 ht.2 hw)
    · exact .inr (hout ht)

/-- The definition of `cur` and the copy back that the check has found. -/
structure LoopPhi (ir : TCCIRState) (cur partner : SSAInterval) (d c : ℕ) : Prop where
  start_le : cur.start ≤ d
  lt : d < c
  le_stop : c ≤ partner.stop
  defines : definesVreg (ir.quad d) cur.vreg = true
  copies : copiesVreg (ir.quad c) partner.vreg cur.vreg = true

theorem exists_loopPhi (h : raSafeLoopPhiCoalesce ir cur partner = true) :
    ∃ d c, LoopPhi ir cur partner d c ∧
      (∀ j, d < j → j ≤ partner.stop → loopPhiOk cur.vreg partner.vreg (ir.quad j) ∧
        (copiesVreg (ir.quad j) partner.vreg cur.vreg = true → j = c)) ∧
      ∀ j, cur.start ≤ j → j ≤ partner.stop → definesVreg (ir.quad j) cur.vreg = true →
        j = d := by
  unfold raSafeLoopPhiCoalesce at h
  dsimp only at h
  split at h
  · cases h
  · split at h
    · cases h
    · split at h
      · cases h
      · next d hfind =>
        obtain ⟨hdef, hmem, hfirst⟩ := find?_range'_eq_some.mp hfind
        have hmem' := mem_range'_1.mp hmem
        obtain ⟨hall, _, hone⟩ := loopPhiScan_spec (Bool.and_eq_true_iff.mp h).2
        obtain ⟨c, hc, hcopy, huniq⟩ := hone rfl
        have hrange : ∀ j, d < j → j ≤ partner.stop →
            j ∈ range' (d + 1) (partner.stop - d) := by
          intro j h1 h2
          exact mem_range'_1.mpr (by omega)
        have hc' := mem_range'_1.mp hc
        refine ⟨d, c, ⟨hmem'.1, by omega, by omega, hdef, hcopy⟩, ?_, ?_⟩
        · intro j h1 h2
          exact ⟨hall j (hrange j h1 h2), huniq j (hrange j h1 h2)⟩
        · intro j h1 h2 hj
          rcases lt_trichotomy j d with hlt | heq | hgt
          · exact absurd hj (by simpa using hfirst j h1 hlt)
          · exact heq
          · -- a second definition is refused by the scan
            simp only [definesVreg, Bool.and_eq_true, decide_eq_true_eq] at hj
            obtain ⟨hd, _⟩ := (hall j (hrange j hgt h2)).resolve_left hj.1.1
            exact absurd (hd.symm.trans hj.2) Bool.false_ne_true

/-- The partner is dead where `cur` gets a value of its own: at the definition in the loop, outside
of the range and in stores. -/
def LoopPhiDead (ir : TCCIRState) (cur partner : SSAInterval) (d c s : ℕ) : Prop :=
  (s = d → LoopExitsDead ir partner.vreg
    ((irCode ir).Live cur.vreg partner.vreg partner.vreg) d c) ∧
  (s ≠ d → s < cur.start ∨ partner.stop < s ∨ (ir.quad s).op.isStoreClass = true →
    (irCode ir).DeadAfter cur.vreg partner.vreg partner.vreg s)

/-- Where the check succeeds, the partner is dead after the definition of `cur` exactly if it is
dead at the exits of the range. One register preserves behaviour exactly if that holds where the
definition executes, and each vreg is dead wherever else the other gets a value of its own. -/
theorem raSafeLoopPhiCoalesce_iff (ir : TCCIRState) (cur partner : SSAInterval)
    (h : raSafeLoopPhiCoalesce ir cur partner = true) :
    ((∀ d, cur.start ≤ d → d ≤ partner.stop → definesVreg (ir.quad d) cur.vreg = true →
      ¬ LiveAfter ir partner.vreg d) ↔
    ∀ d c, LoopPhi ir cur partner d c →
      LoopExitsDead ir partner.vreg (LiveBefore ir partner.vreg) d c) ∧
    (SharesRegister ir cur.vreg partner.vreg ↔ ∀ d c, LoopPhi ir cur partner d c →
      (irCode ir).ApartBy cur.vreg partner.vreg 0 (LoopPhiDead ir cur partner d c)) := by
  obtain ⟨d, c, hphi, hok, hdef⟩ := exists_loopPhi h
  have hread : ∀ t, d < t → t ≤ c → (ir.quad t).Reads partner.vreg →
      (ir.quad t).DerefsVreg partner.vreg :=
    fun t h1 h2 => (hok t h1 (h2.trans hphi.le_stop)).1.reads
  -- the range has one definition of `cur` and one copy back
  have hphi_eq : ∀ {d' c'}, LoopPhi ir cur partner d' c' → d' = d ∧ c' = c := by
    intro d' c' hp
    have hd' := hdef d' hp.start_le (hp.lt.le.trans hp.le_stop) hp.defines
    subst hd'
    exact ⟨rfl, (hok c' hp.lt hp.le_stop).2 hp.copies⟩
  constructor
  · have hiff := dead_iff_loopExitsDead (liveness_liveBefore ir partner.vreg) hread
    constructor
    · intro hdead d' c' hp
      obtain ⟨rfl, rfl⟩ := hphi_eq hp
      have hd := hdead d' hp.start_le (hp.lt.le.trans hp.le_stop) hp.defines
      exact hiff.mp fun t ht hl => hd (liveAfter_iff.mpr ⟨t, ht, hl⟩)
    · intro hexit d' h1 h2 hdef' hl
      obtain rfl := hdef d' h1 h2 hdef'
      obtain ⟨t, ht, hl⟩ := liveAfter_iff.mp hl
      exact hiff.mpr (hexit d' c hphi) t ht hl
  · have hne : cur.vreg ≠ partner.vreg := by
      intro he
      have hc := hasDestVreg_of_copies hphi.copies
      obtain ⟨hno, _⟩ := (hok c hphi.lt hphi.le_stop).1.resolve_left fun hn => by
        have := (copiesVreg_cases hphi.copies).1
        rw [hn] at this
        cases this
      rw [he, hc] at hno
      cases hno
    have hiff := dead_iff_loopExitsDead
      (liveness_live ir (a := cur.vreg) (b := partner.vreg) (.inr rfl)) hread
    -- inside the range the condition is that on the exits, elsewhere it is unchanged
    have hapart : (irCode ir).Apart cur.vreg partner.vreg 0 ↔
        (irCode ir).ApartBy cur.vreg partner.vreg 0 (LoopPhiDead ir cur partner d c) := by
      refine Code.ApartBy.congr fun s _ hren => ⟨fun hs => ⟨?_, fun _ _ => hs⟩, fun hs => ?_⟩
      · rintro rfl
        exact hiff.mp hs
      · by_cases he : s = d
        · subst he
          exact hiff.mpr (hs.1 rfl)
        · refine hs.2 he ?_
          by_contra hno
          simp only [not_or, Nat.not_lt] at hno
          exact he (hdef s hno.1 hno.2.1 (IRQuadCompact.Rewrites.definesVreg hren.1 hno.2.2))
    refine ((Code.shares_iff hne).trans hapart).trans ⟨fun ha d' c' hp => ?_, fun ha => ha d c hphi⟩
    obtain ⟨rfl, rfl⟩ := hphi_eq hp
    exact ha

def countingLoop : TCCIRState :=
  { compactInstructions :=
      [⟨.assign, 0, .var 0, .int 0, .none, .none⟩,
        ⟨.add, 1, .temp 0, .var 0, .int 1, .none⟩,
        ⟨.assign, 2, .var 0, .temp 0, .none, .none⟩,
        ⟨.jumpif, 3, .int 1, .int 0x94, .none, .none⟩,
        ⟨.returnvoid, 4, .none, .none, .none, .none⟩] }

theorem raSafeLoopPhiCoalesce_iff_countingLoop :
    raSafeLoopPhiCoalesce countingLoop ⟨⟨.temp, 0⟩, 1, 2⟩ ⟨⟨.var, 0⟩, 0, 3⟩ = true ∧
      ¬ LiveAfter countingLoop ⟨.var, 0⟩ 1 ∧ SharesRegister countingLoop ⟨.temp, 0⟩ ⟨.var, 0⟩ := by
  have hcheck : raSafeLoopPhiCoalesce countingLoop ⟨⟨.temp, 0⟩, 1, 2⟩ ⟨⟨.var, 0⟩, 0, 3⟩ = true := by
    decide
  obtain ⟨hdead, hshare⟩ := raSafeLoopPhiCoalesce_iff countingLoop ⟨⟨.temp, 0⟩, 1, 2⟩
    ⟨⟨.var, 0⟩, 0, 3⟩ hcheck
  have hphi : ∀ d c, LoopPhi countingLoop ⟨⟨.temp, 0⟩, 1, 2⟩ ⟨⟨.var, 0⟩, 0, 3⟩ d c →
      d = 1 ∧ c = 2 := by
    rintro d c ⟨hd, hdc, hc, hdef, hcopy⟩
    dsimp only at hd hc
    have hd3 : d ≤ 2 := by omega
    interval_cases d
    · interval_cases c
      · exact ⟨rfl, rfl⟩
      · exact absurd hcopy (by decide)
    · exact absurd hdef (by decide)
  -- only the definition itself lies before the copy, which rewrites the partner
  have hexit : ∀ live, LoopExitsDead countingLoop ⟨.var, 0⟩ live 1 2 := by
    intro live j t hb hs
    have hj : j = 1 := by
      cases hb with
      | enter => rfl
      | step _ _ h1 h2 hw =>
        obtain rfl : j = 2 := by omega
        exact absurd ⟨rfl, rfl, rfl⟩ hw
    subst hj
    have ht : (t : ℤ) ∈ [(2 : ℤ)] := hs.mem_plainSuccs (by decide)
    obtain rfl : t = 2 := by simpa using Int.ofNat.inj (mem_singleton.mp ht)
    exact ⟨fun _ => ⟨fun hr => (by cases hr.1), fun hr => (by cases hr.2.1)⟩, fun hn => by omega⟩
  refine ⟨hcheck, hdead.mpr ?_ 1 (by decide) (by decide) (by decide), hshare.mpr ?_⟩
  · intro d c hp
    obtain ⟨rfl, rfl⟩ := hphi d c hp
    exact hexit _
  · intro d c hp
    obtain ⟨rfl, rfl⟩ := hphi d c hp
    have hcur : ∀ s < 5, (countingLoop.quad s).Rewrites ⟨.temp, 0⟩ → s = 1 := by decide
    have hpartner : ∀ s < 5, (countingLoop.quad s).Rewrites ⟨.var, 0⟩ →
        ¬ (countingLoop.quad s).MovesVreg ⟨.var, 0⟩ ⟨.temp, 0⟩ → s = 0 := by decide
    have hT : DeadIn countingLoop ⟨.temp, 0⟩ [0, 1] := by decide
    refine ⟨fun s _ hren => ⟨fun _ => hexit _, fun hs _ => ?_⟩, fun s _ hren t ht => ?_,
      fun hl => hT.not_live (by decide) hl.1⟩
    · exact absurd (hcur s (lt_of_rewrites hren.1) hren.1) hs
    · obtain rfl := hpartner s (lt_of_rewrites hren.1) hren.1 (hren.2 _ (.inl rfl))
      have ht : (t : ℤ) ∈ [(1 : ℤ)] := RunStep.mem_plainSuccs ht (by decide)
      obtain rfl : t = 1 := by simpa using Int.ofNat.inj (mem_singleton.mp ht)
      exact hT.not_live (by decide)

def continueLoop : TCCIRState :=
  { compactInstructions :=
      [⟨.assign, 0, .var 0, .int 0, .none, .none⟩,
        ⟨.cmp, 1, .none, .var 0, .int 10, .none⟩,
        ⟨.add, 2, .temp 0, .var 0, .int 1, .none⟩,
        ⟨.jumpif, 3, .int 1, .int 0x94, .none, .none⟩,
        ⟨.assign, 4, .var 0, .temp 0, .none, .none⟩,
        ⟨.jumpif, 5, .int 1, .int 0x95, .none, .none⟩,
        ⟨.returnvoid, 6, .none, .none, .none, .none⟩] }

/-- After the increment the old value of the partner is compared once more. -/
theorem continueLoop_partner_live :
    raSafeLoopPhiCoalesce continueLoop ⟨⟨.temp, 0⟩, 2, 4⟩ ⟨⟨.var, 0⟩, 0, 5⟩ = true ∧
      definesVreg (continueLoop.quad 2) ⟨.temp, 0⟩ = true ∧
      LiveAfter continueLoop ⟨.var, 0⟩ 2 ∧
      ¬ SharesRegister continueLoop ⟨.temp, 0⟩ ⟨.var, 0⟩ := by
  have hfall : ∀ i < 3, RunStep continueLoop i (i + 1) := fun i hi =>
    .flow (.transfer (.fallThrough (Nat.lt_of_lt_of_le (Nat.succ_lt_succ hi) (by decide))
      (by decide +revert)))
  have h1 : RunStep continueLoop 3 1 := .flow (.transfer (.jumpif (by decide) (by decide) rfl rfl))
  have hread : ReadsAt continueLoop ⟨.var, 0⟩ 1 := .inl (by decide)
  refine ⟨by decide, by decide, .pass (hfall 2 (by decide)) (by decide) (.read h1 hread), ?_⟩
  intro hs
  have hreach : ReflTransGen (RunStep continueLoop) 0 2 :=
    .tail (.tail .refl (hfall 0 (by decide))) (hfall 1 (by decide))
  have hren : (irCode continueLoop).Renews ⟨.temp, 0⟩ ⟨.var, 0⟩ 2 ⟨.temp, 0⟩ :=
    ⟨(by decide : (continueLoop.quad 2).Rewrites ⟨.temp, 0⟩), fun s _ hm => by cases hm.1⟩
  have hlive : (irCode continueLoop).Live ⟨.temp, 0⟩ ⟨.var, 0⟩ ⟨.var, 0⟩ 3 :=
    .pass (by decide : ¬ (continueLoop.quad 3).Rewrites ⟨.var, 0⟩) h1
      (.read (.inr rfl) ⟨hread, fun d _ hm => by cases hm.1⟩)
  exact ((Code.shares_iff (by decide)).mp hs).left 2 hreach hren 3 (hfall 2 (by decide)) hlive

end LoopPaths

section Search

variable {ir : TCCIRState} {v : Vreg} {d i j : ℕ}

theorem exitPhiSuccs_lt (h : j ∈ exitPhiSuccs ir i) : j < ir.nextInstructionIndex := by
  obtain ⟨x, hx, rfl⟩ := mem_map.mp h
  have hr := of_decide_eq_true (mem_filter.mp hx).2
  omega

def exitPhiPasses (ir : TCCIRState) (v : Vreg) (i : ℕ) : Prop :=
  raInstrTouchesVreg (ir.quad i) v = false ∧ unknownSuccessors (ir.quad i) = false

/-- What holds of the search as long as it has met nothing that stops it. -/
def ExitPhiInvariant (ir : TCCIRState) (v : Vreg) (d : ℕ) (s : MarkState × Bool) : Prop :=
  s.2 = true → s.1.Invariant (· ∈ exitPhiSuccs ir d) (exitPhiSuccs ir) ∧
    ∀ t, s.1.used t = true → t ∈ s.1.work ∨ exitPhiPasses ir v t

theorem ExitPhiInvariant.step {s : MarkState × Bool} (h : ExitPhiInvariant ir v d s)
    (hw : s.1.work ≠ []) : ExitPhiInvariant ir v d (exitPhiStep ir v s) ∧
      (exitPhiStep ir v s).1.measure ir.nextInstructionIndex <
        s.1.measure ir.nextInstructionIndex := by
  obtain ⟨i, rest, hwork⟩ := exists_cons_of_ne_nil hw
  unfold exitPhiStep
  rw [hwork]
  dsimp only
  split
  · exact ⟨nofun, by simp [MarkState.measure, hwork]⟩
  · next hp =>
    have hi : exitPhiPasses ir v i := by simpa [exitPhiPasses] using hp
    refine ⟨fun hs => ?_, MarkState.measure_step (fun _ _ => exitPhiSuccs_lt) hw⟩
    obtain ⟨hI, hpass⟩ := h hs
    refine ⟨hI.step hw, fun t ht => ?_⟩
    have hstep : s.1.step (exitPhiSuccs ir) =
        MarkState.markAll { s.1 with work := rest } (exitPhiSuccs ir i) := by
      simp [MarkState.step, hwork]
    rw [hstep] at ht ⊢
    rw [MarkState.mem_work_markAll]
    by_cases hold : s.1.used t = true
    · rcases hpass t hold with hin | hin
      · rcases mem_cons.mp (hwork ▸ hin) with rfl | hin
        · exact .inr hi
        · exact .inl (.inl hin)
      · exact .inr hin
    · have hnew := (MarkState.markAll_used.mp ht).resolve_left hold
      exact .inl (.inr ⟨hnew, by simpa using hold⟩)

theorem exitPhiSearch_spec (ir : TCCIRState) (v : Vreg) (d : ℕ) :
    ∃ s, exitPhiSearch ir v d = some s ∧ (s.2 = true → ∀ j,
      (s.1.used j = true ↔ TransGen (fun i t => t ∈ exitPhiSuccs ir i) d j) ∧
        (s.1.used j = true → exitPhiPasses ir v j)) := by
  have hinit : ExitPhiInvariant ir v d
      (MarkState.markAll ⟨fun _ => false, []⟩ (exitPhiSuccs ir d), true) := by
    intro _
    refine ⟨⟨fun i hi => ?_, fun r hr => MarkState.markAll_used.mpr (.inr hr),
      fun t ht => .inl (MarkState.mem_work_markAll.mpr (.inr ⟨?_, rfl⟩)), fun t ht => ?_⟩,
      fun t ht => .inl (MarkState.mem_work_markAll.mpr (.inr ⟨?_, rfl⟩))⟩
    · exact ⟨i, (MarkState.markAll_used.mp hi).resolve_left nofun, .refl⟩
    · exact (MarkState.markAll_used.mp ht).resolve_left nofun
    · rcases MarkState.mem_work_markAll.mp ht with h | h
      · cases h
      · exact MarkState.markAll_used.mpr (.inr h.1)
    · exact (MarkState.markAll_used.mp ht).resolve_left nofun
  have hmeasure : (MarkState.markAll ⟨fun _ => false, []⟩ (exitPhiSuccs ir d)).measure
      ir.nextInstructionIndex < ir.nextInstructionIndex + 1 := by
    rw [MarkState.measure_markAll fun _ => exitPhiSuccs_lt]
    simp [MarkState.measure]
  obtain ⟨s, hs, hI, hc⟩ := @whileLoop_total _ (fun s : MarkState × Bool => s.1.pending && s.2)
    (exitPhiStep ir v) (ExitPhiInvariant ir v d) (fun s => s.1.measure ir.nextInstructionIndex)
    (fun s h hcond => h.step
      (by simpa [MarkState.pending] using (Bool.and_eq_true_iff.mp hcond).1)) _ _ hinit hmeasure
  refine ⟨s, hs, fun hdead j => ?_⟩
  obtain ⟨hmark, hpass⟩ := hI hdead
  have hnil : s.1.work = [] := by simpa [hdead, MarkState.pending] using hc
  refine ⟨⟨fun hu => ?_, fun hr => ?_⟩, fun hu => ?_⟩
  · obtain ⟨r, hr, hpath⟩ := hmark.reached j hu
    exact .head' hr hpath
  · induction hr with
    | single h => exact hmark.rooted _ h
    | tail _ h ih =>
      rcases hmark.closed _ ih with hin | hall
      · exact absurd (hnil ▸ hin) not_mem_nil
      · exact hall _ h
  · exact (hpass j hu).resolve_left (hnil ▸ not_mem_nil)

end Search

section ExitPaths

variable {ir : TCCIRState} {cur partner : SSAInterval}

def ExitPhiEdge (ir : TCCIRState) (i t : ℕ) : Prop := t ∈ exitPhiSuccs ir i

/-- The search follows every step of control from the definition at `s` that leads to where the
vreg is live, and no call on the way reads it. -/
def ExitPhiCovers (ir : TCCIRState) (v : Vreg) (live : ℕ → Prop) (s : ℕ) : Prop :=
  ∀ j t, ReflTransGen (fun i t => RunStep ir i t ∧ ExitPhiEdge ir i t) s j → RunStep ir j t →
    (ExitPhiEdge ir j t → ¬ DeferredRead ir v t) ∧ (¬ ExitPhiEdge ir j t → ¬ live t)

theorem raSafeExitPhiCoalesce_total (ir : TCCIRState) (cur partner : SSAInterval) :
    ∃ b, raSafeExitPhiCoalesce ir cur partner = some b := by
  unfold raSafeExitPhiCoalesce
  dsimp only
  split
  · exact ⟨_, rfl⟩
  · split
    · exact ⟨_, rfl⟩
    · split
      · exact ⟨_, rfl⟩
      · next d _ =>
        obtain ⟨s, hs, _⟩ := exitPhiSearch_spec ir partner.vreg d
        rw [hs]
        split
        · exact ⟨_, rfl⟩
        · exact ⟨_, rfl⟩

theorem exists_exitPhi (h : raSafeExitPhiCoalesce ir cur partner = some true) :
    ∃ d, exitPhiDef ir cur = some d ∧
      (∀ j, TransGen (ExitPhiEdge ir) d j → exitPhiPasses ir partner.vreg j) ∧
      ∀ j < ir.nextInstructionIndex, definesVreg (ir.quad j) cur.vreg = true →
        ReflTransGen (ExitPhiEdge ir) d j ∨
          copiesVreg (ir.quad j) cur.vreg partner.vreg = true := by
  unfold raSafeExitPhiCoalesce at h
  dsimp only at h
  split at h
  · cases h
  · split at h
    · cases h
    · split at h
      · cases h
      · next d hd =>
        split at h
        · obtain ⟨s, hs, hspec⟩ := exitPhiSearch_spec ir partner.vreg d
          rw [hs, Option.map_some, Option.some.injEq, Bool.and_eq_true, all_eq_true] at h
          refine ⟨d, hd, fun j hj => ?_, fun j hj hdef => ?_⟩
          · exact (hspec h.1 j).2 ((hspec h.1 j).1.mpr hj)
          · have hj' := h.2 j (mem_range.mpr hj)
            simp only [hdef, Bool.not_true, Bool.or_false, Bool.or_eq_true,
              decide_eq_true_eq] at hj'
            rcases hj' with (rfl | hu) | hc
            · exact .inl .refl
            · exact .inl ((hspec h.1 j).1.mp hu).to_reflTransGen
            · exact .inr hc
        · cases h

/-- After an instruction from which the search meets no use of the vreg, it is dead exactly if the
search covers what can follow. -/
theorem dead_iff_exitPhiCovers {v : Vreg} {live : ℕ → Prop} (L : Liveness ir v live) {s : ℕ}
    (hpass : ∀ j, TransGen (ExitPhiEdge ir) s j → exitPhiPasses ir v j) :
    (∀ t, RunStep ir s t → ¬ live t) ↔ ExitPhiCovers ir v live s := by
  have hedge : ∀ {j}, ReflTransGen (fun i t => RunStep ir i t ∧ ExitPhiEdge ir i t) s j →
      ReflTransGen (ExitPhiEdge ir) s j := fun hj => ReflTransGen.mono (fun _ _ he => he.2) _ _ hj
  constructor
  · intro hdead j t hj hstep
    -- nothing on the way rewrites the vreg, so it stays dead
    have hj' : ∀ t, RunStep ir j t → ¬ live t := by
      clear hstep
      induction hj with
      | refl => exact hdead
      | tail hpath he ih =>
        refine fun t ht hl => ih _ he.1 (L.pass (fun hw => ?_) ht hl)
        have hp := (hpass _ (.tail' (hedge hpath) he.2)).1
        exact Bool.false_ne_true (hp.symm.trans hw.touches)
    exact ⟨fun _ hr => hj' t hstep (L.call hr), fun _ => hj' t hstep⟩
  · intro hcov
    refine L.region (R := ReflTransGen (fun i t => RunStep ir i t ∧ ExitPhiEdge ir i t) s)
      (fun j t hj hstep => ?_) .refl
    by_cases he : ExitPhiEdge ir j t
    · refine .inl ⟨?_, .inr (hj.tail ⟨hstep, he⟩)⟩
      rintro (hr | hr)
      · have hp := (hpass t (.tail' (hedge hj) he)).1
        exact Bool.false_ne_true (hp.symm.trans hr.touches)
      · exact (hcov j t hj hstep).1 he hr
    · exact .inr ((hcov j t hj hstep).2 he)

/-- The partner is dead where `cur` gets a value of its own: as far as the search from `d` goes it
covers what can follow; elsewhere the check lets pass stores and dereferencing copies. -/
def ExitPhiDead (ir : TCCIRState) (cur partner : SSAInterval) (d s : ℕ) : Prop :=
  (ReflTransGen (ExitPhiEdge ir) d s → ExitPhiCovers ir partner.vreg
    ((irCode ir).Live cur.vreg partner.vreg partner.vreg) s) ∧
  (¬ ReflTransGen (ExitPhiEdge ir) d s →
    (ir.quad s).op.isStoreClass = true ∨ copiesVreg (ir.quad s) cur.vreg partner.vreg = true →
    (irCode ir).DeadAfter cur.vreg partner.vreg partner.vreg s)

/-- Where the check succeeds, one register preserves behaviour exactly if the search covers what
follows the definitions of `cur`, each vreg is dead wherever else the other gets a value of its own,
and not both are live at the entry. -/
theorem raSafeExitPhiCoalesce_iff (ir : TCCIRState) (cur partner : SSAInterval)
    (hne : cur.vreg ≠ partner.vreg) (h : raSafeExitPhiCoalesce ir cur partner = some true) :
    SharesRegister ir cur.vreg partner.vreg ↔ ∀ d, exitPhiDef ir cur = some d →
      (irCode ir).ApartBy cur.vreg partner.vreg 0 (ExitPhiDead ir cur partner d) := by
  obtain ⟨d, hd, hpass, hdefs⟩ := exists_exitPhi h
  have hapart : (irCode ir).Apart cur.vreg partner.vreg 0 ↔
      (irCode ir).ApartBy cur.vreg partner.vreg 0 (ExitPhiDead ir cur partner d) := by
    refine Code.ApartBy.congr fun s _ hren => ?_
    by_cases hreach : ReflTransGen (ExitPhiEdge ir) d s
    · have hiff := dead_iff_exitPhiCovers
        (liveness_live ir (a := cur.vreg) (b := partner.vreg) (.inr rfl))
        fun j hj => hpass j (TransGen.trans_right hreach hj)
      exact ⟨fun hs => ⟨fun _ => hiff.mp hs, fun hn => absurd hreach hn⟩,
        fun hs => hiff.mpr (hs.1 hreach)⟩
    · refine ⟨fun hs => ⟨fun hr => absurd hr hreach, fun _ _ => hs⟩, fun hs => hs.2 hreach ?_⟩
      by_cases hst : (ir.quad s).op.isStoreClass = true
      · exact .inl hst
      · have hw : (ir.quad s).Rewrites cur.vreg := hren.1
        exact .inr ((hdefs s (lt_of_rewrites hw) (hw.definesVreg hst)).resolve_left hreach)
  refine ((Code.shares_iff hne).trans hapart).trans ⟨fun ha d' hd' => ?_, fun ha => ha d hd⟩
  obtain rfl := Option.some.inj (hd.symm.trans hd')
  exact ha

def branchedCopies : TCCIRState :=
  { compactInstructions :=
      [⟨.assign, 0, .temp 0, .int 0, .none, .none⟩,
        ⟨.jumpif, 1, .int 4, .int 0x94, .none, .none⟩,
        ⟨.assign, 2, .var 0, .temp 0, .none, .none⟩,
        ⟨.jump, 3, .int 5, .none, .none, .none⟩,
        ⟨.assign, 4, .var 0, .temp 0, .none, .none⟩,
        ⟨.add, 5, .var 0, .var 0, .int 1, .none⟩,
        ⟨.jumpif, 6, .int 5, .int 0x95, .none, .none⟩,
        ⟨.returnvalue, 7, .none, .var 0, .none, .none⟩] }

theorem raSafeExitPhiCoalesce_iff_branchedCopies :
    raSafeExitPhiCoalesce branchedCopies ⟨⟨.var, 0⟩, 2, 7⟩ ⟨⟨.temp, 0⟩, 0, 4⟩ = some true ∧
      SharesRegister branchedCopies ⟨.var, 0⟩ ⟨.temp, 0⟩ := by
  have hcheck : raSafeExitPhiCoalesce branchedCopies ⟨⟨.var, 0⟩, 2, 7⟩ ⟨⟨.temp, 0⟩, 0, 4⟩ =
      some true := by decide
  refine ⟨hcheck, (raSafeExitPhiCoalesce_iff branchedCopies ⟨⟨.var, 0⟩, 2, 7⟩ ⟨⟨.temp, 0⟩, 0, 4⟩
    (by decide) hcheck).mpr fun d _ => ?_⟩
  have hcur : ∀ s < 8, (branchedCopies.quad s).Rewrites ⟨.var, 0⟩ →
      ¬ (branchedCopies.quad s).MovesVreg ⟨.var, 0⟩ ⟨.temp, 0⟩ → s = 5 := by decide
  have hpartner : ∀ s < 8, (branchedCopies.quad s).Rewrites ⟨.temp, 0⟩ → s = 0 := by decide
  have hT : DeadIn branchedCopies ⟨.temp, 0⟩ [5, 6, 7] := by decide
  have hV : DeadIn branchedCopies ⟨.var, 0⟩ [0, 1, 2, 4] := by decide
  refine ⟨fun s _ hren => ?_, fun s _ hren t ht => ?_, fun hl => hV.not_live (by decide) hl.1⟩
  · obtain rfl := hcur s (lt_of_rewrites hren.1) hren.1 (hren.2 _ (.inr rfl))
    -- from the addition control stays in the loop or returns, and the partner is not touched there
    have hkeep : ∀ j ∈ [5, 6, 7], ¬ (branchedCopies.quad j).Rewrites ⟨.temp, 0⟩ := by decide
    have hstep : ∀ j ∈ [5, 6, 7], ∀ t, RunStep branchedCopies j t → t ∈ [5, 6, 7] :=
      fun j hj t ht => hT.mem_of_step hj (hkeep j hj) ht
    refine ⟨fun _ j t hj ht => ?_, fun _ _ t ht => hT.not_live (hstep 5 (by decide) t ht)⟩
    have hj : j ∈ [5, 6, 7] := by
      clear ht
      induction hj with
      | refl => decide
      | tail _ he ih => exact hstep _ ih _ he.1
    have ht := hstep j hj t ht
    exact ⟨fun _ hr => Bool.false_ne_true ((hT t ht).1.symm.trans hr.1), fun _ => hT.not_live ht⟩
  · obtain rfl := hpartner s (lt_of_rewrites hren.1) hren.1
    have ht : (t : ℤ) ∈ [(1 : ℤ)] := RunStep.mem_plainSuccs ht (by decide)
    obtain rfl : t = 1 := by simpa using Int.ofNat.inj (mem_singleton.mp ht)
    exact hV.not_live (by decide)

def parallelCopies : TCCIRState :=
  { compactInstructions :=
      [⟨.assign, 0, .temp 0, .int 0, .none, .none⟩,
        ⟨.jumpif, 1, .int 4, .int 0x94, .none, .none⟩,
        ⟨.assign, 2, .var 0, .temp 0, .none, .none⟩,
        ⟨.jump, 3, .int 6, .none, .none, .none⟩,
        ⟨.assign, 4, .var 0, .temp 0, .none, .none⟩,
        ⟨.add, 5, .temp 0, .temp 0, .int 1, .none⟩,
        ⟨.returnvalue, 6, .none, .var 0, .none, .none⟩] }

/-- The second copy has still to be returned when the partner is counted up. -/
theorem parallelCopies_not_shared :
    raSafeExitPhiCoalesce parallelCopies ⟨⟨.var, 0⟩, 2, 6⟩ ⟨⟨.temp, 0⟩, 0, 5⟩ = some true ∧
      ¬ SharesRegister parallelCopies ⟨.var, 0⟩ ⟨.temp, 0⟩ := by
  refine ⟨by decide, fun hs => ?_⟩
  have h1 : RunStep parallelCopies 0 1 := .flow (.transfer (.fallThrough (by decide) rfl))
  have h4 : RunStep parallelCopies 1 4 :=
    .flow (.transfer (.jumpif (by decide) (by decide) rfl rfl))
  have h5 : RunStep parallelCopies 4 5 := .flow (.transfer (.fallThrough (by decide) rfl))
  have h6 : RunStep parallelCopies 5 6 := .flow (.transfer (.fallThrough (by decide) rfl))
  have hren : (irCode parallelCopies).Renews ⟨.var, 0⟩ ⟨.temp, 0⟩ 5 ⟨.temp, 0⟩ :=
    ⟨(by decide : (parallelCopies.quad 5).Rewrites ⟨.temp, 0⟩), fun s _ hm => by cases hm.1⟩
  have hlive : (irCode parallelCopies).Live ⟨.var, 0⟩ ⟨.temp, 0⟩ ⟨.var, 0⟩ 6 :=
    .read (.inl rfl) ⟨.inl (by decide), fun d _ hm => by cases hm.1⟩
  exact ((Code.shares_iff (by decide)).mp hs).right 5 (.tail (.tail (.tail .refl h1) h4) h5) hren 6
    h6 hlive

end ExitPaths

end Tinycc
