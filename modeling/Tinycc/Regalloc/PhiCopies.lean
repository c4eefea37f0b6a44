import Tinycc.IR.Instr
import Tinycc.Lib.Loop
import Tinycc.Lib.ParallelCopy

namespace Tinycc
open Lib Function Finset

structure RAPhiCopy where
  destVreg : Vreg
  srcVreg : Vreg
  btype : IropBtype
  emitted : Bool
  deriving DecidableEq, Repr, Inhabited

/-- What the phi resolver writes to: the new instruction stream, the counter of temporaries and the
cursor of their spill slots. -/
structure RAPhiOut where
  instrs : List IRQuadCompact
  nextTemporaryVariable : ℕ
  phiSpillCursor : ℤ
  deriving DecidableEq, Repr

def vregPositionMask : ℕ := 0x1ffff

def vregPositionError : String :=
  s!"function too large: more than {vregPositionMask} virtual registers of one kind"

def tccIrVregAllocTemp (next : ℕ) : Except String (Vreg × ℕ) :=
  if vregPositionMask < next then .error vregPositionError else .ok (⟨.temp, next⟩, next + 1)

def raBtypeStackSize (btype : IropBtype) : ℤ :=
  match btype with
  | .int64 | .float64 => 8
  | _ => 4

/-- `ra_create_phi_temp`, without the live interval of the temporary -/
def raCreatePhiTemp (btype : IropBtype) (out : RAPhiOut) : Except String (Vreg × RAPhiOut) :=
  match tccIrVregAllocTemp out.nextTemporaryVariable with
  | .error e => .error e
  | .ok (tmp, next) =>
    let size := raBtypeStackSize btype
    let cursor := out.phiSpillCursor - size
    let cursor := if 4 < size ∧ cursor % 8 ≠ 0 then cursor - cursor % 8 else cursor
    .ok (tmp, { out with nextTemporaryVariable := next, phiSpillCursor := cursor })

def phiCopyQuad (dest src : Vreg) (btype : IropBtype) : IRQuadCompact :=
  { op := .assign, origIndex := 0, dest := .makeVreg dest btype, src1 := .makeVreg src btype,
    src2 := .none, extra := .none }

def raEmitPhiCopy (out : RAPhiOut) (copy : RAPhiCopy) : RAPhiOut :=
  { out with instrs := out.instrs ++ [phiCopyQuad copy.destVreg copy.srcVreg copy.btype] }

def raPhiCopyDestClobbersPendingSource (copies : ℕ → RAPhiCopy) (copyCount copyIdx : ℕ) : Bool :=
  (List.range copyCount).any fun i =>
    !(decide (i = copyIdx) || (copies i).emitted) &&
      decide ((copies i).srcVreg = (copies copyIdx).destVreg)

/-- The scheduler between two turns of its loop; `stopped` is set by its `break`. -/
structure PhiSched where
  copies : ℕ → RAPhiCopy
  emitted : ℕ
  out : RAPhiOut
  stopped : Bool

def phiSchedReady (copyCount : ℕ) (copies : ℕ → RAPhiCopy) : Option ℕ :=
  (List.range copyCount).find? fun ci =>
    !(copies ci).emitted && !raPhiCopyDestClobbersPendingSource copies copyCount ci

def phiSchedEmit (st : PhiSched) (ci : ℕ) : PhiSched :=
  { st with
    copies := update st.copies ci { st.copies ci with emitted := true }
    emitted := st.emitted + 1
    out := raEmitPhiCopy st.out (st.copies ci) }

/-- Break a cycle: the copy reads its source from a new temporary. -/
def phiSchedSave (st : PhiSched) (ci : ℕ) : Except String PhiSched :=
  match raCreatePhiTemp (st.copies ci).btype st.out with
  | .error e => .error e
  | .ok (tmp, out) =>
    .ok { st with
      copies := update st.copies ci { st.copies ci with srcVreg := tmp }
      out := raEmitPhiCopy out ⟨tmp, (st.copies ci).srcVreg, (st.copies ci).btype, false⟩ }

def phiSchedStep (copyCount : ℕ) (st : PhiSched) : Except String PhiSched :=
  match phiSchedReady copyCount st.copies with
  | some ci => .ok (phiSchedEmit st ci)
  | none =>
    match (List.range copyCount).find? fun ci => !(st.copies ci).emitted with
    | none => .ok { st with stopped := true }
    | some ci => phiSchedSave st ci

def phiSchedRunning (copyCount : ℕ) (st : Except String PhiSched) : Bool :=
  match st with
  | .error _ => false
  | .ok st => !st.stopped && decide (st.emitted < copyCount)

def raEmitScheduledPhiCopies (out : RAPhiOut) (copies : ℕ → RAPhiCopy) (copyCount : ℕ) :
    Option (Except String RAPhiOut) :=
  (whileLoop (phiSchedRunning copyCount) (· >>= phiSchedStep copyCount) (2 * copyCount + 2)
    (.ok { copies := copies, emitted := 0, out := out, stopped := false })).map
      fun st => st.map PhiSched.out

def execAssign {α : Type} (σ : Vreg → α) (q : IRQuadCompact) : Vreg → α :=
  match q.dest.vreg, q.src1.vreg with
  | some d, some s => update σ d (σ s)
  | _, _ => σ

def execAssigns {α : Type} (σ : Vreg → α) (qs : List IRQuadCompact) : Vreg → α :=
  qs.foldl execAssign σ

def pendingCopies (copyCount : ℕ) (copies : ℕ → RAPhiCopy) : Finset ℕ :=
  (range copyCount).filter fun i => (copies i).emitted = false

def AllocatedTemp (next : ℕ) (v : Vreg) : Prop := v.type = .temp → v.position < next

def freshTemps (next next' : ℕ) : Set Vreg :=
  { v | v.type = .temp ∧ next ≤ v.position ∧ v.position < next' }

section Sched

variable {copyCount : ℕ} {copies copies₀ : ℕ → RAPhiCopy} {ci : ℕ}

theorem mem_pendingCopies :
    ci ∈ pendingCopies copyCount copies ↔ ci < copyCount ∧ (copies ci).emitted = false := by
  simp [pendingCopies]

theorem clobbers_eq_false_iff :
    raPhiCopyDestClobbersPendingSource copies copyCount ci = false ↔
      CopyReady (fun i => (copies i).destVreg) (fun i => (copies i).srcVreg)
        (pendingCopies copyCount copies) ci := by
  simp only [raPhiCopyDestClobbersPendingSource, CopyReady, List.any_eq_false, List.mem_range,
    mem_pendingCopies, Bool.and_eq_true, Bool.not_eq_true', Bool.or_eq_false_iff,
    decide_eq_false_iff_not, decide_eq_true_eq, not_and]
  exact ⟨fun h i hi hne => h i hi.1 ⟨hne, hi.2⟩, fun h i hi hp => h i ⟨hi, hp.2⟩ hp.1⟩

theorem phiSchedReady_eq_some (h : phiSchedReady copyCount copies = some ci) :
    ci ∈ pendingCopies copyCount copies ∧
      CopyReady (fun i => (copies i).destVreg) (fun i => (copies i).srcVreg)
        (pendingCopies copyCount copies) ci := by
  have hmem := List.mem_of_find?_eq_some h
  have hp := List.find?_some h
  simp only [Bool.and_eq_true, Bool.not_eq_true'] at hp
  exact ⟨mem_pendingCopies.mpr ⟨List.mem_range.mp hmem, hp.1⟩, clobbers_eq_false_iff.mp hp.2⟩

theorem phiSchedReady_eq_none (h : phiSchedReady copyCount copies = none) :
    ∀ i ∈ pendingCopies copyCount copies,
      ¬ CopyReady (fun i => (copies i).destVreg) (fun i => (copies i).srcVreg)
        (pendingCopies copyCount copies) i := by
  intro i hi hready
  obtain ⟨hlt, he⟩ := mem_pendingCopies.mp hi
  have hn := List.find?_eq_none.mp h i (List.mem_range.mpr hlt)
  apply hn
  simp only [he, clobbers_eq_false_iff.mpr hready, Bool.not_false, Bool.and_self]

/-- The scheduler's invariant. Its last field bounds the number of temporaries: each one is followed
by the emission it made possible. -/
structure SchedInv (copyCount : ℕ) (copies₀ : ℕ → RAPhiCopy) (out₀ : RAPhiOut) (st : PhiSched) :
    Prop where
  stopped : st.stopped = false
  dest : ∀ i, (st.copies i).destVreg = (copies₀ i).destVreg
  count : st.emitted + (pendingCopies copyCount st.copies).card = copyCount
  temps_le : out₀.nextTemporaryVariable ≤ st.out.nextTemporaryVariable
  src_alloc : ∀ i ∈ pendingCopies copyCount st.copies,
    AllocatedTemp st.out.nextTemporaryVariable (st.copies i).srcVreg
  emits : ∃ qs, st.out.instrs = out₀.instrs ++ qs ∧ (∀ q ∈ qs, ∃ d s b, q = phiCopyQuad d s b) ∧
    ∀ (α : Type) (σ : Vreg → α), CopyInv (fun i => (copies₀ i).destVreg)
      (fun i => (copies₀ i).srcVreg) (fun i => (st.copies i).srcVreg) (range copyCount)
      (pendingCopies copyCount st.copies)
      (freshTemps out₀.nextTemporaryVariable st.out.nextTemporaryVariable) σ (execAssigns σ qs)
  temps : st.out.nextTemporaryVariable ≤ out₀.nextTemporaryVariable + st.emitted +
    if phiSchedReady copyCount st.copies = none then 0 else 1

theorem pendingCopies_emit (st : PhiSched) (ci : ℕ) :
    pendingCopies copyCount (phiSchedEmit st ci).copies =
      (pendingCopies copyCount st.copies).erase ci := by
  ext i
  simp only [mem_pendingCopies, mem_erase, phiSchedEmit, update_apply]
  by_cases hi : i = ci
  · simp [hi]
  · simp [hi]

theorem execAssigns_concat {α : Type} (σ : Vreg → α) (qs : List IRQuadCompact) (d s : Vreg)
    (b : IropBtype) :
    execAssigns σ (qs ++ [phiCopyQuad d s b]) = execMove (execAssigns σ qs) ⟨d, s⟩ := by
  rw [execAssigns, List.foldl_append]
  rfl

theorem schedInv_init (out : RAPhiOut) (hnew : ∀ i < copyCount, (copies i).emitted = false)
    (hsrc : ∀ i < copyCount, AllocatedTemp out.nextTemporaryVariable (copies i).srcVreg) :
    SchedInv copyCount copies out ⟨copies, 0, out, false⟩ := by
  have hall : pendingCopies copyCount copies = range copyCount := by
    ext i
    rw [mem_pendingCopies, mem_range]
    exact ⟨fun h => h.1, fun h => ⟨h, hnew i h⟩⟩
  constructor
  case stopped => rfl
  case dest => exact fun _ => rfl
  case count => rw [hall, card_range, Nat.zero_add]
  case temps_le => exact le_refl _
  case src_alloc => exact fun i hi => hsrc i (mem_pendingCopies.mp hi).1
  case emits =>
    refine ⟨[], (List.append_nil _).symm, by simp, fun α σ => ?_⟩
    rw [hall]
    exact CopyInv.init _ _ _ _ σ
  case temps => dsimp only; omega

variable {out₀ : RAPhiOut} {st : PhiSched}

theorem schedInv_emit (I : SchedInv copyCount copies₀ out₀ st)
    (hinj : Set.InjOn (fun i => (copies₀ i).destVreg) (range copyCount))
    (h : phiSchedReady copyCount st.copies = some ci) :
    SchedInv copyCount copies₀ out₀ (phiSchedEmit st ci) := by
  obtain ⟨hmem, hready⟩ := phiSchedReady_eq_some h
  have hsrc : ∀ i, ((phiSchedEmit st ci).copies i).srcVreg = (st.copies i).srcVreg := by
    intro i
    simp only [phiSchedEmit, update_apply]
    split
    · next e => rw [e]
    · rfl
  constructor
  case stopped => exact I.stopped
  case dest =>
    intro i
    rw [← I.dest i]
    simp only [phiSchedEmit, update_apply]
    split
    · next e => rw [e]
    · rfl
  case count =>
    have hpos := Finset.card_pos.mpr ⟨ci, hmem⟩
    have := I.count
    rw [pendingCopies_emit, card_erase_of_mem hmem]
    simp only [phiSchedEmit]
    omega
  case temps_le => exact I.temps_le
  case src_alloc =>
    intro i hi
    rw [pendingCopies_emit] at hi
    rw [hsrc]
    exact I.src_alloc i (mem_of_mem_erase hi)
  case emits =>
    obtain ⟨qs, hqs, hform, hinv⟩ := I.emits
    refine ⟨qs ++ [phiCopyQuad (st.copies ci).destVreg (st.copies ci).srcVreg (st.copies ci).btype],
      ?_, ?_, fun α σ => ?_⟩
    · simp only [phiSchedEmit, raEmitPhiCopy, hqs, List.append_assoc]
    · intro q hq
      rcases List.mem_append.mp hq with hq | hq
      · exact hform q hq
      · exact ⟨_, _, _, List.mem_singleton.mp hq⟩
    · rw [execAssigns_concat, pendingCopies_emit, I.dest ci]
      simp only [I.dest] at hready
      simp only [hsrc]
      exact (hinv α σ).emit hinj hmem hready
  case temps =>
    have := I.temps
    rw [h] at this
    simp only [phiSchedEmit, raEmitPhiCopy, reduceCtorEq, if_false] at this ⊢
    omega

theorem phiSchedSave_error (h : vregPositionMask < st.out.nextTemporaryVariable) :
    phiSchedSave st ci = .error vregPositionError := by
  simp only [phiSchedSave, raCreatePhiTemp, tccIrVregAllocTemp, if_pos h]

theorem phiSchedSave_ok (h : ¬ vregPositionMask < st.out.nextTemporaryVariable) :
    ∃ cursor, phiSchedSave st ci = .ok { st with
      copies := update st.copies ci
        { st.copies ci with srcVreg := ⟨.temp, st.out.nextTemporaryVariable⟩ }
      out :=
        { instrs := st.out.instrs ++ [phiCopyQuad ⟨.temp, st.out.nextTemporaryVariable⟩
            (st.copies ci).srcVreg (st.copies ci).btype]
          nextTemporaryVariable := st.out.nextTemporaryVariable + 1
          phiSpillCursor := cursor } } := by
  simp only [phiSchedSave, raCreatePhiTemp, tccIrVregAllocTemp, if_neg h]
  exact ⟨_, rfl⟩

theorem freshTemps_succ {next next' : ℕ} (h : next ≤ next') :
    freshTemps next (next' + 1) = insert ⟨.temp, next'⟩ (freshTemps next next') := by
  ext ⟨t, p⟩
  simp only [freshTemps, Set.mem_ofPred_eq, Set.mem_insert_iff, Vreg.mk.injEq]
  constructor
  · rintro ⟨ht, h1, h2⟩
    by_cases hp : p = next'
    · exact .inl ⟨ht, hp⟩
    · exact .inr ⟨ht, h1, by omega⟩
  · rintro (⟨ht, hp⟩ | ⟨ht, h1, h2⟩)
    · exact ⟨ht, by omega, by omega⟩
    · exact ⟨ht, h1, by omega⟩

theorem schedInv_save (I : SchedInv copyCount copies₀ out₀ st)
    (hinj : Set.InjOn (fun i => (copies₀ i).destVreg) (range copyCount))
    (hdst : ∀ i < copyCount, AllocatedTemp out₀.nextTemporaryVariable (copies₀ i).destVreg)
    (h : phiSchedReady copyCount st.copies = none)
    (hci : ci ∈ pendingCopies copyCount st.copies) :
    (vregPositionMask < out₀.nextTemporaryVariable + copyCount ∧
        phiSchedSave st ci = .error vregPositionError) ∨
      ∃ st', phiSchedSave st ci = .ok st' ∧ SchedInv copyCount copies₀ out₀ st' ∧
        pendingCopies copyCount st'.copies = pendingCopies copyCount st.copies ∧
        phiSchedReady copyCount st'.copies ≠ none := by
  have hcount := I.count
  have htemps := I.temps
  rw [h, if_pos rfl] at htemps
  by_cases hfull : vregPositionMask < st.out.nextTemporaryVariable
  · exact .inl ⟨by omega, phiSchedSave_error hfull⟩
  right
  obtain ⟨cursor, hst'⟩ := @phiSchedSave_ok ci st hfull
  obtain ⟨tmp, htmp⟩ : ∃ t : Vreg, t = ⟨.temp, st.out.nextTemporaryVariable⟩ := ⟨_, rfl⟩
  rw [← htmp] at hst'
  obtain ⟨copies', hcopies'⟩ : ∃ c, c =
      update st.copies ci { st.copies ci with srcVreg := tmp } := ⟨_, rfl⟩
  rw [← hcopies'] at hst'
  have hdest : ∀ i, (copies' i).destVreg = (copies₀ i).destVreg := by
    intro i
    rw [← I.dest i, hcopies', update_apply]
    split
    · next e => rw [e]
    · rfl
  have hsrc : (fun i => (copies' i).srcVreg) =
      update (fun i => (st.copies i).srcVreg) ci tmp := by
    funext i
    rw [hcopies', update_apply, update_apply]
    split <;> rfl
  have hpending : pendingCopies copyCount copies' = pendingCopies copyCount st.copies := by
    ext i
    rw [mem_pendingCopies, mem_pendingCopies, hcopies', update_apply]
    split
    · next e => rw [e]
    · rfl
  -- the new temporary is neither a destination nor a source still to be read
  have hdst' : ∀ i ∈ range copyCount, (copies₀ i).destVreg ≠ tmp := by
    intro i hi e
    have := hdst i (Finset.mem_range.mp hi) (by rw [e, htmp])
    rw [e, htmp] at this
    exact absurd this (by simpa using I.temps_le)
  have hsrc' : ∀ i ∈ pendingCopies copyCount st.copies, (st.copies i).srcVreg ≠ tmp := by
    intro i hi e
    have := I.src_alloc i hi (by rw [e, htmp])
    rw [e, htmp] at this
    exact absurd this (lt_irrefl _)
  have hsub : pendingCopies copyCount st.copies ⊆ range copyCount := fun i hi =>
    Finset.mem_range.mpr (mem_pendingCopies.mp hi).1
  have hready : phiSchedReady copyCount copies' ≠ none := by
    intro hnone
    have hblocked := phiSchedReady_eq_none h
    simp only [I.dest] at hblocked
    obtain ⟨k, hk, hkr⟩ := exists_ready_of_save (hinj.mono fun i hi => hsub hi) hblocked hci
      fun i hi => hdst' i (hsub hi)
    have hnot := phiSchedReady_eq_none hnone k (hpending ▸ hk)
    rw [hpending, hsrc] at hnot
    simp only [hdest] at hnot
    exact hnot hkr
  refine ⟨_, hst', ?_, hpending, hready⟩
  constructor
  case stopped => exact I.stopped
  case dest => exact hdest
  case count => rw [hpending, hcount]
  case temps_le => exact I.temps_le.trans (Nat.le_succ _)
  case src_alloc =>
    intro i hi
    rw [hpending] at hi
    rw [show (copies' i).srcVreg = update (fun i => (st.copies i).srcVreg) ci tmp i from
      congrFun hsrc i, update_apply]
    split
    · rw [htmp]
      exact fun _ => Nat.lt_succ_self _
    · exact fun ht => (I.src_alloc i hi ht).trans (Nat.lt_succ_self _)
  case emits =>
    obtain ⟨qs, hqs, hform, hinv⟩ := I.emits
    refine ⟨qs ++ [phiCopyQuad tmp (st.copies ci).srcVreg (st.copies ci).btype], ?_, ?_,
      fun α σ => ?_⟩
    · simp only [hqs, htmp, List.append_assoc]
    · intro q hq
      rcases List.mem_append.mp hq with hq | hq
      · exact hform q hq
      · exact ⟨_, _, _, List.mem_singleton.mp hq⟩
    · rw [execAssigns_concat, hpending, hsrc, freshTemps_succ I.temps_le, ← htmp]
      exact (hinv α σ).save hci hdst' hsrc'
  case temps =>
    dsimp only
    rw [if_neg hready]
    omega

def SchedRun (copyCount : ℕ) (copies₀ : ℕ → RAPhiCopy) (out₀ : RAPhiOut) :
    Except String PhiSched → Prop
  | .error e => e = vregPositionError ∧ vregPositionMask < out₀.nextTemporaryVariable + copyCount
  | .ok st => SchedInv copyCount copies₀ out₀ st

/-- A save does not change what is pending, but it is never followed by another one. -/
def schedMeasure (copyCount : ℕ) : Except String PhiSched → ℕ
  | .error _ => 0
  | .ok st => 2 * (pendingCopies copyCount st.copies).card +
      if phiSchedReady copyCount st.copies = none then 1 else 0

theorem schedRun_step {r : Except String PhiSched}
    (hinj : Set.InjOn (fun i => (copies₀ i).destVreg) (range copyCount))
    (hdst : ∀ i < copyCount, AllocatedTemp out₀.nextTemporaryVariable (copies₀ i).destVreg)
    (hr : SchedRun copyCount copies₀ out₀ r) (hrun : phiSchedRunning copyCount r = true) :
    SchedRun copyCount copies₀ out₀ (r >>= phiSchedStep copyCount) ∧
      schedMeasure copyCount (r >>= phiSchedStep copyCount) < schedMeasure copyCount r := by
  cases r with
  | error e => cases hrun
  | ok st =>
    have I : SchedInv copyCount copies₀ out₀ st := hr
    simp only [phiSchedRunning, Bool.and_eq_true, decide_eq_true_eq] at hrun
    have hcount := I.count
    have hpos : 0 < (pendingCopies copyCount st.copies).card := by omega
    change SchedRun copyCount copies₀ out₀ (phiSchedStep copyCount st) ∧
      schedMeasure copyCount (phiSchedStep copyCount st) < schedMeasure copyCount (.ok st)
    unfold phiSchedStep
    cases hready : phiSchedReady copyCount st.copies with
    | some ci =>
      refine ⟨schedInv_emit I hinj hready, ?_⟩
      have hmem := (phiSchedReady_eq_some hready).1
      simp only [schedMeasure, pendingCopies_emit, card_erase_of_mem hmem]
      split <;> omega
    | none =>
      cases hfind : (List.range copyCount).find? fun ci => !(st.copies ci).emitted with
      | none =>
        -- then nothing would be pending
        obtain ⟨i, hi⟩ := Finset.card_pos.mp hpos
        obtain ⟨hlt, he⟩ := mem_pendingCopies.mp hi
        have := List.find?_eq_none.mp hfind i (List.mem_range.mpr hlt)
        simp [he] at this
      | some ci =>
        have hci : ci ∈ pendingCopies copyCount st.copies := by
          have hp := List.find?_some hfind
          apply mem_pendingCopies.mpr
          exact ⟨List.mem_range.mp (List.mem_of_find?_eq_some hfind), by simpa using hp⟩
        rcases schedInv_save I hinj hdst hready hci with ⟨hfull, herr⟩ | ⟨st', hst', I', hp, hr'⟩
        · simp only [herr]
          refine ⟨⟨rfl, hfull⟩, ?_⟩
          simp only [schedMeasure]
          omega
        · simp only [hst']
          refine ⟨I', ?_⟩
          simp only [schedMeasure, hp, hready, if_neg hr', if_true]
          omega

/-- The scheduler ends; unless the temporaries run out, the moves it appends are a parallel copy. -/
theorem raEmitScheduledPhiCopies_spec (out : RAPhiOut)
    (hinj : Set.InjOn (fun i => (copies i).destVreg) (range copyCount))
    (hnew : ∀ i < copyCount, (copies i).emitted = false)
    (hsrc : ∀ i < copyCount, AllocatedTemp out.nextTemporaryVariable (copies i).srcVreg)
    (hdst : ∀ i < copyCount, AllocatedTemp out.nextTemporaryVariable (copies i).destVreg) :
    (raEmitScheduledPhiCopies out copies copyCount = some (.error vregPositionError) ∧
        vregPositionMask < out.nextTemporaryVariable + copyCount) ∨
      ∃ out' qs, raEmitScheduledPhiCopies out copies copyCount = some (.ok out') ∧
        out'.instrs = out.instrs ++ qs ∧ (∀ q ∈ qs, ∃ d s b, q = phiCopyQuad d s b) ∧
        out.nextTemporaryVariable ≤ out'.nextTemporaryVariable ∧
        ∀ (α : Type) (σ : Vreg → α),
          (∀ i < copyCount, execAssigns σ qs (copies i).destVreg = σ (copies i).srcVreg) ∧
          ∀ v, (∀ i < copyCount, v ≠ (copies i).destVreg) →
            v ∉ freshTemps out.nextTemporaryVariable out'.nextTemporaryVariable →
            execAssigns σ qs v = σ v := by
  have I₀ : SchedRun copyCount copies out (.ok ⟨copies, 0, out, false⟩) :=
    schedInv_init out hnew hsrc
  have hle : schedMeasure copyCount (.ok ⟨copies, 0, out, false⟩) < 2 * copyCount + 2 := by
    have hcard : (pendingCopies copyCount copies).card ≤ copyCount :=
      (card_filter_le _ _).trans (card_range _).le
    simp only [schedMeasure]
    split <;> omega
  obtain ⟨r, hloop, hr, hstop⟩ := whileLoop_total (SchedRun copyCount copies out)
    (schedMeasure copyCount) (fun r hr hrun => schedRun_step hinj hdst hr hrun) _ _ I₀ hle
  unfold raEmitScheduledPhiCopies
  rw [hloop]
  cases r with
  | error e =>
    left
    rw [hr.1]
    exact ⟨rfl, hr.2⟩
  | ok st =>
    right
    have I : SchedInv copyCount copies out st := hr
    obtain ⟨qs, hqs, hform, hinv⟩ := I.emits
    have hempty : pendingCopies copyCount st.copies = ∅ := by
      have := I.count
      simp only [phiSchedRunning, I.stopped, Bool.not_false, Bool.true_and,
        decide_eq_false_iff_not] at hstop
      apply Finset.card_eq_zero.mp
      omega
    refine ⟨st.out, qs, rfl, hqs, hform, I.temps_le, fun α σ => ⟨fun i hi => ?_, fun v hv hT => ?_⟩⟩
    · exact (hinv α σ).done i (Finset.mem_range.mpr hi) (by simp [hempty])
    · exact (hinv α σ).frame v (fun i hi => hv i (Finset.mem_range.mp hi)) hT

/-- The scheduler ends for every set of copies with distinct destinations. Unless it needs more
temporaries than there are, it emits moves that carry out all copies at once and change nothing else
but temporaries it has created. -/
theorem raEmitScheduledPhiCopies_correct (out : RAPhiOut) (copies : ℕ → RAPhiCopy) (copyCount : ℕ)
    (hinj : ∀ i < copyCount, ∀ j < copyCount,
      (copies i).destVreg = (copies j).destVreg → i = j)
    (hnew : ∀ i < copyCount, (copies i).emitted = false)
    (halloc : ∀ i < copyCount, AllocatedTemp out.nextTemporaryVariable (copies i).srcVreg ∧
      AllocatedTemp out.nextTemporaryVariable (copies i).destVreg) :
    (raEmitScheduledPhiCopies out copies copyCount = some (.error vregPositionError) ∧
        vregPositionMask < out.nextTemporaryVariable + copyCount) ∨
      ∃ out' qs, raEmitScheduledPhiCopies out copies copyCount = some (.ok out') ∧
        out'.instrs = out.instrs ++ qs ∧ (∀ q ∈ qs, ∃ d s b, q = phiCopyQuad d s b) ∧
        ∀ (α : Type) (σ : Vreg → α),
          (∀ i < copyCount, execAssigns σ qs (copies i).destVreg = σ (copies i).srcVreg) ∧
          ∀ v, (∀ i < copyCount, v ≠ (copies i).destVreg) →
            v ∉ freshTemps out.nextTemporaryVariable out'.nextTemporaryVariable →
            execAssigns σ qs v = σ v := by
  have hinj' : Set.InjOn (fun i => (copies i).destVreg) (range copyCount) :=
    fun i hi j hj e => hinj i (by simpa using hi) j (by simpa using hj) e
  rcases raEmitScheduledPhiCopies_spec out hinj' hnew (fun i hi => (halloc i hi).1)
    (fun i hi => (halloc i hi).2) with h | ⟨out', qs, h, hqs, hform, _, hexec⟩
  · exact .inl h
  · exact .inr ⟨out', qs, h, hqs, hform, hexec⟩

def swapCopies (i : ℕ) : RAPhiCopy := ⟨⟨.temp, i⟩, ⟨.temp, 1 - i⟩, .int32, false⟩

theorem raEmitScheduledPhiCopies_correct_swap :
    ∃ out' qs, raEmitScheduledPhiCopies ⟨[], 2, 0⟩ swapCopies 2 = some (.ok out') ∧
      out'.instrs = qs ∧ ∀ (α : Type) (σ : Vreg → α), ∀ i < 2,
        execAssigns σ qs ⟨.temp, i⟩ = σ ⟨.temp, 1 - i⟩ := by
  rcases raEmitScheduledPhiCopies_correct ⟨[], 2, 0⟩ swapCopies 2 (by decide) (by decide)
    (by simp only [AllocatedTemp]; decide) with h | ⟨out', qs, h, hqs, _, hexec⟩
  · exact absurd h.2 (by decide)
  · exact ⟨out', qs, h, hqs, fun α σ => (hexec α σ).1⟩

end Sched

end Tinycc
