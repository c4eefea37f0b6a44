import Tinycc.Lib.ParallelCopy
import Tinycc.Lib.SweepSchedule

/-!
# Placing float arguments into the VFP argument registers

The single-precision arguments that are in VFP registers are moved before anything else is, as a
parallel move among the registers, with `s14` as the place where a cycle is broken.
-/

namespace Tinycc
open Lib Function Finset Option List

/-- What the first phase reads of an argument: its place, and the VFP register it is in. -/
structure VfpArg where
  isVfpReg : Bool
  isComposite : Bool
  regCount : ℕ
  regBase : ℕ
  vfpSrc : Option ℕ

def vfpScratch0 : ℕ := 14

def VfpArg.phase0Move (a : VfpArg) : Option (Move ℕ) :=
  if a.isVfpReg = false ∨ a.isComposite then none
  else if a.regCount = 2 then none
  else a.vfpSrc.map fun s => ⟨a.regBase, s⟩

def vfpPhase0Moves (args : List VfpArg) : List (Move ℕ) :=
  (args.filterMap VfpArg.phase0Move).take 16

section Moves

variable (ms : List (Move ℕ))

def moveDst (i : ℕ) : ℕ := (ms.getD i ⟨0, 0⟩).dst

def moveSrc (i : ℕ) : ℕ := (ms.getD i ⟨0, 0⟩).src

def vfpEventMove : SweepEvent ℕ → Option (Move ℕ)
  | .emit i (some s) _ => if s ≠ moveDst ms i then some ⟨moveDst ms i, s⟩ else none
  | .emit _ none _ => none
  | .park _ s => some ⟨vfpScratch0, s⟩

def vfpParallelMove : Option (List (Move ℕ)) :=
  (sweepSchedule (moveDst ms) (some vfpScratch0) ms.length fun i => some (moveSrc ms i)).map
    fun ev => ev.filterMap (vfpEventMove ms)

end Moves

def emitVfpArgMoves (args : List VfpArg) : Option (List (Move ℕ)) :=
  vfpParallelMove (vfpPhase0Moves args)

/-! ## Cycles -/

variable {ms : List (Move ℕ)}

/-- Moves each of whose destinations is the source of another of them. -/
def IsMoveCycle (ms : List (Move ℕ)) (S : Finset ℕ) : Prop :=
  S.Nonempty ∧ S ⊆ range ms.length ∧
    SweepStuck (moveDst ms) S fun i => some (moveSrc ms i)

/-- Move `l` is the first of a set of cycles, and every other such set has a move that is not
after it: of the first moves of cycles it is the last. -/
def LastCycleStart (ms : List (Move ℕ)) (l : ℕ) : Prop :=
  (∃ S, IsMoveCycle ms S ∧ l ∈ S ∧ ∀ j ∈ S, l ≤ j) ∧ ∀ S, IsMoveCycle ms S → ∃ j ∈ S, j ≤ l

theorem LastCycleStart.unique {k l : ℕ} (hk : LastCycleStart ms k) (hl : LastCycleStart ms l) :
    k = l := by
  obtain ⟨⟨S, hS, _, hSmin⟩, hkall⟩ := hk
  obtain ⟨⟨T, hT, _, hTmin⟩, hlall⟩ := hl
  obtain ⟨j, hj, hjl⟩ := hlall S hS
  obtain ⟨i, hi, hik⟩ := hkall T hT
  exact le_antisymm ((hSmin j hj).trans hjl) ((hTmin i hi).trans hik)

section Run

variable {A : Type*} {σ : ℕ → A}

def vfpRun (ms : List (Move ℕ)) (σ : ℕ → A) (ev : List (SweepEvent ℕ)) : ℕ → A :=
  (ev.filterMap (vfpEventMove ms)).foldl execMove σ

theorem vfpRun_emit (ev : List (SweepEvent ℕ)) (i s : ℕ) (b : Bool) :
    vfpRun ms σ (ev ++ [.emit i (some s) b])
      = update (vfpRun ms σ ev) (moveDst ms i) (vfpRun ms σ ev s) := by
  unfold vfpRun
  by_cases h : s = moveDst ms i
  · subst h
    simp [vfpEventMove]
  · simp [vfpEventMove, h, execMove]

theorem vfpRun_park (ev : List (SweepEvent ℕ)) (i s : ℕ) :
    vfpRun ms σ (ev ++ [.park i s])
      = update (vfpRun ms σ ev) vfpScratch0 (vfpRun ms σ ev s) := by
  rw [vfpRun, filterMap_append, foldl_append]
  rfl

/-- The state of the registers with the moves `P` pending and `last` the move parked last. -/
structure VfpInv (ms : List (Move ℕ)) (σ : ℕ → A) (last : Option ℕ) (P : Finset ℕ)
    (src : ℕ → Option ℕ) (ev : List (SweepEvent ℕ)) : Prop where
  sub : P ⊆ range ms.length
  pending : ∀ i ∈ P, ∃ v, src i = some v ∧ vfpRun ms σ ev v = σ (moveSrc ms i)
  origin : ∀ i ∈ P, src i = some (moveSrc ms i) ∨ src i = some vfpScratch0 ∧ last ≠ none
  done : ∀ i < ms.length, i ∉ P → moveDst ms i ≠ vfpScratch0 →
    vfpRun ms σ ev (moveDst ms i) = σ (moveSrc ms i)
  scratch : ∀ i < ms.length, moveDst ms i = vfpScratch0 →
    (i ∈ P → last = none) ∧
    (i ∉ P → vfpRun ms σ ev vfpScratch0 = σ (moveSrc ms (last.getD i)))
  start : ∀ l ∈ last, (∃ S, IsMoveCycle ms S ∧ l ∈ S ∧ ∀ j ∈ S, l ≤ j) ∧ ∀ j ∈ P, l ≤ j
  cycles : ∀ S, IsMoveCycle ms S → (∀ l ∈ last, ∀ j ∈ S, l < j) →
    S ⊆ P ∧ ∀ j ∈ S, src j = some (moveSrc ms j)

/-- The destinations are distinct argument registers, and no source is the scratch register. -/
structure VfpPlaced (ms : List (Move ℕ)) : Prop where
  inj : Set.InjOn (moveDst ms) (range ms.length)
  src_ne : ∀ i < ms.length, moveSrc ms i ≠ vfpScratch0

variable {last : Option ℕ} {P : Finset ℕ} {src : ℕ → Option ℕ} {ev : List (SweepEvent ℕ)} {i : ℕ}

theorem VfpInv.init (σ : ℕ → A) : VfpInv ms σ none (range ms.length)
    (fun i => some (moveSrc ms i)) [] where
  sub := Finset.Subset.refl _
  pending _ _ := ⟨_, rfl, rfl⟩
  origin _ _ := .inl rfl
  done _ hi hn := absurd (Finset.mem_range.mpr hi) hn
  scratch _ hi _ := ⟨fun _ => rfl, fun hn => absurd (Finset.mem_range.mpr hi) hn⟩
  start _ h := by cases h
  cycles _ hS _ := ⟨hS.2.1, fun _ _ => rfl⟩

section

variable (hp : VfpPlaced ms)
include hp

theorem VfpInv.emit (I : VfpInv ms σ last P src ev) (hi : i ∈ P)
    (hready : ∀ j ∈ P, j ≠ i → src j ≠ some (moveDst ms i)) (b : Bool) :
    VfpInv ms σ last (P.erase i) src (ev ++ [.emit i (src i) b]) := by
  obtain ⟨v, hv, hval⟩ := I.pending i hi
  rw [hv]
  refine ⟨(erase_subset i P).trans I.sub, fun j hj => ?_, fun j hj => ?_,
    fun j hjn hj hne => ?_, fun j hjn hdst => ⟨fun hj => ?_, fun hj => ?_⟩, fun l hl => ?_,
    fun S hS hlast => ?_⟩
  · obtain ⟨hji, hj⟩ := Finset.mem_erase.mp hj
    obtain ⟨u, hu, huval⟩ := I.pending j hj
    refine ⟨u, hu, ?_⟩
    rw [vfpRun_emit, update_of_ne, huval]
    rintro rfl
    exact hready j hj hji hu
  · exact I.origin j (mem_of_mem_erase hj)
  · rw [vfpRun_emit]
    by_cases hji : j = i
    · rw [hji, update_self, hval]
    · have hdd : moveDst ms j ≠ moveDst ms i := fun e => hji
        (hp.inj (Finset.mem_coe.mpr (Finset.mem_range.mpr hjn)) (Finset.mem_coe.mpr (I.sub hi)) e)
      rw [update_of_ne hdd]
      exact I.done j hjn (fun h => hj (Finset.mem_erase.mpr ⟨hji, h⟩)) hne
  · exact (I.scratch j hjn hdst).1 (mem_of_mem_erase hj)
  · rw [vfpRun_emit]
    by_cases hji : j = i
    · subst hji
      rw [(I.scratch j hjn hdst).1 hi, ← hdst, update_self, hval]
      rfl
    · have hdd : vfpScratch0 ≠ moveDst ms i := fun e => hji
        (hp.inj (Finset.mem_coe.mpr (Finset.mem_range.mpr hjn)) (Finset.mem_coe.mpr (I.sub hi))
          (hdst.trans e))
      rw [update_of_ne hdd]
      exact (I.scratch j hjn hdst).2 fun h => hj (Finset.mem_erase.mpr ⟨hji, h⟩)
  · exact ⟨(I.start l hl).1, fun j hj => (I.start l hl).2 j (mem_of_mem_erase hj)⟩
  · obtain ⟨hSP, hSsrc⟩ := I.cycles S hS hlast
    refine ⟨fun j hj => Finset.mem_erase.mpr ⟨?_, hSP hj⟩, hSsrc⟩
    rintro rfl
    -- a move of a cycle is blocked
    obtain ⟨k, hk, hkj, hksrc⟩ := hS.2.2 j hj
    exact hready k (hSP hk) hkj ((hSsrc k hk).trans hksrc)

theorem VfpInv.stuck (I : VfpInv ms σ last P src ev)
    (hstuck : SweepStuck (moveDst ms) P src) :
    (∀ j ∈ P, moveDst ms j ≠ vfpScratch0) ∧ ∀ j ∈ P, src j = some (moveSrc ms j) := by
  have hdst : ∀ j ∈ P, moveDst ms j ≠ vfpScratch0 := by
    intro j hj h14
    obtain ⟨k, hk, _, hksrc⟩ := hstuck j hj
    have hnone := (I.scratch j (Finset.mem_range.mp (I.sub hj)) h14).1 hj
    rcases I.origin k hk with h | ⟨_, hlast⟩
    · have heq : moveSrc ms k = moveDst ms j := Option.some.inj (h.symm.trans hksrc)
      exact hp.src_ne k (Finset.mem_range.mp (I.sub hk)) (heq.trans h14)
    · exact hlast hnone
  refine ⟨hdst, fun j hj => ?_⟩
  rcases I.origin j hj with h | ⟨h, _⟩
  · exact h
  · obtain ⟨i, hi, hij⟩ := (hstuck.sources (hp.inj.mono (Finset.coe_subset.mpr I.sub))).2 j hj
    exact absurd (Option.some.inj (hij.symm.trans h)) (hdst i hi)

theorem VfpInv.park {v : ℕ} (I : VfpInv ms σ last P src ev)
    (hstuck : SweepStuck (moveDst ms) P src) (hi : i ∈ P) (hmin : ∀ j ∈ P, i ≤ j)
    (hv : src i = some v) :
    VfpInv ms σ (some i) P (update src i (some vfpScratch0)) (ev ++ [.park i v]) := by
  obtain ⟨hdst, hsrc⟩ := I.stuck hp hstuck
  obtain rfl : v = moveSrc ms i := Option.some.inj (hv.symm.trans (hsrc i hi))
  have hval : vfpRun ms σ ev (moveSrc ms i) = σ (moveSrc ms i) := by
    obtain ⟨u, hu, huval⟩ := I.pending i hi
    obtain rfl : u = moveSrc ms i := Option.some.inj (hu.symm.trans hv)
    exact huval
  have hcycle : IsMoveCycle ms P := by
    refine ⟨⟨i, hi⟩, I.sub, fun j hj => ?_⟩
    obtain ⟨k, hk, hkj, hksrc⟩ := hstuck j hj
    exact ⟨k, hk, hkj, (hsrc k hk).symm.trans hksrc⟩
  refine ⟨I.sub, fun j hj => ?_, fun j hj => ?_, fun j hjn hj hne => ?_,
    fun j hjn h14 => ⟨fun hj => absurd h14 (hdst j hj), fun _ => ?_⟩, fun l hl => ?_,
    fun S hS hlast => ?_⟩
  · by_cases hji : j = i
    · exact ⟨vfpScratch0, by rw [hji, update_self], by
        rw [vfpRun_park, update_self, hval, hji]⟩
    · refine ⟨moveSrc ms j, by rw [update_of_ne hji, hsrc j hj], ?_⟩
      obtain ⟨u, hu, huval⟩ := I.pending j hj
      obtain rfl : u = moveSrc ms j := Option.some.inj (hu.symm.trans (hsrc j hj))
      rw [vfpRun_park, update_of_ne (hp.src_ne j (Finset.mem_range.mp (I.sub hj))), huval]
  · by_cases hji : j = i
    · exact .inr ⟨by rw [hji, update_self], some_ne_none i⟩
    · exact .inl (by rw [update_of_ne hji, hsrc j hj])
  · rw [vfpRun_park, update_of_ne hne]
    exact I.done j hjn hj hne
  · rw [vfpRun_park, hval]
    rfl
  · obtain rfl : i = l := Option.some.inj hl
    exact ⟨⟨P, hcycle, hi, hmin⟩, hmin⟩
  · have hiS := hlast i rfl
    obtain ⟨hSP, hSsrc⟩ := I.cycles S hS fun l hl j hj =>
      ((I.start l hl).2 i hi).trans_lt (hiS j hj)
    refine ⟨hSP, fun j hj => ?_⟩
    have hji : j ≠ i := Nat.ne_of_gt (hiS j hj)
    rw [update_of_ne hji]
    exact hSsrc j hj

theorem vfp_sweepRule (σ : ℕ → A) :
    SweepRule (moveDst ms) (some vfpScratch0) fun P src _ ev =>
      ∃ last, VfpInv ms σ last P src ev where
  emit _ _ K _ i h hi hready := by
    obtain ⟨last, I⟩ := h
    exact ⟨last, I.emit hp hi hready (decide (i ∈ K))⟩
  park _ _ _ _ i _ h hstuck hi hmin hv := by
    obtain ⟨last, I⟩ := h
    exact ⟨some i, I.park hp hstuck hi hmin hv⟩
  free _ _ _ _ h hstuck i hi := by
    obtain ⟨last, I⟩ := h
    exact fun e => (I.stuck hp hstuck).1 i hi (Option.some.inj e).symm

/-- What the parallel move leaves in the registers: the scratch register may hold the value that
was parked last, all others hold what they should. -/
theorem vfpParallelMove_spec : ∃ code, vfpParallelMove ms = some code ∧
    ∀ σ : ℕ → A, ∃ last : Option ℕ, (∀ l ∈ last, LastCycleStart ms l) ∧
      (last = none → ∀ S, ¬ IsMoveCycle ms S) ∧
      ∀ i < ms.length, (code.foldl execMove σ) (moveDst ms i)
        = σ (moveSrc ms (if moveDst ms i = vfpScratch0 then last.getD i else i)) := by
  have hrule := fun σ : ℕ → A => sweepSchedule_rule (vfp_sweepRule hp σ) hp.inj ⟨_, VfpInv.init σ⟩
  obtain ⟨ev, _, _, hev, _⟩ :=
    sweepSchedule_rule (vfp_sweepRule hp fun _ => ()) hp.inj ⟨_, VfpInv.init _⟩
  refine ⟨ev.filterMap (vfpEventMove ms), by rw [vfpParallelMove, hev]; rfl, fun σ => ?_⟩
  obtain ⟨ev', src, _, hev', last, I⟩ := hrule σ
  obtain rfl : ev = ev' := Option.some.inj (hev.symm.trans hev')
  have hnone : ∀ S, IsMoveCycle ms S → ∃ l ∈ last, ∃ j ∈ S, j ≤ l := by
    intro S hS
    by_contra hno
    push Not at hno
    obtain ⟨j, hj⟩ := hS.1
    exact absurd ((I.cycles S hS hno).1 hj) (notMem_empty j)
  refine ⟨last, fun l hl => ⟨(I.start l hl).1, fun S hS => ?_⟩, fun hlast S hS => ?_,
    fun i hi => ?_⟩
  · obtain ⟨k, hk, hle⟩ := hnone S hS
    obtain rfl : k = l := mem_unique hk hl
    exact hle
  · obtain ⟨l, hl, _⟩ := hnone S hS
    rw [hlast] at hl
    cases hl
  · split
    · next h14 =>
      rw [h14]
      exact (I.scratch i hi h14).2 (notMem_empty i)
    · next hne => exact I.done i hi (notMem_empty i) hne

end

end Run

/-! ## What the first phase places -/

/-- Every argument register holds the value of its source, exactly if the value parked last is the
one `s14` is to hold, where a cycle and an argument in `s14` occur together. -/
theorem vfpParallelMove_iff (hp : VfpPlaced ms) :
    (∃ code, vfpParallelMove ms = some code ∧ ∀ σ : ℕ → BitVec 32, ∀ i < ms.length,
      (code.foldl execMove σ) (moveDst ms i) = σ (moveSrc ms i)) ↔
    ∀ l i, LastCycleStart ms l → i < ms.length → moveDst ms i = vfpScratch0 →
      moveSrc ms l = moveSrc ms i := by
  obtain ⟨code, hcode, hspec⟩ := vfpParallelMove_spec (A := BitVec 32) hp
  constructor
  · rintro ⟨code', hcode', hright⟩ l i hl hi h14
    obtain rfl : code = code' := Option.some.inj (hcode.symm.trans hcode')
    -- registers that tell the two sources apart
    by_contra hne
    let σ : ℕ → BitVec 32 := update (fun _ => 0#32) (moveSrc ms l) 1#32
    obtain ⟨last, hlast, hnocycle, hval⟩ := hspec σ
    cases last with
    | none =>
      obtain ⟨S, hS, _⟩ := hl.1
      exact hnocycle rfl S hS
    | some k =>
      obtain rfl := (hlast k rfl).unique hl
      have heq := (hval i hi).symm.trans (hright σ i hi)
      dsimp only [σ] at heq
      rw [if_pos h14, getD_some, update_self,
        update_of_ne (Ne.symm hne)] at heq
      exact absurd heq (by decide)
  · intro hcond
    refine ⟨code, hcode, fun σ i hi => ?_⟩
    obtain ⟨last, hlast, _, hval⟩ := hspec σ
    rw [hval i hi]
    split
    · next h14 =>
      cases last with
      | none => rfl
      | some l => rw [getD_some, hcond l i (hlast l rfl) hi h14]
    · rfl

section Arguments

variable {args : List VfpArg}

theorem moveDst_eq {i : ℕ} (hi : i < ms.length) : moveDst ms i = ms[i].dst := by
  rw [moveDst, getD_eq_getElem _ _ hi]

theorem moveSrc_eq {i : ℕ} (hi : i < ms.length) : moveSrc ms i = ms[i].src := by
  rw [moveSrc, getD_eq_getElem _ _ hi]

theorem vfpPhase0Moves_eq (hdst : ((args.filterMap VfpArg.phase0Move).map Move.dst).Nodup)
    (hplace : ∀ m ∈ args.filterMap VfpArg.phase0Move, m.dst < 16) :
    vfpPhase0Moves args = args.filterMap VfpArg.phase0Move := by
  have hsub : (args.filterMap VfpArg.phase0Move).map Move.dst ⊆ List.range 16 := by
    intro d hd
    obtain ⟨m, hm, rfl⟩ := List.mem_map.mp hd
    exact List.mem_range.mpr (hplace m hm)
  have hle := (List.subperm_of_subset hdst hsub).length_le
  rw [List.length_map] at hle
  exact List.take_of_length_le hle

theorem vfpPlaced (hdst : (ms.map Move.dst).Nodup) (hsrc : ∀ m ∈ ms, m.src < 14) :
    VfpPlaced ms where
  inj := injOn_getD_of_nodup hdst _
  src_ne i hi := by
    rw [moveSrc_eq hi]
    exact (hsrc _ (getElem_mem hi)).ne

/-- Phase 0 places every single-precision argument in a VFP register, exactly if no argument goes to
`s14`, or the moves have no cycle, or the value parked last in `s14` belongs there. -/
theorem emitVfpArgMoves_iff (args : List VfpArg)
    (hdst : ((args.filterMap VfpArg.phase0Move).map Move.dst).Nodup)
    (hplace : ∀ m ∈ args.filterMap VfpArg.phase0Move, m.dst < 16 ∧ m.src < 14) :
    (∃ code, emitVfpArgMoves args = some code ∧ ∀ σ : ℕ → BitVec 32,
      ∀ m ∈ args.filterMap VfpArg.phase0Move, (code.foldl execMove σ) m.dst = σ m.src) ↔
    ∀ l, LastCycleStart (args.filterMap VfpArg.phase0Move) l →
      ∀ m ∈ args.filterMap VfpArg.phase0Move, m.dst = vfpScratch0 →
        moveSrc (args.filterMap VfpArg.phase0Move) l = m.src := by
  rw [emitVfpArgMoves, vfpPhase0Moves_eq hdst fun m hm => (hplace m hm).1]
  have hiff := vfpParallelMove_iff (vfpPlaced hdst fun m hm => (hplace m hm).2)
  -- a move is one at an index
  constructor
  · rintro ⟨code, hcode, hright⟩ l hl m hm h14
    obtain ⟨i, hi, rfl⟩ := getElem_of_mem hm
    rw [← moveSrc_eq hi]
    refine hiff.mp ⟨code, hcode, fun σ j hj => ?_⟩ l i hl hi (by rw [moveDst_eq hi, h14])
    rw [moveDst_eq hj, moveSrc_eq hj]
    exact hright σ _ (getElem_mem hj)
  · intro hcond
    obtain ⟨code, hcode, hright⟩ := hiff.mpr fun l i hl hi h14 => by
      rw [moveSrc_eq hi]
      exact hcond l hl _ (getElem_mem hi) (by rw [← moveDst_eq hi, h14])
    refine ⟨code, hcode, fun σ m hm => ?_⟩
    obtain ⟨i, hi, rfl⟩ := getElem_of_mem hm
    rw [← moveDst_eq hi, ← moveSrc_eq hi]
    exact hright σ i hi

end Arguments

def floatArg (regBase : ℕ) (vfpSrc : Option ℕ) : VfpArg := ⟨true, false, 1, regBase, vfpSrc⟩

/-- Two arguments that change places. -/
theorem emitVfpArgMoves_iff_swap :
    ∃ code, emitVfpArgMoves [floatArg 0 (some 1), floatArg 1 (some 0)] = some code ∧
      ∀ σ : ℕ → BitVec 32,
        ∀ m ∈ [floatArg 0 (some 1), floatArg 1 (some 0)].filterMap VfpArg.phase0Move,
          (code.foldl execMove σ) m.dst = σ m.src := by
  refine (emitVfpArgMoves_iff _ (by decide) (by simp [floatArg, VfpArg.phase0Move])).mpr ?_
  intro l _ m hm h14
  have hmoves : [floatArg 0 (some 1), floatArg 1 (some 0)].filterMap VfpArg.phase0Move
      = [⟨0, 1⟩, ⟨1, 0⟩] := rfl
  rw [hmoves, mem_pair] at hm
  rcases hm with rfl | rfl
  · exact absurd h14 (by decide)
  · exact absurd h14 (by decide)

/-- Fifteen arguments: the first two change places, the last is in `s2`, and the others are not in
VFP registers. -/
def fifteenFloats : List VfpArg :=
  [floatArg 0 (some 1), floatArg 1 (some 0)] ++
    (List.range 12).map (fun k => floatArg (k + 2) none) ++ [floatArg 14 (some 2)]

/-- The last argument is placed in `s14` first and overwritten when the cycle is broken. -/
theorem fifteenFloats_s14_lost :
    emitVfpArgMoves fifteenFloats = some [⟨14, 2⟩, ⟨14, 1⟩, ⟨1, 0⟩, ⟨0, 14⟩] ∧
    ([⟨14, 2⟩, ⟨14, 1⟩, ⟨1, 0⟩, ⟨0, 14⟩] : List (Move ℕ)).foldl execMove
      (fun r => BitVec.ofNat 32 r) 14 = 1#32 :=
  ⟨rfl, by decide⟩

end Tinycc
