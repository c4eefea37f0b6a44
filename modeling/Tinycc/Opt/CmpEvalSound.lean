import Tinycc.Lib.KnownBits
import Tinycc.Opt.CmpEval

namespace Tinycc
open Lib Option CmpCond

section Barrel

variable {bs : BitVec 8} {x : BitVec 32}

theorem barrelShift_eq_cmpBarrel (h0 : bs ≠ 0#8) (hok : BarrelOk bs) :
    barrelShift bs x = cmpBarrel bs x := by
  have hlt : (bs &&& 0x1F#8).toNat < 32 := by
    exact Nat.lt_of_le_of_lt Nat.and_le_right (by decide)
  have hok := hok.resolve_left h0
  unfold barrelShift cmpBarrel
  rw [if_neg h0]
  by_cases h1 : bs >>> 5 = 1#8
  · rw [if_pos h1, if_pos h1]
  · have hamount := (hok.resolve_left h1).2
    rw [if_neg h1, if_neg h1]
    by_cases h2 : bs >>> 5 = 2#8
    · rw [if_pos h2, if_pos h2, if_neg hamount]
    · rw [if_neg h2, if_neg h2]
      by_cases h3 : bs >>> 5 = 3#8
      · have hsign : (x &&& 0x80000000#32 ≠ 0#32 ∧ (bs &&& 0x1F#8).toNat ≠ 0) ↔ x.msb = true := by
          rw [and_signBit_ne_zero]
          exact and_iff_left hamount
        rw [if_pos h3, if_pos h3, if_neg hamount, sshiftRight_eq_or]
        simp only [hsign]
        rfl
      · rw [if_neg h3, if_neg h3]
        by_cases h4 : bs >>> 5 = 4#8
        · rw [if_pos ⟨h4, hamount⟩, if_pos h4, if_pos hamount,
            BitVec.rotateRight_eq_rotateRightAux_of_lt hlt]
          rfl
        · rw [if_neg fun h => h4 h.1, if_neg h4]

theorem isShiftAnnotation_of_cmpBarrel {m : BitVec 32} (h : cmpBarrel bs x = some m) :
    isShiftAnnotation bs = true := by
  unfold cmpBarrel at h
  unfold isShiftAnnotation
  split_ifs at h with h1 h2 h3 h4
  · rw [h1]; rfl
  · rw [h2]; rfl
  · rw [h3]; rfl
  · rw [h4]; rfl

end Barrel

section Forward

variable {bs : BitVec 8} {tok : BitVec 32} {s1 s2 : IROperand} {v1 v2 : BitVec 64} {c : CmpCond}

theorem is64_iff {s : IROperand} (hs : s.btype ≠ .float64) : s.is64 = true ↔ s.btype = .int64 := by
  unfold IROperand.is64
  rw [Bool.or_eq_true, decide_eq_true_eq, decide_eq_true_eq]
  exact or_iff_left hs

theorem toUnsigned_eq_self (h : c.isSignedOrder = false) : c.toUnsigned = c := by
  cases c <;> first | rfl | cases h

theorem unsignedCondForCmpOperands_eq (h : c.isSignedOrder = true →
    cmpOperandIsUnsignedInt s1 = false ∧ cmpOperandIsUnsignedInt s2 = false) :
    unsignedCondForCmpOperands c s1 s2 = c := by
  unfold unsignedCondForCmpOperands
  split_ifs with hu
  · rfl
  · apply toUnsigned_eq_self
    rw [← Bool.not_eq_true]
    intro hc
    exact hu (h hc)

theorem evaluateCompareConditionCmpOperands_eq (hc : CmpCond.ofTok tok = some c) :
    evaluateCompareConditionCmpOperands v1 v2 tok s1 s2 =
      some (if cmpOperandsWide s1 s2 then (unsignedCondForCmpOperands c s1 s2).holds v1 v2
        else (unsignedCondForCmpOperands c s1 s2).holds (loWord v1) (loWord v2)) := by
  unfold evaluateCompareConditionCmpOperands
  rw [hc]
  rfl

theorem sccpEvalCond_eq (hc : CmpCond.ofTok tok = some c) :
    sccpEvalCond v1 v2 tok = some (c.holds v1 v2) := by
  unfold sccpEvalCond
  rw [hc]
  rfl

theorem ofTok_of_sccpCmpDecide {r : Bool} (h : sccpCmpDecide bs s1 v1 v2 tok = some r) :
    ∃ c, CmpCond.ofTok tok = some c := by
  unfold sccpCmpDecide sccpEvalCond at h
  cases hc : CmpCond.ofTok tok with
  | some c => exact ⟨c, rfl⟩
  | none =>
    rw [hc] at h
    split_ifs at h
    · cases h
    · cases h
    · cases hm : cmpBarrel bs (loWord v2) <;> simp [hm] at h

theorem agree_words {b : BitVec 32} (hc : CmpCond.ofTok tok = some c)
    (hcond : unsignedCondForCmpOperands c s1 s2 = c) (hwide : cmpOperandsWide s1 s2 = false) :
    evaluateCompareConditionCmpOperands v1 (b.signExtend 64) tok s1 s2 =
        some (c.holds (loWord v1) b) ∧
      sccpEvalCond (lowWordSext v1) (b.signExtend 64) tok = some (c.holds (loWord v1) b) ∧
      jumpTaken tok (cmpFlags (loWord v1) b) = some (c.holds (loWord v1) b) := by
  refine ⟨?_, ?_, jumpTaken_cmpFlags hc _ _⟩
  · rw [evaluateCompareConditionCmpOperands_eq hc, hcond, hwide, loWord_signExtend]
    rfl
  · rw [sccpEvalCond_eq hc, lowWordSext, holds_signExtend]

theorem compareAgrees_of_safe (h1 : s1.btype ≠ .float64) (h2 : s2.btype ≠ .float64)
    (hsafe : CompareSafe bs tok s1 s2) : CompareAgrees bs tok s1 s2 := by
  intro v1 v2 r1 r2 _ _ hann hsccp
  obtain ⟨c, hc⟩ := ofTok_of_sccpCmpDecide hsccp
  by_cases hbs : bs = 0#8
  · subst hbs
    obtain ⟨hsign, hw, _⟩ := hsafe c hc (.inl rfl)
    have hcond := unsignedCondForCmpOperands_eq hsign
    unfold evaluateCompareConditionCmpAnnotated at hann
    unfold sccpCmpDecide at hsccp
    unfold armCmp
    by_cases h64 : s1.btype = .int64
    · -- doublewords
      have hwide : cmpOperandsWide s1 s2 = true := by simp [cmpOperandsWide, h64]
      rw [evaluateCompareConditionCmpOperands_eq hc, hcond, hwide] at hann
      rw [if_pos h64, sccpEvalCond_eq hc] at hsccp
      rw [if_pos ((is64_iff h1).mpr h64), jumpTaken_cmpFlags hc]
      cases hann
      cases hsccp
      exact ⟨rfl, rfl⟩
    · have hnot2 : s2.btype ≠ .int64 := fun h => h64 (hw h)
      have hwide : cmpOperandsWide s1 s2 = false := by simp [cmpOperandsWide, h64, hnot2]
      have hnarrow : ¬s1.is64 = true := fun h => h64 ((is64_iff h1).mp h)
      rw [evaluateCompareConditionCmpOperands_eq hc, hcond, hwide] at hann
      rw [if_neg h64, sccpEvalCond_eq hc, lowWordSext, lowWordSext,
        holds_signExtend] at hsccp
      rw [if_neg hnarrow]
      show _ ∧ jumpTaken tok (cmpFlags (loWord v1) (loWord v2)) = some r1
      rw [jumpTaken_cmpFlags hc]
      cases hann
      cases hsccp
      exact ⟨rfl, rfl⟩
  · unfold evaluateCompareConditionCmpAnnotated at hann
    unfold sccpCmpDecide at hsccp
    unfold armCmp
    rw [if_neg hbs] at hann
    by_cases h64 : s1.is64 = true ∨ s2.is64 = true
    · rw [if_pos h64] at hann
      cases hann
    · rw [if_neg h64] at hann
      rw [not_or, is64_iff h1, is64_iff h2] at h64
      rw [if_neg h64.1, if_neg hbs] at hsccp
      have hwide : cmpOperandsWide s1 s2 = false := by simp [cmpOperandsWide, h64.1, h64.2]
      cases hm : cmpBarrel bs (loWord v2) with
      | none => simp [hm] at hann
      | some m =>
        obtain ⟨hsign, _, hok⟩ := hsafe c hc (.inr ⟨hwide, isShiftAnnotation_of_cmpBarrel hm⟩)
        have hcond := unsignedCondForCmpOperands_eq hsign
        obtain ⟨hA, hS, hM⟩ := @agree_words tok s1 s2 v1 c m hc hcond hwide
        rw [hm, bind_some, hA] at hann
        rw [hm, bind_some, hS] at hsccp
        rw [if_neg fun h => h64.1 ((is64_iff h1).mp h), barrelShift_eq_cmpBarrel hbs hok, hm,
          bind_some, hM]
        cases hann
        cases hsccp
        exact ⟨rfl, rfl⟩

end Forward

section Converse

variable {bs : BitVec 8} {tok : BitVec 32} {s1 s2 : IROperand} {v1 v2 : BitVec 64} {c : CmpCond}

theorem canHold_signExtend (s : IROperand) (hv : v1 = (loWord v1).signExtend 64) : s.CanHold v1 :=
  fun _ => .inl hv

theorem cmpBarrel_zero (h : isShiftAnnotation bs = true) : cmpBarrel bs 0#32 = some 0#32 := by
  revert bs
  decide

theorem eq_of_not_barrelOk (h : isShiftAnnotation bs = true) (hok : ¬BarrelOk bs) :
    bs = 0x40#8 ∨ bs = 0x60#8 ∨ bs = 0x80#8 := by
  revert bs
  decide

theorem annotated_zero (hc : CmpCond.ofTok tok = some c) :
    evaluateCompareConditionCmpAnnotated 0#8 v1 v2 tok s1 s2 =
      some (if cmpOperandsWide s1 s2 then (unsignedCondForCmpOperands c s1 s2).holds v1 v2
        else (unsignedCondForCmpOperands c s1 s2).holds (loWord v1) (loWord v2)) := by
  unfold evaluateCompareConditionCmpAnnotated
  rw [if_pos rfl, evaluateCompareConditionCmpOperands_eq hc]

theorem sccpCmpDecide_zero (hc : CmpCond.ofTok tok = some c) :
    sccpCmpDecide 0#8 s1 v1 v2 tok =
      some (if s1.btype = .int64 then c.holds v1 v2 else c.holds (loWord v1) (loWord v2)) := by
  unfold sccpCmpDecide
  by_cases h64 : s1.btype = .int64
  · rw [if_pos h64, if_pos rfl, if_pos h64, sccpEvalCond_eq hc]
  · rw [if_neg h64, if_pos rfl, if_neg h64, sccpEvalCond_eq hc, lowWordSext, lowWordSext,
      holds_signExtend]

variable (h1 : s1.btype ≠ .float64) (h2 : s2.btype ≠ .float64)

include h1 h2

theorem annotated_shift (hc : CmpCond.ofTok tok = some c) (hbs : bs ≠ 0#8)
    (hwide : cmpOperandsWide s1 s2 = false) {m : BitVec 32} (hm : cmpBarrel bs (loWord v2) = some m) :
    evaluateCompareConditionCmpAnnotated bs v1 v2 tok s1 s2 =
      some ((unsignedCondForCmpOperands c s1 s2).holds (loWord v1) m) := by
  have hwide' := hwide
  unfold cmpOperandsWide at hwide'
  rw [Bool.or_eq_false_iff, decide_eq_false_iff_not, decide_eq_false_iff_not] at hwide'
  have h64 : ¬(s1.is64 = true ∨ s2.is64 = true) := by
    rw [is64_iff h1, is64_iff h2, not_or]
    exact hwide'
  unfold evaluateCompareConditionCmpAnnotated
  rw [if_neg hbs, if_neg h64, hm, bind_some, evaluateCompareConditionCmpOperands_eq hc,
    hwide, loWord_signExtend]
  rfl

omit h1 h2 in
theorem sccpCmpDecide_shift (hc : CmpCond.ofTok tok = some c) (hbs : bs ≠ 0#8)
    (hwide : cmpOperandsWide s1 s2 = false) {m : BitVec 32} (hm : cmpBarrel bs (loWord v2) = some m) :
    sccpCmpDecide bs s1 v1 v2 tok = some (c.holds (loWord v1) m) := by
  unfold cmpOperandsWide at hwide
  rw [Bool.or_eq_false_iff, decide_eq_false_iff_not] at hwide
  unfold sccpCmpDecide
  rw [if_neg hwide.1, if_neg hbs, hm, bind_some, sccpEvalCond_eq hc, lowWordSext,
    holds_signExtend]

section

variable (h : CompareAgrees bs tok s1 s2) (hc : CmpCond.ofTok tok = some c)
  (hdec : bs = 0#8 ∨ cmpOperandsWide s1 s2 = false ∧ isShiftAnnotation bs = true)
include h hc hdec

theorem not_unsigned_of_agrees (hsign : c.isSignedOrder = true) :
    cmpOperandIsUnsignedInt s1 = false ∧ cmpOperandIsUnsignedInt s2 = false := by
  -- the operands that tell the orders apart are `-1` and `0`
  by_contra hu
  have hcond : unsignedCondForCmpOperands c s1 s2 = c.toUnsigned := if_neg hu
  have hne : c.toUnsigned.holds (-1#64) 0#64 ≠ c.holds (-1#64) 0#64 := by
    cases c <;> first | decide | cases hsign
  have hne' : c.toUnsigned.holds (loWord (-1#64)) 0#32 ≠ c.holds (loWord (-1#64)) 0#32 := by
    cases c <;> first | decide | cases hsign
  have hmix : c.holds (loWord (-1#64)) 0#32 = c.holds (-1#64) 0#64 := by
    cases c <;> decide
  have hval := fun r1 r2 => h (-1#64) 0#64 r1 r2 (canHold_signExtend s1 rfl)
    (canHold_signExtend s2 rfl)
  by_cases hbs : bs = 0#8
  · subst hbs
    have heq := (hval _ _ (annotated_zero hc) (sccpCmpDecide_zero hc)).1
    rw [hcond] at heq
    by_cases h64 : s1.btype = .int64
    · have hwide : cmpOperandsWide s1 s2 = true := by simp [cmpOperandsWide, h64]
      rw [hwide, if_pos h64] at heq
      exact hne heq
    · rw [if_neg h64] at heq
      cases hwide : cmpOperandsWide s1 s2 with
      | true =>
        rw [hwide] at heq
        exact hne (heq.trans hmix)
      | false =>
        rw [hwide] at heq
        exact hne' heq
  · obtain ⟨hwide, hshift⟩ := hdec.resolve_left hbs
    have hm := cmpBarrel_zero hshift
    have heq := (hval _ _ (annotated_shift h1 h2 hc hbs hwide hm)
      (sccpCmpDecide_shift hc hbs hwide hm)).1
    rw [hcond] at heq
    exact hne' heq

omit h1 in
theorem wide_of_agrees (h64 : s2.btype = .int64) : s1.btype = .int64 := by
  -- a word on the left of a doubleword: `0` or `1` and `2 ^ 32`
  by_contra hnarrow
  have hwide : cmpOperandsWide s1 s2 = true := by simp [cmpOperandsWide, h64]
  have hbs : bs = 0#8 := by
    apply hdec.resolve_right
    rw [hwide]
    exact fun hf => Bool.false_ne_true hf.1.symm
  subst hbs
  have hhold : s2.CanHold 0x100000000#64 := by
    intro hf
    rw [(is64_iff h2).mpr h64] at hf
    cases hf
  have hval := fun v (hv : v = (loWord v).signExtend 64) =>
    (h v 0x100000000#64 _ _ (canHold_signExtend s1 hv) hhold (annotated_zero hc)
      (sccpCmpDecide_zero hc)).1
  rw [hwide] at hval
  simp only [if_true, if_neg hnarrow] at hval
  have h0 := hval 0#64 rfl
  have h1 := hval 1#64 rfl
  unfold unsignedCondForCmpOperands at h0 h1
  by_cases hu : cmpOperandIsUnsignedInt s1 = false ∧ cmpOperandIsUnsignedInt s2 = false
  · rw [if_pos hu] at h0 h1
    revert h0 h1
    cases c <;> decide
  · rw [if_neg hu] at h0 h1
    revert h0 h1
    cases c <;> decide

theorem barrelOk_of_agrees : BarrelOk bs := by
  by_contra hok
  have hbs : bs ≠ 0#8 := fun hz => hok (.inl hz)
  obtain ⟨hwide, hshift⟩ := hdec.resolve_left hbs
  have hcases := eq_of_not_barrelOk hshift hok
  have hm : cmpBarrel bs (loWord 1#64) = some 1#32 := by
    rcases hcases with rfl | rfl | rfl <;> decide
  have hmachine : barrelShift bs (loWord 1#64) = some 0#32 ∨ barrelShift bs (loWord 1#64) = none := by
    rcases hcases with rfl | rfl | rfl <;> decide
  have hnarrow : ¬s1.is64 = true := by
    rw [is64_iff h1]
    intro h64
    simp [cmpOperandsWide, h64] at hwide
  have hval := fun v (hv : v = (loWord v).signExtend 64) =>
    (h v 1#64 _ _ (canHold_signExtend s1 hv) (canHold_signExtend s2 rfl)
      (annotated_shift h1 h2 hc hbs hwide hm) (sccpCmpDecide_shift hc hbs hwide hm))
  unfold armCmp at hval
  simp only [if_neg hnarrow] at hval
  rcases hmachine with hz | hn
  · rw [hz] at hval
    simp only [bind_some, jumpTaken_cmpFlags hc, Option.some.injEq] at hval
    have h0 := hval 0#64 rfl
    have h1 := hval 1#64 rfl
    rw [h0.1] at h0
    rw [h1.1] at h1
    revert h0 h1
    cases c <;> decide
  · rw [hn] at hval
    cases (hval 0#64 rfl).2

end

end Converse

/-- The evaluators decide a comparison of integers alike and as the machine, for all constants,
exactly if the comparison is safe. -/
theorem compare_agrees_iff (bs : BitVec 8) (tok : BitVec 32) (s1 s2 : IROperand)
    (h1 : s1.btype ≠ .float64) (h2 : s2.btype ≠ .float64) :
    CompareAgrees bs tok s1 s2 ↔ CompareSafe bs tok s1 s2 := by
  constructor
  · intro h c hc hdec
    exact ⟨not_unsigned_of_agrees h1 h2 h hc hdec, wide_of_agrees h2 h hc hdec,
      barrelOk_of_agrees h1 h2 h hc hdec⟩
  · exact compareAgrees_of_safe h1 h2

/-- Signed words under `TOK_LT`, the second shifted right by 16. -/
theorem compare_agrees_shifted :
    CompareAgrees 0x70#8 0x9c#32 (.makeVreg ⟨.temp, 0⟩ .int32) (.makeVreg ⟨.temp, 1⟩ .int32) := by
  refine (compare_agrees_iff 0x70#8 0x9c#32 (.makeVreg ⟨.temp, 0⟩ .int32)
    (.makeVreg ⟨.temp, 1⟩ .int32) (by decide) (by decide)).mpr ?_
  intro c _ _
  exact ⟨fun _ => ⟨rfl, rfl⟩, fun h => h, .inr (.inr ⟨.inr (.inl (by decide)), by decide⟩)⟩

/-- `200 < -1` where the 200 is marked unsigned: the first evaluator says yes, SCCP and the machine
say no. -/
theorem compare_disagrees_unsigned :
    let s1 : IROperand := ⟨.imm32 200#32, none, false, .int32, true⟩
    let s2 : IROperand := .makeImm32 (-1#32) .int32
    evaluateCompareConditionCmpAnnotated 0#8 s1.getImm64 s2.getImm64 0x9c#32 s1 s2 = some true ∧
      sccpCmpDecide 0#8 s1 s1.getImm64 s2.getImm64 0x9c#32 = some false ∧
      armCmp 0#8 s1 s1.getImm64 s2.getImm64 0x9c#32 = some false := by
  decide

end Tinycc
