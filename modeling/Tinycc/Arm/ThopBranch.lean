import Tinycc.Arm.ThopEmit
import Tinycc.Lib.BitField

namespace Tinycc
open Lib Layout
open BitVec hiding not_not

/-- The wide branches with 25 bits of displacement: the first halfword is `0xf000` and the second
`lo`, each with its share of the displacement. -/
def wideBranch (lo : BitVec 32) (a : ThopArgs) : ThumbOpcode :=
  let sval := a.imm.toInt
  if a.imm &&& 1#32 ≠ 0#32 ∨ sval < -16777216 ∨ 16777214 < sval then ⟨0, 0#32⟩
  else
    let val := a.imm
    let s := (val >>> 24) &&& 1#32
    let imm10 := (val >>> 12) &&& 0x3ff#32
    let j1 := (~~~((val >>> 23) &&& 1#32) ^^^ s) &&& 1#32
    let j2 := (~~~((val >>> 22) &&& 1#32) ^^^ s) &&& 1#32
    let imm11 := (val >>> 1) &&& 0x7ff#32
    let hi := 0xf000#32 ||| s <<< 10 ||| imm10
    let lo := lo ||| j1 <<< 13 ||| j2 <<< 11 ||| imm11
    ⟨4, hi <<< 16 ||| lo⟩

def blT1Emit (_base : BitVec 32) (a : ThopArgs) : ThumbOpcode := wideBranch 0xd000#32 a

def bT4Emit (_base : BitVec 32) (a : ThopArgs) : ThumbOpcode := wideBranch 0x9000#32 a

def bT3Emit (_base : BitVec 32) (a : ThopArgs) : ThumbOpcode :=
  let imm := a.imm
  let s := (imm >>> 19) &&& 1#32
  let imm6 := (imm >>> 11) &&& 0x3f#32
  let imm11 := imm &&& 0x7ff#32
  let j2 := (imm >>> 18) &&& 1#32
  let j1 := (imm >>> 17) &&& 1#32
  let aField := s <<< 10 ||| imm6
  let bField := j1 <<< 13 ||| j2 <<< 11 ||| imm11
  let enc := aField <<< 16 ||| bField
  ⟨4, 0xf0008000#32 ||| a.rd <<< 22 ||| enc⟩

def bT2Emit (base : BitVec 32) (a : ThopArgs) : ThumbOpcode :=
  let i := a.imm.sshiftRight 1
  if i.toInt ≤ 1023 ∧ -1024 ≤ i.toInt ∧ a.imm &&& 1#32 = 0#32 then ⟨2, base ||| i &&& 0x7ff#32⟩
  else ⟨0, 0#32⟩

def cbzEmit (base : BitVec 32) (a : ThopArgs) : ThumbOpcode :=
  let val := a.imm
  if 126#32 < val ∨ val &&& 1#32 ≠ 0#32 ∨ 7#32 < a.rd then ⟨0, 0#32⟩
  else
    let i := (val >>> 5) &&& 1#32
    let imm5 := (val >>> 1) &&& 0x1f#32
    ⟨2, base ||| i <<< 9 ||| imm5 <<< 3 ||| a.rd⟩

/-- The bits `t16`, `t32` and `cbz` of `thop_feat32`. -/
def featT16 : BitVec 32 := 1#32
def featT32 : BitVec 32 := 2#32
def featCbz : BitVec 32 := 0x4000#32

/-- `THOP_SHAPE_BL_T1`, `THOP_SHAPE_B_T4` -/
def shapeWideBranch : ThopVariantShape := { size := 4, feat := featT32 }

def shapeBCondT16 : ThopVariantShape :=
  { size := 2, rdPlace := ⟨8, 4⟩, imm := { kind := .raw, width := 8 }, immPlace := ⟨0, 8⟩,
    feat := featT16 }

def shapeBT3 : ThopVariantShape := { size := 4, rdPlace := ⟨22, 4⟩, feat := featT32 }

def shapeBT2 : ThopVariantShape := { size := 2, feat := featT16 }

def shapeCbz : ThopVariantShape :=
  { size := 2, rdPlace := ⟨0, 3⟩, rdCon := regLowOnly, feat := featT16 ||| featCbz }

def tableBlT1 : List ThopVariant := [⟨shapeWideBranch, 0#32, some blT1Emit⟩]

def tableBCondT16 : List ThopVariant := [⟨shapeBCondT16, 0xd000#32, none⟩]

def tableBT3 : List ThopVariant := [⟨shapeBT3, 0#32, some bT3Emit⟩]

def tableBT4 : List ThopVariant := [⟨shapeWideBranch, 0#32, some bT4Emit⟩]

def tableBT2 : List ThopVariant := [⟨shapeBT2, 0xe000#32, some bT2Emit⟩]

def tableCbz : List ThopVariant := [⟨shapeCbz, 0xb100#32, some cbzEmit⟩]

def tableCbnz : List ThopVariant := [⟨shapeCbz, 0xb900#32, some cbzEmit⟩]

section Wrappers

variable (feat : BitVec 64)

def thBlT1 (imm : BitVec 32) : ThumbOpcode := thopEmitIn feat tableBlT1 { imm := imm }

def thBT1 (cond imm : BitVec 32) : ThumbOpcode :=
  thopEmitIn feat tableBCondT16 { rd := cond, imm := imm &&& 0xff#32 }

def thBT3 (cond imm : BitVec 32) : ThumbOpcode :=
  thopEmitIn feat tableBT3 { rd := cond, imm := imm }

def thBT4 (imm : BitVec 32) : ThumbOpcode := thopEmitIn feat tableBT4 { imm := imm }

def thBT2 (imm11 : BitVec 32) : ThumbOpcode := thopEmitIn feat tableBT2 { imm := imm11 }

def thCbz (rn : BitVec 16) (imm : BitVec 32) (nonzero : Bool) : ThumbOpcode :=
  thopEmitIn feat (if nonzero then tableCbnz else tableCbz) { rd := rn.setWidth 32, imm := imm }

end Wrappers

inductive ThumbBranch
  | b (cond : BitVec 4)
  | always
  | bl
  | cbz (nonzero : Bool) (rn : BitVec 3)
  deriving DecidableEq, Repr

def opB1 : Layout := [⟨0, 1, 8⟩]
def opB2 : Layout := [⟨0, 1, 11⟩]
def opB3 : Layout := [⟨26, 20, 1⟩, ⟨11, 19, 1⟩, ⟨13, 18, 1⟩, ⟨16, 12, 6⟩, ⟨0, 1, 11⟩]
def opB4 : Layout := [⟨26, 24, 1⟩, ⟨13, 23, 1⟩, ⟨11, 22, 1⟩, ⟨16, 12, 10⟩, ⟨0, 1, 11⟩]
def opCbz : Layout := [⟨9, 6, 1⟩, ⟨3, 1, 5⟩]

/-- `J1` and `J2` with `I1` and `I2` in their places: `I = NOT(J EOR S)`. -/
def opJToI (w : BitVec 32) : BitVec 32 := if w.getLsbD 26 then w else w ^^^ 0x2800#32

def condAt (w : BitVec 32) (pos : ℕ) : BitVec 4 := w.extractLsb' pos 4

/-- What a branch opcode means: the branch and its displacement from the PC in bytes. -/
def archBranch (op : ThumbOpcode) : Option (ThumbBranch × ℤ) :=
  let w := op.opcode
  if op.size = 2 then
    if w &&& 0xf000#32 = 0xd000#32 ∧ condAt w 8 < 14#4 then
      some (.b (condAt w 8), (sext 9 (opB1.get w)).toInt)
    else if w &&& 0xf800#32 = 0xe000#32 then some (.always, (sext 12 (opB2.get w)).toInt)
    else if w &&& 0xf500#32 = 0xb100#32 then
      some (.cbz (w.getLsbD 11) (w.setWidth 3), (opCbz.get w).toInt)
    else none
  else if op.size = 4 then
    if w &&& 0xf800d000#32 = 0xf0008000#32 ∧ condAt w 22 < 14#4 then
      some (.b (condAt w 22), (sext 21 (opB3.get w)).toInt)
    else if w &&& 0xf800d000#32 = 0xf0009000#32 then
      some (.always, (sext 25 (opB4.get (opJToI w))).toInt)
    else if w &&& 0xf800d000#32 = 0xf000d000#32 then
      some (.bl, (sext 25 (opB4.get (opJToI w))).toInt)
    else none
  else none

inductive BranchCall
  | bl (imm : BitVec 32)
  | b1 (cond : Fin 14) (imm : BitVec 32)
  | b3 (cond : Fin 14) (imm : BitVec 32)
  | b4 (imm : BitVec 32)
  | b2 (imm : BitVec 32)
  | cbz (rn : BitVec 16) (imm : BitVec 32) (nonzero : Bool)

namespace BranchCall

def emit (feat : BitVec 64) : BranchCall → ThumbOpcode
  | bl imm => thBlT1 feat imm
  | b1 cond imm => thBT1 feat (BitVec.ofNat 32 cond) imm
  | b3 cond imm => thBT3 feat (BitVec.ofNat 32 cond) imm
  | b4 imm => thBT4 feat imm
  | b2 imm => thBT2 feat imm
  | cbz rn imm nonzero => thCbz feat rn imm nonzero

/-- The branch that is asked for and its displacement in bytes. The conditional branches take it in
halfwords; it is unsigned in `CBZ`. -/
def request : BranchCall → ThumbBranch × ℤ
  | bl imm => (.bl, imm.toInt)
  | b1 cond imm | b3 cond imm => (.b (BitVec.ofNat 4 cond), 2 * imm.toInt)
  | b4 imm | b2 imm => (.always, imm.toInt)
  | cbz rn imm nonzero => (.cbz nonzero (rn.setWidth 3), imm.toNat)

/-- The call is refused, or the opcode is the branch that was asked for. -/
def Faithful (feat : BitVec 64) (c : BranchCall) : Prop :=
  (c.emit feat).size = 0 ∨ archBranch (c.emit feat) = some c.request

/-- The calls that the encoders serve: the conditional branches do not look at the range of the
displacement, and `CBZ` takes bit 5 for bit 6. -/
def Safe (feat : BitVec 64) : BranchCall → Prop
  | bl _ | b4 _ | b2 _ => True
  | b1 _ imm => thopFeat32Subset featT16 feat = true → -128 ≤ imm.toInt ∧ imm.toInt < 128
  | b3 _ imm => thopFeat32Subset featT32 feat = true → -524288 ≤ imm.toInt ∧ imm.toInt < 524288
  | cbz rn imm _ =>
    thopFeat32Subset (featT16 ||| featCbz) feat = true → rn ≤ 7#16 → imm ≤ 126#32 →
      imm &&& 1#32 = 0#32 → imm.getLsbD 6 = imm.getLsbD 5

end BranchCall

section Engine

variable {feat : BitVec 64} {s : ThopVariantShape} {a : ThopArgs} {base : BitVec 32}

theorem thopEmitIn_emitter (emit : BitVec 32 → ThopArgs → ThumbOpcode) :
    thopEmitIn feat [⟨s, base, some emit⟩] a =
      if (thopFeat32Subset s.feat feat = true ∧ thopAccepts s a = true) ∧ (emit base a).size ≠ 0 then
        emit base a
      else ⟨0, 0#32⟩ := by
  unfold thopEmitIn
  rw [List.findSome?_cons, thopRow_eq]
  unfold thopEncode
  by_cases hf : thopFeat32Subset s.feat feat = true ∧ thopAccepts s a = true
  · by_cases hs : (emit base a).size = 0 <;> simp [hf, hs]
  · simp [hf]

theorem thopEmitIn_shape :
    thopEmitIn feat [⟨s, base, none⟩] a =
      if thopFeat32Subset s.feat feat = true ∧ thopAccepts s a = true then
        ⟨s.size, thopAssemble s a base ((thopImmBits s a).getD 0#32)⟩
      else ⟨0, 0#32⟩ := by
  unfold thopEmitIn
  rw [List.findSome?_cons, thopRow_eq]
  unfold thopEncode
  by_cases hf : thopFeat32Subset s.feat feat = true ∧ thopAccepts s a = true <;> simp [hf]

end Engine

section Displacements

variable {L : Layout} {k : ℕ} {val w : BitVec 32}

theorem getLsbD_zero_of_even (h : val &&& 1#32 = 0#32) : val.getLsbD 0 = false := by
  have := (@and_twoPow_ne_zero_iff 32 val 0 (by decide)).not
  rw [not_not] at this
  exact Bool.not_eq_true _ |>.mp (this.mp h)

theorem sext_get_set (hL : Layout.WellFormed 32 L)
    (hr : ∀ i < k, 0 < i → (L.range 32).getLsbD i = true) (hval : val.getLsbD 0 = false) :
    sext k (L.get (L.set w val)) = sext k val := by
  rw [get_set hL]
  apply sext_congr
  intro i hi
  rw [getLsbD_and]
  rcases Nat.eq_zero_or_pos i with rfl | hpos
  · rw [hval, Bool.false_and]
  · rw [hr i hi hpos, Bool.and_true]

theorem toInt_sext_bounds (hk : k ≤ 32) (x : BitVec 32) :
    -(2 ^ (k - 1) : ℤ) ≤ (sext k x).toInt ∧ (sext k x).toInt < 2 ^ (k - 1) := by
  rw [sext, toInt_signExtend_of_le hk]
  exact ⟨le_toInt _, toInt_lt⟩

theorem toInt_sext_shl_iff (hk : 1 < k) (hk32 : k ≤ 32) (imm : BitVec 32) :
    (sext k (imm <<< 1)).toInt = 2 * imm.toInt ↔
      -(2 ^ (k - 2) : ℤ) ≤ imm.toInt ∧ imm.toInt < 2 ^ (k - 2) := by
  have hpow : (2 : ℤ) ^ (k - 1) = 2 * 2 ^ (k - 2) := by
    rw [← pow_succ', show k - 2 + 1 = k - 1 by omega]
  have hle : (2 : ℤ) ^ (k - 2) ≤ 2 ^ 30 := mod_cast Nat.pow_le_pow_right (by decide) (by omega)
  constructor
  · intro h
    have hb := toInt_sext_bounds hk32 (imm <<< 1)
    omega
  · rintro ⟨h1, h2⟩
    have hshl : (imm <<< 1).toInt = 2 * imm.toInt := by
      rw [toInt_eq_toNat_cond] at h1 h2
      rw [toInt_eq_toNat_cond, toInt_eq_toNat_cond, toNat_shiftLeft]
      omega
    rw [sext_of_bounds hk32 (by omega) (by omega) (by omega), hshl]

end Displacements

section WideBranches

variable {val : BitVec 32}

theorem getLsbD_opJToI (w : BitVec 32) (i : ℕ) :
    (opJToI w).getLsbD i = (w.getLsbD i ^^ (!w.getLsbD 26 && (0x2800#32).getLsbD i)) := by
  unfold opJToI
  cases w.getLsbD 26 <;> simp

theorem wideBranch_word (lo : BitVec 32) (hlo : lo = 0xd000#32 ∨ lo = 0x9000#32) :
    (0xf000#32 ||| ((val >>> 24) &&& 1#32) <<< 10 ||| (val >>> 12) &&& 0x3ff#32) <<< 16 |||
      (lo ||| ((~~~((val >>> 23) &&& 1#32) ^^^ (val >>> 24) &&& 1#32) &&& 1#32) <<< 13 |||
        ((~~~((val >>> 22) &&& 1#32) ^^^ (val >>> 24) &&& 1#32) &&& 1#32) <<< 11 |||
        (val >>> 1) &&& 0x7ff#32) = opJToI (opB4.set (0xf0000000#32 ||| lo) val) := by
  have h26 : (opB4.set (0xf0000000#32 ||| lo) val).getLsbD 26 = val.getLsbD 24 := by
    rw [getLsbD_set _ _ _ (by decide)]
    rfl
  apply eq_of_getLsbD_eq
  intro i hi
  rw [getLsbD_opJToI, h26, getLsbD_set _ _ _ hi]
  simp only [getLsbD_or, getLsbD_and, getLsbD_shiftLeft,
    getLsbD_ushiftRight, getLsbD_xor, getLsbD_not, opB4, BitField.Covers]
  rcases hlo with rfl | rfl <;> interval_cases i <;>
    simp

theorem opB4_wellFormed : Layout.WellFormed 32 opB4 := by decide

theorem opJToI_opJToI (w : BitVec 32) : opJToI (opJToI w) = w := by
  unfold opJToI
  by_cases h : w.getLsbD 26 = true
  · rw [if_pos h, if_pos h]
  · have hxor : ¬(w ^^^ 0x2800#32).getLsbD 26 = true := by
      rw [getLsbD_xor, Bool.not_eq_true _ |>.mp h]
      decide
    rw [if_neg h, if_neg hxor, xor_assoc, BitVec.xor_self, xor_zero]

theorem opJToI_set_and (w val : BitVec 32) :
    opJToI (opB4.set w val) &&& 0xf800d000#32 = w &&& 0xf800d000#32 := by
  have hframe := set_and_not_mask opB4 w val
  rw [show ~~~Layout.mask 32 opB4 = 0xf800d000#32 by decide] at hframe
  rw [← hframe]
  unfold opJToI
  split
  · rfl
  · apply eq_of_getLsbD_eq
    intro i hi
    simp only [getLsbD_and, getLsbD_xor]
    interval_cases i <;> simp

theorem wideBranch_exact (lo : BitVec 32) (hlo : lo = 0xd000#32 ∨ lo = 0x9000#32) (a : ThopArgs) :
    (wideBranch lo a).size = 0 ∨
      (wideBranch lo a).size = 4 ∧
        (wideBranch lo a).opcode &&& 0xf800d000#32 = 0xf0000000#32 ||| lo ∧
        (sext 25 (opB4.get (opJToI (wideBranch lo a).opcode))) = a.imm := by
  unfold wideBranch
  dsimp only
  split_ifs with hbad
  · left; rfl
  · right
    have heven : a.imm.getLsbD 0 = false :=
      getLsbD_zero_of_even (not_not.mp fun h => hbad (Or.inl h))
    refine ⟨rfl, ?_, ?_⟩
    · rw [wideBranch_word lo hlo, opJToI_set_and]
      rcases hlo with rfl | rfl <;> rfl
    · rw [wideBranch_word lo hlo, opJToI_opJToI,
        sext_get_set opB4_wellFormed (by decide) heven]
      exact sext_of_bounds (by decide) (by decide) (by omega) (by omega)

end WideBranches

theorem bT3Emit_word (cond : Fin 14) (imm base : BitVec 32) :
    (bT3Emit base { rd := BitVec.ofNat 32 cond, imm := imm }).opcode =
      opB3.set (0xf0008000#32 ||| BitVec.ofNat 32 cond <<< 22) (imm <<< 1) := by
  -- a larger number would reach the sign of the displacement
  have h4 : (BitVec.ofNat 32 (cond : ℕ)).getLsbD 4 = false := by
    rw [getLsbD_ofNat, Nat.testBit_lt_two_pow, Bool.and_false]
    exact cond.isLt.trans (by decide)
  apply eq_of_getLsbD_eq
  intro i hi
  rw [getLsbD_set _ _ _ hi]
  unfold bT3Emit
  simp only [getLsbD_or, getLsbD_and, getLsbD_shiftLeft,
    getLsbD_ushiftRight, opB3, BitField.Covers]
  interval_cases i <;> simp [-getLsbD_eq_getElem, h4]

theorem condAt_and {m : BitVec 32} {pos : ℕ} (hm : condAt m pos = 15#4) (w : BitVec 32) :
    condAt (w &&& m) pos = condAt w pos := by
  unfold condAt at *
  rw [extractLsb'_and, hm]
  exact and_allOnes

section

variable (cond : Fin 14)
include cond

theorem cond_lt : BitVec.ofNat 4 (cond : ℕ) < 14#4 := by
  revert cond
  decide

theorem bT3_frame (val : BitVec 32) :
    opB3.set (0xf0008000#32 ||| BitVec.ofNat 32 cond <<< 22) val &&& 0xfbc0d000#32 =
      (0xf0008000#32 ||| BitVec.ofNat 32 cond <<< 22) &&& 0xfbc0d000#32 := by
  have h := set_and_not_mask opB3 (0xf0008000#32 ||| BitVec.ofNat 32 cond <<< 22) val
  rwa [show ~~~Layout.mask 32 opB3 = 0xfbc0d000#32 by decide] at h

theorem bT3_word_and :
    (0xf0008000#32 ||| BitVec.ofNat 32 cond <<< 22) &&& 0xfbc0d000#32 &&& 0xf800d000#32 =
      0xf0008000#32 := by
  revert cond
  decide

theorem bT3_condAt :
    condAt ((0xf0008000#32 ||| BitVec.ofNat 32 cond <<< 22) &&& 0xfbc0d000#32) 22 =
      BitVec.ofNat 4 cond := by
  revert cond
  decide

theorem archBranch_bT3 (imm base : BitVec 32) :
    archBranch (bT3Emit base { rd := BitVec.ofNat 32 cond, imm := imm }) =
      some (.b (BitVec.ofNat 4 cond), (sext 21 (imm <<< 1)).toInt) := by
  have hframe := bT3_frame cond (imm <<< 1)
  have hword := (and_eq_of_and_eq hframe (by decide)).trans (bT3_word_and cond)
  have hcond := (condAt_and (by decide) _).symm.trans ((congrArg (condAt · 22) hframe).trans
    (bT3_condAt cond))
  have hbits := sext_get_set (w := 0xf0008000#32 ||| BitVec.ofNat 32 cond <<< 22)
    (show Layout.WellFormed 32 opB3 by decide) (show ∀ i < 21, _ by decide)
    (show (imm <<< 1).getLsbD 0 = false by simp)
  have hop : bT3Emit base { rd := BitVec.ofNat 32 cond, imm := imm } = ⟨4, _⟩ :=
    congrArg (ThumbOpcode.mk 4) (bT3Emit_word cond imm base)
  rw [hop]
  unfold archBranch
  dsimp only
  rw [if_neg (by decide), if_pos rfl, hword, hcond, hbits, if_pos ⟨rfl, cond_lt cond⟩]

end

theorem shapeBCondT16_immBits (c imm : BitVec 32) :
    thopImmBits shapeBCondT16 { rd := c, imm := imm &&& 0xff#32 } = some (imm &&& 0xff#32) := by
  have hlt : imm &&& 0xff#32 < 0x100#32 := by
    exact lt_of_le_of_lt Nat.and_le_right (by decide)
  unfold thopImmBits thopTryImm
  simp [shapeBCondT16, thopPlace, hlt, BitVec.and_assoc]

theorem shapeBCondT16_accepts (c imm : BitVec 32) :
    thopAccepts shapeBCondT16 { rd := c, imm := imm &&& 0xff#32 } = true := by
  unfold thopAccepts
  rw [shapeBCondT16_immBits]
  simp [thopSizeFits, thopRegsFit, thopRegFits, thopRegOk, thopFlagsFit, thopShiftFits, thopPuwFits,
    thopReglistFits, shapeBCondT16, RegMask.has, regAny]

section

variable (cond : Fin 14)
include cond

theorem bT1_word (imm : BitVec 32) :
    thopAssemble shapeBCondT16 { rd := BitVec.ofNat 32 cond, imm := imm &&& 0xff#32 } 0xd000#32
      (imm &&& 0xff#32) = opB1.set (0xd000#32 ||| BitVec.ofNat 32 cond <<< 8) (imm <<< 1) := by
  have hc : BitVec.ofNat 32 (cond : ℕ) &&& 15#32 = BitVec.ofNat 32 cond := by
    revert cond
    decide
  have hword : thopAssemble shapeBCondT16 { rd := BitVec.ofNat 32 cond, imm := imm &&& 0xff#32 }
      0xd000#32 (imm &&& 0xff#32) =
      0xd000#32 ||| BitVec.ofNat 32 cond <<< 8 ||| imm &&& 0xff#32 := by
    simp [thopAssemble, thopPlace, shapeBCondT16, hc]
  rw [hword]
  apply eq_of_getLsbD_eq
  intro i hi
  rw [getLsbD_set _ _ _ hi]
  simp only [getLsbD_or, getLsbD_and, getLsbD_shiftLeft, opB1,
    BitField.Covers]
  interval_cases i <;> simp

theorem bT1_frame (val : BitVec 32) :
    opB1.set (0xd000#32 ||| BitVec.ofNat 32 cond <<< 8) val &&& 0xffffff00#32 =
      0xd000#32 ||| BitVec.ofNat 32 cond <<< 8 := by
  have h := set_and_not_mask opB1 (0xd000#32 ||| BitVec.ofNat 32 cond <<< 8) val
  rw [show ~~~Layout.mask 32 opB1 = 0xffffff00#32 by decide] at h
  rw [h]
  clear h
  revert cond
  decide

theorem bT1_word_and :
    (0xd000#32 ||| BitVec.ofNat 32 cond <<< 8) &&& 0xf000#32 = 0xd000#32 := by
  revert cond
  decide

theorem bT1_condAt :
    condAt (0xd000#32 ||| BitVec.ofNat 32 cond <<< 8) 8 = BitVec.ofNat 4 cond := by
  revert cond
  decide

theorem archBranch_bT1 (imm : BitVec 32) :
    archBranch ⟨2, opB1.set (0xd000#32 ||| BitVec.ofNat 32 cond <<< 8) (imm <<< 1)⟩ =
      some (.b (BitVec.ofNat 4 cond), (sext 9 (imm <<< 1)).toInt) := by
  have hframe := bT1_frame cond (imm <<< 1)
  have hword := (and_eq_of_and_eq hframe (by decide)).trans (bT1_word_and cond)
  have hcond := (condAt_and (by decide) _).symm.trans ((congrArg (condAt · 8) hframe).trans
    (bT1_condAt cond))
  have hbits := sext_get_set (w := 0xd000#32 ||| BitVec.ofNat 32 cond <<< 8)
    (show Layout.WellFormed 32 opB1 by decide) (show ∀ i < 9, _ by decide)
    (show (imm <<< 1).getLsbD 0 = false by simp)
  unfold archBranch
  rw [if_pos rfl, hword, hcond, hbits, if_pos ⟨rfl, cond_lt cond⟩]

end

theorem bT2_word (imm : BitVec 32) :
    0xe000#32 ||| imm.sshiftRight 1 &&& 0x7ff#32 = opB2.set 0xe000#32 imm := by
  apply eq_of_getLsbD_eq
  intro i hi
  rw [getLsbD_set _ _ _ hi]
  simp only [getLsbD_or, getLsbD_and, getLsbD_sshiftRight, opB2,
    BitField.Covers]
  interval_cases i <;> simp

theorem archBranch_bT2 {a : ThopArgs} (h : (bT2Emit 0xe000#32 a).size ≠ 0) :
    archBranch (bT2Emit 0xe000#32 a) = some (.always, a.imm.toInt) := by
  unfold bT2Emit at h ⊢
  dsimp only at h ⊢
  split_ifs at h ⊢ with hok
  · obtain ⟨h1, h2, heven⟩ := hok
    rw [toInt_sshiftRight, Int.shiftRight_eq_div_pow] at h1 h2
    have hword : opB2.set 0xe000#32 a.imm &&& 0xf800#32 = 0xe000#32 := by
      have hframe := set_and_not_mask opB2 0xe000#32 a.imm
      exact (and_eq_of_and_eq hframe (by decide)).trans (by decide)
    have hbits : sext 12 (opB2.get (opB2.set 0xe000#32 a.imm)) = a.imm := by
      rw [sext_get_set (by decide) (by decide) (getLsbD_zero_of_even heven)]
      exact sext_of_bounds (by decide) (by decide) (by omega) (by omega)
    rw [bT2_word]
    unfold archBranch
    have hcond : opB2.set 0xe000#32 a.imm &&& 0xf000#32 = 0xe000#32 :=
      (and_eq_of_and_eq hword (by decide)).trans (by decide)
    rw [if_pos rfl, hcond, if_neg fun h => absurd h.1 (by decide), if_pos hword, hbits]
  · exact absurd rfl h

def cbzWord (nonzero : Bool) (rn : BitVec 3) (val : BitVec 32) : BitVec 32 :=
  (if nonzero then 0xb900#32 else 0xb100#32) ||| ((val >>> 5) &&& 1#32) <<< 9 |||
    ((val >>> 1) &&& 0x1f#32) <<< 3 ||| rn.setWidth 32

theorem cbzWord_and (nonzero : Bool) (rn : BitVec 3) (val : BitVec 32) :
    cbzWord nonzero rn val &&& 0xf500#32 = 0xb100#32 := by
  apply eq_of_getLsbD_eq
  intro i hi
  unfold cbzWord
  simp only [getLsbD_or, getLsbD_and, getLsbD_shiftLeft,
    getLsbD_ushiftRight, getLsbD_setWidth]
  cases nonzero <;> interval_cases i <;> simp

theorem cbzWord_get (nonzero : Bool) (rn : BitVec 3) (val : BitVec 32) :
    opCbz.get (cbzWord nonzero rn val) = (val &&& 0x3e#32) ||| ((val >>> 5) &&& 1#32) <<< 6 := by
  apply eq_of_getLsbD_eq
  intro i hi
  rw [getLsbD_get _ _ hi]
  unfold cbzWord
  simp only [getLsbD_or, getLsbD_and, getLsbD_shiftLeft,
    getLsbD_ushiftRight, getLsbD_setWidth, opCbz, BitField.Holds, List.any_cons,
    List.any_nil]
  cases nonzero <;> interval_cases i <;> simp

theorem archBranch_cbzWord (nonzero : Bool) (rn : BitVec 3) (val : BitVec 32) :
    archBranch ⟨2, cbzWord nonzero rn val⟩ =
      some (.cbz nonzero rn, (opCbz.get (cbzWord nonzero rn val)).toInt) := by
  have hword := cbzWord_and nonzero rn val
  have hcond : cbzWord nonzero rn val &&& 0xf000#32 = 0xb000#32 :=
    (and_eq_of_and_eq hword (by decide)).trans (by decide)
  have halways : cbzWord nonzero rn val &&& 0xf800#32 ≠ 0xe000#32 := by
    intro h
    have h' := (and_eq_of_and_eq h (show 0xf800#32 &&& 0xf000#32 = 0xf000#32 by decide)).symm
    rw [hcond] at h'
    exact absurd h' (by decide)
  have hkind : (cbzWord nonzero rn val).getLsbD 11 = nonzero := by
    unfold cbzWord
    cases nonzero <;> simp
  have hreg : (cbzWord nonzero rn val).setWidth 3 = rn := by
    apply eq_of_getLsbD_eq
    intro i hi
    unfold cbzWord
    cases nonzero <;> interval_cases i <;> simp
  unfold archBranch
  rw [if_pos rfl, hcond, if_neg fun h => absurd h.1 (by decide), if_neg halways, if_pos hword,
    hkind, hreg]

theorem cbzWord_exact_iff {val : BitVec 32} (hle : val ≤ 126#32) (heven : val &&& 1#32 = 0#32)
    (nonzero : Bool) (rn : BitVec 3) :
    (opCbz.get (cbzWord nonzero rn val)).toInt = val.toNat ↔ val.getLsbD 6 = val.getLsbD 5 := by
  have hlt : (opCbz.get (cbzWord nonzero rn val)).toNat < 2 ^ 7 :=
    toNat_get_lt (by decide) _
  rw [toInt_eq_toNat_of_lt (by omega), Nat.cast_inj, ← toNat_eq, cbzWord_get]
  constructor
  · intro h
    have h6 := congrArg (fun x => x.getLsbD 6) h
    simpa using h6.symm
  · intro h
    have hval : val.toNat < 2 ^ 7 := lt_of_le_of_lt (BitVec.le_def.mp hle) (by decide)
    have h0 : val[0] = false := getLsbD_zero_of_even heven
    have h65 : val[6] = val[5] := h
    apply eq_of_getLsbD_eq
    intro i hi
    by_cases hi7 : 7 ≤ i
    · rw [← testBit_toNat val, Nat.testBit_lt_two_pow (lt_of_lt_of_le hval
        (Nat.pow_le_pow_right (by decide) hi7))]
      interval_cases i <;> simp
    · simp only [getLsbD_or, getLsbD_and, getLsbD_shiftLeft,
        getLsbD_ushiftRight]
      interval_cases i <;> simp [h0, h65]

section Faithfulness

variable (feat : BitVec 64)

theorem wideBranch_faithful {lo : BitVec 32} {kind : ThumbBranch}
    (hlo : lo = 0xd000#32 ∧ kind = .bl ∨ lo = 0x9000#32 ∧ kind = .always) (a : ThopArgs)
    (h : (wideBranch lo a).size ≠ 0) : archBranch (wideBranch lo a) = some (kind, a.imm.toInt) := by
  obtain ⟨hsize, hword, hbits⟩ :=
    (wideBranch_exact lo (hlo.imp And.left And.left) a).resolve_left h
  unfold archBranch
  rw [hsize, if_neg (by decide), hword, hbits]
  rcases hlo with ⟨rfl, rfl⟩ | ⟨rfl, rfl⟩ <;> rfl

theorem emitter_faithful {s : ThopVariantShape} {base : BitVec 32} {a : ThopArgs}
    {emit : BitVec 32 → ThopArgs → ThumbOpcode} {r : ThumbBranch × ℤ}
    (h : (emit base a).size ≠ 0 → archBranch (emit base a) = some r) :
    (thopEmitIn feat [⟨s, base, some emit⟩] a).size = 0 ∨
      archBranch (thopEmitIn feat [⟨s, base, some emit⟩] a) = some r := by
  rw [thopEmitIn_emitter]
  split_ifs with hok
  · exact Or.inr (h hok.2)
  · exact Or.inl rfl

theorem thBT1_eq (cond : Fin 14) (imm : BitVec 32) :
    thBT1 feat (BitVec.ofNat 32 cond) imm =
      if thopFeat32Subset featT16 feat = true then
        ⟨2, opB1.set (0xd000#32 ||| BitVec.ofNat 32 cond <<< 8) (imm <<< 1)⟩
      else ⟨0, 0#32⟩ := by
  unfold thBT1 tableBCondT16
  rw [thopEmitIn_shape, shapeBCondT16_accepts, shapeBCondT16_immBits, Option.getD_some, bT1_word]
  exact if_congr (and_iff_left rfl) rfl rfl

theorem thBT3_eq (cond : Fin 14) (imm : BitVec 32) :
    thBT3 feat (BitVec.ofNat 32 cond) imm =
      if thopFeat32Subset featT32 feat = true then
        bT3Emit 0#32 { rd := BitVec.ofNat 32 cond, imm := imm }
      else ⟨0, 0#32⟩ := by
  have haccepts : thopAccepts shapeBT3 { rd := BitVec.ofNat 32 cond, imm := imm } = true := by
    simp [thopAccepts, thopImmBits, thopSizeFits, thopRegsFit, thopRegFits, thopRegOk,
      thopFlagsFit, thopShiftFits, thopPuwFits, thopReglistFits, shapeBT3, RegMask.has, regAny]
  unfold thBT3 tableBT3
  rw [thopEmitIn_emitter]
  exact if_congr ((and_iff_left (show (4 : ℕ) ≠ 0 by decide)).trans (and_iff_left rfl)) rfl rfl

theorem shapeCbz_accepts (rd imm : BitVec 32) :
    thopAccepts shapeCbz { rd := rd, imm := imm } = decide (rd ≤ 7#32) := by
  simp [thopAccepts, thopImmBits, thopSizeFits, thopRegsFit, thopRegFits, thopRegOk, thopFlagsFit,
    thopShiftFits, thopPuwFits, thopReglistFits, shapeCbz, RegMask.has, regAny, regLowOnly, regNotSp,
    regNotPc, regNotLr, regSpOnly, regPcOnly, regEqRn, regEqRm, ← BitVec.not_le]

theorem setWidth_le_seven_iff (rn : BitVec 16) : rn.setWidth 32 ≤ 7#32 ↔ rn ≤ 7#16 := by
  rw [le_def, toNat_setWidth, Nat.mod_eq_of_lt (by omega)]
  rfl

theorem setWidth_of_le_seven {rn : BitVec 16} (h : rn ≤ 7#16) :
    rn.setWidth 32 = (rn.setWidth 3).setWidth 32 := by
  have hlt : rn.toNat < 2 ^ 3 := lt_of_le_of_lt (BitVec.le_def.mp h) (by decide)
  apply eq_of_toNat_eq
  rw [toNat_setWidth, toNat_setWidth, toNat_setWidth, Nat.mod_eq_of_lt hlt]

theorem cbzEmit_eq (rn : BitVec 16) (imm : BitVec 32) (nonzero : Bool) :
    cbzEmit (if nonzero then 0xb900#32 else 0xb100#32) { rd := rn.setWidth 32, imm := imm } =
      if rn ≤ 7#16 ∧ imm ≤ 126#32 ∧ imm &&& 1#32 = 0#32 then
        ⟨2, cbzWord nonzero (rn.setWidth 3) imm⟩
      else ⟨0, 0#32⟩ := by
  unfold cbzEmit
  by_cases hok : rn ≤ 7#16 ∧ imm ≤ 126#32 ∧ imm &&& 1#32 = 0#32
  · have hgood : ¬(126#32 < imm ∨ imm &&& 1#32 ≠ 0#32 ∨ 7#32 < rn.setWidth 32) := by
      rw [← BitVec.not_le, ← BitVec.not_le]
      tauto
    rw [if_pos hok, if_neg hgood, setWidth_of_le_seven hok.1]
    rfl
  · have hbad : 126#32 < imm ∨ imm &&& 1#32 ≠ 0#32 ∨ 7#32 < rn.setWidth 32 := by
      rw [← BitVec.not_le, ← BitVec.not_le]
      tauto
    rw [if_neg hok, if_pos hbad]

theorem thCbz_eq (rn : BitVec 16) (imm : BitVec 32) (nonzero : Bool) :
    thCbz feat rn imm nonzero =
      if thopFeat32Subset (featT16 ||| featCbz) feat = true ∧ rn ≤ 7#16 ∧ imm ≤ 126#32 ∧
          imm &&& 1#32 = 0#32 then
        ⟨2, cbzWord nonzero (rn.setWidth 3) imm⟩
      else ⟨0, 0#32⟩ := by
  have htable : (if nonzero then tableCbnz else tableCbz) =
      [⟨shapeCbz, if nonzero then 0xb900#32 else 0xb100#32, some cbzEmit⟩] := by
    cases nonzero <;> rfl
  have hfeat : shapeCbz.feat = featT16 ||| featCbz := rfl
  unfold thCbz
  rw [htable, thopEmitIn_emitter, shapeCbz_accepts, cbzEmit_eq, hfeat]
  by_cases hok : rn ≤ 7#16 ∧ imm ≤ 126#32 ∧ imm &&& 1#32 = 0#32
  · have hrd : rn.setWidth 32 ≤ 7#32 := (setWidth_le_seven_iff rn).mpr hok.1
    simp [hok, hrd]
  · rw [if_neg hok, if_neg fun h => h.2 rfl, if_neg fun h => hok h.2]

namespace BranchCall

/-- Every branch encoder refuses the call or emits the branch that was asked for, on the calls it
serves and only there. -/
theorem faithful_iff_safe (c : BranchCall) : c.Faithful feat ↔ c.Safe feat := by
  cases c with
  | bl imm =>
    refine iff_of_true ?_ trivial
    exact emitter_faithful feat (wideBranch_faithful (Or.inl ⟨rfl, rfl⟩) _)
  | b4 imm =>
    refine iff_of_true ?_ trivial
    exact emitter_faithful feat (wideBranch_faithful (Or.inr ⟨rfl, rfl⟩) _)
  | b2 imm =>
    refine iff_of_true ?_ trivial
    exact emitter_faithful feat archBranch_bT2
  | b1 cond imm =>
    unfold Faithful Safe emit request
    dsimp only
    rw [thBT1_eq]
    split_ifs with hf
    · rw [archBranch_bT1]
      simp [hf, toInt_sext_shl_iff]
    · simp [hf]
  | b3 cond imm =>
    unfold Faithful Safe emit request
    dsimp only
    rw [thBT3_eq]
    split_ifs with hf
    · rw [archBranch_bT3]
      simp [hf, toInt_sext_shl_iff, bT3Emit]
    · simp [hf]
  | cbz rn imm nonzero =>
    unfold Faithful Safe emit request
    dsimp only
    rw [thCbz_eq]
    split_ifs with hok
    · obtain ⟨hf, hrn, hle, heven⟩ := hok
      rw [archBranch_cbzWord]
      simp [hf, hrn, hle, heven, cbzWord_exact_iff]
    · refine iff_of_true (Or.inl rfl) ?_
      intro hf hrn hle heven
      exact absurd ⟨hf, hrn, hle, heven⟩ hok

/-- `CBZ` with the displacement 32 branches by 96, with 64 by nothing, and the conditional branches
by -256 where 256 is asked for and by -1048576 where 1048576 is. -/
theorem not_faithful_cbz :
    archBranch ((cbz 1#16 32#32 false).emit 0x4003#64) = some (.cbz false 1#3, 96) ∧
      archBranch ((cbz 1#16 64#32 true).emit 0x4003#64) = some (.cbz true 1#3, 0) ∧
      archBranch ((b1 0 128#32).emit 0x4003#64) = some (.b 0#4, -256) ∧
      archBranch ((b3 0 0x80000#32).emit 0x4003#64) = some (.b 0#4, -1048576) ∧
      ¬(cbz 1#16 32#32 false).Faithful 0x4003#64 ∧ ¬(cbz 1#16 64#32 true).Faithful 0x4003#64 ∧
      ¬(b1 0 128#32).Faithful 0x4003#64 ∧ ¬(b3 0 0x80000#32).Faithful 0x4003#64 := by
  unfold Faithful
  decide

end BranchCall

end Faithfulness

end Tinycc
