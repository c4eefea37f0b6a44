import Tinycc.Opt.FoldBits

namespace Tinycc
open Lib IRSSAOptCtx Option IRQuadCompact

section Removals

variable (ctx : IRSSAOptCtx) (i : ℕ)

def foldAndMaskedBits (K : BitVec 32) : Option IRSSAOptCtx :=
  let q := ctx.quad i
  if q.src1.data = .vreg ∧ q.src1.isLval = false ∧ ctx.maybeSetBits i q.src1 &&& K = 0#32 then
    some ((ctx.dropUse q.src1 i).assign i (mkImmBt 0#32 q.dest.btype))
  else if q.src1.data = .vreg ∧ q.src1.isLval = false ∧
      ctx.maybeSetBits i q.src1 &&& ~~~K = 0#32 ∧ q.src1.btype = q.dest.btype then
    some (ctx.setOp i .assign)
  else (ctx.foldMaskIsCopy i q.dest q.src1 K).map (ctx.assign i)

def foldUbfxBits : Option IRSSAOptCtx :=
  let q := ctx.quad i
  let f := q.src2.getImm32
  let width := ((f >>> 5) &&& 0x1F#32).toNat
  if q.src2.isImmediate = true ∧ f &&& 0x1F#32 = 0#32 ∧ 0 < width ∧ ctx.barrelShiftAt q = 0#8 then
    (ctx.foldMaskIsCopy i q.dest q.src1 ((1#32 <<< width) - 1#32)).map (ctx.assign i)
  else none

inductive MaskRemoval : IRSSAOptCtx → Prop
  | and {ctx' : IRSSAOptCtx} {K : BitVec 32} : (ctx.quad i).op = .and →
      (ctx.quad i).dest.is64 = false → ctx.barrelShiftAt (ctx.quad i) = 0#8 →
      foldReadImm32 (ctx.quad i).src2 = some K → foldAndMaskedBits ctx i K = some ctx' →
      MaskRemoval ctx'
  | or {ctx' : IRSSAOptCtx} : (ctx.quad i).op = .or → foldOrZeroArm ctx i = some ctx' →
      MaskRemoval ctx'
  | ubfx {ctx' : IRSSAOptCtx} : (ctx.quad i).op = .ubfx → foldUbfxBits ctx i = some ctx' →
      MaskRemoval ctx'

end Removals

section Values

variable {World : Type} {M : ValueSem World} {σ : Vreg → BitVec 64} {w : World}
  {ctx ctx₁ : IRSSAOptCtx} {i : ℕ}

theorem value_assign (hir : ctx₁.ir = ctx.ir) (hi : i < ctx.ir.nextInstructionIndex)
    (x : IROperand) : (ctx₁.assign i x).value M i σ w = some (M.copy (ctx.quad i).dest x σ w) := by
  have hi₁ : i < ctx₁.ir.compactInstructions.length := by
    rw [hir]
    exact hi
  have hq : ctx₁.quad i = ctx.quad i := by
    unfold IRSSAOptCtx.quad
    rw [hir]
  unfold IRSSAOptCtx.value
  rw [quad_assign hi₁, hq]
  rfl

theorem value_setOp_assign (hi : i < ctx.ir.nextInstructionIndex) :
    (ctx.setOp i .assign).value M i σ w =
      some (M.copy (ctx.quad i).dest (ctx.quad i).src1 σ w) := by
  unfold IRSSAOptCtx.value setOp
  rw [quad_setQuad_self hi]
  rfl

theorem loWord_operand_mkImmBt (v : BitVec 32) (b : IropBtype) :
    loWord (M.operand (mkImmBt v b) σ w) = v :=
  loWord_signExtend v

theorem loWord_of_foldMaskIsCopy {dest src x : IROperand} {mask : BitVec 32}
    (h : ctx.foldMaskIsCopy i dest src mask = some x)
    (hbits : Covers (ctx.maybeSetBits i src) (loWord (M.operand src σ w))) :
    dest.is64 = false ∧ src.is64 = false ∧
      loWord (M.operand x σ w) = loWord (M.operand src σ w) &&& mask := by
  unfold foldMaskIsCopy at h
  split at h
  case isTrue => cases h
  case isFalse hg =>
    simp only [not_or, not_not, Bool.not_eq_true] at hg
    obtain ⟨hdata, hl, hs64, hd64⟩ := hg
    split at h
    case isTrue => cases h
    case isFalse hm =>
      rw [not_not] at hm
      rw [hbits.and_eq_self hm]
      refine ⟨hd64, hs64, ?_⟩
      split at h
      case isTrue => cases h; rfl
      case isFalse =>
        split at h
        case isFalse => cases h
        case isTrue ht =>
          -- a TEMP of a narrow type is a whole word
          cases h
          obtain ⟨r, hr⟩ : ∃ r, src.vreg = some r := by
            have htemp := ht.1
            unfold isTempVreg at htemp
            cases hr : src.vreg with
            | none =>
              rw [hr] at htemp
              cases htemp
            | some r => exact ⟨r, rfl⟩
          have hp : src.plainVreg = some r := by
            unfold IROperand.plainVreg
            rw [if_pos ⟨hdata, hl⟩, hr]
          have hp' : IROperand.plainVreg { src with btype := .int32 } = some r := by
            unfold IROperand.plainVreg
            rw [if_pos ⟨hdata, hl⟩, hr]
          rw [loWord_operand_of_plainVreg hp, loWord_operand_of_plainVreg hp']

theorem value_and {K : BitVec 32} (hop : (ctx.quad i).op = .and)
    (hd : (ctx.quad i).dest.is64 = false) (hbs : ctx.barrelShiftAt (ctx.quad i) = 0#8)
    (hK : foldReadImm32 (ctx.quad i).src2 = some K) :
    ctx.value M i σ w = some (ofWord (loWord (M.operand (ctx.quad i).src1 σ w) &&& K)) := by
  unfold IRSSAOptCtx.value ValueSem.instrValue
  rw [hop, hbs]
  have hhigh : (ctx.quad i).takesHighHalf 0#8 = false := by
    unfold IRQuadCompact.takesHighHalf
    rw [hop]
    rfl
  refine alu_word hd hhigh (b := K) ?_ (by rw [hop]; rfl)
  rw [loWord_operand_of_foldReadImm32 hK]
  rfl

section

variable (hi : i < ctx.ir.nextInstructionIndex)
include hi

theorem value_foldAndMaskedBits {ctx' : IRSSAOptCtx} {K : BitVec 32} (hop : (ctx.quad i).op = .and)
    (hd : (ctx.quad i).dest.is64 = false) (hbs : ctx.barrelShiftAt (ctx.quad i) = 0#8)
    (hK : foldReadImm32 (ctx.quad i).src2 = some K)
    (hbits : Covers (ctx.maybeSetBits i (ctx.quad i).src1)
      (loWord (M.operand (ctx.quad i).src1 σ w)))
    (h : foldAndMaskedBits ctx i K = some ctx') : ctx'.value M i σ w = ctx.value M i σ w := by
  rw [value_and hop hd hbs hK]
  unfold foldAndMaskedBits at h
  dsimp only at h
  split at h
  · next hz =>
    cases h
    rw [value_assign (ir_dropUse _) hi, copy_of_word hd, loWord_operand_mkImmBt,
      hbits.and_eq_zero hz.2.2]
  · split at h
    · next hc =>
      cases h
      rw [value_setOp_assign hi, copy_of_word hd, hbits.and_eq_self hc.2.2.1]
    · obtain ⟨x, hx, he⟩ := Option.map_eq_some_iff.mp h
      rw [← he, value_assign rfl hi, copy_of_word hd, (loWord_of_foldMaskIsCopy hx hbits).2.2]

theorem value_foldOrZeroArm {ctx' : IRSSAOptCtx}
    (hop : (ctx.quad i).op = .or) (hbs : BarrelOk (ctx.barrelShiftAt (ctx.quad i)))
    (hbits1 : Covers (ctx.maybeSetBits i (ctx.quad i).src1)
      (loWord (M.operand (ctx.quad i).src1 σ w)))
    (hbits2 : Covers (ctx.maybeSetBits i (ctx.quad i).src2)
      (loWord (M.operand (ctx.quad i).src2 σ w)))
    (h : foldOrZeroArm ctx i = some ctx') : ctx'.value M i σ w = ctx.value M i σ w := by
  unfold foldOrZeroArm at h
  dsimp only at h
  split at h
  case isFalse => cases h
  case isTrue hg =>
    have hd : (ctx.quad i).dest.is64 = false := by
      have := hg.2
      simp only [not_or, Bool.not_eq_true] at this
      exact this.1
    obtain ⟨b, hb⟩ := barrelShift_isSome hbs (loWord (M.operand (ctx.quad i).src2 σ w))
    have hcov := covers_foldApplyBarrel hbs hbits2 hb
    have hhigh : (ctx.quad i).takesHighHalf (ctx.barrelShiftAt (ctx.quad i)) = false := by
      unfold IRQuadCompact.takesHighHalf
      rw [hop]
      rfl
    have hval : ctx.value M i σ w =
        some (ofWord (loWord (M.operand (ctx.quad i).src1 σ w) ||| b)) := by
      unfold IRSSAOptCtx.value ValueSem.instrValue
      rw [hop]
      exact alu_word hd hhigh hb (by rw [hop]; rfl)
    have hkeep : ∀ keep drop, ctx' =
        ((ctx.dropUse drop i).foldClearBarrel i).assign i keep → ctx'.value M i σ w =
          some (ofWord (loWord (M.operand keep σ w))) := by
      intro keep drop he
      have hir : ((ctx.dropUse drop i).foldClearBarrel i).ir = ctx.ir := ir_dropUse drop
      rw [he, value_assign hir hi, copy_of_word hd]
    rw [hval]
    split at h
    · next hz =>
      rw [hz] at hcov
      simp only [bind_eq_bind, bind_some] at h
      split at h
      case isTrue => cases h
      case isFalse =>
        rw [hkeep _ _ (Option.some.inj h).symm, hcov.eq_zero, BitVec.or_zero]
    · split at h
      · next hz =>
        rw [hz.1] at hb
        cases hb
        rw [hz.2] at hbits1
        simp only [bind_eq_bind, bind_some] at h
        split at h
        case isTrue => cases h
        case isFalse =>
          rw [hkeep _ _ (Option.some.inj h).symm, hbits1.eq_zero, BitVec.zero_or]
      · cases h

theorem value_foldUbfxBits {ctx' : IRSSAOptCtx}
    (hop : (ctx.quad i).op = .ubfx)
    (hbits : Covers (ctx.maybeSetBits i (ctx.quad i).src1)
      (loWord (M.operand (ctx.quad i).src1 σ w)))
    (h : foldUbfxBits ctx i = some ctx') : ctx'.value M i σ w = ctx.value M i σ w := by
  unfold foldUbfxBits at h
  dsimp only at h
  split at h
  case isFalse => cases h
  case isTrue hg =>
    obtain ⟨himm, hlsb, hw, _⟩ := hg
    obtain ⟨x, hx, he⟩ := Option.map_eq_some_iff.mp h
    obtain ⟨hd, hs, hlow⟩ := loWord_of_foldMaskIsCopy hx hbits
    obtain ⟨hwidth, hlt⟩ := bfxWidth_eq hw
    have hf : loWord (M.operand (ctx.quad i).src2 σ w) = (ctx.quad i).src2.getImm32 := by
      rw [operand_of_isImmediate himm]
      rfl
    rw [← he, value_assign rfl hi, copy_of_word hd, hlow]
    unfold IRSSAOptCtx.value ValueSem.instrValue
    rw [hop]
    dsimp only
    rw [hd, if_neg Bool.false_ne_true]
    unfold ValueSem.field ValueSem.fieldWord bfxLsb widthMask
    dsimp only
    rw [hs, hf, hwidth, hlsb, if_neg (by rintro ⟨h, -⟩; cases h), if_neg (by omega)]
    rfl

end

end Values

/-- What the walk relies on: single definitions that reach their uses, and annotations that fusion
makes. -/
def BitsReliable (ctx : IRSSAOptCtx) : Prop :=
  OneDefinition ctx ∧
    ∀ i < ctx.ir.nextInstructionIndex, BarrelOk (ctx.barrelShiftAt (ctx.quad i))

/-- In every run the bits of a word that is read are within the mask of `fold_maybe_set_bits`, and
the rewrites that rest on it leave the value. -/
theorem foldMaybeSetBits_sound {World : Type} (ctx : IRSSAOptCtx) (ssa : IRSSAState)
    (M : ValueSem World) (F : SsaFunction ctx ssa) (hrel : BitsReliable ctx)
    (s : IrState (BitVec 64) World) (hs : ctx.Reaches ssa M s) :
    (∀ op ∈ (ctx.quad s.pc).reads, op.is64 = false → ∀ depth budget,
      Covers (ctx.foldMaybeSetBits depth op s.pc budget).1
        (loWord (M.operand op s.regs s.world))) ∧
    ∀ ctx', MaskRemoval ctx s.pc ctx' →
      ctx'.value M s.pc s.regs s.world = ctx.value M s.pc s.regs s.world := by
  have hlt : s.pc < ctx.ir.nextInstructionIndex := hs.choose_spec.2.2
  have hbits : ∀ op ∈ (ctx.quad s.pc).reads, ∀ depth budget,
      Covers (ctx.foldMaybeSetBits depth op s.pc budget).1
        (loWord (M.operand op s.regs s.world)) := fun op hop depth budget =>
    covers_foldMaybeSetBits F hrel.1 hrel.2 depth budget s op hs hop
  refine ⟨fun op hop _ => hbits op hop, ?_⟩
  intro ctx' hrem
  cases hrem with
  | and hop hd hbs hK h =>
    exact value_foldAndMaskedBits hlt hop hd hbs hK
      (hbits _ (src1_mem_reads (by rw [hop]; rfl)) _ _) h
  | or hop h =>
    exact value_foldOrZeroArm hlt hop (hrel.2 s.pc hlt)
      (hbits _ (src1_mem_reads (by rw [hop]; rfl)) _ _)
      (hbits _ (src2_mem_reads (by rw [hop]; rfl)) _ _) h
  | ubfx hop h =>
    exact value_foldUbfxBits hlt hop
      (hbits _ (src1_mem_reads (by rw [hop]; rfl)) _ _) h

def byteIr : TCCIRState :=
  { compactInstructions :=
      [⟨.and, 0, .temp 0, ⟨.vreg, some ⟨.param, 0⟩, false, .int32, false⟩,
          .makeImm32 0xFF#32 .int32, .none⟩,
        ⟨.and, 1, .temp 1, .temp 0, .makeImm32 0xFFFF#32 .int32, .none⟩,
        ⟨.returnvalue, 2, .none, .temp 1, .none, .none⟩] }

def noPhis : IRSSAState := ⟨fun _ => [], 0, fun _ => false, fun _ => 0, 0⟩

def byteCtx : IRSSAOptCtx := tccIrSsaOptInit byteIr noPhis 2

def byteState : IrState (BitVec 64) Unit :=
  ⟨1, noPhis.onEdge byteCtx.cfg 0 1 (Function.update (fun _ => 0x1234#64) ⟨.temp, 0⟩ 0x34#64), ()⟩

theorem byteCtx_spec : SsaFunction byteCtx noPhis ∧ BitsReliable byteCtx ∧
    byteCtx.Reaches noPhis ValueSem.closed byteState ∧
    IROperand.temp 0 ∈ (byteCtx.quad 1).reads ∧ ∃ ctx', MaskRemoval byteCtx 1 ctx' := by
  refine ⟨ssaFunction_init (by decide +kernel) (by decide +kernel),
    ⟨oneDefinition_of_lt (fun _ _ => vinfo_tccIrSsaOptInit) (by decide +kernel) (by decide +kernel)
      (by decide +kernel), by decide +kernel⟩,
    ⟨⟨0, fun _ => 0x1234#64, ()⟩, rfl, Relation.ReflTransGen.single ?_, by decide +kernel⟩,
    by decide +kernel, ?_⟩
  · apply step_next
    decide +kernel
  · have hfire : (foldAndMaskedBits byteCtx 1 0xFFFF#32).isSome = true := by decide +kernel
    obtain ⟨ctx', hctx⟩ := Option.isSome_iff_exists.mp hfire
    exact ⟨ctx', .and (by decide +kernel) (by decide +kernel) (by decide +kernel)
      (by decide +kernel) hctx⟩

theorem foldMaybeSetBits_sound_byte :
    Covers (byteCtx.maybeSetBits 1 (.temp 0))
        (loWord (ValueSem.closed.operand (.temp 0) byteState.regs ())) ∧
      ∃ ctx', MaskRemoval byteCtx 1 ctx' ∧ ctx'.value ValueSem.closed 1 byteState.regs () =
        byteCtx.value ValueSem.closed 1 byteState.regs () := by
  obtain ⟨F, hrel, hreach, hread, ctx', hrem⟩ := byteCtx_spec
  have h := foldMaybeSetBits_sound byteCtx noPhis ValueSem.closed F hrel byteState hreach
  exact ⟨h.1 (.temp 0) hread rfl 24 4096, ctx', hrem, h.2 ctx' hrem⟩

def inPlaceIr : TCCIRState :=
  -- `t1` is a phi and is also stored to in place, after the `AND` that reads it
  { compactInstructions :=
      [⟨.assign, 0, .temp 0, .int 3, .none, .none⟩,
        ⟨.and, 1, .temp 2, .temp 1, .int 1, .none⟩,
        ⟨.store, 2, .temp 1, .int 1, .none, .none⟩,
        ⟨.jumpif, 3, .int 1, .int 0x95, .none, .none⟩,
        ⟨.returnvalue, 4, .none, .temp 2, .none, .none⟩] }

def inPlaceSsa : IRSSAState where
  blockPhis b :=
    if b = 1 then
      [⟨⟨.temp, 1⟩, ⟨.var, 0⟩, [⟨some ⟨.temp, 0⟩, some 0⟩, ⟨some ⟨.temp, 1⟩, some 1⟩], .int32⟩]
    else []
  nextSsaVreg := 3
  isPromotable _ := true
  varStoreDefOk _ := 0
  numVars := 1

def inPlaceCtx : IRSSAOptCtx := tccIrSsaOptInit inPlaceIr inPlaceSsa 3

def inPlaceState : IrState (BitVec 64) Unit :=
  ⟨1, inPlaceSsa.onEdge inPlaceCtx.cfg 0 1 (Function.update (fun _ => 0#64) ⟨.temp, 0⟩ 3#64), ()⟩

/-- The store's 1 is taken for the value of the phi, which is 3, and the mask of the `AND` goes. -/
theorem foldMaybeSetBits_unsound_phi :
    SsaFunction inPlaceCtx inPlaceSsa ∧
      (∀ i < inPlaceCtx.ir.nextInstructionIndex,
        BarrelOk (inPlaceCtx.barrelShiftAt (inPlaceCtx.quad i))) ∧
      inPlaceCtx.Reaches inPlaceSsa ValueSem.closed inPlaceState ∧
      IROperand.temp 1 ∈ (inPlaceCtx.quad inPlaceState.pc).reads ∧
      ¬ Covers (inPlaceCtx.maybeSetBits inPlaceState.pc (.temp 1))
        (loWord (ValueSem.closed.operand (.temp 1) inPlaceState.regs ())) ∧
      ∃ ctx', MaskRemoval inPlaceCtx inPlaceState.pc ctx' ∧
        inPlaceCtx.value ValueSem.closed inPlaceState.pc inPlaceState.regs () = some 1#64 ∧
        ctx'.value ValueSem.closed inPlaceState.pc inPlaceState.regs () = some 3#64 := by
  refine ⟨ssaFunction_init (by decide +kernel) (by decide +kernel), by decide +kernel,
    ⟨⟨0, fun _ => 0#64, ()⟩, rfl, Relation.ReflTransGen.single ?_, by decide +kernel⟩,
    by decide +kernel, ?_, ?_⟩
  · apply step_next
    decide +kernel
  · intro h
    exact absurd (h 1 (by decide +kernel)) (by decide +kernel)
  · have hfire : (foldAndMaskedBits inPlaceCtx 1 1#32).map
        (fun c => c.value ValueSem.closed 1 inPlaceState.regs ()) = some (some 3#64) := by
      decide +kernel
    obtain ⟨ctx', hctx, hval⟩ := Option.map_eq_some_iff.mp hfire
    exact ⟨ctx', .and (by decide +kernel) (by decide +kernel) (by decide +kernel)
      (by decide +kernel) hctx, by decide +kernel, hval⟩

end Tinycc
