import Tinycc.Lib.KnownBits
import Tinycc.Opt.SsaRun

namespace Tinycc
open Lib IRSSAOptCtx

section Operands

variable {World : Type} {M : ValueSem World} {σ : Vreg → BitVec 64} {w : World} {op : IROperand}

theorem loWord_operand_of_foldReadImm32 {v : BitVec 32} (h : foldReadImm32 op = some v) :
    loWord (M.operand op σ w) = v := by
  unfold foldReadImm32 at h
  by_cases hl : op.isLval = true
  · rw [if_pos hl] at h
    cases h
  · rw [if_neg hl] at h
    unfold ValueSem.operand
    rw [if_neg hl]
    split at h
    · next x hx =>
      cases h
      rw [hx]
      exact loWord_signExtend _
    · next x hx =>
      split at h
      · cases h
        rw [hx]
      · cases h
    · cases h

theorem loWord_operand_of_plainVreg {r : Vreg} (h : op.plainVreg = some r) :
    loWord (M.operand op σ w) = loWord (σ r) := by
  unfold IROperand.plainVreg at h
  split at h
  case isFalse => cases h
  case isTrue hp =>
    have hl : ¬ op.isLval = true := by rw [hp.2]; exact Bool.false_ne_true
    unfold ValueSem.operand
    rw [if_neg hl, hp.1]
    rw [h]
    dsimp only
    unfold ValueSem.fit
    by_cases h64 : op.is64 = true
    · rw [if_pos h64]
    · rw [if_neg h64, if_neg fun e => hl e.1, if_neg fun e => hl e.1]
      exact loWord_ofWord _

theorem covers_operand_int8 (hl : op.isLval = true) (hu : op.isUnsigned = true)
    (hb : op.btype = .int8) : Covers 0xFF#32 (loWord (M.operand op σ w)) := by
  unfold ValueSem.operand
  rw [if_pos hl]
  unfold ValueSem.fit IROperand.is64
  rw [hb, if_neg (by decide), if_pos ⟨hl, rfl⟩, if_pos hu, loWord_ofWord]
  exact Covers.lowMask (by decide) _

theorem covers_operand_int16 (hl : op.isLval = true) (hu : op.isUnsigned = true)
    (hb : op.btype = .int16) : Covers 0xFFFF#32 (loWord (M.operand op σ w)) := by
  unfold ValueSem.operand
  rw [if_pos hl]
  unfold ValueSem.fit IROperand.is64
  rw [hb, if_neg (by decide), if_neg (by rintro ⟨-, h⟩; cases h), if_pos ⟨hl, rfl⟩, if_pos hu,
    loWord_ofWord]
  exact Covers.lowMask (by decide) _

end Operands

section Masks

variable {m x y : BitVec 32} {bs : BitVec 8}

theorem covers_sshiftRight_word (h : Covers m x) (k : ℕ) :
    Covers (m >>> k ||| (if m &&& 0x80000000#32 ≠ 0#32 ∧ k ≠ 0 then ~~~(0xFFFFFFFF#32 >>> k)
      else 0#32)) (x.sshiftRight k) := by
  have hs := h.sshiftRight k
  simp only [← and_signBit_ne_zero] at hs
  exact hs

theorem covers_foldApplyBarrel (hbs : BarrelOk bs) (h : Covers m x)
    (hy : barrelShift bs x = some y) : Covers (foldApplyBarrel m bs) y := by
  unfold barrelShift at hy
  unfold foldApplyBarrel
  rcases hbs with hbs | hbs | ⟨hbs | hbs | hbs, ha⟩
  · subst hbs
    cases hy
    exact h
  · have h0 : bs ≠ 0#8 := by
      rintro rfl
      exact absurd hbs (by decide)
    rw [if_neg h0, if_pos hbs] at hy
    cases hy
    rw [if_pos hbs]
    exact h.shiftLeft _
  all_goals
    have h0 : bs ≠ 0#8 := by
      rintro rfl
      exact absurd hbs (by decide)
    rw [if_neg h0] at hy
    rw [hbs, if_neg (by decide)] at hy ⊢
  · rw [if_neg ha] at hy
    cases hy
    exact h.shiftRight _
  · rw [if_neg (by decide), if_neg ha] at hy
    cases hy
    exact covers_sshiftRight_word h _
  · rw [if_neg (by decide), if_neg (by decide), if_pos ⟨rfl, ha⟩] at hy
    cases hy
    rw [if_pos ha]
    have hlt : (bs &&& 0x1F#8).toNat < 32 := by
      exact Nat.lt_of_le_of_lt Nat.and_le_right (by decide)
    exact h.rotateRight hlt

theorem barrelShift_isSome (hbs : BarrelOk bs) (x : BitVec 32) :
    ∃ y, barrelShift bs x = some y := by
  unfold barrelShift
  rcases hbs with hbs | hbs | ⟨hbs | hbs | hbs, ha⟩
  · exact ⟨_, if_pos hbs⟩
  all_goals
    have h0 : bs ≠ 0#8 := by
      rintro rfl
      exact absurd hbs (by decide)
    rw [if_neg h0, hbs]
  · exact ⟨_, rfl⟩
  · exact ⟨_, rfl⟩
  · exact ⟨_, rfl⟩
  · exact ⟨_, if_pos (And.intro rfl ha)⟩

end Masks

def resultBits (q : IRQuadCompact) (bs : BitVec 8) (m1 m2 : BitVec 32) : BitVec 32 :=
  match q.op with
  | .and => m1 &&& foldApplyBarrel m2 bs
  | .or | .xor => m1 ||| foldApplyBarrel m2 bs
  | .shl | .shr | .sar =>
    match foldReadImm32 q.src2 with
    | none => BitVec.allOnes 32
    | some sh =>
      if bs ≠ 0#8 ∨ 32 ≤ sh.toNat then BitVec.allOnes 32
      else if q.op = .shl then m1 <<< sh.toNat
      else if q.op = .shr then m1 >>> sh.toNat
      else m1 >>> sh.toNat |||
        (if m1 &&& 0x80000000#32 ≠ 0#32 ∧ sh.toNat ≠ 0 then ~~~(0xFFFFFFFF#32 >>> sh.toNat)
          else 0#32)
  | .assign =>
    if q.getDest.btype = .int32 ∧ q.src1.isLval = false then m1 else BitVec.allOnes 32
  | .setif => 1#32
  | .load =>
    if q.src1.isLval ∧ q.src1.isUnsigned ∧ q.src1.btype = .int8 then 0xFF#32
    else if q.src1.isLval ∧ q.src1.isUnsigned ∧ q.src1.btype = .int16 then 0xFFFF#32
    else BitVec.allOnes 32
  | .ubfx =>
    match foldReadImm32 q.src2 with
    | none => BitVec.allOnes 32
    | some f =>
      let width := ((f >>> 5) &&& 0x1F#32).toNat
      if bs = 0#8 ∧ f &&& ubfxHiHalf = 0#32 ∧ 0 < width then (1#32 <<< width) - 1#32
      else BitVec.allOnes 32
  | .store =>
    if isTempVreg q.getDest ∧ ¬ (q.getDest.data matches .stackoff _) ∧ q.src1.isLval = false ∧
        q.src1.is64 = false then m1
    else BitVec.allOnes 32
  | _ => BitVec.allOnes 32

section Walk

variable {ctx : IRSSAOptCtx} {op : IROperand} {i depth : ℕ} {budget : ℤ}

theorem foldMaybeSetBits_cases (hread : foldReadImm32 op = none) :
    (ctx.foldMaybeSetBits depth op i budget).1 = BitVec.allOnes 32 ∨
      ∃ depth' d b1 b2, depth = depth' + 1 ∧ op.is64 = false ∧ ctx.foldSingleDomDef op i = some d ∧
        (ctx.quad d).getDest.is64 = false ∧ (ctx.quad d).getDest.isLval = false ∧
        (ctx.foldMaybeSetBits depth op i budget).1 =
          resultBits (ctx.quad d) (ctx.barrelShiftAt (ctx.quad d))
            (ctx.foldMaybeSetBits depth' (ctx.quad d).src1 d b1).1
            (ctx.foldMaybeSetBits depth' (ctx.quad d).src2 d b2).1 := by
  generalize hr : ctx.foldMaybeSetBits depth op i budget = r
  unfold foldMaybeSetBits at hr
  rw [hread] at hr
  cases depth with
  | zero => exact .inl (congrArg Prod.fst hr).symm
  | succ depth =>
    dsimp only at hr
    by_cases hb : budget - 1 ≤ 0 ∨ op.is64 = true
    · rw [if_pos hb] at hr
      exact .inl (congrArg Prod.fst hr).symm
    · rw [if_neg hb] at hr
      simp only [not_or, Bool.not_eq_true] at hb
      cases hd : ctx.foldSingleDomDef op i with
      | none =>
        rw [hd] at hr
        exact .inl (congrArg Prod.fst hr).symm
      | some d =>
        rw [hd] at hr
        dsimp only at hr
        by_cases hdest : (ctx.quad d).getDest.is64 = true ∨ (ctx.quad d).getDest.isLval = true
        · rw [if_pos hdest] at hr
          exact .inl (congrArg Prod.fst hr).symm
        · rw [if_neg hdest] at hr
          simp only [not_or, Bool.not_eq_true] at hdest
          refine .inr ⟨depth, d, budget - 1,
            (ctx.foldMaybeSetBits depth (ctx.quad d).src1 d (budget - 1)).2, rfl, hb.2, rfl,
            hdest.1, hdest.2, ?_⟩
          rw [← hr]
          unfold resultBits
          cases hop : (ctx.quad d).op <;> try rfl
          all_goals dsimp only
          case shl | shr | sar =>
            cases foldReadImm32 (ctx.quad d).src2 with
            | none => rfl
            | some sh =>
              dsimp only
              by_cases hc : ctx.barrelShiftAt (ctx.quad d) ≠ 0#8 ∨ 32 ≤ sh.toNat
              · rw [if_pos hc, if_pos hc]
              · rw [if_neg hc, if_neg hc]
                rfl
          case ubfx =>
            cases foldReadImm32 (ctx.quad d).src2 with
            | none => rfl
            | some f => exact apply_ite Prod.fst _ _ _
          case load => rw [apply_ite Prod.fst, apply_ite Prod.fst]
          case assign | store => exact apply_ite Prod.fst _ _ _

end Walk

section Result

variable {World : Type} {M : ValueSem World} {σ : Vreg → BitVec 64} {w : World}
  {q : IRQuadCompact} {bs : BitVec 8} {bfi : BitVec 16} {m1 m2 : BitVec 32}

variable {r sh : BitVec 32}

theorem alu_word (hd : q.dest.is64 = false) (hh : q.takesHighHalf bs = false) {b : BitVec 32}
    (hb : barrelShift bs (loWord (M.operand q.src2 σ w)) = some b)
    (hr : aluWord q.op (loWord (M.operand q.src1 σ w)) b = some r) :
    M.alu bs q σ w = some (ofWord r) := by
  unfold ValueSem.alu
  rw [hd, if_neg Bool.false_ne_true, hh, hb, Option.bind_some, hr]
  rfl

theorem copy_of_word {dest src : IROperand} (hd : dest.is64 = false) :
    M.copy dest src σ w = ofWord (loWord (M.operand src σ w)) := by
  unfold ValueSem.copy
  rw [hd, if_neg]
  rintro ⟨h, -⟩
  cases h

theorem takesHighHalf_of_foldReadImm32 (h : foldReadImm32 q.src2 = some sh) (hsh : sh.toNat < 32) :
    q.takesHighHalf bs = false := by
  unfold IRQuadCompact.takesHighHalf
  by_cases h32 : q.src2.isImmediate = true ∧ q.src2.getImm64 = 32#64
  · -- the constant would be 32
    have hv := @loWord_operand_of_foldReadImm32 Unit ValueSem.closed (fun _ => 0#64) () _ _ h
    rw [operand_of_isImmediate h32.1, h32.2] at hv
    rw [← hv] at hsh
    exact absurd hsh (by decide)
  · cases hi : q.src2.isImmediate with
    | false => simp
    | true =>
      have hne : ¬ q.src2.getImm64 = 32#64 := fun e => h32 ⟨hi, e⟩
      simp [hne]

theorem instrValue_shift (hop : q.op = .shl ∨ q.op = .shr ∨ q.op = .sar) (hd : q.dest.is64 = false)
    (hread : foldReadImm32 q.src2 = some sh) (hsh : sh.toNat < 32)
    (hr : aluWord q.op (loWord (M.operand q.src1 σ w)) sh = some r) :
    M.instrValue 0#8 bfi q σ w = some (ofWord r) := by
  have hv : M.instrValue 0#8 bfi q σ w = M.alu 0#8 q σ w := by
    unfold ValueSem.instrValue
    rcases hop with hop | hop | hop <;> rw [hop]
  rw [hv]
  refine alu_word hd (takesHighHalf_of_foldReadImm32 hread hsh) ?_ hr
  rw [loWord_operand_of_foldReadImm32 hread]
  rfl

theorem covers_shift (hop : q.op = .shl ∨ q.op = .shr ∨ q.op = .sar) (hd : q.dest.is64 = false)
    (h1 : Covers m1 (loWord (M.operand q.src1 σ w))) :
    resultBits q bs m1 m2 = BitVec.allOnes 32 ∨
      ∃ x, M.instrValue bs bfi q σ w = some x ∧ Covers (resultBits q bs m1 m2) (loWord x) := by
  have hres : resultBits q bs m1 m2 = match foldReadImm32 q.src2 with
      | none => BitVec.allOnes 32
      | some sh =>
        if bs ≠ 0#8 ∨ 32 ≤ sh.toNat then BitVec.allOnes 32
        else if q.op = .shl then m1 <<< sh.toNat
        else if q.op = .shr then m1 >>> sh.toNat
        else m1 >>> sh.toNat |||
          (if m1 &&& 0x80000000#32 ≠ 0#32 ∧ sh.toNat ≠ 0 then ~~~(0xFFFFFFFF#32 >>> sh.toNat)
            else 0#32) := by
    unfold resultBits
    rcases hop with hop | hop | hop <;> simp only [hop]
  rw [hres]
  cases hread : foldReadImm32 q.src2 with
  | none => exact .inl rfl
  | some sh =>
    dsimp only
    by_cases hc : bs ≠ 0#8 ∨ 32 ≤ sh.toNat
    · rw [if_pos hc]
      exact .inl rfl
    · rw [if_neg hc]
      simp only [not_or, not_not, Nat.not_le] at hc
      obtain ⟨rfl, hsh⟩ := hc
      have hlt : sh.toNat < 256 := by omega
      right
      rcases hop with hop | hop | hop
      · refine ⟨_, instrValue_shift (.inl hop) hd hread hsh (by rw [hop]; exact if_pos hlt), ?_⟩
        rw [if_pos hop, loWord_ofWord]
        exact h1.shiftLeft _
      · refine ⟨_, instrValue_shift (.inr (.inl hop)) hd hread hsh
          (by rw [hop]; exact if_pos hlt), ?_⟩
        rw [if_neg (by rw [hop]; decide), if_pos hop, loWord_ofWord]
        exact h1.shiftRight _
      · refine ⟨_, instrValue_shift (.inr (.inr hop)) hd hread hsh
          (by rw [hop]; exact if_pos hlt), ?_⟩
        rw [if_neg (by rw [hop]; decide), if_neg (by rw [hop]; decide), loWord_ofWord]
        exact covers_sshiftRight_word h1 _

theorem covers_bitwise (hop : q.op = .and ∨ q.op = .or ∨ q.op = .xor) (hd : q.dest.is64 = false)
    (hbs : BarrelOk bs) (h1 : Covers m1 (loWord (M.operand q.src1 σ w)))
    (h2 : Covers m2 (loWord (M.operand q.src2 σ w))) :
    ∃ x, M.instrValue bs bfi q σ w = some x ∧ Covers (resultBits q bs m1 m2) (loWord x) := by
  obtain ⟨b, hb⟩ := barrelShift_isSome hbs (loWord (M.operand q.src2 σ w))
  have hbits := covers_foldApplyBarrel hbs h2 hb
  have hhigh : q.takesHighHalf bs = false := by
    unfold IRQuadCompact.takesHighHalf
    rcases hop with hop | hop | hop <;> rw [hop] <;> rfl
  have hv : M.instrValue bs bfi q σ w = M.alu bs q σ w := by
    unfold ValueSem.instrValue
    rcases hop with hop | hop | hop <;> rw [hop]
  rw [hv]
  unfold resultBits
  rcases hop with hop | hop | hop
  · refine ⟨_, alu_word hd hhigh hb (by rw [hop]; rfl), ?_⟩
    rw [hop, loWord_ofWord]
    exact h1.and hbits
  · refine ⟨_, alu_word hd hhigh hb (by rw [hop]; rfl), ?_⟩
    rw [hop, loWord_ofWord]
    exact h1.or hbits
  · refine ⟨_, alu_word hd hhigh hb (by rw [hop]; rfl), ?_⟩
    rw [hop, loWord_ofWord]
    exact h1.xor hbits

theorem bfxWidth_eq {f : BitVec 32} (hw : 0 < ((f >>> 5) &&& 0x1F#32).toNat) :
    bfxWidth f = ((f >>> 5) &&& 0x1F#32).toNat ∧ ((f >>> 5) &&& 0x1F#32).toNat < 32 := by
  constructor
  · unfold bfxWidth
    rw [if_neg (by omega)]
  · exact Nat.lt_of_le_of_lt Nat.and_le_right (by decide)

theorem covers_resultBits (hd : q.getDest.is64 = false) (hbs : BarrelOk bs)
    (hdata : isTempVreg q.getDest = true →
      q.getDest.data = .vreg ∨ ∃ off, q.getDest.data = .stackoff off)
    (hlval : q.getDest.isLval = false)
    (hset : q.op = .setif → (jumpTaken q.src1.getImm32 (M.flags w)).isSome = true)
    (h1 : (iropConfig q.op).hasSrc1 = true → Covers m1 (loWord (M.operand q.src1 σ w)))
    (h2 : (iropConfig q.op).hasSrc2 = true → Covers m2 (loWord (M.operand q.src2 σ w))) :
    resultBits q bs m1 m2 = BitVec.allOnes 32 ∨
      ∃ x, M.instrValue bs bfi q σ w = some x ∧ Covers (resultBits q bs m1 m2) (loWord x) := by
  have hdest : (iropConfig q.op).hasDest = true → q.getDest = q.dest := by
    intro h
    unfold IRQuadCompact.getDest
    rw [if_pos h]
  -- one case for each operation that the walk looks through
  cases hop : q.op
  case and | or | xor =>
    refine .inr (covers_bitwise (by simp [hop]) ?_ hbs (h1 (by rw [hop]; rfl))
      (h2 (by rw [hop]; rfl)))
    rw [← hdest (by rw [hop]; rfl)]
    exact hd
  case shl | shr | sar =>
    refine covers_shift (by simp [hop]) ?_ (h1 (by rw [hop]; rfl))
    rw [← hdest (by rw [hop]; rfl)]
    exact hd
  all_goals
    unfold resultBits ValueSem.instrValue
    rw [hop]
  case assign =>
    have hd' := hdest (by rw [hop]; rfl)
    by_cases hc : q.getDest.btype = .int32 ∧ q.src1.isLval = false
    · rw [if_pos hc]
      refine .inr ⟨_, rfl, ?_⟩
      rw [copy_of_word (hd' ▸ hd), loWord_ofWord]
      exact h1 (by rw [hop]; rfl)
    · exact .inl (if_neg hc)
  case setif =>
    right
    obtain ⟨taken, ht⟩ := Option.isSome_iff_exists.mp (hset hop)
    rw [ht]
    refine ⟨_, rfl, ?_⟩
    cases taken with
    | true => exact Covers.refl _
    | false =>
      intro i hi
      exact absurd hi (by simp [loWord])
  case load =>
    have hd' := hdest (by rw [hop]; rfl)
    by_cases h8 : q.src1.isLval ∧ q.src1.isUnsigned ∧ q.src1.btype = .int8
    · rw [if_pos h8]
      refine .inr ⟨_, rfl, ?_⟩
      rw [copy_of_word (hd' ▸ hd), loWord_ofWord]
      exact covers_operand_int8 h8.1 h8.2.1 h8.2.2
    · rw [if_neg h8]
      by_cases h16 : q.src1.isLval ∧ q.src1.isUnsigned ∧ q.src1.btype = .int16
      · rw [if_pos h16]
        refine .inr ⟨_, rfl, ?_⟩
        rw [copy_of_word (hd' ▸ hd), loWord_ofWord]
        exact covers_operand_int16 h16.1 h16.2.1 h16.2.2
      · exact .inl (if_neg h16)
  case ubfx =>
    have hd' := hdest (by rw [hop]; rfl)
    cases hread : foldReadImm32 q.src2 with
    | none => exact .inl rfl
    | some f =>
      dsimp only
      by_cases hc : bs = 0#8 ∧ f &&& ubfxHiHalf = 0#32 ∧ 0 < ((f >>> 5) &&& 0x1F#32).toNat
      · rw [if_pos hc]
        obtain ⟨hw, hlt⟩ := bfxWidth_eq hc.2.2
        right
        rw [if_neg (by rw [← hd', hd]; exact Bool.false_ne_true)]
        refine ⟨_, rfl, ?_⟩
        rw [loWord_ofWord]
        unfold ValueSem.field
        dsimp only
        rw [loWord_operand_of_foldReadImm32 hread, hw]
        unfold widthMask
        rw [if_neg (by omega)]
        exact Covers.of_and_left _ _
      · exact .inl (if_neg hc)
  case store =>
    have hd' := hdest (by rw [hop]; rfl)
    by_cases hc : isTempVreg q.getDest ∧ ¬ (q.getDest.data matches .stackoff _) ∧
        q.src1.isLval = false ∧ q.src1.is64 = false
    · rw [if_pos hc]
      -- the store is one to a register, not to a stack slot
      have hplain : q.dest.plainVreg.isSome = true := by
        have hv : q.getDest.data = .vreg := by
          rcases hdata hc.1 with h | ⟨off, h⟩
          · exact h
          · exact absurd (by rw [h]) hc.2.1
        have ht := hc.1
        rw [hd'] at hv hlval ht
        unfold IROperand.plainVreg
        rw [if_pos ⟨hv, hlval⟩]
        unfold isTempVreg at ht
        cases hr : q.dest.vreg with
        | none =>
          rw [hr] at ht
          cases ht
        | some r => rfl
      right
      rw [if_pos hplain]
      refine ⟨_, rfl, ?_⟩
      rw [copy_of_word (hd' ▸ hd), loWord_ofWord]
      exact h1 (by rw [hop]; rfl)
    · exact .inl (if_neg hc)
  all_goals exact .inl rfl

end Result

section Bound

variable {World : Type} {ctx : IRSSAOptCtx} {ssa : IRSSAState} {M : ValueSem World}

theorem HoldsAt.loWord_eq {op : IROperand} {r x : BitVec 64} (h : HoldsAt op r x) :
    loWord r = loWord x := by
  unfold HoldsAt at h
  by_cases h64 : op.is64 = true
  · rw [if_pos h64] at h
    rw [h]
  · rw [if_neg h64] at h
    exact h

theorem IRQuadCompact.src1_mem_reads {q : IRQuadCompact} (h : (iropConfig q.op).hasSrc1 = true) :
    q.src1 ∈ q.reads := by
  unfold IRQuadCompact.reads IRQuadCompact.getSrc1
  rw [if_pos h]
  simp

theorem IRQuadCompact.src2_mem_reads {q : IRQuadCompact} (h : (iropConfig q.op).hasSrc2 = true) :
    q.src2 ∈ q.reads := by
  unfold IRQuadCompact.reads IRQuadCompact.getSrc2
  rw [if_pos h]
  simp

theorem covers_foldMaybeSetBits (F : SsaFunction ctx ssa) (hone : OneDefinition ctx)
    (hbs : ∀ i < ctx.ir.nextInstructionIndex, BarrelOk (ctx.barrelShiftAt (ctx.quad i)))
    (depth : ℕ) : ∀ (budget : ℤ) (s : IrState (BitVec 64) World) (op : IROperand),
      ctx.Reaches ssa M s → op ∈ (ctx.quad s.pc).reads →
        Covers (ctx.foldMaybeSetBits depth op s.pc budget).1
          (loWord (M.operand op s.regs s.world)) := by
  -- the operand's definition is read at the moment of its last visit
  induction depth using Nat.strong_induction_on with
  | _ depth ih =>
    intro budget s op hs hop
    cases hread : foldReadImm32 op with
    | some v =>
      rw [loWord_operand_of_foldReadImm32 hread]
      unfold foldMaybeSetBits
      rw [hread]
      exact Covers.refl v
    | none =>
      rcases @foldMaybeSetBits_cases ctx op s.pc depth budget hread with
        h | ⟨depth', d, b1, b2, hdepth, h64, hd, hdest, hlval, h⟩
      · rw [h]
        exact Covers.allOnes _
      · obtain ⟨t, u, hv, hu, hpc, hset, hval⟩ := F.value_of_singleDomDef hone hs hop hd
        subst hpc
        have hlt : u.pc < ctx.ir.nextInstructionIndex := hu.choose_spec.2.2
        have hbits := @covers_resultBits World M u.regs u.world (ctx.quad u.pc)
          (ctx.barrelShiftAt (ctx.quad u.pc)) (ctx.bfiParamsAt (ctx.quad u.pc)) _ _ hdest
          (hbs u.pc hlt) (F.tempDest u.pc hlt) hlval hset
          (fun h1 => ih depth' (by omega) b1 u _ hu (IRQuadCompact.src1_mem_reads h1))
          (fun h2 => ih depth' (by omega) b2 u _ hu (IRQuadCompact.src2_mem_reads h2))
        rw [h]
        rcases hbits with hall | ⟨x, hx, hcov⟩
        · rw [hall]
          exact Covers.allOnes _
        · rw [loWord_operand_of_plainVreg hv, (hval x hlval hx).loWord_eq]
          exact hcov

end Bound

end Tinycc
