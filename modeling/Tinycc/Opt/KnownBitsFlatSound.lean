import Tinycc.IR.Words
import Tinycc.Lib.KnownBits
import Tinycc.Opt.KnownBitsFlat

namespace Tinycc
open Lib
open BitVec hiding not_not and_assoc not_or

section Masks

variable {x y : BitVec 32} {a b : KnownWord} {n : ℕ}

def KnownWord.Has (a : KnownWord) (x : BitVec 32) : Prop := Knows a.kz a.ko x

theorem getLsbD_kbHighMask (hn : n ≤ 32) (i : ℕ) :
    (kbHighMask n).getLsbD i = (decide (i < 32) && !decide (n + i < 32)) := by
  rw [kbHighMask, show (0xFFFFFFFF#32) = BitVec.allOnes 32 from rfl, getLsbD_shiftLeft,
    getLsbD_allOnes]
  by_cases hi : i < 32
  · have hlt : i - (32 - n) < 32 := by omega
    by_cases hlow : i < 32 - n
    · have hin : n + i < 32 := by omega
      simp [hlow, hin]
    · have hin : ¬n + i < 32 := by omega
      simp [hlow, hin, hlt]
  · simp [hi]

theorem KnownWord.Has.eq_ko (h : b.Has y) (hfull : b.isFull = true) : y = b.ko :=
  Knows.eq h (of_decide_eq_true hfull)

theorem KnownWord.has_unknown (x : BitVec 32) : KnownWord.Has ⟨0#32, 0#32⟩ x := Knows.none x

theorem kbHighMask_eq (hn : n < 32) : kbHighMask n = ~~~(BitVec.allOnes 32 >>> n) := by
  apply eq_of_getLsbD_eq
  intro i hi
  rw [getLsbD_kbHighMask (Nat.le_of_lt hn), getLsbD_not, getLsbD_ushiftRight,
    getLsbD_allOnes]

theorem KnownWord.Has.shr (h : a.Has x) (hn : n < 32) :
    KnownWord.Has ⟨a.kz >>> n ||| kbHighMask n, a.ko >>> n⟩ (x >>> n) := by
  rw [kbHighMask_eq hn]
  exact Knows.shiftRight h n

theorem sshiftRight_eq_kbHighMask (hn : n < 32) :
    x.sshiftRight n = x >>> n ||| if x.getLsbD 31 then kbHighMask n else 0#32 := by
  rw [kbHighMask_eq hn, sshiftRight_eq_or, msb_eq_getLsbD_last]

theorem covers_sshiftRight (hn : n < 32) : Covers (x.sshiftRight n) (x >>> n) := by
  intro i hi
  rw [sshiftRight_eq_kbHighMask hn, getLsbD_or, hi, Bool.true_or]

theorem KnownWord.Has.sar (h : a.Has x) (hn : n < 32) :
    KnownWord.Has
      (if a.ko.getLsbD 31 then ⟨a.kz >>> n, a.ko >>> n ||| kbHighMask n⟩
        else if a.kz.getLsbD 31 then ⟨a.kz >>> n ||| kbHighMask n, a.ko >>> n⟩
        else ⟨a.kz >>> n, a.ko >>> n⟩)
      (x.sshiftRight n) := by
  have hshift := Knows.sshiftRight h n
  by_cases ho : a.ko.getLsbD 31 = true
  · have heq : a.ko.sshiftRight n = a.ko >>> n ||| kbHighMask n := by
      rw [sshiftRight_eq_kbHighMask hn, if_pos ho]
    rw [if_pos ho]
    rw [heq] at hshift
    exact hshift.mono (covers_sshiftRight hn) (Covers.refl _)
  · rw [if_neg ho]
    by_cases hz : a.kz.getLsbD 31 = true
    · have heq : a.kz.sshiftRight n = a.kz >>> n ||| kbHighMask n := by
        rw [sshiftRight_eq_kbHighMask hn, if_pos hz]
      rw [if_pos hz]
      rw [heq] at hshift
      exact hshift.mono (Covers.refl _) (covers_sshiftRight hn)
    · rw [if_neg hz]
      exact hshift.mono (covers_sshiftRight hn) (covers_sshiftRight hn)

end Masks

section Carry

variable {a b out : KnownWord} {x y r : BitVec 32} {c : Bool}

theorem kbAddLoop_has (ha : a.Has x) (hb : b.Has y)
    (hr : ∀ i < 32, r.getLsbD i = (x.getLsbD i ^^ (y.getLsbD i ^^ BitVec.carry i x y c))) :
    ∀ (n : ℕ) (out : KnownWord), n ≤ 32 → out.Has r →
      (kbAddLoop a b n (BitVec.carry (32 - n) x y c) out).Has r := by
  -- the bits found so far are those of the sum, and the carry is that into the next bit
  intro n
  induction n with
  | zero =>
    intro out _ hout
    exact hout
  | succ n ih =>
    intro out hn hout
    have hpos : 32 - (n + 1) = 31 - n := by omega
    have hnext : 32 - n = 31 - n + 1 := by omega
    rw [hpos]
    unfold kbAddLoop
    dsimp only
    by_cases hknown : (a.kz ||| a.ko).getLsbD (31 - n) = false ∨
        (b.kz ||| b.ko).getLsbD (31 - n) = false
    · rw [if_pos hknown]
      exact hout
    · rw [if_neg hknown]
      rw [not_or, Bool.not_eq_false, Bool.not_eq_false] at hknown
      have hx := ha.getLsbD_eq hknown.1
      have hy := hb.getLsbD_eq hknown.2
      have hbit := hr (31 - n) (by omega)
      have hcarry := carry_succ (31 - n) x y c
      rw [hx, hy] at hbit hcarry
      generalize BitVec.carry (31 - n) x y c = carry at *
      -- the new carry is the majority of the three bits
      have hmaj : ((a.ko.getLsbD (31 - n) && b.ko.getLsbD (31 - n)) ||
          ((a.ko.getLsbD (31 - n) ^^ b.ko.getLsbD (31 - n)) && carry)) =
          BitVec.carry (32 - n) x y c := by
        rw [hnext, hcarry]
        cases a.ko.getLsbD (31 - n) <;> cases b.ko.getLsbD (31 - n) <;> cases carry <;> rfl
      rw [hmaj]
      apply ih _ (by omega)
      by_cases hsum : (a.ko.getLsbD (31 - n) ^^ b.ko.getLsbD (31 - n) ^^ carry) = true
      · rw [if_pos hsum]
        refine Knows.insert_one hout ?_
        rw [hbit, ← Bool.xor_assoc]
        exact hsum
      · rw [if_neg hsum]
        refine Knows.insert_zero hout ?_
        rw [hbit, ← Bool.xor_assoc]
        exact Bool.eq_false_iff.mpr hsum

theorem kbAddLoop_add (ha : a.Has x) (hb : b.Has y) :
    (kbAddLoop a b 32 false ⟨0#32, 0#32⟩).Has (x + y) := by
  have hbits : ∀ i < 32, (x + y).getLsbD i =
      (x.getLsbD i ^^ (y.getLsbD i ^^ BitVec.carry i x y false)) := by
    intro i hi
    exact getLsbD_add hi x y
  have hloop := kbAddLoop_has ha hb hbits 32 ⟨0#32, 0#32⟩ (Nat.le_refl 32) (KnownWord.has_unknown _)
  rwa [carry_zero] at hloop

theorem kbAddLoop_sub (ha : a.Has x) (hb : b.Has y) :
    (kbAddLoop a ⟨b.ko, b.kz⟩ 32 true ⟨0#32, 0#32⟩).Has (x - y) := by
  have hneg : KnownWord.Has ⟨b.ko, b.kz⟩ (~~~y) := Knows.not hb
  have hsub : x - y = x + ~~~y + (BitVec.ofBool true).zeroExtend 32 := by
    rw [BitVec.sub_eq_add_neg, neg_eq_not_add, BitVec.add_assoc]
    rfl
  have hbits : ∀ i < 32, (x - y).getLsbD i =
      (x.getLsbD i ^^ ((~~~y).getLsbD i ^^ BitVec.carry i x (~~~y) true)) := by
    intro i hi
    rw [hsub]
    exact getLsbD_add_add_bool hi x (~~~y) true
  have hloop := kbAddLoop_has ha hneg hbits 32 ⟨0#32, 0#32⟩ (Nat.le_refl 32)
    (KnownWord.has_unknown _)
  rwa [Nat.sub_self] at hloop

end Carry

section Compute

variable {op : TccIrOp} {a b : KnownWord} {x y : BitVec 32}

def kbWord (op : TccIrOp) (x y : BitVec 32) : BitVec 32 :=
  let n := (y &&& 31#32).toNat
  match op with
  | .and => x &&& y
  | .or => x ||| y
  | .xor => x ^^^ y
  | .shl => x <<< n
  | .shr => x >>> n
  | .sar => x.sshiftRight n
  | .add => x + y
  | .sub => x - y
  | _ => x

theorem has_of_count {z : BitVec 32} {out : KnownWord} {f : ℕ → BitVec 32} (hb : b.Has y)
    (hz : z = f (y &&& 31#32).toNat) (h0 : f 0 = x) (ha : a.Has x)
    (hout : ∀ n, n = (b.ko &&& 31#32).toNat → n < 32 → out.Has (f n)) :
    (if b.isFull = false then ⟨0#32, 0#32⟩
      else if (b.ko &&& 31#32).toNat = 0 then a else out : KnownWord).Has z := by
  have hlt : (b.ko &&& 31#32).toNat < 32 := by
    rw [toNat_and_31]
    omega
  by_cases hfull : b.isFull = true
  · rw [if_neg (by rw [hfull]; exact Bool.false_ne_true.symm)]
    have hy := hb.eq_ko hfull
    rw [hy] at hz
    by_cases hn : (b.ko &&& 31#32).toNat = 0
    · rw [hz, hn, h0]
      exact ha
    · rw [if_neg hn, hz]
      exact hout _ rfl hlt
  · rw [if_pos (Bool.eq_false_iff.mpr hfull)]
    exact KnownWord.has_unknown z

theorem kbCompute_has (ha : a.Has x) (hb : b.Has y) : (kbCompute op a b).Has (kbWord op x y) := by
  cases op with
  | and => exact Knows.and ha hb
  | or => exact Knows.or ha hb
  | xor =>
    have hx := Knows.xor ha hb
    rw [BitVec.or_comm (a.kz &&& b.kz), BitVec.or_comm (a.kz &&& b.ko)] at hx
    exact hx
  | shl =>
    refine has_of_count hb (f := (x <<< ·)) rfl (shiftLeft_zero x) ha ?_
    rintro n rfl hn
    exact Knows.shiftLeft ha hn
  | shr =>
    refine has_of_count hb (f := (x >>> ·)) rfl (ushiftRight_zero x) ha ?_
    rintro n rfl hn
    exact ha.shr hn
  | sar =>
    refine has_of_count hb (f := (x.sshiftRight ·)) rfl (sshiftRight_zero) ha ?_
    rintro n rfl hn
    exact ha.sar hn
  | assign | load | zext => exact ha
  | add => exact kbAddLoop_add ha hb
  | sub => exact kbAddLoop_sub ha hb
  | _ => exact KnownWord.has_unknown _

def kbResult (op : TccIrOp) (x y : BitVec 32) : Option (BitVec 32) :=
  match op with
  | .assign | .load | .zext => some x
  | _ => aluWord op x y

theorem and_31_eq_self (hy : y.toNat < 32) : (y &&& 31#32).toNat = y.toNat := by
  rw [toNat_and_31]
  exact Nat.mod_eq_of_lt hy

theorem kbCompute_has_result {r : BitVec 32} (ha : a.Has x) (hb : b.Has y)
    (hcount : op = .shl ∨ op = .shr ∨ op = .sar → y.toNat < 32) (hr : kbResult op x y = some r) :
    (kbCompute op a b).Has r := by
  have hword := @kbCompute_has op a b x y ha hb
  cases op with
  | and | or | xor | add | sub | assign | load | zext =>
    cases hr
    exact hword
  | shl | shr | sar =>
    have hy : y.toNat < 32 := hcount (by simp)
    have h256 : y.toNat < 256 := by omega
    simp only [kbResult, aluWord, if_pos h256, Option.some.injEq] at hr
    simpa only [kbWord, and_31_eq_self hy, hr] using hword
  | _ => exact KnownWord.has_unknown _

/-- The masks of the result are disjoint if those of the operands are, and the result has the known
bits, a shift by 32 or more apart. -/
theorem kbCompute_sound (op : TccIrOp) (a b : KnownWord) :
    (a.kz &&& a.ko = 0#32 → b.kz &&& b.ko = 0#32 →
      (kbCompute op a b).kz &&& (kbCompute op a b).ko = 0#32) ∧
    ∀ x y r, a.Has x → b.Has y → (op = .shl ∨ op = .shr ∨ op = .sar → y.toNat < 32) →
      kbResult op x y = some r → (kbCompute op a b).Has r := by
  constructor
  · intro ha hb
    -- disjoint masks are those of their ones, and the masks of a value are disjoint
    have hword := @kbCompute_has op a b a.ko b.ko (Knows.of_disjoint ha) (Knows.of_disjoint hb)
    exact Knows.disjoint hword
  · intro x y r ha hb hcount hr
    exact kbCompute_has_result ha hb hcount hr

/-- `x + 1` for an even `x`, of which the other bits are unknown. -/
theorem kbCompute_sound_even :
    (kbCompute .add ⟨1#32, 0#32⟩ (.const 1#32)).Has 7#32 := by
  have heven : KnownWord.Has ⟨1#32, 0#32⟩ 6#32 := by
    constructor
    · intro i hi
      have h0 : i = 0 := by
        by_contra hne
        have hone : (1#32).getLsbD i = decide (0 < 32 ∧ 0 = i) := by
          simp [eq_comm]
        rw [hone, decide_eq_true_eq] at hi
        exact hne hi.2.symm
      rw [h0]
      rfl
    · intro i hi
      rw [getLsbD_zero] at hi
      cases hi
  have hcount : TccIrOp.add = .shl ∨ TccIrOp.add = .shr ∨ TccIrOp.add = .sar →
      (1#32).toNat < 32 := by
    decide
  exact (kbCompute_sound .add ⟨1#32, 0#32⟩ (.const 1#32)).2 6#32 1#32 7#32 heven
    (Knows.const 1#32) hcount rfl

/-- `1 << 32` is 0 on the machine, and `kb_compute` says that bit 0 is set. -/
theorem kbCompute_unsound_shl :
    (KnownWord.const 1#32).Has 1#32 ∧ (KnownWord.const 32#32).Has 32#32 ∧
      kbResult .shl 1#32 32#32 = some 0#32 ∧
      ¬(kbCompute .shl (.const 1#32) (.const 32#32)).Has 0#32 := by
  refine ⟨Knows.const _, Knows.const _, by decide, ?_⟩
  intro h
  have hbit := h.one 0 (by decide)
  exact absurd hbit (by decide)

end Compute

section Narrow

variable {World : Type} {M : ValueSem World} {st : KBState} {q : IRQuadCompact} {dpos : ℕ}
  {σ : Vreg → BitVec 64} {w : World} {bs : BitVec 8} {bfi : BitVec 16} {v : BitVec 32}

namespace IROperand

def isFixed (s : IROperand) : Bool :=
  !s.isLval &&
    match s.data with
    | .imm32 _ | .i64 _ | .f32 _ | .f64 _ | .symref (some _) _ => true
    | _ => false

/-- The upper word of the value can differ from 0. -/
def hasHighWord (s : IROperand) : Bool := !s.isFixed || hiWord s.getImm64 ≠ 0#32

end IROperand

/-- The low words that the pass holds for the operands are theirs. -/
def KBState.LowKnown (st : KBState) (M : ValueSem World) (q : IRQuadCompact)
    (σ : Vreg → BitVec 64) (w : World) : Prop :=
  (∀ v, st.low32Of q.getSrc1 = some v → loWord (M.operand q.src1 σ w) = v) ∧
    ∀ v, st.low32Of q.getSrc2 = some v → loWord (M.operand q.src2 σ w) = v

/-- The rewrite changes whether a right shift takes the upper word of its left operand: a doubleword
shifted by 32 has been made a word, or the count of one has been made 32. -/
def KBState.mistakesHighHalf (st : KBState) (q : IRQuadCompact) : Prop :=
  q.op = .shr ∧
    (((st.low32Of q.src1).isSome = true ∧ q.src2.isImmediate = true ∧ q.src2.getImm64 = 32#64) ∨
      (st.low32Of q.src1 = none ∧ st.low32Of q.src2 = some 32#32 ∧ q.src1.is64 = true ∧
        q.src1.hasHighWord = true))

variable {s : IROperand}

theorem btype_of_low32Of (h : st.low32Of s = some v) :
    s.btype = .int64 ∧ ∃ sp, s.vreg = some ⟨.temp, sp⟩ := by
  unfold KBState.low32Of at h
  split at h
  · next sp hb hv => exact ⟨hb, sp, hv⟩
  · cases h

theorem is64_of_low32Of (h : st.low32Of s = some v) : s.is64 = true := by
  unfold IROperand.is64
  rw [(btype_of_low32Of h).1]
  rfl

theorem quad_kbDestNarrowWideSrc (hd : q.dest.is64 = false) :
    (kbDestNarrowWideSrc st q dpos).quad =
      if kbNarrows q.op then
        match st.low32Of q.getSrc1, st.low32Of q.getSrc2 with
        | some v, _ => q.narrowSrc1 v
        | none, some v => q.narrowSrc2 v
        | none, none => q
      else q := by
  have hb : q.dest.btype ≠ .int64 := by
    intro h
    unfold IROperand.is64 at hd
    rw [h] at hd
    cases hd
  unfold kbDestNarrowWideSrc
  by_cases hw : q.hasWideSrc = true
  · rw [if_neg (by rw [hw]; exact Bool.false_ne_true.symm)]
    by_cases hn : kbNarrows q.op = true
    · rw [if_pos ⟨hn, hb⟩, if_pos hn]
      cases st.low32Of q.getSrc1 with
      | some v =>
        dsimp only
        split <;> rfl
      | none =>
        cases st.low32Of q.getSrc2 with
        | some v =>
          dsimp only
          split <;> rfl
        | none => rfl
    · rw [if_neg fun h => hn h.1, if_neg hn]
  · have hwide : ∀ s : IROperand, s.btype.isWide = false → st.low32Of s = none := by
      intro s hs
      cases hl : st.low32Of s with
      | none => rfl
      | some v =>
        rw [(btype_of_low32Of hl).1] at hs
        cases hs
    have hw' := Bool.eq_false_iff.mpr hw
    unfold IRQuadCompact.hasWideSrc at hw'
    rw [Bool.or_eq_false_iff] at hw'
    rw [if_pos (Bool.eq_false_iff.mpr hw), hwide _ hw'.1, hwide _ hw'.2]
    split <;> rfl

theorem instrValue_eq_of_loWord {q' : IRQuadCompact} (hn : kbNarrows q.op = true)
    (hd : q.dest.is64 = false) (hop : q'.op = q.op) (hdest : q'.dest = q.dest)
    (h1 : loWord (M.operand q'.src1 σ w) = loWord (M.operand q.src1 σ w))
    (hz : loWord (M.zext q'.src1 σ w) = loWord (M.zext q.src1 σ w))
    (h2 : loWord (M.operand q'.src2 σ w) = loWord (M.operand q.src2 σ w))
    (hh : q.takesHighHalf bs = false) (hh' : q'.takesHighHalf bs = false) :
    M.instrValue bs bfi q' σ w = M.instrValue bs bfi q σ w := by
  have halu : M.alu bs q' σ w = M.alu bs q σ w := by
    unfold ValueSem.alu
    dsimp only
    rw [hdest, hd, hh, hh', hop, h1, h2]
    rfl
  have hcopy : M.copy q'.dest q'.src1 σ w = M.copy q.dest q.src1 σ w := by
    unfold ValueSem.copy
    rw [hdest, hd, h1]
    simp
  unfold ValueSem.instrValue
  rw [hop]
  cases h : q.op with
  | shl | shr | sar | and | sub | add => exact halu
  | assign => exact congrArg some hcopy
  | zext =>
    rw [hdest, hd, hz]
    rfl
  | _ => exact absurd hn (by rw [h]; decide)

theorem operand_of_isFixed (hf : s.isFixed = true) (h : hiWord s.getImm64 ≠ 0#32) :
    M.operand s σ w = s.getImm64 := by
  apply operand_of_isImmediate
  unfold IROperand.isFixed at hf
  unfold IROperand.isImmediate
  unfold IROperand.getImm64 at h
  cases hl : s.isLval with
  | true => simp [hl] at hf
  | false =>
    cases hd : s.data with
    | symref sym a =>
      rw [hd] at h
      exact absurd (show hiWord 0#64 = 0#32 by decide) h
    | imm32 | i64 | f32 | f64 => rfl
    | none | vreg | stackoff => simp [hl, hd] at hf

theorem isFixed_of_isImmediate (h : s.isImmediate = true) : s.isFixed = true := by
  unfold IROperand.isImmediate at h
  unfold IROperand.isFixed
  cases hl : s.isLval with
  | true => simp [hl] at h
  | false => cases hd : s.data <;> first | rfl | simp [hl, hd] at h

theorem zext_of_is64 (h : s.is64 = true) : M.zext s σ w = M.operand s σ w := by
  unfold ValueSem.zext
  rw [h]
  rfl

theorem takesHighHalf_narrowSrc1 : (q.narrowSrc1 v).takesHighHalf bs = false := by
  simp [IRQuadCompact.takesHighHalf, IRQuadCompact.narrowSrc1, IROperand.makeImm32, IROperand.is64]

theorem takesHighHalf_narrowSrc2 (hd : q.dest.is64 = false) :
    (q.narrowSrc2 v).takesHighHalf bs = true ↔
      q.op = .shr ∧ q.src1.is64 = true ∧ v = 32#32 ∧ bs = 0#8 := by
  have h32 : v.signExtend 64 = 32#64 ↔ v = 32#32 := by
    constructor
    · intro h
      rw [← loWord_signExtend v, h]
      rfl
    · rintro rfl
      rfl
  unfold IRQuadCompact.takesHighHalf
  simp only [Bool.and_eq_true, decide_eq_true_eq]
  simp [IRQuadCompact.narrowSrc2, IROperand.makeImm32, IROperand.isImmediate, IROperand.getImm64,
    h32, hd, and_assoc]

theorem instrValue_src1 (hn : kbNarrows q.op = true) (hd : q.dest.is64 = false)
    (h64 : q.src1.is64 = true) (hv : loWord (M.operand q.src1 σ w) = v)
    (hh : q.takesHighHalf bs = false) :
    M.instrValue bs bfi (q.narrowSrc1 v) σ w = M.instrValue bs bfi q σ w := by
  refine instrValue_eq_of_loWord hn hd rfl rfl ?_ ?_ rfl hh ?_
  · exact (loWord_signExtend v).trans hv.symm
  · rw [zext_of_is64 h64, hv]
    show loWord (ofWord (loWord (v.signExtend 64))) = v
    rw [loWord_signExtend, loWord_ofWord]
  · exact takesHighHalf_narrowSrc1

theorem instrValue_src2 (hn : kbNarrows q.op = true) (hd : q.dest.is64 = false)
    (hv : loWord (M.operand q.src2 σ w) = v) (hh : q.takesHighHalf bs = false)
    (hh' : (q.narrowSrc2 v).takesHighHalf bs = false) :
    M.instrValue bs bfi (q.narrowSrc2 v) σ w = M.instrValue bs bfi q σ w :=
  instrValue_eq_of_loWord hn hd rfl rfl rfl rfl ((loWord_signExtend v).trans hv.symm) hh hh'

theorem takesHighHalf_eq_false (h : q.op ≠ .shr ∨ q.src2.isImmediate = false ∨
    q.src2.getImm64 ≠ 32#64) : q.takesHighHalf bs = false := by
  unfold IRQuadCompact.takesHighHalf
  rcases h with h | h | h <;> simp [h]

def ValueSem.constant (c : BitVec 64) : ValueSem Unit :=
  ⟨fun _ _ _ => c, fun _ => 0#32, fun _ => default⟩

theorem operand_constant {c : BitVec 64} (hf : s.isFixed = false) (h64 : s.is64 = true) :
    (ValueSem.constant c).operand s (fun _ => c) () = c := by
  have hfit : ValueSem.fit s c = c := if_pos h64
  unfold IROperand.isFixed at hf
  unfold ValueSem.operand
  cases hl : s.isLval with
  | true => exact hfit
  | false =>
    rw [hl] at hf
    cases hd : s.data with
    | vreg => cases s.vreg <;> exact hfit
    | none | stackoff => exact hfit
    | symref sym a =>
      cases sym with
      | none => exact hfit
      | some s => simp [hd] at hf
    | _ => simp [hd] at hf

theorem hiWord_operand_eq_zero (h : s.hasHighWord = false) :
    hiWord (M.operand s σ w) = 0#32 := by
  unfold IROperand.hasHighWord at h
  simp only [Bool.or_eq_false_iff, Bool.not_eq_false', decide_eq_false_iff_not, ne_eq,
    not_not] at h
  by_cases himm : s.isImmediate = true
  · rw [operand_of_isImmediate himm]
    exact h.2
  · -- a fixed value that is no constant is the address of a symbol
    have hf := h.1
    unfold IROperand.isFixed at hf
    unfold IROperand.isImmediate at himm
    unfold ValueSem.operand
    cases hl : s.isLval with
    | true => simp [hl] at hf
    | false =>
      cases hd : s.data with
      | symref sym a =>
        cases sym with
        | none => simp [hl, hd] at hf
        | some sy => exact hiWord_ofWord _
      | imm32 | i64 | f32 | f64 => simp [hl, hd] at himm
      | none | vreg | stackoff => simp [hl, hd] at hf

theorem instrValue_shr_32 (hop : q.op = .shr) (hd : q.dest.is64 = false)
    (hh : q.takesHighHalf 0#8 = false) (h2 : loWord (M.operand q.src2 σ w) = 32#32) :
    M.instrValue 0#8 bfi q σ w = some (ofWord 0#32) := by
  unfold ValueSem.instrValue
  unfold ValueSem.alu
  dsimp only
  rw [hd, hh, hop, h2]
  have hshift : loWord (M.operand q.src1 σ w) >>> 32 = 0#32 :=
    ushiftRight_eq_zero (Nat.le_refl 32)
  show some (ofWord (loWord (M.operand q.src1 σ w) >>> 32)) = _
  rw [hshift]

theorem instrValue_highHalf (hd : q.dest.is64 = false) (hh : q.takesHighHalf 0#8 = true) :
    M.instrValue 0#8 bfi q σ w = some (ofWord (hiWord (M.operand q.src1 σ w))) := by
  have hop : q.op = .shr := by
    unfold IRQuadCompact.takesHighHalf at hh
    simp only [Bool.and_eq_true, decide_eq_true_eq] at hh
    exact hh.1.1.1.1.1
  unfold ValueSem.instrValue
  rw [hop]
  unfold ValueSem.alu
  rw [hd, hh]
  rfl

theorem getSrc1_of_kbNarrows (hn : kbNarrows q.op = true) : q.getSrc1 = q.src1 := by
  unfold IRQuadCompact.getSrc1
  cases h : q.op <;> first | rfl | (rw [h] at hn; exact absurd hn (by decide))

theorem getSrc2_of_low32Of (h : st.low32Of q.getSrc2 = some v) : q.getSrc2 = q.src2 := by
  unfold IRQuadCompact.getSrc2 at h ⊢
  by_cases hs : (iropConfig q.op).hasSrc2 = true
  · rw [if_pos hs]
  · rw [if_neg hs] at h
    cases h

theorem isImmediate_of_low32Of (hwf : s.vreg.isSome = true → s.isFixed = false)
    (h : st.low32Of s = some v) : s.isImmediate = false := by
  obtain ⟨_, sp, hv⟩ := btype_of_low32Of h
  rw [← Bool.not_eq_true]
  intro himm
  have hf := hwf (by rw [hv]; rfl)
  rw [isFixed_of_isImmediate himm] at hf
  cases hf

def highOne (v : BitVec 32) : BitVec 64 := 1#64 <<< 32 ||| ofWord v

theorem loWord_highOne (v : BitVec 32) : loWord (highOne v) = v := by
  rw [highOne, loWord_or, loWord_ofWord]
  show (1#32 <<< 32) ||| v = v
  rw [show (1#32 <<< 32 : BitVec 32) = 0#32 by decide, zero_or]

theorem hiWord_highOne (v : BitVec 32) : hiWord (highOne v) = 1#32 := by
  have hor : hiWord (highOne v) = hiWord (1#64 <<< 32) ||| hiWord (ofWord v) := by
    unfold highOne hiWord
    rw [ushiftRight_or_distrib]
    exact setWidth_or
  rw [hor, hiWord_ofWord]
  decide

theorem highHalf_lost (hop : q.op = .shr) (hd : q.dest.is64 = false)
    (hwf1 : q.src1.vreg.isSome = true → q.src1.isFixed = false)
    (hv : st.low32Of q.src1 = some v) (himm : q.src2.isImmediate = true)
    (h32 : q.src2.getImm64 = 32#64) :
    let c := highOne v
    loWord ((ValueSem.constant c).operand q.src1 (fun _ => c) ()) = v ∧
      (ValueSem.constant c).instrValue 0#8 bfi (q.narrowSrc1 v) (fun _ => c) () ≠
        (ValueSem.constant c).instrValue 0#8 bfi q (fun _ => c) () := by
  -- the shift takes the 1 in the upper word, which the word no longer has
  intro c
  obtain ⟨_, sp, hreg⟩ := btype_of_low32Of hv
  have h64 := is64_of_low32Of hv
  have hval := @operand_constant q.src1 c (hwf1 (by rw [hreg]; rfl)) h64
  have hold : q.takesHighHalf 0#8 = true := by
    simp [IRQuadCompact.takesHighHalf, hop, h64, hd, himm, h32]
  refine ⟨by rw [hval, loWord_highOne], ?_⟩
  rw [instrValue_highHalf hd hold, hval, hiWord_highOne,
    @instrValue_shr_32 _ _ (q.narrowSrc1 v) _ _ _ hop hd takesHighHalf_narrowSrc1
      (by rw [show (q.narrowSrc1 v).src2 = q.src2 from rfl, operand_of_isImmediate himm, h32]; rfl)]
  decide

theorem highHalf_taken (hop : q.op = .shr) (hd : q.dest.is64 = false)
    (hwf2 : q.src2.vreg.isSome = true → q.src2.isFixed = false)
    (hcount : st.low32Of q.src2 = some 32#32) (h64 : q.src1.is64 = true)
    (hhigh : q.src1.hasHighWord = true) :
    let c := highOne 32#32
    loWord ((ValueSem.constant c).operand q.src2 (fun _ => c) ()) = 32#32 ∧
      (ValueSem.constant c).instrValue 0#8 bfi (q.narrowSrc2 32#32) (fun _ => c) () ≠
        (ValueSem.constant c).instrValue 0#8 bfi q (fun _ => c) () := by
  -- a count that becomes the constant 32 takes the upper word
  intro c
  obtain ⟨_, sp, hreg⟩ := btype_of_low32Of hcount
  have hval := @operand_constant q.src2 c (hwf2 (by rw [hreg]; rfl)) (is64_of_low32Of hcount)
  have hlow : loWord ((ValueSem.constant c).operand q.src2 (fun _ => c) ()) = 32#32 := by
    rw [hval, loWord_highOne]
  have hnew : (q.narrowSrc2 32#32).takesHighHalf 0#8 = true :=
    (takesHighHalf_narrowSrc2 hd).mpr ⟨hop, h64, rfl, rfl⟩
  have hold : q.takesHighHalf 0#8 = false :=
    takesHighHalf_eq_false (.inr (.inl (isImmediate_of_low32Of hwf2 hcount)))
  have hhi : hiWord ((ValueSem.constant c).operand q.src1 (fun _ => c) ()) ≠ 0#32 := by
    by_cases hf : q.src1.isFixed = true
    · have himm : hiWord q.src1.getImm64 ≠ 0#32 := by
        simpa [IROperand.hasHighWord, hf] using hhigh
      rw [operand_of_isFixed hf himm]
      exact himm
    · rw [operand_constant (Bool.eq_false_iff.mpr hf) h64]
      decide
  refine ⟨hlow, ?_⟩
  rw [instrValue_shr_32 hop hd hold hlow, @instrValue_highHalf _ _ (q.narrowSrc2 32#32) _ _ _ hd hnew]
  intro heq
  rw [Option.some.injEq] at heq
  have hzero := congrArg loWord heq
  rw [loWord_ofWord] at hzero
  exact hhi hzero

/-- A doubleword operand with a known low word may be replaced by that word exactly if this does not
change whether a right shift takes its upper word. -/
theorem kbDestNarrowWideSrc_value_iff (st : KBState) (q : IRQuadCompact) (dpos : ℕ)
    (hd : q.dest.is64 = false) (hwf1 : q.src1.vreg.isSome = true → q.src1.isFixed = false)
    (hwf2 : q.src2.vreg.isSome = true → q.src2.isFixed = false) :
    (∀ (World : Type) (M : ValueSem World) (bs : BitVec 8) (bfi : BitVec 16)
        (σ : Vreg → BitVec 64) (w : World), st.LowKnown M q σ w →
        M.instrValue bs bfi (kbDestNarrowWideSrc st q dpos).quad σ w =
          M.instrValue bs bfi q σ w) ↔ ¬st.mistakesHighHalf q := by
  rw [quad_kbDestNarrowWideSrc hd]
  constructor
  · rintro h ⟨hop, hcase⟩
    have hn : kbNarrows q.op = true := by
      rw [hop]
      rfl
    have hs1 : q.getSrc1 = q.src1 := getSrc1_of_kbNarrows hn
    have hs2 : q.getSrc2 = q.src2 := by
      unfold IRQuadCompact.getSrc2
      rw [hop]
      rfl
    unfold KBState.LowKnown at h
    rw [if_pos hn, hs1, hs2] at h
    rcases hcase with ⟨hsome, himm, h32⟩ | ⟨hnone, hcount, h64, hhigh⟩
    · obtain ⟨v, hv⟩ := Option.isSome_iff_exists.mp hsome
      obtain ⟨hlow, hne⟩ := @highHalf_lost st q 0#16 v hop hd hwf1 hv himm h32
      rw [hv] at h
      apply hne
      apply h
      constructor
      · rintro u ⟨rfl⟩
        exact hlow
      · intro u hu
        rw [isImmediate_of_low32Of hwf2 hu] at himm
        cases himm
    · obtain ⟨hlow, hne⟩ := @highHalf_taken st q 0#16 hop hd hwf2 hcount h64 hhigh
      rw [hnone, hcount] at h
      apply hne
      apply h
      constructor
      · rintro u ⟨⟩
      · rintro u ⟨rfl⟩
        exact hlow
  · intro hm World M bs bfi σ w hlow
    by_cases hn : kbNarrows q.op = true
    · rw [if_pos hn]
      have hs1 : q.getSrc1 = q.src1 := getSrc1_of_kbNarrows hn
      cases hv1 : st.low32Of q.getSrc1 with
      | some v =>
        have hv : st.low32Of q.src1 = some v := by rw [← hs1, hv1]
        refine instrValue_src1 hn hd (is64_of_low32Of hv) (hlow.1 v hv1) ?_
        apply takesHighHalf_eq_false
        by_contra hall
        simp only [not_or, ne_eq, not_not, Bool.not_eq_false] at hall
        exact hm ⟨hall.1, .inl ⟨by rw [hv]; rfl, hall.2⟩⟩
      | none =>
        cases hv2 : st.low32Of q.getSrc2 with
        | none => rfl
        | some v =>
          have hs2 := getSrc2_of_low32Of hv2
          have hv : st.low32Of q.src2 = some v := by rw [← hs2, hv2]
          have hold : ∀ bs, q.takesHighHalf bs = false := fun bs =>
            takesHighHalf_eq_false (.inr (.inl (isImmediate_of_low32Of hwf2 hv)))
          by_cases hnew : (q.narrowSrc2 v).takesHighHalf bs = true
          · -- the constant 32 takes the upper word, which is 0 here
            obtain ⟨hop, h64, rfl, rfl⟩ := (takesHighHalf_narrowSrc2 hd).mp hnew
            have hhigh : q.src1.hasHighWord = false := by
              rw [← Bool.not_eq_true]
              intro hhigh
              exact hm ⟨hop, .inr ⟨by rw [← hs1, hv1], hv, h64, hhigh⟩⟩
            rw [@instrValue_highHalf _ _ (q.narrowSrc2 32#32) _ _ _ hd hnew,
              instrValue_shr_32 hop hd (hold _) (hlow.2 _ hv2)]
            exact congrArg (fun x => some (ofWord x)) (hiWord_operand_eq_zero hhigh)
          · exact instrValue_src2 hn hd (hlow.2 v hv2) (hold bs) (Bool.eq_false_iff.mpr hnew)
    · rw [if_neg hn]

def shiftedState : KBState := ⟨fun _ => ⟨1, ⟨0xFFFFFFFF#32, 0#32⟩, true⟩, 2, 1⟩

def narrowQuad (op : TccIrOp) : IRQuadCompact :=
  ⟨op, 0, .makeVreg ⟨.temp, 2⟩ .int32, .makeVreg ⟨.temp, 1⟩ .int64, .makeImm32 32#32 .int32, .none⟩

theorem lowKnown_shiftedState (op : TccIrOp) (hs : (iropConfig op).hasSrc2 = true) :
    shiftedState.LowKnown (.constant (highOne 0#32)) (narrowQuad op) (fun _ => highOne 0#32) () := by
  constructor
  · intro v hv
    have hreg : (narrowQuad op).getSrc1 = (narrowQuad op).src1 ∨
        (narrowQuad op).getSrc1 = .none := by
      unfold IRQuadCompact.getSrc1
      split
      · exact .inl rfl
      · exact .inr rfl
    rcases hreg with h | h
    · rw [h] at hv
      cases hv
      exact loWord_highOne 0#32
    · rw [h] at hv
      cases hv
  · intro v hv
    rw [show (narrowQuad op).getSrc2 = (narrowQuad op).src2 from if_pos hs] at hv
    cases hv

/-- `T2 = T1 + 32` for a `T1` whose low word is 0. -/
theorem kbDestNarrowWideSrc_value_add :
    (ValueSem.constant (highOne 0#32)).instrValue 0#8 0#16
        (kbDestNarrowWideSrc shiftedState (narrowQuad .add) 2).quad (fun _ => highOne 0#32) () =
      (ValueSem.constant (highOne 0#32)).instrValue 0#8 0#16 (narrowQuad .add)
        (fun _ => highOne 0#32) () := by
  have hadd : ¬shiftedState.mistakesHighHalf (narrowQuad .add) := by
    rintro ⟨hop, _⟩
    cases hop
  exact (kbDestNarrowWideSrc_value_iff shiftedState (narrowQuad .add) 2 rfl (fun _ => rfl)
    (fun h => absurd h (by decide))).mpr hadd Unit (.constant (highOne 0#32)) 0#8 0#16
    (fun _ => highOne 0#32) () (lowKnown_shiftedState .add rfl)

/-- The upper word of `T1` is 1: `T2` is 1 before the rewrite and 0 after it. -/
theorem kbDestNarrowWideSrc_loses_highHalf :
    shiftedState.LowKnown (.constant (highOne 0#32)) (narrowQuad .shr) (fun _ => highOne 0#32) () ∧
      (ValueSem.constant (highOne 0#32)).instrValue 0#8 0#16 (narrowQuad .shr)
        (fun _ => highOne 0#32) () = some 1#64 ∧
      (ValueSem.constant (highOne 0#32)).instrValue 0#8 0#16
        (kbDestNarrowWideSrc shiftedState (narrowQuad .shr) 2).quad
        (fun _ => highOne 0#32) () = some 0#64 := by
  exact ⟨lowKnown_shiftedState .shr rfl, by decide, by decide⟩

end Narrow

end Tinycc
