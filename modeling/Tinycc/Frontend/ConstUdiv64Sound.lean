import Tinycc.Frontend.ConstUdiv64
import Tinycc.IR.Words
import Tinycc.Lib.ReciprocalDivision
import Mathlib.Tactic.IntervalCases

namespace Tinycc
open Lib Function Option Nat List
open BitVec hiding not_not

section Straight

variable {World : Type} {M : ValueSem World} {w : World} {σ₀ : Vreg → BitVec 64} {c₀ c : LlDivCode}

theorem runQuads_append (qs qs' : List IRQuadCompact) (σ : Vreg → BitVec 64) :
    runQuads M w (qs ++ qs') σ = (runQuads M w qs σ).bind (runQuads M w qs') := by
  induction qs generalizing σ with
  | nil => rfl
  | cons q qs ih =>
    simp only [List.cons_append, runQuads, bind_assoc, ih]

/-- What is known of the operands after the code put since `c₀` has run from `σ₀`: each pair is a
TEMP that was given a value and the value it reads as. -/
def Holds (M : ValueSem World) (w : World) (c₀ : LlDivCode) (σ₀ : Vreg → BitVec 64)
    (c : LlDivCode) (Γ : List (IROperand × BitVec 64)) : Prop :=
  ∃ code σ, c.instrs = c₀.instrs ++ code ∧ runQuads M w code σ₀ = some σ ∧
    ∀ p ∈ Γ, (∃ t type, p.1 = llDivTemp t type ∧ t < c.nextTemp) ∧ M.operand p.1 σ w = p.2

inductive Known (Γ : List (IROperand × BitVec 64)) : IROperand → BitVec 64 → Prop
  | temp {x : IROperand} {v : BitVec 64} : (x, v) ∈ Γ → Known Γ x v
  | word (v : BitVec 64) : Known Γ (llDivConst v .word) ((loWord v).signExtend 64)
  | wide (v : BitVec 64) : Known Γ (llDivConst v .wide) v
  | count (n : ℕ) : Known Γ (llDivCount n) ((BitVec.ofNat 32 n).signExtend 64)

/-- The emitter puts code that leaves `v` in the operand it returns, whenever it is called with the
operands of `Γ` at hand, and these keep their values. -/
def Emits (M : ValueSem World) (w : World) (m : LlDivM IROperand)
    (Γ : List (IROperand × BitVec 64)) (v : BitVec 64) : Prop :=
  ∀ c₀ σ₀ c, Holds M w c₀ σ₀ c Γ → Holds M w c₀ σ₀ (m c).2 (((m c).1, v) :: Γ)

variable {Γ : List (IROperand × BitVec 64)} {x a b : IROperand} {v v' r s : BitVec 64}

theorem Holds.mono {Γ' : List (IROperand × BitVec 64)} (h : Holds M w c₀ σ₀ c Γ)
    (hsub : ∀ p ∈ Γ', p ∈ Γ) : Holds M w c₀ σ₀ c Γ' := by
  obtain ⟨code, σ, hcode, hrun, hΓ⟩ := h
  exact ⟨code, σ, hcode, hrun, fun p hp => hΓ p (hsub p hp)⟩

theorem Emits.ret (hx : (x, v) ∈ Γ) : Emits M w (pure x) Γ v := by
  intro c₀ σ₀ c h
  refine h.mono fun p hp => ?_
  rcases mem_cons.mp hp with rfl | hp
  · exact hx
  · exact hp

theorem Emits.bind {m : LlDivM IROperand} {f : IROperand → LlDivM IROperand}
    (hm : Emits M w m Γ v) (hf : ∀ x, Emits M w (f x) ((x, v) :: Γ) v') :
    Emits M w (m >>= f) Γ v' := by
  intro c₀ σ₀ c h
  have h' := hf (m c).1 c₀ σ₀ (m c).2 (hm c₀ σ₀ c h)
  refine Holds.mono h' fun p hp => ?_
  rcases mem_cons.mp hp with rfl | hp
  · exact mem_cons_self
  · exact mem_cons_of_mem _ (mem_cons_of_mem _ hp)

theorem Known.operand {σ : Vreg → BitVec 64} (h : Known Γ a r)
    (hΓ : ∀ p ∈ Γ, M.operand p.1 σ w = p.2) : M.operand a σ w = r := by
  cases h with
  | temp hx => exact hΓ _ hx
  | word v => rfl
  | wide v => rfl
  | count n => rfl

theorem operand_llDivTemp_update (t : ℕ) (type : LlDivType) (σ : Vreg → BitVec 64)
    (y : BitVec 64) :
    M.operand (llDivTemp t type) (update σ ⟨.temp, t⟩ y) w =
      if type = .wide then y else ofWord (loWord y) := by
  cases type <;> simp [ValueSem.operand, llDivTemp, ValueSem.fit, IROperand.is64, LlDivType.btype]

theorem operand_llDivTemp_of_ne {t t' : ℕ} (type : LlDivType) (σ : Vreg → BitVec 64)
    (y : BitVec 64) (h : t ≠ t') :
    M.operand (llDivTemp t type) (update σ ⟨.temp, t'⟩ y) w =
      M.operand (llDivTemp t type) σ w := by
  have hne : (⟨.temp, t⟩ : Vreg) ≠ ⟨.temp, t'⟩ := fun e => h (congrArg Vreg.position e)
  simp [ValueSem.operand, llDivTemp, update_of_ne hne]

section

variable (ha : Known Γ a r)
include ha

section

variable (hb : Known Γ b s)
include hb

theorem Emits.emit {op : TccIrOp} {type : LlDivType}
    (hv : ∀ σ k t, (∀ p ∈ Γ, ∃ t' type', p.1 = llDivTemp t' type') →
      M.operand a σ w = r → M.operand b σ w = s →
      M.instrValue 0#8 0#16 ⟨op, k, llDivTemp t type, a, b, .none⟩ σ w = some v)
    (hfit : (if type = .wide then v else ofWord (loWord v)) = v') :
    Emits M w (llDivEmit op a b type) Γ v' := by
  rintro c₀ σ₀ c ⟨code, σ, hcode, hrun, hΓ⟩
  have htemp : ∀ p ∈ Γ, ∃ t type, p.1 = llDivTemp t type := by
    intro p hp
    obtain ⟨⟨t, type, ht, _⟩, _⟩ := hΓ p hp
    exact ⟨t, type, ht⟩
  have hval := hv σ c.instrs.length c.nextTemp htemp (ha.operand fun p hp => (hΓ p hp).2)
    (hb.operand fun p hp => (hΓ p hp).2)
  refine ⟨code ++ [⟨op, c.instrs.length, llDivTemp c.nextTemp type, a, b, .none⟩],
    update σ ⟨.temp, c.nextTemp⟩ v, ?_, ?_, ?_⟩
  · simp [llDivEmit, hcode]
  · have hdest : (llDivTemp c.nextTemp type).plainVreg = some ⟨.temp, c.nextTemp⟩ := rfl
    simp [runQuads_append, hrun, runQuads, hval, hdest]
  · intro p hp
    rcases mem_cons.mp hp with rfl | hp
    · exact ⟨⟨c.nextTemp, type, rfl, lt_succ_self _⟩,
        (operand_llDivTemp_update c.nextTemp type σ v).trans hfit⟩
    · obtain ⟨⟨t, type', ht, hlt⟩, hval'⟩ := hΓ p hp
      refine ⟨⟨t, type', ht, lt_succ_of_lt hlt⟩, ?_⟩
      rw [ht] at hval' ⊢
      rw [operand_llDivTemp_of_ne type' σ v (Nat.ne_of_lt hlt), hval']

theorem Emits.wide {op : TccIrOp}
    (hop : ∀ q : IRQuadCompact, ∀ σ, q.op = op →
      M.instrValue 0#8 0#16 q σ w = M.alu 0#8 q σ w)
    (hv : aluWide op r s = some v) : Emits M w (llDivEmit op a b .wide) Γ v := by
  refine .emit ha hb (fun σ k t _ h₁ h₂ => ?_) (if_pos rfl)
  rw [hop _ σ rfl]
  simp only [ValueSem.alu, h₁, h₂]
  exact hv

theorem Emits.add :
    Emits M w (llDivEmit .add a b .wide) Γ (r + s) :=
  .wide ha hb (fun q σ h => by simp only [ValueSem.instrValue, h]) rfl

theorem Emits.sub :
    Emits M w (llDivEmit .sub a b .wide) Γ (r - s) :=
  .wide ha hb (fun q σ h => by simp only [ValueSem.instrValue, h]) rfl

theorem Emits.and :
    Emits M w (llDivEmit .and a b .wide) Γ (r &&& s) :=
  .wide ha hb (fun q σ h => by simp only [ValueSem.instrValue, h]) rfl

theorem Emits.umull :
    Emits M w (llDivEmit .umull a b .wide) Γ (ofWord (loWord r) * ofWord (loWord s)) :=
  .wide ha hb (fun q σ h => by simp only [ValueSem.instrValue, h]) rfl

end

end

theorem toNat_count {n : ℕ} (hn : n < 64) : ((BitVec.ofNat 32 n).signExtend 64).toNat = n := by
  have hmsb : (BitVec.ofNat 32 n).msb = false := by
    rw [msb_eq_decide, decide_eq_false_iff_not, toNat_ofNat]
    omega
  rw [signExtend_eq_setWidth_of_msb_false hmsb, toNat_setWidth, toNat_ofNat,
    mod_eq_of_lt (a := n) (by omega), mod_eq_of_lt (by omega)]

theorem Emits.shr {n : ℕ} (hn : n < 64) (ha : Known Γ a r) :
    Emits M w (llDivEmit .shr a (llDivCount n) .wide) Γ (r >>> n) :=
  .wide ha (.count n) (fun q σ h => by simp only [ValueSem.instrValue, h])
    (by simp only [aluWide, toNat_count hn, hn, if_true])

theorem Emits.shl {n : ℕ} (hn : n < 64) (ha : Known Γ a r) :
    Emits M w (llDivEmit .shl a (llDivCount n) .wide) Γ (r <<< n) :=
  .wide ha (.count n) (fun q σ h => by simp only [ValueSem.instrValue, h])
    (by simp only [aluWide, toNat_count hn, hn, if_true])

theorem Emits.low (ha : Known Γ a r) : Emits M w (llDivLow a) Γ (ofWord (loWord r)) := by
  refine .emit ha ha (v := ofWord (loWord r)) (fun σ k t _ h _ => ?_) (by simp)
  simp [ValueSem.instrValue, ValueSem.copy, h, llDivTemp, LlDivType.btype, IROperand.is64]

theorem Emits.high (ha : Known Γ a r) : Emits M w (llDivHigh a) Γ (r >>> 32) :=
  .shr (by omega) ha

theorem Emits.zext {x : BitVec 32} (ha : (a, ofWord x) ∈ Γ) :
    Emits M w (llDivEmit .zext a a .wide) Γ (ofWord x) := by
  refine .emit (.temp ha) (.temp ha) (fun σ k t htemp h _ => ?_) (if_pos rfl)
  obtain ⟨t', type, ht⟩ := htemp _ ha
  rw [show a = llDivTemp t' type from ht] at h ⊢
  simp only [ValueSem.instrValue, ValueSem.zext, h]
  cases type <;> simp [llDivTemp, LlDivType.btype, IROperand.is64]

end Straight

section Values

variable {World : Type} {M : ValueSem World} {w : World} {Γ : List (IROperand × BitVec 64)}
  {n q : IROperand} {vn vq : BitVec 64}

theorem toNat_loWord (x : BitVec 64) : (loWord x).toNat = x.toNat % 2 ^ 32 := by
  simp [loWord]

theorem toNat_shiftRight32 (x : BitVec 64) : (x >>> 32).toNat = x.toNat / 2 ^ 32 := by
  rw [toNat_ushiftRight, Nat.shiftRight_eq_div_pow]

theorem toNat_umull (x y : BitVec 32) : (ofWord x * ofWord y).toNat = x.toNat * y.toNat := by
  have hlt : x.toNat * y.toNat < 2 ^ 32 * 2 ^ 32 := Nat.mul_lt_mul'' x.isLt y.isLt
  rw [toNat_mul, toNat_ofWord, toNat_ofWord]
  exact mod_eq_of_lt (by omega)

def mulHigh (x y : BitVec 64) : BitVec 64 := BitVec.ofNat 64 (x.toNat * y.toNat / 2 ^ 64)

theorem mulHigh_lt (x y : BitVec 64) : x.toNat * y.toNat / 2 ^ 64 < 2 ^ 64 := by
  have hlt : x.toNat * y.toNat < 2 ^ 64 * 2 ^ 64 := Nat.mul_lt_mul'' x.isLt y.isLt
  exact Nat.div_lt_of_lt_mul hlt

theorem toNat_mulHigh (x y : BitVec 64) : (mulHigh x y).toNat = x.toNat * y.toNat / 2 ^ 64 := by
  rw [mulHigh, toNat_ofNat, mod_eq_of_lt (mulHigh_lt x y)]

theorem toNat_eq_words (x : BitVec 64) :
    x.toNat = x.toNat % 2 ^ 32 + 2 ^ 32 * (x.toNat / 2 ^ 32) ∧
      x.toNat / 2 ^ 32 % 2 ^ 32 = x.toNat / 2 ^ 32 := by
  omega

theorem mulHigh_eq (x y : BitVec 64) :
    ofWord (loWord (x >>> 32)) * ofWord (loWord (y >>> 32)) +
        (ofWord (loWord x) * ofWord (loWord (y >>> 32))) >>> 32 +
        (ofWord (loWord (x >>> 32)) * ofWord (loWord y)) >>> 32 +
        ((ofWord (loWord x) * ofWord (loWord y)) >>> 32 +
          ofWord (loWord (ofWord (loWord x) * ofWord (loWord (y >>> 32)))) +
          ofWord (loWord (ofWord (loWord (x >>> 32)) * ofWord (loWord y)))) >>> 32 =
      mulHigh x y := by
  obtain ⟨hx, hx₁⟩ := toNat_eq_words x
  obtain ⟨hy, hy₁⟩ := toNat_eq_words y
  have hsum := mul_div_sq (B := 2 ^ 32) (x.toNat % 2 ^ 32) (x.toNat / 2 ^ 32) (y.toNat % 2 ^ 32)
    (y.toNat / 2 ^ 32) (by decide)
  rw [← hx, ← hy, show 2 ^ 32 * 2 ^ 32 = 2 ^ 64 from rfl] at hsum
  have hlt := mulHigh_lt x y
  have h₀₀ : x.toNat % 2 ^ 32 * (y.toNat % 2 ^ 32) < 2 ^ 32 * 2 ^ 32 :=
    Nat.mul_lt_mul'' (mod_lt _ (by decide)) (mod_lt _ (by decide))
  apply eq_of_toNat_eq
  rw [toNat_mulHigh]
  simp only [toNat_add, toNat_shiftRight32, toNat_umull, toNat_ofWord, toNat_loWord, hx₁, hy₁]
  rw [hsum] at hlt ⊢
  clear hsum hx hy hx₁ hy₁
  omega

theorem Emits.umullConst {a : IROperand} {x z : BitVec 32} {y : BitVec 64}
    (ha : (a, ofWord x) ∈ Γ) (hz : loWord y = z) :
    Emits M w (llDivEmit .umull a (llDivConst y .word) .wide) Γ (ofWord x * ofWord z) := by
  have h := Emits.umull (M := M) (w := w) (.temp ha) (Known.word y)
  rwa [loWord_ofWord, loWord_signExtend, hz] at h

theorem Emits.mulhi {magic : BitVec 64} (hn : (n, vn) ∈ Γ) :
    Emits M w (llDivMulhi n magic) Γ (mulHigh vn magic) := by
  rw [← mulHigh_eq]
  refine .bind (.low (.temp hn)) fun nl => ?_
  refine .bind (.high (.temp (mem_cons_of_mem _ hn))) fun nhWide => ?_
  refine .bind (.low (.temp mem_cons_self)) fun nh => ?_
  -- the words of the operand and of the reciprocal, and their products
  generalize loWord vn = n₀
  generalize loWord (vn >>> 32) = n₁
  refine .bind (.umullConst (x := n₀) (by simp) (loWord_ofWord _)) fun p00 => ?_
  refine .bind (.umullConst (x := n₀) (by simp) rfl) fun p01 => ?_
  refine .bind (.umullConst (x := n₁) (by simp) (loWord_ofWord _)) fun p10 => ?_
  refine .bind (.umullConst (x := n₁) (by simp) rfl) fun p11 => ?_
  generalize ofWord n₀ * ofWord (loWord magic) = v₀₀
  generalize ofWord n₀ * ofWord (loWord (magic >>> 32)) = v₀₁
  generalize ofWord n₁ * ofWord (loWord magic) = v₁₀
  generalize ofWord n₁ * ofWord (loWord (magic >>> 32)) = v₁₁
  refine .bind (.low (r := v₀₁) (.temp (by simp))) fun lo01 => ?_
  refine .bind (.low (r := v₁₀) (.temp (by simp))) fun lo10 => ?_
  refine .bind (.zext (x := loWord v₀₁) (by simp)) fun lo01 => ?_
  refine .bind (.zext (x := loWord v₁₀) (by simp)) fun lo10 => ?_
  -- the sum of the middle column, whose upper word is the carry
  refine .bind (.high (r := v₀₀) (.temp (by simp))) fun hi00 => ?_
  refine .bind (.add (r := v₀₀ >>> 32) (s := ofWord (loWord v₀₁)) (.temp (by simp))
    (.temp (by simp))) fun carry => ?_
  refine .bind (.add (r := v₀₀ >>> 32 + ofWord (loWord v₀₁)) (s := ofWord (loWord v₁₀))
    (.temp (by simp)) (.temp (by simp))) fun carry => ?_
  generalize v₀₀ >>> 32 + ofWord (loWord v₀₁) + ofWord (loWord v₁₀) = vc
  refine .bind (.high (r := v₀₁) (.temp (by simp))) fun hi01 => ?_
  refine .bind (.add (r := v₁₁) (s := v₀₁ >>> 32) (.temp (by simp)) (.temp (by simp)))
    fun high => ?_
  refine .bind (.high (r := v₁₀) (.temp (by simp))) fun hi10 => ?_
  refine .bind (.add (r := v₁₁ + v₀₁ >>> 32) (s := v₁₀ >>> 32) (.temp (by simp))
    (.temp (by simp))) fun high => ?_
  refine .bind (.high (r := vc) (.temp (by simp))) fun hiCarry => ?_
  exact .add (.temp (by simp)) (.temp (by simp))

theorem Emits.addHalve (hn : (n, vn) ∈ Γ) (hq : (q, vq) ∈ Γ) :
    Emits M w (llDivAddHalve n q) Γ ((vn - vq) >>> 1 + vq) := by
  refine .bind (.sub (.temp hn) (.temp hq)) fun delta => ?_
  refine .bind (.shr (by omega) (.temp mem_cons_self)) fun half => ?_
  exact .add (.temp mem_cons_self) (.temp (by simp [hq]))

theorem mul_eq_words (x y : BitVec 64) :
    ofWord (loWord x) * ofWord (loWord y) +
        (ofWord (loWord x) * ofWord (loWord (y >>> 32)) +
          ofWord (loWord (x >>> 32)) * ofWord (loWord y)) <<< 32 = x * y := by
  obtain ⟨hx, hx₁⟩ := toNat_eq_words x
  obtain ⟨hy, hy₁⟩ := toNat_eq_words y
  have hprod : x.toNat * y.toNat = x.toNat % 2 ^ 32 * (y.toNat % 2 ^ 32) +
      2 ^ 32 * (x.toNat % 2 ^ 32 * (y.toNat / 2 ^ 32) + x.toNat / 2 ^ 32 * (y.toNat % 2 ^ 32)) +
      2 ^ 64 * (x.toNat / 2 ^ 32 * (y.toNat / 2 ^ 32)) := by
    conv_lhs => rw [hx, hy]
    ring
  apply eq_of_toNat_eq
  simp only [toNat_add, toNat_shiftLeft, toNat_mul (x := x), toNat_umull,
    toNat_shiftRight32, toNat_loWord, hx₁, hy₁, hprod, Nat.shiftLeft_eq]
  generalize x.toNat / 2 ^ 32 * (y.toNat / 2 ^ 32) = p₁₁
  omega

theorem Emits.remainder {d : BitVec 64} (hn : (n, vn) ∈ Γ) (hq : (q, vq) ∈ Γ) :
    Emits M w (llDivRemainder n q d) Γ (vn - vq * d) := by
  rw [← mul_eq_words]
  refine .bind (.low (.temp hq)) fun ql => ?_
  refine .bind (.high (.temp (mem_cons_of_mem _ hq))) fun qhWide => ?_
  refine .bind (.low (.temp mem_cons_self)) fun qh => ?_
  generalize loWord vq = q₀
  generalize loWord (vq >>> 32) = q₁
  refine .bind (.umullConst (x := q₀) (by simp) (loWord_ofWord _)) fun low => ?_
  refine .bind (.umullConst (x := q₀) (by simp) rfl) fun cross1 => ?_
  refine .bind (.umullConst (x := q₁) (by simp) (loWord_ofWord _)) fun cross2 => ?_
  generalize ofWord q₀ * ofWord (loWord d) = v₀₀
  generalize ofWord q₀ * ofWord (loWord (d >>> 32)) = v₀₁
  generalize ofWord q₁ * ofWord (loWord d) = v₁₀
  refine .bind (.add (r := v₀₁) (s := v₁₀) (.temp (by simp)) (.temp (by simp))) fun cross => ?_
  refine .bind (.shl (r := v₀₁ + v₁₀) (by omega) (.temp (by simp))) fun cross => ?_
  refine .bind (.add (r := v₀₀) (s := (v₀₁ + v₁₀) <<< 32) (.temp (by simp)) (.temp (by simp)))
    fun product => ?_
  exact .sub (.temp (by simp [hn])) (.temp (by simp))

end Values

section Reciprocals

variable {d : BitVec 64} {k : ℕ}

theorem udivShift_spec (hd : d ≠ 0#64) :
    ∃ k, udivShift d = some k ∧ 2 ^ k ≤ d.toNat ∧ d.toNat < 2 ^ (k + 1) := by
  have hpos : 0 < d.toNat := by
    rcases Nat.eq_zero_or_pos d.toNat with h | h
    · exact absurd (eq_of_toNat_eq h) hd
    · exact h
  -- the bits left are those of the quotient by a power of two, which is not 0
  obtain ⟨s, hs, ⟨hbits, hge⟩, hstop⟩ := @whileLoop_total _
    (fun s : BitVec 64 × ℕ => decide (1#64 < s.1)) (fun s => (s.1 >>> 1, s.2 + 1))
    (fun s => s.1.toNat = d.toNat / 2 ^ s.2 ∧ 2 ^ s.2 ≤ d.toNat) (fun s => 64 - s.2)
    (by
      intro s ⟨hbits, hge⟩ hc
      have hlt : 1 < d.toNat / 2 ^ s.2 := by
        rw [← hbits]
        simpa [lt_def] using hc
      have hge' : 2 ^ (s.2 + 1) ≤ d.toNat := by
        have := (Nat.le_div_iff_mul_le (Nat.two_pow_pos s.2)).mp hlt
        omega
      have hs64 : s.2 + 1 < 64 := (Nat.pow_lt_pow_iff_right (by decide)).mp
        (Nat.lt_of_le_of_lt hge' d.isLt)
      refine ⟨⟨?_, hge'⟩, by omega⟩
      rw [toNat_ushiftRight, Nat.shiftRight_eq_div_pow, hbits, Nat.div_div_eq_div_mul,
        ← Nat.pow_add])
    65 (d, 0) ⟨by simp, hpos⟩ (by omega)
  refine ⟨s.2, by rw [udivShift, hs]; rfl, hge, ?_⟩
  have hle : d.toNat / 2 ^ s.2 ≤ 1 := by
    rw [← hbits]
    simpa [lt_def] using hstop
  have := (Nat.div_lt_iff_lt_mul (Nat.two_pow_pos s.2)).mp (lt_succ_of_le hle)
  rw [Nat.pow_succ]
  omega

theorem isPow2_iff (hk : 2 ^ k ≤ d.toNat) (hk' : d.toNat < 2 ^ (k + 1)) :
    isPow2 d = true ↔ d.toNat = 2 ^ k := by
  have hsub : (d - 1#64).toNat = d.toNat - 1 := by
    have hone : (1#64).toNat = 1 := rfl
    rw [toNat_sub_of_le (by rw [le_def]; omega), hone]
  have hand : isPow2 d = true ↔ d.toNat &&& (d.toNat - 1) = 0 := by
    rw [isPow2, decide_eq_true_iff, ← toNat_inj, toNat_and, hsub]
    rfl
  rw [hand]
  constructor
  · intro h
    by_contra hne
    -- both numbers have bit `k`
    have h₁ := testBit_of_two_pow_le_and_two_pow_add_one_gt hk hk'
    have h₂ := testBit_of_two_pow_le_and_two_pow_add_one_gt (n := d.toNat - 1) (i := k)
      (by omega) (by omega)
    have h₀ := congrArg (Nat.testBit · k) h
    simp [h₁, h₂] at h₀
  · intro h
    rw [h, and_two_pow_sub_one_eq_mod]
    exact mod_self _

theorem reciprocalStep_spec {N : ℕ} {s : BitVec 64 × BitVec 64} (hd : 0 < d.toNat)
    (hrem : s.1.toNat = N % d.toNat) (hquot : s.2.toNat = N / d.toNat)
    (hfit : 2 * (N / d.toNat) + 1 < 2 ^ 64) :
    (reciprocalStep d s).1.toNat = 2 * N % d.toNat ∧
      (reciprocalStep d s).2.toNat = 2 * N / d.toNat := by
  -- after `j` rounds: the remainder and the quotient of `2 ^ (k + j)`
  have hlt := mod_lt N hd
  have hquot' : (s.2 <<< 1).toNat = 2 * (N / d.toNat) := by
    rw [toNat_shiftLeft, hquot]
    omega
  have hrem' : (s.1 <<< 1).toNat = 2 * (N % d.toNat) % 2 ^ 64 := by
    rw [toNat_shiftLeft, hrem]
    omega
  have hor : (s.2 <<< 1 ||| 1#64).toNat = 2 * (N / d.toNat) + 1 := by
    have hdisj : s.2 <<< 1 &&& 1#64 = 0#64 := by
      apply eq_of_getLsbD_eq
      intro i hi
      rcases Nat.eq_zero_or_pos i with rfl | hpos
      · simp
      · simp [getLsbD_one]
        omega
    rw [← add_eq_or_of_and_eq_zero _ _ hdisj, toNat_add, hquot']
    exact mod_eq_of_lt hfit
  have hover : s.1 >>> 63 ≠ 0#64 ↔ 2 ^ 64 ≤ 2 * (N % d.toNat) := by
    rw [Ne, ← toNat_inj, toNat_ushiftRight, Nat.shiftRight_eq_div_pow]
    have hzero : (0#64).toNat = 0 := rfl
    omega
  have htake : (s.1 >>> 63 ≠ 0#64 ∨ d ≤ s.1 <<< 1) ↔ d.toNat ≤ 2 * (N % d.toNat) := by
    rw [hover, le_def]
    omega
  rw [two_mul_div hd, two_mul_mod hd]
  unfold reciprocalStep
  by_cases hc : d.toNat ≤ 2 * (N % d.toNat)
  · rw [if_pos (htake.mpr hc), if_pos hc, if_pos hc]
    refine ⟨?_, hor⟩
    rw [toNat_sub]
    omega
  · rw [if_neg (fun h => hc (htake.mp h)), if_neg hc, if_neg hc]
    refine ⟨?_, hquot'⟩
    rw [hrem']
    omega

theorem reciprocalLoop_spec (hk : 2 ^ k < d.toNat) :
    let s := forRange 64 (fun s _ => reciprocalStep d s) (1#64 <<< k, 0#64)
    s.1.toNat = 2 ^ (k + 64) % d.toNat ∧ s.2.toNat = 2 ^ (k + 64) / d.toNat := by
  have hd : 0 < d.toNat := Nat.lt_of_le_of_lt (Nat.zero_le _) hk
  have hk64 : 2 ^ k < 2 ^ 64 := hk.trans d.isLt
  refine forRange_induction (fun j (s : BitVec 64 × BitVec 64) =>
    s.1.toNat = 2 ^ (k + j) % d.toNat ∧ s.2.toNat = 2 ^ (k + j) / d.toNat) 64 ⟨?_, ?_⟩ ?_
  · rw [toNat_shiftLeft, Nat.shiftLeft_eq, Nat.add_zero, mod_eq_of_lt hk]
    simpa using hk64
  · rw [Nat.add_zero, div_eq_of_lt hk]
    rfl
  · intro j s hj ⟨hrem, hquot⟩
    have hlt : 2 ^ (k + j) / d.toNat < 2 ^ j := by
      rw [Nat.div_lt_iff_lt_mul hd, Nat.pow_add, Nat.mul_comm]
      exact Nat.mul_lt_mul_of_pos_left hk (Nat.two_pow_pos j)
    have hj63 : 2 ^ j ≤ 2 ^ 63 := Nat.pow_le_pow_right (by decide) (by omega)
    have hstep := reciprocalStep_spec hd hrem hquot (by omega)
    rwa [show 2 * 2 ^ (k + j) = 2 ^ (k + (j + 1)) by rw [← Nat.add_assoc, Nat.pow_succ]; omega]
      at hstep

/-- A reciprocal divides every doubleword exactly. -/
structure Reciprocal.Exact (r : Reciprocal) (d : BitVec 64) : Prop where
  short : r.add = false → ∀ n < 2 ^ 64, n * r.magic.toNat / 2 ^ 64 / 2 ^ r.shift = n / d.toNat
  long : r.add = true → ∀ n < 2 ^ 64,
    (n + n * r.magic.toNat / 2 ^ 64) / 2 / 2 ^ r.shift = n / d.toNat

theorem exact_short {rem magic : BitVec 64} (hk : 2 ^ k < d.toNat)
    (hrem : rem.toNat = 2 ^ (k + 64) % d.toNat) (hmagic : magic.toNat = 2 ^ (k + 64) / d.toNat)
    (he : d.toNat - rem.toNat < 2 ^ k) : Reciprocal.Exact ⟨k, false, magic + 1#64⟩ d := by
  -- a reciprocal of 64 bits, when the error of rounding up is small
  have hd : 0 < d.toNat := by omega
  have hmod := mod_lt (2 ^ (k + 64)) hd
  have hdiv := div_add_mod' (2 ^ (k + 64)) d.toNat
  have hprod : (magic.toNat + 1) * d.toNat = 2 ^ (k + 64) + (d.toNat - rem.toNat) := by
    rw [Nat.add_mul, hmagic]
    omega
  have hpow : 2 ^ (k + 64) = 2 ^ 64 * 2 ^ k := by rw [Nat.pow_add, Nat.mul_comm]
  -- one less than `2 ^ 64` is a bound, so adding 1 does not wrap
  have hfit : magic.toNat + 1 ≤ 2 ^ 64 - 1 := by
    by_contra hge
    have h₁ : 2 ^ 64 * (2 ^ k + 1) ≤ (magic.toNat + 1) * d.toNat :=
      Nat.mul_le_mul (by omega) hk
    omega
  have htoNat : (magic + 1#64).toNat = magic.toNat + 1 := by
    exact mod_eq_of_lt (by change _ + 1 < _; omega)
  refine ⟨fun _ n hn => ?_, fun h => absurd h Bool.false_ne_true⟩
  rw [htoNat, Nat.div_div_eq_div_mul, ← hpow]
  refine mul_reciprocal_div hd hprod ?_
  rw [hpow]
  exact Nat.mul_lt_mul'' hn he

theorem exact_long {rem magic bit : BitVec 64} (hk : 2 ^ k < d.toNat) (hk' : d.toNat < 2 ^ (k + 1))
    (hrem : rem.toNat = 2 ^ (k + 64) % d.toNat) (hmagic : magic.toNat = 2 ^ (k + 64) / d.toNat)
    (hbit : bit.toNat = if d.toNat ≤ 2 * rem.toNat then 1 else 0) :
    Reciprocal.Exact ⟨k, true, magic + magic + bit + 1#64⟩ d := by
  -- a reciprocal of 65 bits, of which the highest is added by hand
  have hd : 0 < d.toNat := by omega
  have hpow : 2 ^ (k + 65) = 2 ^ 65 * 2 ^ k := by rw [Nat.pow_add, Nat.mul_comm]
  have hdouble : 2 ^ (k + 65) = 2 * 2 ^ (k + 64) := by rw [← Nat.add_assoc k 64 1]; omega
  have hmod := mod_lt (2 ^ (k + 65)) hd
  have hdiv := div_add_mod' (2 ^ (k + 65)) d.toNat
  have hquot : 2 ^ (k + 65) / d.toNat = 2 * magic.toNat + bit.toNat := by
    rw [hdouble, two_mul_div hd, hmagic, hbit, hrem]
  have hprod : (2 ^ (k + 65) / d.toNat + 1) * d.toNat =
      2 ^ (k + 65) + (d.toNat - 2 ^ (k + 65) % d.toNat) := by
    rw [Nat.add_mul]
    omega
  have hge : 2 ^ 64 ≤ 2 ^ (k + 65) / d.toNat := by
    rw [Nat.le_div_iff_mul_le hd, show k + 65 = (k + 1) + 64 by omega, Nat.pow_add, Nat.mul_comm]
    exact Nat.mul_le_mul_right _ hk'.le
  have hlt : 2 ^ (k + 65) / d.toNat + 1 ≤ 2 ^ 65 - 1 := by
    by_contra hge
    have h₁ : 2 ^ 65 * (2 ^ k + 1) ≤ (2 ^ (k + 65) / d.toNat + 1) * d.toNat :=
      Nat.mul_le_mul (by omega) hk
    omega
  have htoNat : 2 ^ 64 + (magic + magic + bit + 1#64).toNat = 2 ^ (k + 65) / d.toNat + 1 := by
    have hone : (1#64).toNat = 1 := rfl
    simp only [toNat_add, hone]
    omega
  refine ⟨fun h => absurd h.symm Bool.false_ne_true, fun _ n hn => ?_⟩
  generalize (magic + magic + bit + 1#64).toNat = m at htoNat
  have hsum : n + n * m / 2 ^ 64 = n * (2 ^ 64 + m) / 2 ^ 64 := by
    rw [Nat.mul_add, Nat.add_comm (n * 2 ^ 64), add_mul_div_right _ _ (by decide), Nat.add_comm]
  rw [hsum, Nat.div_div_eq_div_mul, Nat.div_div_eq_div_mul, htoNat]
  rw [show 2 ^ 64 * (2 * 2 ^ k) = 2 ^ (k + 65) by rw [hpow]; omega]
  refine mul_reciprocal_div hd hprod ?_
  calc n * (d.toNat - 2 ^ (k + 65) % d.toNat) < 2 ^ 64 * 2 ^ (k + 1) :=
        Nat.mul_lt_mul'' hn (by omega)
    _ = 2 ^ (k + 65) := by rw [Nat.pow_succ]; omega

theorem udivReciprocal_spec (hd : d ≠ 0#64) :
    ∃ r, udivReciprocal d = some r ∧ r.shift < 64 ∧
      (isPow2 d = true → d.toNat = 2 ^ r.shift) ∧ (isPow2 d = false → r.Exact d) := by
  obtain ⟨k, hshift, hk, hk'⟩ := udivShift_spec hd
  have hk64 : k < 64 := (Nat.pow_lt_pow_iff_right (by decide)).mp (Nat.lt_of_le_of_lt hk d.isLt)
  have hiff := isPow2_iff hk hk'
  simp only [udivReciprocal, hshift, map_some]
  refine ⟨_, rfl, ?_⟩
  by_cases hpow : isPow2 d = true
  · rw [if_pos hpow]
    exact ⟨hk64, fun _ => hiff.mp hpow, fun h => absurd (hpow.symm.trans h) (by decide)⟩
  · rw [if_neg hpow]
    have hlt : 2 ^ k < d.toNat := Nat.lt_of_le_of_ne hk fun h => hpow (hiff.mpr h.symm)
    have hloop := reciprocalLoop_spec hlt
    generalize forRange 64 (fun s _ => reciprocalStep d s) (1#64 <<< k, 0#64) = s at hloop ⊢
    obtain ⟨hrem, hmagic⟩ := hloop
    have hremlt : s.1.toNat < d.toNat := hrem ▸ mod_lt _ (by omega)
    have hle : 1#64 <<< k ≤ d - s.1 ↔ 2 ^ k ≤ d.toNat - s.1.toNat := by
      have hone : (1#64 <<< k).toNat = 2 ^ k := by
        rw [toNat_shiftLeft, Nat.shiftLeft_eq]
        simpa using Nat.pow_lt_pow_right (by decide) hk64
      rw [le_def, hone, toNat_sub_of_le (BitVec.le_def.mpr hremlt.le)]
    have hbit : (if s.1 + s.1 < s.1 ∨ d ≤ s.1 + s.1 then 1#64 else 0#64).toNat =
        if d.toNat ≤ 2 * s.1.toNat then 1 else 0 := by
      have hiff' : (s.1 + s.1 < s.1 ∨ d ≤ s.1 + s.1) ↔ d.toNat ≤ 2 * s.1.toNat := by
        rw [lt_def, le_def, toNat_add]
        omega
      by_cases hc : d.toNat ≤ 2 * s.1.toNat
      · rw [if_pos (hiff'.mpr hc), if_pos hc]
        rfl
      · rw [if_neg fun h => hc (hiff'.mp h), if_neg hc]
        rfl
    by_cases hadd : 1#64 <<< k ≤ d - s.1
    · rw [if_pos hadd]
      exact ⟨hk64, fun h => absurd h hpow, fun _ => exact_long hlt hk' hrem hmagic hbit⟩
    · rw [if_neg hadd]
      exact ⟨hk64, fun h => absurd h hpow, fun _ =>
        exact_short hlt hrem hmagic (Nat.lt_of_not_le fun h => hadd (hle.mpr h))⟩

end Reciprocals

section Division

variable {World : Type} {M : ValueSem World} {w : World} {Γ : List (IROperand × BitVec 64)}
  {n : IROperand} {vn d : BitVec 64} {r : Reciprocal}

theorem toNat_div_pow (x : BitVec 64) (k : ℕ) : (x >>> k).toNat = x.toNat / 2 ^ k := by
  rw [toNat_ushiftRight, Nat.shiftRight_eq_div_pow]

theorem toNat_addHalve {q : BitVec 64} (h : q.toNat ≤ vn.toNat) :
    ((vn - q) >>> 1 + q).toNat = (vn.toNat + q.toNat) / 2 := by
  rw [toNat_add, toNat_div_pow, toNat_sub_of_le (BitVec.le_def.mpr h)]
  omega

theorem Emits.product (hn : (n, vn) ∈ Γ) (hpow : isPow2 d = true → d.toNat = 2 ^ r.shift)
    (hexact : isPow2 d = false → r.Exact d) :
    ∃ v, Emits M w (llDivProduct n d r) Γ v ∧ v.toNat / 2 ^ r.shift = vn.toNat / d.toNat := by
  unfold llDivProduct
  by_cases h2 : isPow2 d = true
  · rw [if_pos h2]
    exact ⟨vn, .ret hn, by rw [hpow h2]⟩
  · rw [if_neg h2]
    have hex := hexact (Bool.eq_false_iff.mpr h2)
    cases hadd : r.add with
    | false =>
      refine ⟨mulHigh vn r.magic, .bind (.mulhi hn) fun q => .ret mem_cons_self, ?_⟩
      rw [toNat_mulHigh]
      exact hex.short hadd _ vn.isLt
    | true =>
      refine ⟨(vn - mulHigh vn r.magic) >>> 1 + mulHigh vn r.magic,
        .bind (.mulhi hn) fun q => .addHalve (mem_cons_of_mem _ hn) mem_cons_self, ?_⟩
      have hle : (mulHigh vn r.magic).toNat ≤ vn.toNat := by
        rw [toNat_mulHigh]
        exact Nat.div_le_of_le_mul (Nat.mul_comm _ _ ▸ Nat.mul_le_mul_right _ r.magic.isLt.le)
      rw [toNat_addHalve hle, toNat_mulHigh]
      exact hex.long hadd _ vn.isLt

theorem Emits.quotient (hn : (n, vn) ∈ Γ) (hshift : r.shift < 64)
    (hpow : isPow2 d = true → d.toNat = 2 ^ r.shift) (hexact : isPow2 d = false → r.Exact d) :
    Emits M w (llDivQuotient n d r) Γ (vn / d) := by
  obtain ⟨v, hv, hdiv⟩ := Emits.product (M := M) (w := w) hn hpow hexact
  have hval : v >>> r.shift = vn / d := by
    apply eq_of_toNat_eq
    rw [toNat_div_pow, hdiv, toNat_udiv]
  refine .bind hv fun q => ?_
  by_cases h0 : r.shift = 0
  · rw [h0] at hval
    rw [if_neg (not_not.mpr h0), ← hval]
    exact .ret (by simp)
  · rw [if_pos h0, ← hval]
    exact .shr hshift (.temp mem_cons_self)

def UdivTok.eval (op : UdivTok) (x y : BitVec 64) : BitVec 64 :=
  match op with
  | .udiv => x / y
  | .umod => x % y

theorem umod_eq_sub (x y : BitVec 64) : x - x / y * y = x % y := by
  apply eq_of_toNat_eq
  have hdiv := div_add_mod' x.toNat y.toNat
  have hle := div_mul_le_self x.toNat y.toNat
  have hmul : (x / y * y).toNat = x.toNat / y.toNat * y.toNat := by
    rw [toNat_mul, toNat_udiv, mod_eq_of_lt (by omega)]
  rw [toNat_sub_of_le (BitVec.le_def.mpr (hmul ▸ hle)), toNat_umod]
  omega

theorem umod_eq_and {k : ℕ} (hd : d.toNat = 2 ^ k) (x : BitVec 64) : x &&& (d - 1#64) = x % d := by
  have hone : (1#64).toNat = 1 := rfl
  have hpos : 0 < 2 ^ k := Nat.two_pow_pos k
  apply eq_of_toNat_eq
  rw [toNat_and, toNat_sub_of_le (by rw [le_def]; omega), hone, hd,
    and_two_pow_sub_one_eq_mod, toNat_umod, hd]

theorem Emits.divide (op : UdivTok) (hn : (n, vn) ∈ Γ) (hshift : r.shift < 64)
    (hpow : isPow2 d = true → d.toNat = 2 ^ r.shift) (hexact : isPow2 d = false → r.Exact d) :
    Emits M w (llDivQuotient n d r >>= fun q =>
      match op with
      | .udiv => pure q
      | .umod =>
        if isPow2 d then llDivEmit .and n (llDivConst (d - 1#64) .wide) .wide
        else llDivRemainder n q d) Γ (op.eval vn d) := by
  refine .bind (.quotient hn hshift hpow hexact) fun q => ?_
  cases op with
  | udiv => exact .ret mem_cons_self
  | umod =>
    change Emits M w (if isPow2 d = true then _ else _) _ (vn % d)
    by_cases h2 : isPow2 d = true
    · rw [if_pos h2, ← umod_eq_and (hpow h2)]
      exact .and (.temp (mem_cons_of_mem _ hn)) (.wide _)
    · rw [if_neg h2, ← umod_eq_sub]
      exact .remainder (mem_cons_of_mem _ hn) mem_cons_self

theorem holds_copy (lhs : IROperand) (hlhs : lhs.is64 = true) (c : LlDivCode)
    (σ : Vreg → BitVec 64) :
    Holds M w c σ (llDivEmit .assign lhs lhs .wide c).2
      [((llDivEmit .assign lhs lhs .wide c).1, M.operand lhs σ w)] := by
  -- the copy of the dividend is the only instruction that reads it
  refine ⟨_, update σ ⟨.temp, c.nextTemp⟩ (M.operand lhs σ w), rfl, ?_, ?_⟩
  · have hdest : (llDivTemp c.nextTemp .wide).is64 = true := rfl
    have hreg : (llDivTemp c.nextTemp .wide).plainVreg = some ⟨.temp, c.nextTemp⟩ := rfl
    simp [runQuads, ValueSem.instrValue, ValueSem.copy, hlhs, hdest, hreg]
  · intro p hp
    obtain rfl := mem_singleton.mp hp
    exact ⟨⟨c.nextTemp, .wide, rfl, lt_succ_self _⟩, operand_llDivTemp_update _ .wide σ _⟩

/-- For every divisor but 0 the code is put, and from every state it computes the quotient or the
remainder of the dividend. -/
theorem tryEmitConstUdiv64_correct (M : ValueSem World) (op : UdivTok) (lhs : IROperand)
    (hlhs : lhs.is64 = true) (d : BitVec 64) (hd : d ≠ 0#64) (c : LlDivCode)
    (σ : Vreg → BitVec 64) (w : World) :
    ∃ x c' code σ', tryEmitConstUdiv64 true op lhs (some d) c = some (x, c') ∧
      c'.instrs = c.instrs ++ code ∧ runQuads M w code σ = some σ' ∧
      M.operand x σ' w = op.eval (M.operand lhs σ w) d := by
  obtain ⟨r, hr, hshift, hpow, hexact⟩ := udivReciprocal_spec hd
  have hcopy := holds_copy (M := M) (w := w) lhs hlhs c σ
  have hdiv := Emits.divide op mem_cons_self hshift hpow hexact _ _ _ hcopy
  obtain ⟨code, σ', hcode, hrun, hΓ⟩ := hdiv
  refine ⟨(emitConstUdiv64 op lhs d r c).1, (emitConstUdiv64 op lhs d r c).2, code, σ', ?_, hcode,
    hrun, (hΓ _ mem_cons_self).2⟩
  simp only [tryEmitConstUdiv64, if_true, bind_some, if_neg hd, hr, map_some,
    Prod.mk.eta]

/-- The remainder of 100 by 7, whose reciprocal has 65 bits. -/
theorem tryEmitConstUdiv64_correct_seven :
    ∃ x c' code σ', tryEmitConstUdiv64 true .umod (llDivTemp 0 .wide) (some 7#64) ⟨[], 1⟩ =
        some (x, c') ∧
      c'.instrs = [] ++ code ∧
      runQuads (⟨fun _ _ _ => 0#64, fun _ => 0#32, fun _ => default⟩ : ValueSem Unit) () code
        (fun _ => 100#64) = some σ' ∧
      ValueSem.operand (⟨fun _ _ _ => 0#64, fun _ => 0#32, fun _ => default⟩ : ValueSem Unit) x σ' ()
        = 2#64 :=
  tryEmitConstUdiv64_correct _ .umod (llDivTemp 0 .wide) rfl 7#64 (by decide) ⟨[], 1⟩ _ ()

end Division

end Tinycc
