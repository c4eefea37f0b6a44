import Tinycc.IR.Words
import Tinycc.Opt.ConstEval

namespace Tinycc
open BitVec

section Extensions

def IsExtension (v : BitVec 64) : Prop := v = (loWord v).signExtend 64 ∨ v = ofWord (loWord v)

theorem isExtension_signExtend (x : BitVec 32) : IsExtension (x.signExtend 64) := by
  left
  rw [loWord_signExtend]

variable {v : BitVec 64}

theorem IsExtension.loWord_ne_zero (h : IsExtension v) (hv : v ≠ 0#64) :
    loWord v ≠ 0#32 := by
  intro h0
  rcases h with h | h
  · rw [h0] at h
    exact hv (h.trans (by decide))
  · rw [h0] at h
    exact hv (h.trans (by decide))

theorem IsExtension.of_loWord_neg_one (h : IsExtension v) (hv : loWord v = -1#32) :
    v = -1#64 ∨ v = 0xFFFFFFFF#64 := by
  rcases h with h | h
  · left
    rw [h, hv]
    decide
  · right
    rw [h, hv]
    decide

end Extensions

/-- The width that an operation has whatever the flag says: the long multiplications give a
doubleword, a rotation and a bit field a word. -/
def binopIs64 (op : TccIrOp) (is64 : Bool) : Bool :=
  match op with
  | .umull | .smull => true
  | .ror | .ubfx => false
  | _ => is64

def wordField (x f : BitVec 32) : BitVec 32 := x >>> bfxLsb f &&& widthMask (bfxWidth f)

/-- The field that `UBFX` takes out, in the high word of a doubleword if the parameter word says
so. -/
def armField (is64 : Bool) (v1 v2 : BitVec 64) : BitVec 32 :=
  let f := loWord v2
  wordField (if is64 ∧ f &&& ubfxHiHalf ≠ 0#32 then hiWord v1 else loWord v1) f

def armBinop (op : TccIrOp) (is64 : Bool) (v1 v2 : BitVec 64) : Option (BitVec 64) :=
  match op with
  | .ubfx => some (ofWord (armField is64 v1 v2))
  | .pdiv =>
    if is64 then aluWide .div v1 v2 else (aluWord .div (loWord v1) (loWord v2)).map ofWord
  | _ =>
    if binopIs64 op is64 then aluWide op v1 v2
    else (aluWord op (loWord v1) (loWord v2)).map ofWord

def SameAt (is64 : Bool) (x y : BitVec 64) : Prop := if is64 then x = y else loWord x = loWord y

/-- The function meets nothing that the host leaves undefined, and what it returns is the result of
the machine. -/
def BinopSound (op : TccIrOp) (is64 : Bool) (v1 v2 : BitVec 64) : Prop :=
  ∃ r, irOptConstBinop op is64 v1 v2 = .ok r ∧
    ∀ x, r = some x → ∃ y, armBinop op is64 v1 v2 = some y ∧ SameAt (binopIs64 op is64) x y

/-- The arguments on which the function is right. -/
def BinopSafe (op : TccIrOp) (is64 : Bool) (v1 v2 : BitVec 64) : Prop :=
  match op with
  | .div | .pdiv | .imod => ¬(is64 = false ∧ loWord v1 = BitVec.intMin 32 ∧ v2 = 0xFFFFFFFF#64)
  | .ror => loWord v2 &&& 31#32 ≠ 0#32
  | .ubfx => ¬(is64 = true ∧ loWord v2 &&& ubfxHiHalf ≠ 0#32 ∧
      ((loWord v2 >>> 5) &&& 0x1F#32).toNat ≠ 0 ∧
      wordField (hiWord v1) (loWord v2) ≠ wordField (loWord v1) (loWord v2))
  | _ => True

section Binop

variable {op : TccIrOp} {is64 : Bool} {v1 v2 : BitVec 64}

theorem binopSound_of_some {x y : BitVec 64} (h : irOptConstBinop op is64 v1 v2 = .ok (some x))
    (hy : armBinop op is64 v1 v2 = some y) (hs : SameAt (binopIs64 op is64) x y) :
    BinopSound op is64 v1 v2 := by
  refine ⟨some x, h, ?_⟩
  rintro _ ⟨rfl⟩
  exact ⟨y, hy, hs⟩

theorem binopSound_of_none (h : irOptConstBinop op is64 v1 v2 = .ok none) :
    BinopSound op is64 v1 v2 := by
  refine ⟨none, h, ?_⟩
  rintro _ ⟨⟩

theorem binopSound_total {f : ∀ {n : ℕ}, BitVec n → BitVec n → BitVec n}
    (hop : binopIs64 op is64 = is64)
    (hc : irOptConstBinop op is64 v1 v2 = .ok (some (f v1 v2)))
    (harm : armBinop op is64 v1 v2 = if is64 then some (f v1 v2)
      else some (ofWord (f (loWord v1) (loWord v2))))
    (hlow : loWord (f v1 v2) = f (loWord v1) (loWord v2)) : BinopSound op is64 v1 v2 := by
  cases is64 with
  | true => exact binopSound_of_some hc harm (by rw [hop]; rfl)
  | false =>
    refine binopSound_of_some hc harm ?_
    rw [hop]
    show loWord _ = loWord _
    rw [hlow, loWord_ofWord]

theorem toNat_lt_of_not_declines (h : constShiftDeclines is64 v2 = false) :
    v2.toNat < if is64 then 64 else 32 := by
  simp only [constShiftDeclines, Bool.or_eq_false_iff, decide_eq_false_iff_not] at h
  have hv := toInt_eq_toNat_cond v2
  by_cases hc : 2 * v2.toNat < 2 ^ 64
  · cases is64 <;> simp only [Bool.false_eq_true, if_true, if_false] at h ⊢ <;> omega
  · omega

variable {g : BitVec 64 → ℕ → BitVec 64} {f : BitVec 32 → ℕ → BitVec 32}

theorem binopSound_shift {e : BitVec 64 → ℕ → BitVec 64} (hop : binopIs64 op is64 = is64)
    (hnone : constShiftDeclines is64 v2 = true → irOptConstBinop op is64 v1 v2 = .ok none)
    (hc : constShiftDeclines is64 v2 = false →
      irOptConstBinop op is64 v1 v2 = .ok (some (if is64 then g v1 v2.toNat else e v1 v2.toNat)))
    (harm : v2.toNat < (if is64 then 64 else 32) →
      armBinop op is64 v1 v2 = some (if is64 then g v1 v2.toNat
        else ofWord (f (loWord v1) v2.toNat))) (hlow : ∀ k, loWord (e v1 k) = f (loWord v1) k) :
    BinopSound op is64 v1 v2 := by
  cases hd : constShiftDeclines is64 v2 with
  | true => exact binopSound_of_none (hnone hd)
  | false =>
    have hlt := toNat_lt_of_not_declines hd
    refine binopSound_of_some (hc hd) (harm hlt) ?_
    rw [hop]
    cases is64 with
    | true => rfl
    | false =>
      show loWord _ = loWord _
      rw [if_neg Bool.false_ne_true, if_neg Bool.false_ne_true, hlow, loWord_ofWord]

theorem armBinop_shift (hop : op = .shl ∨ op = .shr ∨ op = .sar)
    (hg : ∀ a b : BitVec 64, b.toNat < 64 → aluWide op a b = some (g a b.toNat))
    (hf : ∀ a b : BitVec 32, b.toNat < 256 → aluWord op a b = some (f a b.toNat))
    (hlt : v2.toNat < if is64 then 64 else 32) :
    armBinop op is64 v1 v2 =
      some (if is64 then g v1 v2.toNat else ofWord (f (loWord v1) v2.toNat)) := by
  have harm : armBinop op is64 v1 v2 = if is64 then aluWide op v1 v2
      else (aluWord op (loWord v1) (loWord v2)).map ofWord := by
    rcases hop with rfl | rfl | rfl <;> rfl
  rw [harm]
  cases is64 with
  | true => exact hg v1 v2 hlt
  | false =>
    have h32 : v2.toNat < 32 := hlt
    have hlow := @toNat_loWord_of_lt v2 (by omega)
    have hword := hf (loWord v1) (loWord v2) (by omega)
    simp only [Bool.false_eq_true, if_false, hword, hlow, Option.map_some]

theorem irOptConstBinop_shift (hd : constShiftDeclines is64 v2 = false) :
    irOptConstBinop .shl is64 v1 v2 = .ok (some (v1 <<< v2.toNat)) ∧
    irOptConstBinop .shr is64 v1 v2 =
      .ok (some (if is64 then v1 >>> v2.toNat else ofWord (loWord v1 >>> v2.toNat))) ∧
    irOptConstBinop .sar is64 v1 v2 = .ok (some (if is64 then v1.sshiftRight v2.toNat
      else ((loWord v1).sshiftRight v2.toNat).signExtend 64)) := by
  have hlt := toNat_lt_of_not_declines hd
  have h64 : v2.toNat < 64 := by split at hlt <;> omega
  cases is64 with
  | true => simp [irOptConstBinop, hd, hostShl, hostShr, hostSar, h64]
  | false => simp [irOptConstBinop, hd, hostShl, hostShr, hostSar, h64, show v2.toNat < 32 from hlt]

theorem binopSound_shl : BinopSound .shl is64 v1 v2 :=
  binopSound_shift (g := (· <<< ·)) (e := (· <<< ·)) (f := (· <<< ·)) rfl (fun h => if_pos h)
    (fun hd => by rw [ite_self, (irOptConstBinop_shift hd).1])
    (armBinop_shift (.inl rfl) (fun _ _ h => if_pos h) (fun _ _ h => if_pos h))
    (loWord_shiftLeft v1)

theorem binopSound_shr : BinopSound .shr is64 v1 v2 :=
  binopSound_shift (g := (· >>> ·)) (e := fun v k => ofWord (loWord v >>> k))
    (f := (· >>> ·)) rfl (fun h => if_pos h) (fun hd => (irOptConstBinop_shift hd).2.1)
    (armBinop_shift (.inr (.inl rfl)) (fun _ _ h => if_pos h) (fun _ _ h => if_pos h))
    (fun _ => loWord_ofWord _)

theorem binopSound_sar : BinopSound .sar is64 v1 v2 :=
  binopSound_shift (g := BitVec.sshiftRight)
    (e := fun v k => ((loWord v).sshiftRight k).signExtend 64) (f := BitVec.sshiftRight) rfl
    (fun h => if_pos h) (fun hd => (irOptConstBinop_shift hd).2.2)
    (armBinop_shift (.inr (.inr rfl)) (fun _ _ h => if_pos h) (fun _ _ h => if_pos h))
    (fun _ => loWord_signExtend _)

/-- The rotation of the host is right except by 0, where it shifts by the whole width. -/
theorem hostRor_eq {x : BitVec 32} {k : ℕ} (hk : k < 32) :
    hostRor x k = if k = 0 then .error .shiftCount else .ok (x.rotateRight k) := by
  by_cases h0 : k = 0
  · subst h0
    rfl
  · have hl : 32 - k < 32 := by omega
    rw [if_neg h0, rotateRight_eq_rotateRightAux_of_lt hk]
    simp only [hostRor, hostShr, hostShl, if_pos hk, if_pos hl]
    rfl

theorem binopSound_ror : BinopSound .ror is64 v1 v2 ↔ BinopSafe .ror is64 v1 v2 := by
  have hk : (loWord v2 &&& 31#32).toNat < 32 := by
    rw [toNat_and_31]
    omega
  have hzero : (loWord v2 &&& 31#32).toNat = 0 ↔ loWord v2 &&& 31#32 = 0#32 :=
    ⟨fun h => eq_of_toNat_eq h, fun h => by rw [h]; rfl⟩
  have hc : irOptConstBinop .ror is64 v1 v2 =
      (some <| ·.signExtend 64) <$> hostRor (loWord v1) (loWord v2 &&& 31#32).toNat := rfl
  rw [hostRor_eq hk] at hc
  constructor
  · rintro ⟨r, hr, -⟩ h0
    rw [if_pos (hzero.mpr h0)] at hc
    rw [hc] at hr
    cases hr
  · intro h
    rw [if_neg fun h0 => h (hzero.mp h0)] at hc
    have harm : armBinop .ror is64 v1 v2 =
        some (ofWord ((loWord v1).rotateRight (loWord v2).toNat)) := rfl
    refine binopSound_of_some hc harm ?_
    show loWord _ = loWord _
    rw [loWord_signExtend, loWord_ofWord, toNat_and_31, rotateRight_mod_eq_rotateRight]

theorem field_width (f : BitVec 32) :
    (f.sshiftRight 5 &&& 0x1F#32).toNat = ((f >>> 5) &&& 0x1F#32).toNat := by
  have hbits : f.sshiftRight 5 &&& 0x1F#32 = (f >>> 5) &&& 0x1F#32 := by
    have h31 : 0x1F#32 = (BitVec.allOnes 5).setWidth 32 := by decide
    apply eq_of_getLsbD_eq
    intro i hi
    rw [getLsbD_and, getLsbD_and, getLsbD_sshiftRight, h31, getLsbD_setWidth, getLsbD_allOnes]
    by_cases h5 : i < 5
    · have hlt : 5 + i < 32 := by omega
      have hge : ¬32 ≤ i := by omega
      simp [hlt, hge]
    · simp [h5]
  rw [hbits]

theorem armField_eq_iff : armField is64 v1 v2 = wordField (loWord v1) (loWord v2) ↔
    ¬(is64 = true ∧ loWord v2 &&& ubfxHiHalf ≠ 0#32 ∧
      wordField (hiWord v1) (loWord v2) ≠ wordField (loWord v1) (loWord v2)) := by
  unfold armField
  dsimp only
  by_cases h : is64 = true ∧ loWord v2 &&& ubfxHiHalf ≠ 0#32
  · rw [if_pos h]
    exact ⟨fun he hn => hn.2.2 he, fun hn => not_not.mp fun he => hn ⟨h.1, h.2, he⟩⟩
  · rw [if_neg h]
    exact ⟨fun _ hn => h ⟨hn.1, hn.2.1⟩, fun _ => rfl⟩

theorem binopSound_ubfx : BinopSound .ubfx is64 v1 v2 ↔ BinopSafe .ubfx is64 v1 v2 := by
  have hw : ((loWord v2 >>> 5) &&& 0x1F#32).toNat < 32 := by
    rw [toNat_and_31]
    omega
  have hlsb : (loWord v2 &&& 0x1F#32).toNat < 32 := by
    rw [toNat_and_31]
    omega
  by_cases h0 : ((loWord v2 >>> 5) &&& 0x1F#32).toNat = 0
  · have hnone : irOptConstBinop .ubfx is64 v1 v2 = .ok none := by
      simp only [irOptConstBinop, field_width, h0, true_or, if_true]
    exact ⟨fun _ h => h.2.2.1 h0, fun _ => binopSound_of_none hnone⟩
  · have hc : irOptConstBinop .ubfx is64 v1 v2 =
        .ok (some (ofWord (wordField (loWord v1) (loWord v2)))) := by
      have hle : ¬(((loWord v2 >>> 5) &&& 0x1F#32).toNat = 0 ∨
          32 < ((loWord v2 >>> 5) &&& 0x1F#32).toNat) := by omega
      simp only [irOptConstBinop, field_width, if_neg hle, hostShr, if_pos hlsb, hostShl, if_pos hw,
        wordField, bfxLsb, bfxWidth, widthMask, if_neg h0, if_neg (Nat.not_le.mpr hw)]
      rfl
    have harm : armBinop .ubfx is64 v1 v2 = some (ofWord (armField is64 v1 v2)) := rfl
    constructor
    · rintro ⟨r, hr, hs⟩ ⟨h64, hhi, _, hne⟩
      rw [hc] at hr
      cases hr
      obtain ⟨y, hy, hsame⟩ := hs _ rfl
      cases hy
      have heq : loWord _ = loWord _ := hsame
      rw [loWord_ofWord, loWord_ofWord] at heq
      exact armField_eq_iff.mp heq.symm ⟨h64, hhi, hne⟩
    · intro h
      refine binopSound_of_some hc harm ?_
      show loWord _ = loWord _
      rw [armField_eq_iff.mpr fun hn => h ⟨hn.1, hn.2.1, h0, hn.2.2⟩]

theorem binopSound_ring (hop : op = .add ∨ op = .sub ∨ op = .mul ∨ op = .and ∨ op = .or ∨
    op = .xor) : BinopSound op is64 v1 v2 := by
  rcases hop with rfl | rfl | rfl | rfl | rfl | rfl
  · exact binopSound_total (f := (· + ·)) rfl rfl (by cases is64 <;> rfl) (loWord_add v1 v2)
  · exact binopSound_total (f := (· - ·)) rfl rfl (by cases is64 <;> rfl) (loWord_sub v1 v2)
  · exact binopSound_total (f := (· * ·)) rfl rfl (by cases is64 <;> rfl) (loWord_mul v1 v2)
  · exact binopSound_total (f := (· &&& ·)) rfl rfl (by cases is64 <;> rfl) (loWord_and v1 v2)
  · exact binopSound_total (f := (· ||| ·)) rfl rfl (by cases is64 <;> rfl) (loWord_or v1 v2)
  · exact binopSound_total (f := (· ^^^ ·)) rfl rfl (by cases is64 <;> rfl) (loWord_xor v1 v2)

section Division

variable {n : ℕ}

theorem hostDiv_ok {a b : BitVec n} (h0 : b ≠ 0#n) (h : ¬(a = BitVec.intMin n ∧ b = -1#n)) :
    hostDiv a b = .ok (a.sdiv b) := by
  rw [hostDiv, if_neg h0, if_neg h]

theorem hostRem_ok {a b : BitVec n} (h0 : b ≠ 0#n) (h : ¬(a = BitVec.intMin n ∧ b = -1#n)) :
    hostRem a b = .ok (a.srem b) := by
  rw [hostRem, if_neg h0, if_neg h]

theorem hostDiv_overflow {a b : BitVec n} (h0 : b ≠ 0#n) (h : a = BitVec.intMin n ∧ b = -1#n) :
    hostDiv a b = .error .divOverflow := by
  rw [hostDiv, if_neg h0, if_pos h]

theorem hostRem_overflow {a b : BitVec n} (h0 : b ≠ 0#n) (h : a = BitVec.intMin n ∧ b = -1#n) :
    hostRem a b = .error .divOverflow := by
  rw [hostRem, if_neg h0, if_pos h]

theorem constDivDeclines_eq_false (h : constDivDeclines is64 v1 v2 = false) :
    v2 ≠ 0#64 ∧ (v2 = -1#64 →
      ¬(if is64 then v1 = BitVec.intMin 64 else loWord v1 = BitVec.intMin 32)) := by
  simp only [constDivDeclines, Bool.or_eq_false_iff, Bool.and_eq_false_iff,
    decide_eq_false_iff_not] at h
  refine ⟨h.1, fun h2 => ?_⟩
  have hmin := h.2.resolve_left (not_not_intro h2)
  cases is64 <;> simpa using hmin

variable (hext : is64 = false → IsExtension v2)

include hext

theorem binopSound_unsigned (hop : op = .udiv ∨ op = .umod) : BinopSound op is64 v1 v2 := by
  by_cases h0 : v2 = 0#64
  · rcases hop with rfl | rfl <;> exact binopSound_of_none (if_pos h0)
  cases is64 with
  | true =>
    rcases hop with rfl | rfl
    · refine binopSound_of_some (x := v1 / v2) ?_ (if_neg h0) rfl
      simp [irOptConstBinop, h0, hostUdiv]
    · refine binopSound_of_some (x := v1 % v2) ?_ (if_neg h0) rfl
      simp [irOptConstBinop, h0, hostUmod]
  | false =>
    have hlow := (hext rfl).loWord_ne_zero h0
    rcases hop with rfl | rfl
    · refine binopSound_of_some (x := ofWord (loWord v1 / loWord v2))
        (y := ofWord (loWord v1 / loWord v2)) ?_ ?_ rfl
      · simp [irOptConstBinop, h0, hostUdiv, hlow]
      · simp [armBinop, binopIs64, aluWord, hlow]
    · refine binopSound_of_some (x := ofWord (loWord v1 % loWord v2))
        (y := ofWord (loWord v1 % loWord v2)) ?_ ?_ rfl
      · simp [irOptConstBinop, h0, hostUmod, hlow]
      · simp [armBinop, binopIs64, aluWord, hlow]

theorem binopSound_signed (hop : op = .div ∨ op = .pdiv ∨ op = .imod) :
    BinopSound op is64 v1 v2 ↔ BinopSafe op is64 v1 v2 := by
  -- the guard is on the doublewords and the division on the words, so -1 as a zero-extended
  -- word goes past the guard
  have hsafe : BinopSafe op is64 v1 v2 ↔
      ¬(is64 = false ∧ loWord v1 = BitVec.intMin 32 ∧ v2 = 0xFFFFFFFF#64) := by
    rcases hop with rfl | rfl | rfl <;> rfl
  rw [hsafe]
  cases hd : constDivDeclines is64 v1 v2 with
  | true =>
    have hnone : irOptConstBinop op is64 v1 v2 = .ok none := by
      rcases hop with rfl | rfl | rfl <;> exact if_pos hd
    refine ⟨fun _ => ?_, fun _ => binopSound_of_none hnone⟩
    rintro ⟨-, -, rfl⟩
    simp [constDivDeclines] at hd
  | false =>
    obtain ⟨h0, hmin⟩ := constDivDeclines_eq_false hd
    cases is64 with
    | true =>
      refine ⟨fun _ h => absurd h.1 (by decide), fun _ => ?_⟩
      have hok : ¬(v1 = BitVec.intMin 64 ∧ v2 = -1#64) := fun h => hmin h.2 h.1
      rcases hop with rfl | rfl | rfl
      · exact binopSound_of_some (by simp only [irOptConstBinop, hd, hostDiv_ok h0 hok]; rfl)
          (if_neg h0) rfl
      · exact binopSound_of_some (by simp only [irOptConstBinop, hd, hostDiv_ok h0 hok]; rfl)
          (if_neg h0) rfl
      · exact binopSound_of_some (by simp only [irOptConstBinop, hd, hostRem_ok h0 hok]; rfl)
          (if_neg h0) rfl
    | false =>
      have hlow := (hext rfl).loWord_ne_zero h0
      by_cases hov : loWord v1 = BitVec.intMin 32 ∧ loWord v2 = -1#32
      · -- the word -1 did not come sign-extended, or the guard would have declined
        have hv2 : v2 = 0xFFFFFFFF#64 :=
          ((hext rfl).of_loWord_neg_one hov.2).resolve_left fun h => hmin h hov.1
        refine ⟨?_, fun h => absurd ⟨rfl, hov.1, hv2⟩ h⟩
        rintro ⟨r, hr, -⟩
        have herr : irOptConstBinop op false v1 v2 = .error .divOverflow := by
          rcases hop with rfl | rfl | rfl
          · simp only [irOptConstBinop, hd, hostDiv_overflow hlow hov]
            rfl
          · simp only [irOptConstBinop, hd, hostDiv_overflow hlow hov]
            rfl
          · simp only [irOptConstBinop, hd, hostRem_overflow hlow hov]
            rfl
        rw [herr] at hr
        cases hr
      · have hsound : BinopSound op false v1 v2 := by
          rcases hop with rfl | rfl | rfl
          · exact binopSound_of_some (y := ofWord ((loWord v1).sdiv (loWord v2)))
              (by simp only [irOptConstBinop, hd, hostDiv_ok hlow hov]; rfl)
              (by simp [armBinop, binopIs64, aluWord, hlow]) (by
                show loWord _ = loWord _
                rw [loWord_signExtend, loWord_ofWord])
          · exact binopSound_of_some (y := ofWord ((loWord v1).sdiv (loWord v2)))
              (by simp only [irOptConstBinop, hd, hostDiv_ok hlow hov]; rfl)
              (by simp [armBinop, aluWord, hlow]) (by
                show loWord _ = loWord _
                rw [loWord_signExtend, loWord_ofWord])
          · exact binopSound_of_some (y := ofWord ((loWord v1).srem (loWord v2)))
              (by simp only [irOptConstBinop, hd, hostRem_ok hlow hov]; rfl)
              (by simp [armBinop, binopIs64, aluWord, hlow]) (by
                show loWord _ = loWord _
                rw [loWord_signExtend, loWord_ofWord])
        refine ⟨fun _ => ?_, fun _ => hsound⟩
        rintro ⟨-, h1, rfl⟩
        exact hov ⟨h1, by decide⟩

end Division

/-- The function is right on all arguments but three kinds: a zero-extended word division of
`INT_MIN` by -1, a rotation by a multiple of 32, and a bit field of the high word. -/
theorem irOptConstBinop_sound_iff (op : TccIrOp) (is64 : Bool) (v1 v2 : BitVec 64)
    (hext : is64 = false → IsExtension v1 ∧ IsExtension v2) :
    BinopSound op is64 v1 v2 ↔ BinopSafe op is64 v1 v2 := by
  have h2 : is64 = false → IsExtension v2 := fun h => (hext h).2
  cases op with
  | add => exact ⟨fun _ => trivial, fun _ => binopSound_ring (by simp)⟩
  | sub => exact ⟨fun _ => trivial, fun _ => binopSound_ring (by simp)⟩
  | mul => exact ⟨fun _ => trivial, fun _ => binopSound_ring (by simp)⟩
  | and => exact ⟨fun _ => trivial, fun _ => binopSound_ring (by simp)⟩
  | or => exact ⟨fun _ => trivial, fun _ => binopSound_ring (by simp)⟩
  | xor => exact ⟨fun _ => trivial, fun _ => binopSound_ring (by simp)⟩
  | shl => exact ⟨fun _ => trivial, fun _ => binopSound_shl⟩
  | shr => exact ⟨fun _ => trivial, fun _ => binopSound_shr⟩
  | sar => exact ⟨fun _ => trivial, fun _ => binopSound_sar⟩
  | ror => exact binopSound_ror
  | ubfx => exact binopSound_ubfx
  | umull => exact ⟨fun _ => trivial, fun _ => binopSound_of_some rfl rfl rfl⟩
  | smull => exact ⟨fun _ => trivial, fun _ => binopSound_of_some rfl rfl rfl⟩
  | div => exact binopSound_signed h2 (by simp)
  | pdiv => exact binopSound_signed h2 (by simp)
  | imod => exact binopSound_signed h2 (by simp)
  | udiv => exact ⟨fun _ => trivial, fun _ => binopSound_unsigned h2 (by simp)⟩
  | umod => exact ⟨fun _ => trivial, fun _ => binopSound_unsigned h2 (by simp)⟩
  | _ => exact ⟨fun _ => trivial, fun _ => binopSound_of_none rfl⟩

theorem irOptConstBinop_sound_seven : BinopSafe .div false 7#64 0xFFFFFFFF#64 ∧
    BinopSound .div false 7#64 0xFFFFFFFF#64 := by
  have hsafe : BinopSafe .div false 7#64 0xFFFFFFFF#64 := by
    rintro ⟨-, h, -⟩
    exact absurd h (by decide)
  refine ⟨hsafe, (irOptConstBinop_sound_iff .div false 7#64 0xFFFFFFFF#64 fun _ => ?_).mpr hsafe⟩
  exact ⟨.inl (by decide), .inr (by decide)⟩

/-- `INT_MIN / 0xFFFFFFFF` traps on the host, a rotation by 0 shifts a word by 32, and the field of
the high word is read in the low one. -/
theorem irOptConstBinop_unsound :
    irOptConstBinop .div false 0xFFFFFFFF80000000#64 0xFFFFFFFF#64 = .error .divOverflow ∧
      irOptConstBinop .ror false 1#64 0#64 = .error .shiftCount ∧
      irOptConstBinop .ubfx true 0x1234567800000000#64 0x1100#64 = .ok (some 0#64) ∧
      armBinop .ubfx true 0x1234567800000000#64 0x1100#64 = some 0x78#64 := by
  decide

end Binop

end Tinycc
