import Tinycc.Opt.FoldMasks

namespace Tinycc
open Lib IRSSAOptCtx Function Bool
open BitVec hiding not_not

def FoldKB64.Has (r : FoldKB64) (x : BitVec 64) : Prop := Knows r.kz r.ko x

section Words

variable {x : BitVec 64} {kz ko m : BitVec 32}

theorem knows_ofWord (h : Knows kz ko (loWord x)) : Knows (ofWord kz) (ofWord ko) x := by
  refine ⟨fun i hi => ?_, fun i hi => ?_⟩
  · rw [getLsbD_ofWord] at hi
    rw [← getLsbD_loWord x (lt_of_getLsbD hi)]
    exact h.zero i hi
  · rw [getLsbD_ofWord] at hi
    rw [← getLsbD_loWord x (lt_of_getLsbD hi)]
    exact h.one i hi

theorem knows_upper {a b : BitVec 64} (h : Knows a b (ofWord m)) :
    Knows (a ||| 0xFFFFFFFF00000000#64) b (ofWord m) := by
  refine ⟨fun i hi => ?_, h.one⟩
  rw [getLsbD_or, or_eq_true] at hi
  rcases hi with hi | hi
  · exact h.zero i hi
  · rw [getLsbD_ofWord]
    by_cases hlt : i < 32
    · have hlow : 0xFFFFFFFF00000000#64 = BitVec.allOnes 64 <<< 32 := by decide
      rw [hlow, getLsbD_shiftLeft] at hi
      simp [hlt] at hi
    · exact getLsbD_of_ge _ _ (by omega)

theorem knows_of_covers {n : ℕ} {m x : BitVec n} (h : Covers m x) : Knows (~~~m) 0#n x := by
  refine ⟨fun i hi => ?_, fun i hi => by simp at hi⟩
  rw [getLsbD_not, and_eq_true, not_eq_true'] at hi
  cases hx : x.getLsbD i with
  | false => rfl
  | true => exact absurd (h i hx) (by rw [hi.2]; exact false_ne_true)

theorem knows_word_of_covers (h : Covers m (loWord x)) : Knows (ofWord (~~~m)) 0#64 x := by
  have hk := knows_ofWord (knows_of_covers h)
  exact hk

theorem knows_pack {lo hi : FoldKB64} {a b : BitVec 32} (hlo : lo.Has (ofWord a))
    (hhi : hi.Has (ofWord b)) :
    FoldKB64.Has ⟨(lo.kz &&& 0xFFFFFFFF#64) ||| (hi.kz <<< 32),
      (lo.ko &&& 0xFFFFFFFF#64) ||| (hi.ko <<< 32)⟩ (ofWord a ||| ofWord b <<< 32) := by
  have hmask : 0xFFFFFFFF#64 = (1#64 <<< 32) - 1#64 := by decide
  have hbit : ∀ i, i < 64 → (ofWord a ||| ofWord b <<< 32).getLsbD i =
      if i < 32 then a.getLsbD i else b.getLsbD (i - 32) := by
    intro i hi
    rw [getLsbD_or, getLsbD_shiftLeft, getLsbD_ofWord, getLsbD_ofWord]
    by_cases hlt : i < 32
    · simp [hlt]
    · rw [getLsbD_of_ge a i (by omega)]
      simp [hlt, hi]
  have hsplit : ∀ (u v : BitVec 64) i,
      ((u &&& 0xFFFFFFFF#64) ||| (v <<< 32)).getLsbD i = true →
        i < 64 ∧ if i < 32 then u.getLsbD i = true else v.getLsbD (i - 32) = true := by
    intro u v i h
    have hi := lt_of_getLsbD h
    rw [hmask, getLsbD_or, getLsbD_and, getLsbD_shiftLeft,
      getLsbD_lowMask (by decide)] at h
    refine ⟨hi, ?_⟩
    by_cases hlt : i < 32
    · simpa [hlt] using h
    · simpa [hlt, hi] using h
  refine ⟨fun i h => ?_, fun i h => ?_⟩
  · obtain ⟨hi64, hside⟩ := hsplit _ _ i h
    rw [hbit i hi64]
    by_cases hlt : i < 32
    · rw [if_pos hlt] at hside ⊢
      exact hlo.zero i hside
    · rw [if_neg hlt] at hside ⊢
      exact hhi.zero _ hside
  · obtain ⟨hi64, hside⟩ := hsplit _ _ i h
    rw [hbit i hi64]
    by_cases hlt : i < 32
    · rw [if_pos hlt] at hside ⊢
      exact hlo.one i hside
    · rw [if_neg hlt] at hside ⊢
      exact hhi.one _ hside

theorem FoldKB64.has_none (x : BitVec 64) : FoldKB64.none.Has x := Knows.none x

end Words

section Disjoint

variable {ctx : IRSSAOptCtx} {op : IROperand} {i depth : ℕ} {budget : ℤ}

theorem exists_has_foldKb64Word (wm : BitVec 32) (zext : Bool) :
    ∃ y : BitVec 32, (ctx.foldKb64Word op i wm zext depth budget).1.Has (ofWord y) := by
  unfold foldKb64Word
  by_cases hl : op.isLval = true
  · rw [if_pos hl]
    exact ⟨0#32, FoldKB64.has_none _⟩
  · rw [if_neg hl]
    cases foldReadImm32 op with
    | some v =>
      dsimp only
      have hk : Knows (ofWord (~~~(v &&& wm))) (ofWord (v &&& wm)) (ofWord (v &&& wm)) :=
        knows_ofWord (by rw [loWord_ofWord]; exact Knows.const _)
      refine ⟨v &&& wm, ?_⟩
      split
      · exact knows_upper hk
      · exact hk
    | none =>
      by_cases hv : op.data ≠ .vreg
      · rw [if_pos hv]
        exact ⟨0#32, FoldKB64.has_none _⟩
      · rw [if_neg hv]
        refine ⟨0#32, fun j _ => ?_, fun j hj => ?_⟩
        · rw [getLsbD_ofWord, getLsbD_zero]
        · rw [getLsbD_zero] at hj
          cases hj

theorem exists_has_foldKb64Result {kb : IROperand → ℕ → ℤ → FoldKB64 × ℤ}
    (hkb : ∀ op i budget, ∃ x, (kb op i budget).1.Has x) (q : IRQuadCompact) :
    ∃ x, (ctx.foldKb64Result kb q i depth budget).1.Has x := by
  unfold foldKb64Result
  cases q.op <;> dsimp only <;> try exact ⟨0#64, FoldKB64.has_none _⟩
  case assign => exact hkb _ _ _
  case zext =>
    split
    · exact ⟨0#64, FoldKB64.has_none _⟩
    · split
      · exact hkb _ _ _
      · obtain ⟨y, hy⟩ := @exists_has_foldKb64Word ctx q.src1 i depth budget _ true
        exact ⟨_, hy⟩
  case pack64 =>
    obtain ⟨a, ha⟩ := @exists_has_foldKb64Word ctx q.src1 i depth budget 0xFFFFFFFF#32 true
    obtain ⟨b, hb⟩ := @exists_has_foldKb64Word ctx q.src2 i depth
      (ctx.foldKb64Word q.src1 i 0xFFFFFFFF#32 true depth budget).2 0xFFFFFFFF#32 true
    exact ⟨_, knows_pack ha hb⟩
  case and =>
    obtain ⟨a, ha⟩ := hkb q.src1 i budget
    obtain ⟨b, hb⟩ := hkb q.src2 i (kb q.src1 i budget).2
    exact ⟨_, Knows.and ha hb⟩
  case or =>
    obtain ⟨a, ha⟩ := hkb q.src1 i budget
    obtain ⟨b, hb⟩ := hkb q.src2 i (kb q.src1 i budget).2
    exact ⟨_, Knows.or ha hb⟩
  case xor =>
    obtain ⟨a, ha⟩ := hkb q.src1 i budget
    obtain ⟨b, hb⟩ := hkb q.src2 i (kb q.src1 i budget).2
    exact ⟨_, Knows.xor ha hb⟩
  case shl | shr | sar =>
    cases foldReadImm32 q.src2 with
    | none => exact ⟨0#64, FoldKB64.has_none _⟩
    | some k =>
      dsimp only
      by_cases hk : 64 ≤ k.toNat
      · rw [if_pos hk]
        exact ⟨0#64, FoldKB64.has_none _⟩
      · rw [if_neg hk]
        obtain ⟨a, ha⟩ := hkb q.src1 i budget
        first
          | exact ⟨_, Knows.shiftLeft ha (Nat.lt_of_not_le hk)⟩
          | exact ⟨_, Knows.shiftRight ha _⟩
          | exact ⟨_, Knows.sshiftRight ha _⟩

theorem foldKb64_cases (ctx : IRSSAOptCtx) (depth : ℕ) (op : IROperand) (i : ℕ) (budget : ℤ) :
    (ctx.foldKb64 depth op i budget).1 = .none ∨
      (op.is64 = false ∧
        ctx.foldKb64 depth op i budget =
          ctx.foldKb64Word op i 0xFFFFFFFF#32 false depth budget) ∨
      (op.is64 = true ∧ op.isImmediate = true ∧
        (ctx.foldKb64 depth op i budget).1 = ⟨~~~op.getImm64, op.getImm64⟩) ∨
      ∃ depth' d, depth = depth' + 1 ∧ op.is64 = true ∧ ctx.foldSingleDomDef op i = some d ∧
        ctx.barrelShiftAt (ctx.quad d) = 0#8 ∧ (ctx.quad d).getDest.isLval = false ∧
        (ctx.quad d).getDest.btype = .int64 ∧
        ctx.foldKb64 depth op i budget =
          ctx.foldKb64Result (ctx.foldKb64 depth') (ctx.quad d) d depth' (budget - 1) := by
  generalize hr : ctx.foldKb64 depth op i budget = r
  unfold foldKb64 at hr
  by_cases hl : op.isLval = true ∨ op.isSym = true
  · rw [if_pos hl] at hr
    exact .inl (congrArg Prod.fst hr).symm
  rw [if_neg hl] at hr
  by_cases h64 : op.is64 = false
  · rw [if_pos h64] at hr
    exact .inr (.inl ⟨h64, hr.symm⟩)
  rw [if_neg h64] at hr
  by_cases himm : op.isImmediate = true
  · rw [if_pos himm] at hr
    by_cases hb : op.btype = .int64
    · rw [if_pos hb] at hr
      exact .inr (.inr (.inl ⟨(not_eq_false _).mp h64, himm, (congrArg Prod.fst hr).symm⟩))
    · rw [if_neg hb] at hr
      exact .inl (congrArg Prod.fst hr).symm
  rw [if_neg himm] at hr
  cases depth with
  | zero => exact .inl (congrArg Prod.fst hr).symm
  | succ depth =>
    dsimp only at hr
    by_cases hb : budget - 1 ≤ 0
    · rw [if_pos hb] at hr
      exact .inl (congrArg Prod.fst hr).symm
    rw [if_neg hb] at hr
    cases hd : ctx.foldSingleDomDef op i with
    | none =>
      rw [hd] at hr
      exact .inl (congrArg Prod.fst hr).symm
    | some d =>
      rw [hd] at hr
      dsimp only at hr
      by_cases hc : ctx.barrelShiftAt (ctx.quad d) = 0#8 ∧ (ctx.quad d).getDest.isLval = false ∧
          (ctx.quad d).getDest.btype = .int64
      · rw [if_pos hc] at hr
        exact .inr (.inr (.inr ⟨depth, d, rfl, (not_eq_false _).mp h64, rfl, hc.1, hc.2.1,
          hc.2.2, hr.symm⟩))
      · rw [if_neg hc] at hr
        exact .inl (congrArg Prod.fst hr).symm

theorem exists_has_foldKb64 (ctx : IRSSAOptCtx) (depth : ℕ) : ∀ (op : IROperand) (i : ℕ)
    (budget : ℤ), ∃ x, (ctx.foldKb64 depth op i budget).1.Has x := by
  induction depth using Nat.strong_induction_on with
  | _ depth ih =>
    intro op i budget
    rcases foldKb64_cases ctx depth op i budget with
      h | ⟨_, h⟩ | ⟨_, _, h⟩ | ⟨depth', d, hdepth, _, _, _, _, _, h⟩
    · rw [h]
      exact ⟨0#64, FoldKB64.has_none _⟩
    · rw [h]
      obtain ⟨y, hy⟩ := @exists_has_foldKb64Word ctx op i depth budget 0xFFFFFFFF#32 false
      exact ⟨_, hy⟩
    · rw [h]
      exact ⟨_, Knows.const _⟩
    · rw [h]
      exact exists_has_foldKb64Result (ih depth' (by omega)) _

end Disjoint

section Known

variable {World : Type} {M : ValueSem World} {σ : Vreg → BitVec 64} {w : World}
  {ctx : IRSSAOptCtx} {op : IROperand} {i depth : ℕ} {budget : ℤ}

theorem operand_of_vreg_word (hv : op.data = .vreg) (hl : ¬ op.isLval = true)
    (h64 : op.is64 = false) : M.operand op σ w = ofWord (loWord (M.operand op σ w)) := by
  have hfit : ∀ x, ValueSem.fit op x = ofWord (loWord x) := by
    intro x
    unfold ValueSem.fit
    rw [h64, if_neg Bool.false_ne_true, if_neg fun e => hl e.1, if_neg fun e => hl e.1]
  unfold ValueSem.operand
  rw [if_neg hl, hv]
  cases op.vreg with
  | none =>
    rw [hfit, loWord_ofWord]
  | some r =>
    dsimp only
    rw [hfit, loWord_ofWord]

theorem operand_of_positive {v : BitVec 32} (h : foldReadImm32 op = some v)
    (hs : v &&& 0x80000000#32 = 0#32) : M.operand op σ w = ofWord v := by
  have hsign : v.signExtend 64 = ofWord v := by
    apply signExtend_eq_setWidth_of_msb_false
    cases hm : v.msb with
    | false => rfl
    | true => exact absurd hs ((and_signBit_ne_zero v).mpr hm)
  unfold foldReadImm32 at h
  by_cases hl : op.isLval = true
  · rw [if_pos hl] at h
    cases h
  rw [if_neg hl] at h
  unfold ValueSem.operand
  rw [if_neg hl]
  split at h
  · next x hx =>
    cases h
    rw [hx]
    exact hsign
  · next x hx =>
    split at h
    case isFalse => cases h
    case isTrue hc =>
      cases h
      rw [hx]
      rcases hc.2 with he | he
      · exact he.trans hsign
      · exact he
  · cases h

theorem has_foldKb64Word_zext (wm : BitVec 32)
    (hbits : Covers (ctx.foldMaybeSetBits depth op i budget).1 (loWord (M.operand op σ w))) :
    (ctx.foldKb64Word op i wm true depth budget).1.Has
      (ofWord (loWord (M.operand op σ w) &&& wm)) := by
  unfold foldKb64Word
  by_cases hl : op.isLval = true
  · rw [if_pos hl]
    exact FoldKB64.has_none _
  rw [if_neg hl]
  cases hread : foldReadImm32 op with
  | some v =>
    rw [loWord_operand_of_foldReadImm32 hread]
    apply knows_upper
    apply knows_ofWord
    rw [loWord_ofWord]
    exact Knows.const _
  | none =>
    by_cases hv : op.data ≠ .vreg
    · rw [if_pos hv]
      exact FoldKB64.has_none _
    · rw [if_neg hv]
      apply knows_upper
      apply knows_word_of_covers
      rw [loWord_ofWord]
      exact hbits.and (Covers.refl wm)

theorem has_foldKb64Word {x : BitVec 64} (h64 : op.is64 = false)
    (hbits : Covers (ctx.foldMaybeSetBits depth op i budget).1 (loWord (M.operand op σ w)))
    (hx : x = M.operand op σ w ∨ x = ofWord (loWord (M.operand op σ w))) :
    (ctx.foldKb64Word op i 0xFFFFFFFF#32 false depth budget).1.Has x := by
  -- a word is zero-extended as a register and sign-extended as a constant: both readings are
  -- shown
  have hlow : loWord x = loWord (M.operand op σ w) := by
    rcases hx with hx | hx
    · rw [hx]
    · rw [hx, loWord_ofWord]
  have hword : ∀ v, M.operand op σ w = ofWord v → x = ofWord v := by
    intro v hv
    rcases hx with hx | hx
    · rw [hx, hv]
    · rw [hx, hv, loWord_ofWord]
  have hones : ∀ v : BitVec 32, v &&& 0xFFFFFFFF#32 = v := fun v => and_allOnes
  unfold foldKb64Word
  by_cases hl : op.isLval = true
  · rw [if_pos hl]
    exact FoldKB64.has_none _
  rw [if_neg hl]
  cases hread : foldReadImm32 op with
  | some v =>
    dsimp only
    rw [hones]
    have hk : Knows (ofWord (~~~v)) (ofWord v) x := by
      apply knows_ofWord
      rw [hlow, loWord_operand_of_foldReadImm32 hread]
      exact Knows.const _
    by_cases hs : false = true ∨ v &&& 0x80000000#32 = 0#32
    · rw [if_pos hs]
      rw [hword v (operand_of_positive hread (hs.resolve_left false_ne_true))] at hk ⊢
      exact knows_upper hk
    · rw [if_neg hs]
      exact hk
  | none =>
    dsimp only
    by_cases hv : op.data ≠ .vreg
    · rw [if_pos hv]
      exact FoldKB64.has_none _
    · rw [if_neg hv]
      rw [hones]
      rw [← hlow] at hbits
      have hk := knows_word_of_covers hbits
      split
      · rw [hword _ (operand_of_vreg_word (not_not.mp hv) hl h64)] at hk ⊢
        exact knows_upper hk
      · exact hk

theorem zext_word (h64 : op.is64 = false) :
    M.zext op σ w = ofWord (loWord (M.operand op σ w) &&&
      if op.btype = .int8 then 0xFF#32 else if op.btype = .int16 then 0xFFFF#32
        else 0xFFFFFFFF#32) := by
  unfold ValueSem.zext
  rw [h64, if_neg Bool.false_ne_true]
  generalize M.operand op σ w = x
  have hnarrow : ∀ k, k < 32 → (x.setWidth k).setWidth 64 =
      ofWord (loWord x &&& ((1#32 <<< k) - 1#32)) := by
    intro k hk
    apply eq_of_getLsbD_eq
    intro j hj
    rw [getLsbD_ofWord, getLsbD_and,
      getLsbD_lowMask hk]
    by_cases hjk : j < k
    · rw [getLsbD_loWord x (by omega)]
      simp [hj, hjk]
    · simp [hjk]
  by_cases h8 : op.btype = .int8
  · rw [if_pos h8, if_pos h8]
    exact hnarrow 8 (by decide)
  · rw [if_neg h8, if_neg h8]
    by_cases h16 : op.btype = .int16
    · rw [if_pos h16, if_pos h16]
      exact hnarrow 16 (by decide)
    · rw [if_neg h16, if_neg h16]
      exact congrArg ofWord BitVec.and_allOnes.symm

theorem alu_wide {q : IRQuadCompact} (hd : q.dest.is64 = true) :
    M.alu 0#8 q σ w = aluWide q.op (M.operand q.src1 σ w) (M.operand q.src2 σ w) := by
  unfold ValueSem.alu
  rw [hd, if_pos rfl, if_pos rfl]

theorem toNat_operand_of_foldReadImm32 {k : BitVec 32} (h : foldReadImm32 op = some k)
    (hk : k.toNat < 64) : (M.operand op σ w).toNat = k.toNat := by
  have hsign : k &&& 0x80000000#32 = 0#32 := by
    by_contra hne
    have hmsb := (and_signBit_ne_zero k).mp hne
    rw [msb_eq_decide, decide_eq_true_eq] at hmsb
    omega
  rw [operand_of_positive h hsign, toNat_ofWord]

theorem has_foldKb64Result {kb : IROperand → ℕ → ℤ → FoldKB64 × ℤ} {q : IRQuadCompact}
    {bfi : BitVec 16} (hd : q.dest.is64 = true)
    (hkb : ∀ op ∈ q.reads, ∀ budget x, x = M.operand op σ w ∨
      (op.is64 = false ∧ x = ofWord (loWord (M.operand op σ w))) → (kb op i budget).1.Has x)
    (hbits : ∀ op ∈ q.reads, ∀ depth budget,
      Covers (ctx.foldMaybeSetBits depth op i budget).1 (loWord (M.operand op σ w))) :
    (ctx.foldKb64Result kb q i depth budget).1 = .none ∨ ∃ x, M.instrValue 0#8 bfi q σ w = some x ∧
      (ctx.foldKb64Result kb q i depth budget).1.Has x := by
  have h1 : (iropConfig q.op).hasSrc1 = true → q.src1 ∈ q.reads := IRQuadCompact.src1_mem_reads
  have h2 : (iropConfig q.op).hasSrc2 = true → q.src2 ∈ q.reads := IRQuadCompact.src2_mem_reads
  unfold foldKb64Result ValueSem.instrValue
  cases hop : q.op <;> dsimp only <;> try exact .inl rfl
  all_goals
    have hs1 := h1 (by rw [hop]; rfl)
  case assign =>
    refine .inr ⟨_, rfl, hkb _ hs1 _ _ ?_⟩
    unfold ValueSem.copy
    by_cases h64 : q.src1.is64 = true
    · rw [if_pos ⟨hd, h64⟩]
      exact .inl rfl
    · rw [if_neg fun e => h64 e.2]
      exact .inr ⟨(not_eq_true _).mp h64, rfl⟩
  case zext =>
    by_cases hl : q.src1.isLval = true
    · rw [if_pos hl]
      exact .inl rfl
    rw [if_neg hl]
    right
    rw [if_pos hd]
    refine ⟨_, rfl, ?_⟩
    by_cases h64 : q.src1.is64 = true
    · rw [if_pos h64]
      refine hkb _ hs1 _ _ (.inl ?_)
      unfold ValueSem.zext
      rw [if_pos h64]
    · rw [if_neg h64, zext_word ((not_eq_true _).mp h64)]
      exact has_foldKb64Word_zext _ (hbits _ hs1 _ _)
  case pack64 =>
    have hs2 := h2 (by rw [hop]; rfl)
    right
    rw [if_pos hd]
    refine ⟨_, rfl, ?_⟩
    have hones : ∀ v : BitVec 32, v &&& 0xFFFFFFFF#32 = v := fun v => and_allOnes
    have hlo := @has_foldKb64Word_zext World M σ w ctx q.src1 i depth budget 0xFFFFFFFF#32
      (hbits _ hs1 _ _)
    have hhi := @has_foldKb64Word_zext World M σ w ctx q.src2 i depth
      (ctx.foldKb64Word q.src1 i 0xFFFFFFFF#32 true depth budget).2 0xFFFFFFFF#32
      (hbits _ hs2 _ _)
    rw [hones] at hlo hhi
    exact knows_pack hlo hhi
  case and =>
    have hs2 := h2 (by rw [hop]; rfl)
    rw [alu_wide hd, hop]
    exact .inr ⟨_, rfl, Knows.and (hkb _ hs1 _ _ (.inl rfl)) (hkb _ hs2 _ _ (.inl rfl))⟩
  case or =>
    have hs2 := h2 (by rw [hop]; rfl)
    rw [alu_wide hd, hop]
    exact .inr ⟨_, rfl, Knows.or (hkb _ hs1 _ _ (.inl rfl)) (hkb _ hs2 _ _ (.inl rfl))⟩
  case xor =>
    have hs2 := h2 (by rw [hop]; rfl)
    rw [alu_wide hd, hop]
    exact .inr ⟨_, rfl, Knows.xor (hkb _ hs1 _ _ (.inl rfl)) (hkb _ hs2 _ _ (.inl rfl))⟩
  case shl | shr | sar =>
    cases hread : foldReadImm32 q.src2 with
    | none => exact .inl rfl
    | some k =>
      dsimp only
      by_cases hk : 64 ≤ k.toNat
      · rw [if_pos hk]
        exact .inl rfl
      rw [if_neg hk]
      have hlt := Nat.lt_of_not_le hk
      have hcount := @toNat_operand_of_foldReadImm32 World M σ w q.src2 k hread hlt
      rw [alu_wide hd, hop]
      unfold aluWide
      dsimp only
      rw [hcount, if_pos hlt]
      first
        | exact .inr ⟨_, rfl, Knows.shiftLeft (hkb _ hs1 _ _ (.inl rfl)) hlt⟩
        | exact .inr ⟨_, rfl, Knows.shiftRight (hkb _ hs1 _ _ (.inl rfl)) _⟩
        | exact .inr ⟨_, rfl, Knows.sshiftRight (hkb _ hs1 _ _ (.inl rfl)) _⟩

end Known

section Runs

variable {World : Type} {ctx : IRSSAOptCtx} {ssa : IRSSAState} {M : ValueSem World}

theorem is64_of_int64 {op : IROperand} (h : op.btype = .int64) : op.is64 = true := by
  unfold IROperand.is64
  rw [h]
  rfl

theorem operand_of_plainVreg_wide {op : IROperand} {r : Vreg} {σ : Vreg → BitVec 64} {w : World}
    (h64 : op.is64 = true) (h : op.plainVreg = some r) : M.operand op σ w = σ r := by
  unfold IROperand.plainVreg at h
  split at h
  case isFalse => cases h
  case isTrue hp =>
    have hl : ¬ op.isLval = true := by rw [hp.2]; exact false_ne_true
    unfold ValueSem.operand
    rw [if_neg hl, hp.1]
    rw [h]
    dsimp only
    unfold ValueSem.fit
    rw [if_pos h64]

theorem has_foldKb64 (F : SsaFunction ctx ssa) (hrel : BitsReliable ctx) (depth : ℕ) :
    ∀ (budget : ℤ) (s : IrState (BitVec 64) World) (op : IROperand) (x : BitVec 64),
      ctx.Reaches ssa M s → op ∈ (ctx.quad s.pc).reads →
      (x = M.operand op s.regs s.world ∨
        (op.is64 = false ∧ x = ofWord (loWord (M.operand op s.regs s.world)))) →
      (ctx.foldKb64 depth op s.pc budget).1.Has x := by
  -- by induction on the depth of the walk
  induction depth using Nat.strong_induction_on with
  | _ depth ih =>
    intro budget s op x hs hop hx
    have hbits : ∀ op ∈ (ctx.quad s.pc).reads, ∀ depth budget, Covers
        (ctx.foldMaybeSetBits depth op s.pc budget).1 (loWord (M.operand op s.regs s.world)) :=
      fun op hop depth budget => covers_foldMaybeSetBits F hrel.1 hrel.2 depth budget s op hs hop
    rcases foldKb64_cases ctx depth op s.pc budget with
      h | ⟨h64, h⟩ | ⟨h64, himm, h⟩ | ⟨depth', d, hdepth, h64, hd, hbs, hlval, hbt, h⟩
    · rw [h]
      exact FoldKB64.has_none _
    · rw [h]
      exact has_foldKb64Word h64 (hbits op hop depth budget) (hx.imp_right And.right)
    · have he : x = op.getImm64 := by
        rcases hx with hx | hx
        · rw [hx, operand_of_isImmediate himm]
        · rw [h64] at hx
          cases hx.1
      rw [h, he]
      exact Knows.const _
    · obtain ⟨t, u, hv, hu, hpc, _, hval⟩ := F.value_of_singleDomDef hrel.1 hs hop hd
      subst hpc
      have hdest : (ctx.quad u.pc).getDest = (ctx.quad u.pc).dest := by
        unfold IRQuadCompact.getDest at hbt ⊢
        split at hbt
        case isTrue hc => rw [if_pos hc]
        case isFalse => cases hbt
      have hd64 := is64_of_int64 hbt
      have hres := @has_foldKb64Result World M u.regs u.world ctx u.pc depth' (budget - 1)
        (ctx.foldKb64 depth') (ctx.quad u.pc) (ctx.bfiParamsAt (ctx.quad u.pc)) (hdest ▸ hd64)
        (fun op' hop' b y hy => ih depth' (by omega) b u op' y hu hop' hy)
        (fun op' hop' k b => covers_foldMaybeSetBits F hrel.1 hrel.2 k b u op' hu hop')
      rw [h]
      rcases hres with hnone | ⟨y, hy, hhas⟩
      · rw [hnone]
        exact FoldKB64.has_none _
      · have hreg := hval y hlval (by rw [IRSSAOptCtx.value, hbs]; exact hy)
        unfold HoldsAt at hreg
        rw [if_pos hd64] at hreg
        have hxy : x = y := by
          rcases hx with hx | hx
          · rw [hx, operand_of_plainVreg_wide h64 hv, hreg]
          · rw [h64] at hx
            cases hx.1
        rw [hxy]
        exact hhas

theorem operand_mkImm64 (v : BitVec 64) (b : IropBtype) (u : Bool) (σ : Vreg → BitVec 64)
    (w : World) : M.operand (mkImm64 v b u) σ w = v := by
  unfold mkImm64
  by_cases h : v = (loWord v).signExtend 64
  · rw [if_pos h]
    exact h.symm
  · rw [if_neg h]
    rfl

theorem value_foldKnownBits64 {ctx' : IRSSAOptCtx} {i : ℕ} {σ : Vreg → BitVec 64} {w : World}
    (hi : i < ctx.ir.nextInstructionIndex) (hbs : ctx.barrelShiftAt (ctx.quad i) = 0#8)
    (hkb : ∀ op ∈ (ctx.quad i).reads, ∀ budget x, x = M.operand op σ w ∨
      (op.is64 = false ∧ x = ofWord (loWord (M.operand op σ w))) →
        (ctx.foldKb64 8 op i budget).1.Has x)
    (hbits : ∀ op ∈ (ctx.quad i).reads, ∀ depth budget,
      Covers (ctx.foldMaybeSetBits depth op i budget).1 (loWord (M.operand op σ w)))
    (h : foldKnownBits64 ctx i = some ctx') : ctx'.value M i σ w = ctx.value M i σ w := by
  unfold foldKnownBits64 at h
  dsimp only at h
  split at h
  case isFalse => cases h
  case isTrue hg =>
    split at h
    case isFalse => cases h
    case isTrue hall =>
      have hd := is64_of_int64 hg.1
      have hres := @has_foldKb64Result World M σ w ctx i 8 48 (ctx.foldKb64 8) (ctx.quad i)
        (ctx.bfiParamsAt (ctx.quad i)) hd hkb hbits
      generalize ctx.foldKb64Result (ctx.foldKb64 8) (ctx.quad i) i 8 48 = r at h hall hres
      rcases hres with hnone | ⟨x, hx, hhas⟩
      · rw [hnone] at hall
        exact absurd hall (by decide)
      · have hval : ctx.value M i σ w = some r.1.ko := by
          rw [IRSSAOptCtx.value, hbs, hx, hhas.eq hall]
        have hir : ((ctx.dropUse (ctx.quad i).src1 i).dropUse (ctx.quad i).src2 i).ir = ctx.ir :=
          (ir_dropUse _).trans (ir_dropUse _)
        have hassign := @value_assign World M σ w ctx _ i hir hi
          (mkImm64 r.1.ko .int64 (ctx.quad i).dest.isUnsigned)
        -- an `ASSIGN` has no second operand that could be cleared
        have hkeep : ∀ c : IRSSAOptCtx, (c.quad i).op = .assign → c.setSrc2 i .none = c := by
          intro c hc
          unfold setSrc2
          rw [hc]
          rfl
        have hop : ((((ctx.dropUse (ctx.quad i).src1 i).dropUse (ctx.quad i).src2 i).assign i
            (mkImm64 r.1.ko .int64 (ctx.quad i).dest.isUnsigned)).quad i).op = .assign := by
          rw [quad_assign (hir ▸ hi)]
        rw [hkeep _ hop] at h
        cases h
        rw [hassign, hval]
        unfold ValueSem.copy
        have himm : (mkImm64 r.1.ko .int64 (ctx.quad i).dest.isUnsigned).is64 = true := by
          unfold mkImm64
          split <;> rfl
        rw [if_pos ⟨hd, himm⟩, operand_mkImm64]

end Runs

/-- The masks of `fold_kb64` have no bit in common, and in every run a doubleword that is read has
these bits; the fold leaves the value of the operation. -/
theorem foldKb64_sound {World : Type} (ctx : IRSSAOptCtx) (ssa : IRSSAState) (M : ValueSem World)
    (F : SsaFunction ctx ssa) :
    (∀ depth op i budget, (ctx.foldKb64 depth op i budget).1.kz &&&
      (ctx.foldKb64 depth op i budget).1.ko = 0#64) ∧
    (BitsReliable ctx → ∀ s : IrState (BitVec 64) World, ctx.Reaches ssa M s →
      (∀ op ∈ (ctx.quad s.pc).reads, op.is64 = true → ∀ depth budget,
        (ctx.foldKb64 depth op s.pc budget).1.Has (M.operand op s.regs s.world)) ∧
      ∀ ctx', ctx.barrelShiftAt (ctx.quad s.pc) = 0#8 → foldKnownBits64 ctx s.pc = some ctx' →
        ctx'.value M s.pc s.regs s.world = ctx.value M s.pc s.regs s.world) := by
  constructor
  · intro depth op i budget
    obtain ⟨x, hx⟩ := exists_has_foldKb64 ctx depth op i budget
    exact Knows.disjoint hx
  · intro hrel s hs
    have hlt : s.pc < ctx.ir.nextInstructionIndex := hs.choose_spec.2.2
    refine ⟨?_, ?_⟩
    · intro op hop _ depth budget
      exact has_foldKb64 F hrel depth budget s op _ hs hop (.inl rfl)
    · intro ctx' hbs h
      refine value_foldKnownBits64 hlt hbs ?_ ?_ h
      · intro op hop budget x hx
        exact has_foldKb64 F hrel 8 budget s op x hs hop hx
      · intro op hop depth budget
        exact covers_foldMaybeSetBits F hrel.1 hrel.2 depth budget s op hs hop

def wideTemp (t : ℕ) : IROperand := ⟨.vreg, some ⟨.temp, t⟩, false, .int64, false⟩

def shiftedIr : TCCIRState :=
  { compactInstructions :=
      [⟨.zext, 0, wideTemp 0, ⟨.vreg, some ⟨.param, 0⟩, false, .int8, true⟩, .none, .none⟩,
        ⟨.shr, 1, wideTemp 1, wideTemp 0, .int 8, .none⟩,
        ⟨.returnvalue, 2, .none, wideTemp 1, .none, .none⟩] }

def shiftedCtx : IRSSAOptCtx := tccIrSsaOptInit shiftedIr noPhis 2

def afterZext : IrState (BitVec 64) Unit :=
  ⟨1, noPhis.onEdge shiftedCtx.cfg 0 1 (update (fun _ => 0x1234#64) ⟨.temp, 0⟩ 0x34#64),
    ()⟩

theorem shiftedCtx_spec : SsaFunction shiftedCtx noPhis ∧ BitsReliable shiftedCtx ∧
    shiftedCtx.Reaches noPhis ValueSem.closed afterZext ∧ wideTemp 0 ∈ (shiftedCtx.quad 1).reads ∧
    shiftedCtx.barrelShiftAt (shiftedCtx.quad 1) = 0#8 ∧
    (foldKnownBits64 shiftedCtx 1).isSome = true := by
  refine ⟨ssaFunction_init (by decide +kernel) (by decide +kernel),
    ⟨oneDefinition_of_lt (fun _ _ => vinfo_tccIrSsaOptInit) (by decide +kernel) (by decide +kernel)
      (by decide +kernel), by decide +kernel⟩,
    ⟨⟨0, fun _ => 0x1234#64, ()⟩, rfl, Relation.ReflTransGen.single ?_, by decide +kernel⟩,
    by decide +kernel, by decide +kernel, by decide +kernel⟩
  · apply step_next
    decide +kernel

theorem foldKb64_sound_shifted :
    (shiftedCtx.foldKb64 8 (wideTemp 0) 1 48).1.Has
        (ValueSem.closed.operand (wideTemp 0) afterZext.regs ()) ∧
      ∃ ctx', foldKnownBits64 shiftedCtx 1 = some ctx' ∧
        ctx'.value ValueSem.closed 1 afterZext.regs () =
          shiftedCtx.value ValueSem.closed 1 afterZext.regs () := by
  obtain ⟨F, hrel, hreach, hread, hbs, hfire⟩ := shiftedCtx_spec
  have h := (foldKb64_sound shiftedCtx noPhis ValueSem.closed F).2 hrel afterZext hreach
  obtain ⟨ctx', hctx⟩ := Option.isSome_iff_exists.mp hfire
  exact ⟨h.1 (wideTemp 0) hread rfl 8 48, ctx', hctx, h.2 ctx' hbs hctx⟩

def inPlaceWideIr : TCCIRState :=
  -- the word `t1` is a phi and is also stored to in place, after the doubleword `AND`
  { compactInstructions :=
      [⟨.assign, 0, .temp 0, .int 3, .none, .none⟩,
        ⟨.and, 1, wideTemp 2, .temp 1, .makeImm32 2#32 .int64, .none⟩,
        ⟨.or, 2, wideTemp 3, wideTemp 2, .makeImm32 0#32 .int64, .none⟩,
        ⟨.store, 3, .temp 1, .int 1, .none, .none⟩,
        ⟨.jumpif, 4, .int 1, .int 0x95, .none, .none⟩,
        ⟨.returnvalue, 5, .none, wideTemp 3, .none, .none⟩] }

def inPlaceWideCtx : IRSSAOptCtx := tccIrSsaOptInit inPlaceWideIr inPlaceSsa 4

def atAnd : IrState (BitVec 64) Unit :=
  ⟨1, inPlaceSsa.onEdge inPlaceWideCtx.cfg 0 1 (update (fun _ => 0#64) ⟨.temp, 0⟩ 3#64),
    ()⟩

def atOr : IrState (BitVec 64) Unit :=
  ⟨2, inPlaceSsa.onEdge inPlaceWideCtx.cfg 1 2 (update atAnd.regs ⟨.temp, 2⟩ 2#64), ()⟩

/-- The store's 1 is taken for the value of the phi, which is 3: bit 1 of `t2` counts as a known
zero, and the `OR` is folded to 0. -/
theorem foldKb64_unsound_phi :
    SsaFunction inPlaceWideCtx inPlaceSsa ∧
      (∀ i < inPlaceWideCtx.ir.nextInstructionIndex,
        BarrelOk (inPlaceWideCtx.barrelShiftAt (inPlaceWideCtx.quad i))) ∧
      inPlaceWideCtx.Reaches inPlaceSsa ValueSem.closed atOr ∧
      wideTemp 2 ∈ (inPlaceWideCtx.quad atOr.pc).reads ∧
      ¬ (inPlaceWideCtx.foldKb64 8 (wideTemp 2) atOr.pc 48).1.Has
        (ValueSem.closed.operand (wideTemp 2) atOr.regs ()) ∧
      ∃ ctx', foldKnownBits64 inPlaceWideCtx atOr.pc = some ctx' ∧
        inPlaceWideCtx.value ValueSem.closed atOr.pc atOr.regs () = some 2#64 ∧
        ctx'.value ValueSem.closed atOr.pc atOr.regs () = some 0#64 := by
  refine ⟨ssaFunction_init (by decide +kernel) (by decide +kernel), by decide +kernel,
    ⟨⟨0, fun _ => 0#64, ()⟩, rfl, (Relation.ReflTransGen.single (b := atAnd) ?_).tail ?_,
      by decide +kernel⟩, by decide +kernel, ?_, ?_⟩
  · apply step_next
    decide +kernel
  · apply step_next
    decide +kernel
  · intro h
    exact absurd (h.zero 1 (by decide +kernel)) (by decide +kernel)
  · have hfire : (foldKnownBits64 inPlaceWideCtx 2).map
        (fun c => c.value ValueSem.closed 2 atOr.regs ()) = some (some 0#64) := by
      decide +kernel
    obtain ⟨ctx', hctx, hval⟩ := Option.map_eq_some_iff.mp hfire
    exact ⟨ctx', hctx, by decide +kernel, hval⟩

end Tinycc
