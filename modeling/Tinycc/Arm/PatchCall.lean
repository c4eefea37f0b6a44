import Tinycc.Arm.ThopBranch

namespace Tinycc
open Lib Function List Nat Layout
open BitVec hiding not_not

/-- The halfwords of the text section; the one at byte `2 * k` is the `k`th. -/
abbrev ThumbText := ℕ → BitVec 16

/-- The reports of `decbranch`, `th_patch_call` and the encoders it calls. -/
inductive PatchError
  | intoWidened (pos a : BitVec 32)
  | unknownEncoding (pos : BitVec 32) (inst : BitVec 16)
  | tooFar8 (addr : BitVec 32)
  | tooFar11 (addr : BitVec 32)
  | cbzOutOfRange (offset : BitVec 32)
  | unhandled (t a : BitVec 32) (x0 x1 : BitVec 16)
  deriving DecidableEq, Repr

def thEncbranchBT3 (imm : BitVec 32) : BitVec 32 :=
  let s := (imm >>> 19) &&& 1#32
  let imm6 := (imm >>> 11) &&& 0x3f#32
  let imm11 := imm &&& 0x7ff#32
  let j2 := (imm >>> 18) &&& 1#32
  let j1 := (imm >>> 17) &&& 1#32
  let a := s <<< 10 ||| imm6
  let b := j1 <<< 13 ||| j2 <<< 11 ||| imm11
  a <<< 16 ||| b

def thEncbranch8 (pos addr : BitVec 32) : Except PatchError (BitVec 32) :=
  let addr := (addr - pos - 4#32).sshiftRight 1
  if 127 < addr.toInt ∨ addr.toInt < -128 then .error (.tooFar8 addr) else .ok (addr &&& 0xff#32)

def thEncbranch11 (pos addr : BitVec 32) : Except PatchError (BitVec 32) :=
  let addr := (addr - pos - 4#32).sshiftRight 1
  if 1023 < addr.toInt ∨ addr.toInt < -1024 then .error (.tooFar11 addr)
  else .ok (addr &&& 0x7ff#32)

def thEncbranch20 (pos addr : BitVec 32) : BitVec 32 := (addr - pos - 4#32).sshiftRight 1

def decbranchAt (pos : BitVec 32) (x0 x1 : BitVec 16) : Except PatchError (BitVec 32) :=
  let xa := x0.setWidth 32
  let xb := x1.setWidth 32
  if x0 &&& 0xf000#16 = 0xd000#16 then
    let xa := xa &&& 0xff#32
    let xa := if xa &&& 0x80#32 ≠ 0#32 then xa - 0x100#32 else xa
    .ok (xa * 2#32 + pos + 4#32)
  else if x0 &&& 0xf800#16 = 0xe000#16 then
    let xa := xa &&& 0x7ff#32
    let xa := if xa &&& 0x400#32 ≠ 0#32 then xa - 0x800#32 else xa
    .ok (xa * 2#32 + pos + 4#32)
  else if x0 &&& 0xf800#16 = 0xf000#16 ∧ x1 &&& 0xd000#16 = 0x8000#16 then
    let s := (xa >>> 10) &&& 1#32
    let imm6 := xa &&& 0x3f#32
    let j1 := (xb >>> 13) &&& 1#32
    let j2 := (xb >>> 11) &&& 1#32
    let imm11 := xb &&& 0x7ff#32
    let ret := j2 <<< 19 ||| j1 <<< 18 ||| imm6 <<< 12 ||| imm11 <<< 1
    let ret := if s ≠ 0#32 then ret ||| 0xfff00000#32 else ret
    .ok (ret + pos + 4#32)
  else if x0 &&& 0xf800#16 = 0xf000#16 ∧ x1 &&& 0xd000#16 = 0x9000#16 then
    let s := (xa >>> 10) &&& 1#32
    let imm10 := xa &&& 0x3ff#32
    let j1 := (xb >>> 13) &&& 1#32
    let j2 := (xb >>> 11) &&& 1#32
    let imm11 := xb &&& 0x7ff#32
    let i1 := ~~~(j1 ^^^ s) &&& 1#32
    let i2 := ~~~(j2 ^^^ s) &&& 1#32
    let ret := i2 <<< 23 ||| i1 <<< 22 ||| imm10 <<< 12 ||| imm11 <<< 1
    let ret := if s ≠ 0#32 then ret ||| 0xff000000#32 else ret
    .ok (ret + pos + 4#32)
  else if x0 &&& 0xf500#16 = 0xb100#16 then
    let iBit := (xa >>> 9) &&& 1#32
    let imm5 := (xa >>> 3) &&& 0x1f#32
    let imm6 := iBit <<< 5 ||| imm5
    .ok (imm6 * 2#32 + pos + 4#32)
  else .error (.unknownEncoding pos x0)

def decbranch (text : ThumbText) (k : ℕ) : Except PatchError (BitVec 32) :=
  decbranchAt (BitVec.ofNat 32 (2 * k)) (text k) (text (k + 1))

/-- What `th_patch_call` makes of the two halfwords at `lt`; `t` is the target so far. -/
def thPatchAt (lt t a : BitVec 32) (x0 x1 : BitVec 16) :
    Except PatchError (BitVec 16 × BitVec 16) :=
  if a = lt + 2#32 then .ok (0xbf00#16, x1)
  else if x0 &&& 0xf000#16 = 0xd000#16 then
    match thEncbranch8 lt a with
    | .error e => .error e
    | .ok enc => .ok (x0 &&& 0xff00#16 ||| enc.setWidth 16, x1)
  else if x0 &&& 0xf800#16 = 0xe000#16 then
    match thEncbranch11 lt a with
    | .error e => .error e
    | .ok enc => .ok (x0 &&& 0xf800#16 ||| enc.setWidth 16, x1)
  else if x0 &&& 0xf800#16 = 0xf000#16 ∧ x1 &&& 0xd000#16 = 0x8000#16 then
    let enc := thEncbranchBT3 (thEncbranch20 lt a)
    .ok (x0 &&& 0xfbc0#16 ||| (enc >>> 16).setWidth 16, x1 &&& 0xd000#16 ||| enc.setWidth 16)
  else if x0 &&& 0xf800#16 = 0xf000#16 ∧ x1 &&& 0xd000#16 = 0x9000#16 then
    let enc := thPackimm10110 (thEncbranch20 lt a <<< 1)
    .ok (x0 &&& 0xf800#16 ||| (enc >>> 16).setWidth 16, x1 &&& 0xd000#16 ||| enc.setWidth 16)
  else if x0 &&& 0xf500#16 = 0xb100#16 then
    let offset := a - (lt + 4#32)
    if offset.toInt < 0 ∨ 126 < offset.toInt ∨ offset &&& 1#32 ≠ 0#32 then
      .error (.cbzOutOfRange offset)
    else
      let imm6 := offset >>> 1
      let iBit := (imm6 >>> 5) &&& 1#32
      let imm5 := imm6 &&& 0x1f#32
      .ok (x0 &&& 0xfd07#16 ||| (iBit <<< 9 ||| imm5 <<< 3).setWidth 16, x1)
  else .error (.unhandled t a x0 x1)

/-- `th_patch_call` at the halfword `k`: the patched text and the target the branch had before.
`mid` is `th_widened_contains_mid`. -/
def thPatchCall (mid : BitVec 32 → Bool) (text : ThumbText) (k : ℕ) (a : BitVec 32) :
    Except PatchError (ThumbText × BitVec 32) :=
  let lt := BitVec.ofNat 32 (2 * k)
  if mid a then .error (.intoWidened lt a)
  else
    match decbranch text k with
    | .error e => .error e
    | .ok t =>
      match thPatchAt lt t a (text k) (text (k + 1)) with
      | .error e => .error e
      | .ok (x0, x1) => .ok (update (update text k x0) (k + 1) x1, t)

inductive BranchForm
  | t1 | t2 | t3 | t4 | cbz
  deriving DecidableEq, Repr

namespace BranchForm

def tagMask : BranchForm → BitVec 32
  | t1 => 0xf0000000#32
  | t2 => 0xf8000000#32
  | t3 | t4 => 0xf800d000#32
  | cbz => 0xf5000000#32

def tag : BranchForm → BitVec 32
  | t1 => 0xd0000000#32
  | t2 => 0xe0000000#32
  | t3 => 0xf0008000#32
  | t4 => 0xf0009000#32
  | cbz => 0xb1000000#32

def Is (f : BranchForm) (x0 x1 : BitVec 16) : Prop := (x0 ++ x1) &&& f.tagMask = f.tag

instance (f : BranchForm) (x0 x1 : BitVec 16) : Decidable (f.Is x0 x1) :=
  inferInstanceAs (Decidable (_ = _))

/-- The displacement in bytes; `I1` and `I2` are in the places of `J1` and `J2`. -/
def layout : BranchForm → Layout
  | t1 => [⟨16, 1, 8⟩]
  | t2 => [⟨16, 1, 11⟩]
  | t3 => opB3
  | t4 => opB4
  | cbz => [⟨25, 6, 1⟩, ⟨19, 1, 5⟩]

def jToI : BranchForm → BitVec 32 → BitVec 32
  | t4 => opJToI
  | _ => id

def Reach : BranchForm → BitVec 32 → Prop
  | t1, d => -256 ≤ d.toInt ∧ d.toInt ≤ 254
  | t2, d => -2048 ≤ d.toInt ∧ d.toInt ≤ 2046
  | t3, d => -1048576 ≤ d.toInt ∧ d.toInt ≤ 1048574
  | t4, d => -16777216 ≤ d.toInt ∧ d.toInt ≤ 16777214
  | cbz, d => 0 ≤ d.toInt ∧ d.toInt ≤ 126

def bits : BranchForm → ℕ
  | t1 => 9
  | t2 => 12
  | t3 => 21
  | t4 => 25
  | cbz => 8

/-- The fields as `decbranch` reads them: in T4 it takes `I1` for `I2`. -/
def readLayout : BranchForm → Layout
  | t4 => [⟨26, 24, 1⟩, ⟨11, 23, 1⟩, ⟨13, 22, 1⟩, ⟨16, 12, 10⟩, ⟨0, 1, 11⟩]
  | f => f.layout

end BranchForm

section Tags

variable {x0 x1 : BitVec 16}

theorem append_and_eq_iff (m0 m1 v0 v1 : BitVec 16) :
    (x0 ++ x1) &&& (m0 ++ m1) = v0 ++ v1 ↔ x0 &&& m0 = v0 ∧ x1 &&& m1 = v1 := by
  rw [and_append]
  constructor
  · intro h
    constructor
    · have h0 := congrArg (BitVec.extractLsb' 16 16) h
      rwa [extractLsb'_append_eq_left, extractLsb'_append_eq_left] at h0
    · have h1 := congrArg (BitVec.extractLsb' 0 16) h
      rwa [extractLsb'_append_eq_right, extractLsb'_append_eq_right] at h1
  · rintro ⟨rfl, rfl⟩
    rfl

namespace BranchForm

theorem is_t1_iff : t1.Is x0 x1 ↔ x0 &&& 0xf000#16 = 0xd000#16 :=
  (append_and_eq_iff 0xf000#16 0#16 0xd000#16 0#16).trans (and_iff_left and_zero)

theorem is_t2_iff : t2.Is x0 x1 ↔ x0 &&& 0xf800#16 = 0xe000#16 :=
  (append_and_eq_iff 0xf800#16 0#16 0xe000#16 0#16).trans (and_iff_left and_zero)

theorem is_t3_iff : t3.Is x0 x1 ↔ x0 &&& 0xf800#16 = 0xf000#16 ∧ x1 &&& 0xd000#16 = 0x8000#16 :=
  append_and_eq_iff 0xf800#16 0xd000#16 0xf000#16 0x8000#16

theorem is_t4_iff : t4.Is x0 x1 ↔ x0 &&& 0xf800#16 = 0xf000#16 ∧ x1 &&& 0xd000#16 = 0x9000#16 :=
  append_and_eq_iff 0xf800#16 0xd000#16 0xf000#16 0x9000#16

theorem is_cbz_iff : cbz.Is x0 x1 ↔ x0 &&& 0xf500#16 = 0xb100#16 :=
  (append_and_eq_iff 0xf500#16 0#16 0xb100#16 0#16).trans (and_iff_left and_zero)

theorem is_unique {f g : BranchForm} (hf : f.Is x0 x1) (hg : g.Is x0 x1) : f = g := by
  have h := (congrArg (· &&& g.tagMask) hf).symm
  rw [BitVec.and_assoc, BitVec.and_comm f.tagMask, ← BitVec.and_assoc, hg] at h
  cases f <;> cases g <;> first | rfl | exact absurd h (by decide)

end BranchForm

end Tags

section Reading

variable {n k : ℕ}

theorem sext_mul_two (hk : 0 < k) (x : BitVec n) : sext k x * 2#n = sext (k + 1) (x <<< 1) := by
  have htwo : 2#n = BitVec.twoPow n 1 := eq_of_toNat_eq (by simp)
  rw [htwo, ← shiftLeft_eq_mul_twoPow]
  apply eq_of_getLsbD_eq
  intro i hi
  rw [getLsbD_shiftLeft, getLsbD_sext (by omega) hi, getLsbD_shiftLeft]
  rcases Nat.eq_zero_or_pos i with rfl | hpos
  · simp
  · rw [getLsbD_sext hk (by omega)]
    have hmin : min i (k + 1 - 1) - 1 = min (i - 1) (k - 1) := by omega
    have hlt : ¬ min i (k + 1 - 1) < 1 := by omega
    have hn : min i (k + 1 - 1) < n := by omega
    rw [hmin, decide_eq_true hi, decide_eq_true hn, decide_eq_false hlt,
      decide_eq_false (show ¬ i < 1 by omega)]

variable (x0 x1 : BitVec 16)

theorem readLayout_narrow :
    (x0.setWidth 32 &&& 0xff#32) <<< 1 = BranchForm.t1.readLayout.get (x0 ++ x1) ∧
    (x0.setWidth 32 &&& 0x7ff#32) <<< 1 = BranchForm.t2.readLayout.get (x0 ++ x1) ∧
    (((x0.setWidth 32 >>> 9) &&& 1#32) <<< 5 ||| (x0.setWidth 32 >>> 3) &&& 0x1f#32) <<< 1 =
      BranchForm.cbz.readLayout.get (x0 ++ x1) := by
  refine ⟨?_, ?_, ?_⟩
  all_goals
    apply eq_of_getLsbD_eq
    intro i hi
    rw [getLsbD_get _ _ hi]
    simp only [getLsbD_shiftLeft, getLsbD_ushiftRight, getLsbD_or, getLsbD_and, getLsbD_setWidth,
      getLsbD_append, BranchForm.readLayout, BranchForm.layout, BitField.Holds, any_cons, any_nil]
    interval_cases i <;> simp

theorem sign_ne_zero_iff : (x0.setWidth 32 >>> 10) &&& 1#32 ≠ 0#32 ↔ x0.getLsbD 10 = true := by
  have h := @and_twoPow_ne_zero_iff 32 (x0.setWidth 32 >>> 10) 0 (by decide)
  exact h

theorem readLayout_t3 :
    (if (x0.setWidth 32 >>> 10) &&& 1#32 ≠ 0#32 then
      ((x1.setWidth 32 >>> 11) &&& 1#32) <<< 19 ||| ((x1.setWidth 32 >>> 13) &&& 1#32) <<< 18 |||
        (x0.setWidth 32 &&& 0x3f#32) <<< 12 ||| (x1.setWidth 32 &&& 0x7ff#32) <<< 1 |||
        0xfff00000#32
    else
      ((x1.setWidth 32 >>> 11) &&& 1#32) <<< 19 ||| ((x1.setWidth 32 >>> 13) &&& 1#32) <<< 18 |||
        (x0.setWidth 32 &&& 0x3f#32) <<< 12 ||| (x1.setWidth 32 &&& 0x7ff#32) <<< 1) =
      sext 21 (BranchForm.t3.readLayout.get (x0 ++ x1)) := by
  simp only [sign_ne_zero_iff]
  apply eq_of_getLsbD_eq
  intro i hi
  rw [getLsbD_sext (by decide) hi, getLsbD_get _ _ (by omega)]
  cases hs : x0.getLsbD 10 <;> simp only [if_true, Bool.false_eq_true, if_false] <;>
  · simp only [getLsbD_shiftLeft, getLsbD_ushiftRight, getLsbD_or,
      getLsbD_and, getLsbD_setWidth, getLsbD_append, BranchForm.readLayout,
      BranchForm.layout, opB3, BitField.Holds, any_cons, any_nil]
    interval_cases i <;> simp [-getLsbD_eq_getElem, hs]

theorem readLayout_t4 :
    (if (x0.setWidth 32 >>> 10) &&& 1#32 ≠ 0#32 then
      (~~~((x1.setWidth 32 >>> 11) &&& 1#32 ^^^ (x0.setWidth 32 >>> 10) &&& 1#32) &&& 1#32) <<< 23 |||
        (~~~((x1.setWidth 32 >>> 13) &&& 1#32 ^^^ (x0.setWidth 32 >>> 10) &&& 1#32) &&& 1#32) <<< 22 |||
        (x0.setWidth 32 &&& 0x3ff#32) <<< 12 ||| (x1.setWidth 32 &&& 0x7ff#32) <<< 1 |||
        0xff000000#32
    else
      (~~~((x1.setWidth 32 >>> 11) &&& 1#32 ^^^ (x0.setWidth 32 >>> 10) &&& 1#32) &&& 1#32) <<< 23 |||
        (~~~((x1.setWidth 32 >>> 13) &&& 1#32 ^^^ (x0.setWidth 32 >>> 10) &&& 1#32) &&& 1#32) <<< 22 |||
        (x0.setWidth 32 &&& 0x3ff#32) <<< 12 ||| (x1.setWidth 32 &&& 0x7ff#32) <<< 1) =
      sext 25 (BranchForm.t4.readLayout.get (opJToI (x0 ++ x1))) := by
  simp only [sign_ne_zero_iff]
  apply eq_of_getLsbD_eq
  intro i hi
  rw [getLsbD_sext (by decide) hi, getLsbD_get _ _ (by omega)]
  simp only [getLsbD_opJToI]
  cases hs : x0.getLsbD 10 <;> simp only [if_true, Bool.false_eq_true, if_false] <;>
  · simp only [getLsbD_shiftLeft, getLsbD_ushiftRight, getLsbD_or,
      getLsbD_and, getLsbD_setWidth, getLsbD_append, getLsbD_not,
      getLsbD_xor, BranchForm.readLayout, BitField.Holds, any_cons, any_nil]
    interval_cases i <;> simp [-getLsbD_eq_getElem, hs]

end Reading

section Writing

variable (x0 x1 : BitVec 16) (d : BitVec 32)

theorem layout_set :
    (x0 &&& 0xff00#16 ||| (d.sshiftRight 1 &&& 0xff#32).setWidth 16) ++ x1 =
      BranchForm.t1.layout.set (x0 ++ x1) d ∧
    (x0 &&& 0xf800#16 ||| (d.sshiftRight 1 &&& 0x7ff#32).setWidth 16) ++ x1 =
      BranchForm.t2.layout.set (x0 ++ x1) d ∧
    (x0 &&& 0xfd07#16 |||
        (((d >>> 1 >>> 5) &&& 1#32) <<< 9 ||| ((d >>> 1) &&& 0x1f#32) <<< 3).setWidth 16) ++ x1 =
      BranchForm.cbz.layout.set (x0 ++ x1) d ∧
    (x0 &&& 0xfbc0#16 ||| (thEncbranchBT3 (d.sshiftRight 1) >>> 16).setWidth 16) ++
        (x1 &&& 0xd000#16 ||| (thEncbranchBT3 (d.sshiftRight 1)).setWidth 16) =
      BranchForm.t3.layout.set (x0 ++ x1) d := by
  refine ⟨?_, ?_, ?_, ?_⟩
  all_goals
    apply eq_of_getLsbD_eq
    intro i hi
    rw [getLsbD_set _ _ _ hi]
    simp only [thEncbranchBT3, getLsbD_shiftLeft, getLsbD_ushiftRight, getLsbD_sshiftRight,
      getLsbD_or, getLsbD_and, getLsbD_setWidth, getLsbD_append, BranchForm.layout, opB3,
      BitField.Covers]
    interval_cases i <;> simp

theorem layout_t4_set :
    (x0 &&& 0xf800#16 ||| (thPackimm10110 (d.sshiftRight 1 <<< 1) >>> 16).setWidth 16) ++
        (x1 &&& 0xd000#16 ||| (thPackimm10110 (d.sshiftRight 1 <<< 1)).setWidth 16) =
      opJToI (BranchForm.t4.layout.set (x0 ++ x1) d) := by
  have h26 : (BranchForm.t4.layout.set (x0 ++ x1) d).getLsbD 26 = d.getLsbD 24 := by
    rw [getLsbD_set _ _ _ (by decide)]
    rfl
  unfold thPackimm10110
  apply eq_of_getLsbD_eq
  intro i hi
  rw [getLsbD_opJToI, h26, getLsbD_set _ _ _ hi]
  simp only [getLsbD_shiftLeft, getLsbD_ushiftRight, getLsbD_sshiftRight,
    getLsbD_or, getLsbD_and, getLsbD_setWidth, getLsbD_append,
    getLsbD_not, getLsbD_xor, BranchForm.layout, opB4, BitField.Covers]
  interval_cases i <;> simp

end Writing

namespace BranchForm

section Frame

variable (f : BranchForm)

def immMask : BitVec 32 := Layout.mask 32 f.layout

theorem layout_wellFormed : Layout.WellFormed 32 f.layout := by cases f <;> decide

theorem layout_range {i : ℕ} (hi : i < f.bits) (h0 : 0 < i) (hcbz : f = cbz → i ≠ 7) :
    (f.layout.range 32).getLsbD i = true := by
  cases f <;> simp only [bits] at hi <;> interval_cases i <;> first | rfl | exact absurd rfl (hcbz rfl)

theorem set_frame (w d : BitVec 32) :
    f.jToI (f.layout.set w d) &&& ~~~f.immMask = w &&& ~~~f.immMask := by
  cases f with
  | t4 =>
    exact opJToI_set_and w d
  | t1 => exact set_and_not_mask t1.layout w d
  | t2 => exact set_and_not_mask t2.layout w d
  | t3 => exact set_and_not_mask t3.layout w d
  | cbz => exact set_and_not_mask cbz.layout w d

theorem tagMask_and : ~~~f.immMask &&& f.tagMask = f.tagMask := by cases f <;> decide

theorem is_of_frame {x0 x1 y0 y1 : BitVec 16} (h : f.Is x0 x1)
    (hframe : (y0 ++ y1) &&& ~~~f.immMask = (x0 ++ x1) &&& ~~~f.immMask) : f.Is y0 y1 := by
  unfold Is at *
  rw [and_eq_of_and_eq hframe f.tagMask_and, BitVec.and_assoc, f.tagMask_and, h]

theorem jToI_jToI (w : BitVec 32) : f.jToI (f.jToI w) = w := by
  cases f with
  | t4 => exact opJToI_opJToI w
  | t1 | t2 | t3 | cbz => rfl

end Frame

section Decode

variable {x0 x1 : BitVec 16} {f : BranchForm}

theorem ite_of_is {α : Type} (h : f.Is x0 x1) (c₁ c₂ c₃ c₄ c₅ e : α) :
    (if x0 &&& 0xf000#16 = 0xd000#16 then c₁
      else if x0 &&& 0xf800#16 = 0xe000#16 then c₂
      else if x0 &&& 0xf800#16 = 0xf000#16 ∧ x1 &&& 0xd000#16 = 0x8000#16 then c₃
      else if x0 &&& 0xf800#16 = 0xf000#16 ∧ x1 &&& 0xd000#16 = 0x9000#16 then c₄
      else if x0 &&& 0xf500#16 = 0xb100#16 then c₅ else e) =
      match f with | t1 => c₁ | t2 => c₂ | t3 => c₃ | t4 => c₄ | cbz => c₅ := by
  have hiff : ∀ g : BranchForm, g.Is x0 x1 ↔ f = g := fun g => ⟨is_unique h, fun e => e ▸ h⟩
  simp only [← @is_t1_iff x0 x1, ← @is_t2_iff x0 x1, ← @is_t3_iff x0 x1, ← @is_t4_iff x0 x1,
    ← @is_cbz_iff x0 x1, hiff]
  cases f <;> rfl

def read (f : BranchForm) (w : BitVec 32) : BitVec 32 := sext f.bits (f.readLayout.get (f.jToI w))

theorem decbranchAt_of_is (h : f.Is x0 x1) (pos : BitVec 32) :
    decbranchAt pos x0 x1 = .ok (f.read (x0 ++ x1) + pos + 4#32) := by
  unfold decbranchAt
  dsimp only
  rw [ite_of_is h]
  cases f with
  | t1 =>
    have hlt : (x0.setWidth 32 &&& 0xff#32).toNat < 2 ^ 8 := by
      exact lt_of_le_of_lt and_le_right (by decide)
    have hsext := ite_sub_eq_sext (show 0 < 8 by decide) (show 8 < 32 by decide) hlt
    have hread : sext 8 (x0.setWidth 32 &&& 0xff#32) * 2#32 = t1.read (x0 ++ x1) := by
      rw [sext_mul_two (by decide), (readLayout_narrow x0 x1).1]
      rfl
    rw [← hread, ← hsext]
    rfl
  | t2 =>
    have hlt : (x0.setWidth 32 &&& 0x7ff#32).toNat < 2 ^ 11 := by
      exact lt_of_le_of_lt and_le_right (by decide)
    have hsext := ite_sub_eq_sext (show 0 < 11 by decide) (show 11 < 32 by decide) hlt
    have hread : sext 11 (x0.setWidth 32 &&& 0x7ff#32) * 2#32 = t2.read (x0 ++ x1) := by
      rw [sext_mul_two (by decide), (readLayout_narrow x0 x1).2.1]
      rfl
    rw [← hread, ← hsext]
    rfl
  | t3 =>
    rw [readLayout_t3 x0 x1]
    rfl
  | t4 =>
    rw [readLayout_t4 x0 x1]
    rfl
  | cbz =>
    have hlt : (cbz.readLayout.get (x0 ++ x1)).toNat < 2 ^ 7 := toNat_get_lt (by decide) _
    have hint : (cbz.readLayout.get (x0 ++ x1)).toInt = (cbz.readLayout.get (x0 ++ x1)).toNat :=
      toInt_eq_toNat_of_lt (by omega)
    have hread : cbz.read (x0 ++ x1) = cbz.readLayout.get (x0 ++ x1) := by
      change sext 8 (cbz.readLayout.get (x0 ++ x1)) = _
      exact sext_of_bounds (by decide) (by decide) (by omega) (by omega)
    have htwo : ∀ x : BitVec 32, x * 2#32 = x <<< 1 := fun x =>
      (shiftLeft_eq_mul_twoPow x 1).symm
    dsimp only
    rw [htwo, (readLayout_narrow x0 x1).2.2, hread]

theorem decbranchAt_of_not_is (h : ∀ f : BranchForm, ¬f.Is x0 x1) (pos : BitVec 32) :
    decbranchAt pos x0 x1 = .error (.unknownEncoding pos x0) := by
  unfold decbranchAt
  rw [if_neg (mt is_t1_iff.mpr (h t1)), if_neg (mt is_t2_iff.mpr (h t2)),
    if_neg (mt is_t3_iff.mpr (h t3)), if_neg (mt is_t4_iff.mpr (h t4)),
    if_neg (mt is_cbz_iff.mpr (h cbz))]

end Decode

section Encode

variable {x0 x1 : BitVec 16} {f : BranchForm} {lt t a : BitVec 32}

theorem toInt_even {d : BitVec 32} (h : d.getLsbD 0 = false) : d.toInt % 2 = 0 := by
  rw [← testBit_toNat, testBit_zero, decide_eq_false_iff_not] at h
  rw [toInt_eq_toNat_cond]
  split <;> omega

def Tested (f : BranchForm) : Prop := f = t1 ∨ f = t2 ∨ f = cbz

theorem thPatchAt_ok (h : f.Is x0 x1) (hne : a ≠ lt + 2#32)
    (heven : (a - lt - 4#32).getLsbD 0 = false) (hreach : f.Tested → f.Reach (a - lt - 4#32)) :
    ∃ y0 y1, thPatchAt lt t a x0 x1 = .ok (y0, y1) ∧
      y0 ++ y1 = f.jToI (f.layout.set (x0 ++ x1) (a - lt - 4#32)) := by
  unfold thPatchAt
  rw [if_neg hne, ite_of_is h]
  cases f with
  | t1 =>
    obtain ⟨h1, h2⟩ := hreach (Or.inl rfl)
    refine ⟨_, _, ?_, (layout_set x0 x1 (a - lt - 4#32)).1⟩
    have hok : thEncbranch8 lt a = .ok ((a - lt - 4#32).sshiftRight 1 &&& 0xff#32) := by
      unfold thEncbranch8
      rw [if_neg]
      rw [toInt_sshiftRight, Int.shiftRight_eq_div_pow]
      omega
    rw [hok]
  | t2 =>
    obtain ⟨h1, h2⟩ := hreach (Or.inr (Or.inl rfl))
    refine ⟨_, _, ?_, (layout_set x0 x1 (a - lt - 4#32)).2.1⟩
    have hok : thEncbranch11 lt a = .ok ((a - lt - 4#32).sshiftRight 1 &&& 0x7ff#32) := by
      unfold thEncbranch11
      rw [if_neg]
      rw [toInt_sshiftRight, Int.shiftRight_eq_div_pow]
      omega
    rw [hok]
  | t3 =>
    refine ⟨_, _, ?_, (layout_set x0 x1 (a - lt - 4#32)).2.2.2⟩
    rfl
  | t4 =>
    refine ⟨_, _, ?_, layout_t4_set x0 x1 (a - lt - 4#32)⟩
    rfl
  | cbz =>
    obtain ⟨h1, h2⟩ := hreach (Or.inr (Or.inr rfl))
    refine ⟨_, _, ?_, (layout_set x0 x1 (a - lt - 4#32)).2.2.1⟩
    have hoff : a - (lt + 4#32) = a - lt - 4#32 := by bv_omega
    have hbit : (a - lt - 4#32) &&& 1#32 = 0#32 :=
      not_not.mp (mt (@and_twoPow_ne_zero_iff 32 (a - lt - 4#32) 0 (by decide)).mp
        (by rw [heven]; decide))
    rw [hoff, if_neg]
    rintro (hlow | hhigh | hodd)
    · omega
    · omega
    · exact hodd hbit

theorem thPatchAt_error (h : f.Is x0 x1) (hne : a ≠ lt + 2#32)
    (heven : (a - lt - 4#32).getLsbD 0 = false) (htested : f.Tested)
    (hreach : ¬f.Reach (a - lt - 4#32)) : ∃ e, thPatchAt lt t a x0 x1 = .error e := by
  have hint := toInt_even heven
  unfold thPatchAt
  rw [if_neg hne, ite_of_is h]
  rcases htested with rfl | rfl | rfl
  · have hbad : thEncbranch8 lt a = .error (.tooFar8 ((a - lt - 4#32).sshiftRight 1)) := by
      unfold thEncbranch8
      rw [if_pos]
      rw [toInt_sshiftRight, Int.shiftRight_eq_div_pow]
      unfold Reach at hreach
      omega
    rw [hbad]
    exact ⟨_, rfl⟩
  · have hbad : thEncbranch11 lt a = .error (.tooFar11 ((a - lt - 4#32).sshiftRight 1)) := by
      unfold thEncbranch11
      rw [if_pos]
      rw [toInt_sshiftRight, Int.shiftRight_eq_div_pow]
      unfold Reach at hreach
      omega
    rw [hbad]
    exact ⟨_, rfl⟩
  · have hoff : a - (lt + 4#32) = a - lt - 4#32 := by bv_omega
    rw [hoff, if_pos]
    · exact ⟨_, rfl⟩
    · unfold Reach at hreach
      omega

end Encode

section RoundTrip

variable {f : BranchForm} {w d : BitVec 32}

theorem sext_of_reach (hreach : f.Reach d) : sext f.bits d = d := by
  cases f <;> obtain ⟨h1, h2⟩ := hreach <;>
    exact sext_of_bounds (by decide) (by decide) (by simp only [bits]; omega)
      (by simp only [bits]; omega)

theorem getLsbD_get_set (hf : f ≠ t4) (heven : d.getLsbD 0 = false) (hreach : f.Reach d) {i : ℕ}
    (hi : i < f.bits) : (f.layout.get (f.layout.set w d)).getLsbD i = d.getLsbD i := by
  rw [get_set f.layout_wellFormed, getLsbD_and]
  by_cases h0 : i = 0
  · rw [h0, heven, Bool.false_and]
  · by_cases hcbz : f = cbz ∧ i = 7
    · obtain ⟨rfl, rfl⟩ := hcbz
      have hlt : d.toNat < 2 ^ 7 := by
        obtain ⟨h1, h2⟩ := hreach
        rw [toInt_eq_toNat_cond] at h1 h2
        split at h1 <;> omega
      rw [← testBit_toNat d, testBit_lt_two_pow hlt, Bool.false_and]
    · rw [f.layout_range hi (by omega) fun h h7 => hcbz ⟨h, h7⟩, Bool.and_true]

theorem getLsbD_get_set_t4 (heven : d.getLsbD 0 = false) {i : ℕ} (hi : i < 25) :
    (t4.readLayout.get (t4.layout.set w d)).getLsbD i =
      if i = 22 then d.getLsbD 23 else if i = 23 then d.getLsbD 22 else d.getLsbD i := by
  rw [getLsbD_get _ _ (by omega)]
  simp only [readLayout, layout, opB4, BitField.Holds, any_cons, any_nil]
  interval_cases i <;>
    simp [-getLsbD_eq_getElem, getLsbD_set, BitField.Covers, heven]

/-- A displacement in reach comes back, in T4 only where the two bits that change places agree. -/
theorem read_set_iff (heven : d.getLsbD 0 = false) (hreach : f.Reach d) :
    f.read (f.jToI (f.layout.set w d)) = d ↔ (f = t4 → d.getLsbD 22 = d.getLsbD 23) := by
  unfold read
  rw [f.jToI_jToI]
  by_cases hf : f = t4
  · subst hf
    constructor
    · intro h _
      have h22 := congrArg (fun x => x.getLsbD 22) h
      rw [getLsbD_sext (by decide) (by decide),
        getLsbD_get_set_t4 heven (by decide)] at h22
      exact h22.symm
    · intro h
      have hbits : ∀ i < t4.bits,
          (t4.readLayout.get (t4.layout.set w d)).getLsbD i = d.getLsbD i := by
        intro i hi
        rw [getLsbD_get_set_t4 heven hi]
        split_ifs with h22 h23
        · rw [h22, h rfl]
        · rw [h23, h rfl]
        · rfl
      rw [sext_congr hbits, sext_of_reach hreach]
  · refine iff_of_true ?_ fun h => absurd h hf
    have hread : f.readLayout = f.layout := by cases f <;> first | rfl | exact absurd rfl hf
    rw [hread, sext_congr fun i hi => getLsbD_get_set hf heven hreach hi, sext_of_reach hreach]

end RoundTrip

end BranchForm

section Call

variable {mid : BitVec 32 → Bool} {text : ThumbText} {k : ℕ} {a : BitVec 32}

theorem displacement_even (ha : a &&& 1#32 = 0#32) (k : ℕ) :
    (a - BitVec.ofNat 32 (2 * k) - 4#32).getLsbD 0 = false := by
  have h := getLsbD_zero_of_even ha
  rw [← testBit_toNat, testBit_zero, decide_eq_false_iff_not] at h ⊢
  bv_omega

theorem thPatchCall_of_is {f : BranchForm} (h : f.Is (text k) (text (k + 1))) (hmid : mid a = false) :
    thPatchCall mid text k a =
      match thPatchAt (BitVec.ofNat 32 (2 * k))
        (f.read (text k ++ text (k + 1)) + BitVec.ofNat 32 (2 * k) + 4#32) a (text k)
        (text (k + 1)) with
      | .error e => .error e
      | .ok (x0, x1) => .ok (update (update text k x0) (k + 1) x1,
          f.read (text k ++ text (k + 1)) + BitVec.ofNat 32 (2 * k) + 4#32) := by
  unfold thPatchCall decbranch
  rw [hmid, BranchForm.decbranchAt_of_is h]
  rfl

/-- Only a branch that `decbranch` knows is patched, and only if no widened instruction is hit. -/
theorem thPatchCall_ok_is {r : ThumbText × BitVec 32} (h : thPatchCall mid text k a = .ok r) :
    mid a = false ∧ ∃ f : BranchForm, f.Is (text k) (text (k + 1)) := by
  unfold thPatchCall decbranch at h
  cases hmid : mid a with
  | true =>
    rw [hmid] at h
    cases h
  | false =>
    refine ⟨rfl, ?_⟩
    by_contra hnone
    rw [BranchForm.decbranchAt_of_not_is (not_exists.mp hnone), hmid] at h
    cases h

theorem update_update_of_ne (text : ThumbText) (k : ℕ) (x0 x1 : BitVec 16) {j : ℕ} (h0 : j ≠ k)
    (h1 : j ≠ k + 1) : update (update text k x0) (k + 1) x1 j = text j := by
  rw [update_of_ne h1, update_of_ne h0]

theorem update_update_fst (text : ThumbText) (k : ℕ) (x0 x1 : BitVec 16) :
    update (update text k x0) (k + 1) x1 k = x0 := by
  rw [update_of_ne (by omega), update_self]

end Call

/-- `th_patch_call` on a branch and an even target succeeds where the target is in reach of the
form. Where it succeeds, a branch to the next halfword has become a `NOP`; any other branch differs
in its displacement only, and if it is in reach `decbranch` gives the target. -/
theorem thPatchCall_correct (mid : BitVec 32 → Bool) (text : ThumbText) (k : ℕ) (a : BitVec 32)
    (ha : a &&& 1#32 = 0#32) :
    (∀ f : BranchForm, f.Is (text k) (text (k + 1)) → mid a = false →
      a = BitVec.ofNat 32 (2 * k) + 2#32 ∨ f.Reach (a - BitVec.ofNat 32 (2 * k) - 4#32) →
      ∃ r, thPatchCall mid text k a = .ok r) ∧
    ∀ text' t, thPatchCall mid text k a = .ok (text', t) →
      mid a = false ∧ ∃ f : BranchForm, f.Is (text k) (text (k + 1)) ∧
        (∀ j, j ≠ k → j ≠ k + 1 → text' j = text j) ∧
        (a = BitVec.ofNat 32 (2 * k) + 2#32 →
          text' k = 0xbf00#16 ∧ text' (k + 1) = text (k + 1)) ∧
        (a ≠ BitVec.ofNat 32 (2 * k) + 2#32 →
          (text' k ++ text' (k + 1)) &&& ~~~f.immMask =
            (text k ++ text (k + 1)) &&& ~~~f.immMask ∧
          (f.Tested → f.Reach (a - BitVec.ofNat 32 (2 * k) - 4#32)) ∧
          (f.Reach (a - BitVec.ofNat 32 (2 * k) - 4#32) →
            (f = .t4 → (a - BitVec.ofNat 32 (2 * k) - 4#32).getLsbD 22 =
              (a - BitVec.ofNat 32 (2 * k) - 4#32).getLsbD 23) →
            decbranch text' k = .ok a)) := by
  have heven := displacement_even ha k
  constructor
  · intro f h hmid hreach
    rw [thPatchCall_of_is h hmid]
    rcases eq_or_ne a (BitVec.ofNat 32 (2 * k) + 2#32) with hnop | hne
    · rw [thPatchAt, if_pos hnop]
      exact ⟨_, rfl⟩
    · obtain ⟨y0, y1, hok, -⟩ := BranchForm.thPatchAt_ok h hne heven fun _ =>
        hreach.resolve_left hne
      rw [hok]
      exact ⟨_, rfl⟩
  · intro text' t hcall
    obtain ⟨hmid, f, h⟩ := thPatchCall_ok_is hcall
    rw [thPatchCall_of_is h hmid] at hcall
    refine ⟨hmid, f, h, ?_⟩
    rcases eq_or_ne a (BitVec.ofNat 32 (2 * k) + 2#32) with hnop | hne
    · rw [thPatchAt, if_pos hnop] at hcall
      cases hcall
      refine ⟨fun j h0 h1 => update_update_of_ne text k _ _ h0 h1, fun _ => ?_,
        fun hne => absurd hnop hne⟩
      exact ⟨update_update_fst text k _ _, update_self _ _ _⟩
    · have htested : f.Tested → f.Reach (a - BitVec.ofNat 32 (2 * k) - 4#32) := by
        intro ht
        by_contra hreach
        obtain ⟨e, he⟩ := BranchForm.thPatchAt_error h hne heven ht hreach
        rw [he] at hcall
        cases hcall
      obtain ⟨y0, y1, hok, hword⟩ := BranchForm.thPatchAt_ok h hne heven htested
      rw [hok] at hcall
      cases hcall
      refine ⟨fun j h0 h1 => update_update_of_ne text k _ _ h0 h1, fun hnop => absurd hnop hne,
        fun _ => ?_⟩
      rw [update_update_fst, update_self]
      have hframe := f.set_frame (text k ++ text (k + 1)) (a - BitVec.ofNat 32 (2 * k) - 4#32)
      rw [← hword] at hframe
      refine ⟨hframe, htested, fun hreach hbits => ?_⟩
      unfold decbranch
      rw [update_update_fst, update_self,
        BranchForm.decbranchAt_of_is (f.is_of_frame h hframe), hword,
        (BranchForm.read_set_iff heven hreach).mpr hbits]
      congr 1
      bv_omega

/-- A wide branch at 0 that is sent to 256. -/
theorem thPatchCall_correct_wide :
    0x100#32 &&& 1#32 = 0#32 ∧
      ∃ text' t, thPatchCall (fun _ => false) (fun j => if j = 0 then 0xf000#16 else 0x9000#16) 0
        0x100#32 = .ok (text', t) ∧ decbranch text' 0 = .ok 0x100#32 := by
  refine ⟨by decide, ?_⟩
  obtain ⟨hsucceeds, hresult⟩ := thPatchCall_correct (fun _ => false)
    (fun j => if j = 0 then 0xf000#16 else 0x9000#16) 0 0x100#32 (by decide)
  have hform : BranchForm.t4.Is 0xf000#16 0x9000#16 := by decide
  obtain ⟨⟨text', t⟩, hcall⟩ := hsucceeds .t4 hform rfl (Or.inr (by constructor <;> decide))
  obtain ⟨-, f, hf, -, -, hpatched⟩ := hresult text' t hcall
  obtain rfl : f = .t4 := BranchForm.is_unique hf hform
  exact ⟨text', t, hcall, (hpatched (by decide)).2.2 (by constructor <;> decide) fun _ => by decide⟩

/-- A branch to the next halfword is gone, and `decbranch` does not know the `NOP`. -/
theorem thPatchCall_nop :
    2#32 &&& 1#32 = 0#32 ∧
      ∃ text' t, thPatchCall (fun _ => false) (fun _ => 0xe000#16) 0 2#32 = .ok (text', t) ∧
        text' 0 = 0xbf00#16 ∧ decbranch text' 0 = .error (.unknownEncoding 0#32 0xbf00#16) :=
  ⟨by decide, _, _, rfl, by decide, by decide⟩

end Tinycc
