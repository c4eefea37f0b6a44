import Tinycc.Arm.ThumbMachine
import Tinycc.Lib.BitField

namespace Tinycc
open Lib Layout List
open BitVec hiding not_not

def hotVeneerSize : ℕ := 20

structure HotPlt where
  addr : BitVec 32
  size : ℕ
  data : ℕ → BitVec 8

/-- What `hot_text_fill_veneer` reads of the linker's state. -/
structure HotText where
  textAddr : BitVec 32
  textSize : ℕ
  hotStart : BitVec 32
  hotEnd : BitVec 32
  plt : Option HotPlt

inductive HotError
  | gotOffset (off : BitVec 32)
  | cannotReach (symIndex : ℕ) (addr : BitVec 32)
  deriving DecidableEq, Repr

def hotTextInBlock (s : HotText) (a : BitVec 32) : Bool := s.hotStart ≤ a && a < s.hotEnd

def HotPlt.read32le (plt : HotPlt) (i : ℕ) : BitVec 32 :=
  plt.data (i + 3) ++ plt.data (i + 2) ++ plt.data (i + 1) ++ plt.data i

/-- The GOT offset in the PLT stub that a veneer in the block takes the place of. -/
def hotPltOffset (s : HotText) (addr val : BitVec 32) : Option (BitVec 32) :=
  match s.plt with
  | none => none
  | some plt =>
    if hotTextInBlock s (addr - s.textAddr) ∧ plt.addr ≤ val ∧
        val.toNat < plt.addr.toNat + plt.size then
      some (plt.read32le (((val - plt.addr) &&& ~~~31#32).toNat + 28))
    else none

def hotTop (v : BitVec 32) : ℕ → ℕ
  | 0 => 0
  | top + 1 => if v.getLsbD (top + 1) then top + 1 else hotTop v top

def hotPutAddIp (v : BitVec 32) : List (BitVec 32) :=
  if v = 0#32 then []
  else
    let top := hotTop v 31
    let n := BitVec.ofNat 32 (39 - top)
    let i := n >>> 4
    let imm3 := (n >>> 1) &&& 7#32
    let imm8 := (n &&& 1#32) <<< 7 ||| (v >>> (top - 7)) &&& 0x7f#32
    [0xf10c#32 ||| i <<< 10, imm3 <<< 12 ||| 0xc#32 <<< 8 ||| imm8]

/-- The PLT stub: `movw ip, #off`, `add ip, r9`, `ldr.w r9, [ip, #4]`, `ldr.w pc, [ip]`. -/
def hotPltHalves (off : BitVec 32) : List (BitVec 32) :=
  [0xf240#32 ||| (off >>> 1) &&& 0x400#32 ||| off >>> 12,
    ((off >>> 8) &&& 7#32) <<< 12 ||| 0xc#32 <<< 8 ||| off &&& 0xff#32,
    0x44cc#32, 0xf8dc#32, 0x9004#32, 0xf8dc#32, 0xf000#32]

def hotFarHalves (slot off : BitVec 32) : List (BitVec 32) :=
  [0xf8d9#32, 0xc000#32 ||| slot, 0xf20c#32 ||| (off >>> 1) &&& 0x400#32,
    ((off >>> 8) &&& 7#32) <<< 12 ||| 0xc#32 <<< 8 ||| off &&& 0xff#32] ++
    hotPutAddIp (off &&& 0x000ff000#32) ++ hotPutAddIp (off &&& 0x0ff00000#32) ++ [0x4760#32]

def hotPad (vs : List (BitVec 32)) : List (BitVec 32) :=
  vs ++ List.replicate ((hotVeneerSize + 1) / 2 - vs.length) 0xbf00#32

def hotPut16 (v : BitVec 32) : List (BitVec 8) := [v.setWidth 8, (v >>> 8).setWidth 8]

/-- The GOT slot that the veneer reads, and the address it holds without the Thumb bit. -/
def hotSlot (s : HotText) (addr : BitVec 32) : BitVec 32 :=
  if hotTextInBlock s (addr - s.textAddr) then 4 * 4 * 2 else 5 * 4 * 2

def hotBase (s : HotText) (addr : BitVec 32) : BitVec 32 :=
  s.textAddr + if hotTextInBlock s (addr - s.textAddr) then 0#32 else s.hotStart

/-- `hot_text_fill_veneer`: what is reported and the bytes that are written. -/
def hotTextFillVeneer (s : HotText) (symIndex : ℕ) (addr val : BitVec 32) :
    List HotError × List (BitVec 8) :=
  match hotPltOffset s addr val with
  | some off =>
    (if 0xffff#32 < off then [.gotOffset off] else [], (hotPad (hotPltHalves off)).flatMap hotPut16)
  | none =>
    let srcHot := hotTextInBlock s (addr - s.textAddr)
    let target := val &&& ~~~1#32
    let off := target - hotBase s addr
    if target < hotBase s addr ∨ 1#32 <<< 28 ≤ off ∨ off &&& 1#32 ≠ 0#32 ∨
        (srcHot = false ∧ hotTextInBlock s (target - s.textAddr) = false) ∨
        (srcHot = true ∧ s.textAddr.toNat + s.textSize ≤ target.toNat) then
      ([.cannotReach symIndex addr], [])
    else ([], (hotPad (hotFarHalves (hotSlot s addr) off)).flatMap hotPut16)

section Bytes

variable {mem : Memory} {a : BitVec 32}

theorem halvesAt_of_holdsBytes (vs : List (BitVec 32)) (h : holdsBytes mem a (vs.flatMap hotPut16)) :
    halvesAt mem a (vs.map (BitVec.setWidth 16)) := by
  induction vs generalizing a with
  | nil => trivial
  | cons v vs ih =>
    obtain ⟨hlow, hhigh, hrest⟩ := h
    rw [BitVec.add_assoc] at hrest
    refine ⟨?_, ih hrest⟩
    unfold halfAt
    rw [hlow, hhigh]
    apply eq_of_getLsbD_eq
    intro i hi
    simp only [getLsbD_append, getLsbD_setWidth, getLsbD_ushiftRight]
    split
    · next h8 => simp [h8, hi]
    · next h8 => simp [hi, show i - 8 < 8 by omega, show 8 + (i - 8) = i by omega]

theorem length_hotPutAddIp_le (v : BitVec 32) : (hotPutAddIp v).length ≤ 2 := by
  unfold hotPutAddIp
  split <;> simp

theorem length_flatMap_hotPut16 (vs : List (BitVec 32)) :
    (vs.flatMap hotPut16).length = 2 * vs.length := by
  induction vs with
  | nil => rfl
  | cons v vs ih =>
    rw [flatMap_cons, length_append]
    simp only [hotPut16, length_cons, length_nil]
    omega

theorem length_hotPad {vs : List (BitVec 32)} (h : vs.length ≤ 10) :
    ((hotPad vs).flatMap hotPut16).length = hotVeneerSize := by
  rw [length_flatMap_hotPut16, hotPad, length_append, length_replicate]
  unfold hotVeneerSize
  omega

theorem length_hotPltHalves_le (off : BitVec 32) : (hotPltHalves off).length ≤ 10 := by
  simp [hotPltHalves]

theorem length_hotFarHalves_le (slot off : BitVec 32) : (hotFarHalves slot off).length ≤ 10 := by
  have h1 := length_hotPutAddIp_le (off &&& 0x000ff000#32)
  have h2 := length_hotPutAddIp_le (off &&& 0x0ff00000#32)
  simp only [hotFarHalves, length_append, length_cons, length_nil]
  omega

end Bytes

section Immediates

variable {v : BitVec 32}

theorem hotTop_spec (hv : v ≠ 0#32) (t : ℕ) (ht : v.toNat < 2 ^ (t + 1)) :
    2 ^ hotTop v t ≤ v.toNat ∧ v.toNat < 2 ^ (hotTop v t + 1) := by
  induction t with
  | zero =>
    have hpos : v.toNat ≠ 0 := fun h => hv (eq_of_toNat_eq h)
    exact ⟨by rw [hotTop]; omega, ht⟩
  | succ t ih =>
    rw [hotTop]
    by_cases hbit : v.getLsbD (t + 1) = true
    · rw [if_pos hbit]
      exact ⟨Nat.ge_two_pow_of_testBit hbit, ht⟩
    · rw [if_neg hbit]
      apply ih
      rw [← testBit_toNat, Nat.testBit_eq_decide_div_mod_eq, decide_eq_true_eq] at hbit
      have hdiv : v.toNat / 2 ^ (t + 1) < 2 := by
        rw [Nat.div_lt_iff_lt_mul (Nat.two_pow_pos _), Nat.mul_comm]
        exact ht
      have hzero : v.toNat / 2 ^ (t + 1) = 0 := by
        generalize v.toNat / 2 ^ (t + 1) = q at hbit hdiv
        omega
      exact (Nat.div_eq_zero_iff_lt (Nat.two_pow_pos _)).mp hzero

theorem hotTop_le (v : BitVec 32) (t : ℕ) : hotTop v t ≤ t := by
  induction t with
  | zero => exact le_rfl
  | succ t ih =>
    rw [hotTop]
    split
    · exact le_rfl
    · exact ih.trans (Nat.le_succ t)

variable {k : ℕ}

theorem le_hotTop (hv : v ≠ 0#32) (hdvd : 2 ^ k ∣ v.toNat) : k ≤ hotTop v 31 := by
  have hpos : v.toNat ≠ 0 := fun h => hv (eq_of_toNat_eq h)
  have hlt := lt_of_le_of_lt (Nat.le_of_dvd (by omega) hdvd) (hotTop_spec hv 31 v.isLt).2
  exact Nat.lt_succ_iff.mp ((Nat.pow_lt_pow_iff_right (by decide)).mp hlt)

theorem hotAddIp_word (n x : BitVec 32) :
    (0xf10c#32 ||| (n >>> 4) <<< 10).setWidth 16 ++
        (((n >>> 1) &&& 7#32) <<< 12 ||| 0xc#32 <<< 8 |||
          ((n &&& 1#32) <<< 7 ||| x &&& 0x7f#32)).setWidth 16 =
      0xf10c0c00#32 ||| ((n >>> 4) <<< 26 ||| ((n >>> 1) &&& 7#32) <<< 12 |||
        (n &&& 1#32) <<< 7 ||| x &&& 0x7f#32) := by
  apply eq_of_getLsbD_eq
  intro i hi
  simp only [getLsbD_append, getLsbD_setWidth, getLsbD_or, getLsbD_and,
    getLsbD_shiftLeft, getLsbD_ushiftRight]
  interval_cases i <;> simp

theorem modImmFields_or_opcode (w : BitVec 32) :
    modImmFields (0xf10c0c00#32 ||| w) = modImmFields w := by
  unfold modImmFields
  rw [extractLsb'_or, extractLsb'_or, extractLsb'_or,
    show BitVec.extractLsb' 26 1 0xf10c0c00#32 = 0#1 from rfl,
    show BitVec.extractLsb' 12 3 0xf10c0c00#32 = 0#3 from rfl,
    show BitVec.extractLsb' 0 8 0xf10c0c00#32 = 0#8 from rfl, zero_or, zero_or,
    zero_or]

theorem packRotated_and {j : ℕ} (hj : j < 24) : packRotated v j &&& 0xfbff8f00#32 = 0#32 := by
  have hhigh : ∀ i, 5 ≤ i → (BitVec.ofNat 32 (8 + j)).getLsbD i = false := by
    intro i hi
    rw [getLsbD_ofNat, Nat.testBit_lt_two_pow, Bool.and_false]
    exact lt_of_lt_of_le (by omega : 8 + j < 2 ^ 5) (Nat.pow_le_pow_right (by decide) hi)
  unfold packRotated
  apply eq_of_getLsbD_eq
  intro i hi
  interval_cases i <;> simp [-getLsbD_eq_getElem, hhigh]

theorem thumbExpandImm_hotAddIp (hk : 8 ≤ k) (hk24 : k ≤ 24) (hv : v ≠ 0#32)
    (hlt : v.toNat < 2 ^ (k + 8)) (hdvd : 2 ^ k ∣ v.toNat) :
    thumbExpandImm (modImmFields (packRotated v (31 - hotTop v 31))) = some v := by
  obtain ⟨hlow, hhigh⟩ := hotTop_spec hv 31 v.isLt
  have hktop := le_hotTop hv hdvd
  generalize hotTop v 31 = top at hlow hhigh hktop
  have htop : top ≤ k + 7 := by
    have := (Nat.pow_lt_pow_iff_right (show 1 < 2 by decide)).mp (lt_of_le_of_lt hlow hlt)
    omega
  obtain ⟨c, hc⟩ : 2 ^ (top - 7) ∣ v.toNat := (Nat.pow_dvd_pow 2 (by omega)).trans hdvd
  have hpow : 2 ^ top = 128 * 2 ^ (top - 7) := by
    rw [show (128 : ℕ) = 2 ^ 7 from rfl, ← Nat.pow_add]
    congr 1
    omega
  have hcpos := Nat.two_pow_pos (top - 7)
  have hc1 : 128 ≤ c := by
    rw [hpow, hc, Nat.mul_comm] at hlow
    exact Nat.le_of_mul_le_mul_left hlow hcpos
  have hc2 : c < 256 := by
    rw [Nat.pow_succ, hpow, hc, Nat.mul_comm (128 * _), ← Nat.mul_assoc, Nat.mul_comm] at hhigh
    exact Nat.lt_of_mul_lt_mul_right hhigh
  have hfields := (@modImmFields_packRotated v (31 - top) (by omega)).2
  rw [show 24 - (31 - top) = top - 7 by omega, hc, Nat.mul_div_cancel_left _ hcpos] at hfields
  refine thumbExpandImm_rotation (k := 8 + (31 - top)) (by omega) (by omega)
    (Nat.mod_lt c (by decide)) hfields ?_
  rw [hc, show 32 - (8 + (31 - top)) = top - 7 by omega, Nat.mul_comm]
  congr 1
  omega

end Immediates

section Decoding

def hotImm12 : Layout := [⟨26, 11, 1⟩, ⟨12, 8, 3⟩, ⟨0, 0, 8⟩]

theorem modImmFields_eq_get (w : BitVec 32) : (modImmFields w).setWidth 32 = hotImm12.get w := by
  apply eq_of_getLsbD_eq
  intro i hi
  rw [getLsbD_get _ _ hi]
  simp only [modImmFields, getLsbD_append, getLsbD_setWidth, getLsbD_extractLsb',
    hotImm12, BitField.Holds, any_cons, any_nil]
  interval_cases i <;> simp

theorem hotAddw_word (off : BitVec 32) :
    (0xf20c#32 ||| (off >>> 1) &&& 0x400#32).setWidth 16 ++
        (((off >>> 8) &&& 7#32) <<< 12 ||| 0xc#32 <<< 8 ||| off &&& 0xff#32).setWidth 16 =
      hotImm12.set 0xf20c0c00#32 off := by
  apply eq_of_getLsbD_eq
  intro i hi
  rw [getLsbD_set _ _ _ hi]
  simp only [getLsbD_append, getLsbD_setWidth, getLsbD_or, getLsbD_and,
    getLsbD_shiftLeft, getLsbD_ushiftRight, hotImm12, BitField.Covers]
  interval_cases i <;> simp

theorem decode_addw (off : BitVec 32) :
    decodeVeneer32 (hotImm12.set 0xf20c0c00#32 off) =
      some (.addImm 12#4 12#4 (off &&& 0xfff#32)) := by
  have hframe := set_and_not_mask hotImm12 0xf20c0c00#32 off
  have hop : hotImm12.set 0xf20c0c00#32 off &&& 0xfbf08000#32 = 0xf2000000#32 :=
    and_eq_of_and_eq hframe (by decide)
  have himm : (modImmFields (hotImm12.set 0xf20c0c00#32 off)).setWidth 32 = off &&& 0xfff#32 := by
    rw [modImmFields_eq_get, get_set (by decide)]
    rfl
  have hrd : (hotImm12.set 0xf20c0c00#32 off).extractLsb' 8 4 = 12#4 :=
    extractLsb'_of_and_eq hframe (by decide)
  have hrn : (hotImm12.set 0xf20c0c00#32 off).extractLsb' 16 4 = 12#4 :=
    extractLsb'_of_and_eq hframe (by decide)
  unfold decodeVeneer32
  rw [if_neg (and_ne_of_and_eq hop (by decide)), if_pos hop, himm, hrd, hrn]

theorem decode_addIp {k : ℕ} {v : BitVec 32} (hk : 8 ≤ k) (hk24 : k ≤ 24) (hv : v ≠ 0#32)
    (hlt : v.toNat < 2 ^ (k + 8)) (hdvd : 2 ^ k ∣ v.toNat) :
    decodeVeneer32 (0xf10c0c00#32 ||| packRotated v (31 - hotTop v 31)) =
      some (.addImm 12#4 12#4 v) := by
  have hexpand := thumbExpandImm_hotAddIp hk hk24 hv hlt hdvd
  have hframe : (0xf10c0c00#32 ||| packRotated v (31 - hotTop v 31)) &&& 0xfbff8f00#32 =
      0xf10c0c00#32 := by
    have htop := le_hotTop hv hdvd
    rw [BitVec.and_comm, and_or_distrib_left, BitVec.and_comm _ (packRotated _ _),
      packRotated_and (by omega)]
    rfl
  have hop : (0xf10c0c00#32 ||| packRotated v (31 - hotTop v 31)) &&& 0xfbf08000#32 =
      0xf1000000#32 := and_eq_of_and_eq hframe (by decide)
  have hrd : (0xf10c0c00#32 ||| packRotated v (31 - hotTop v 31)).extractLsb' 8 4 = 12#4 :=
    extractLsb'_of_and_eq hframe (by decide)
  have hrn : (0xf10c0c00#32 ||| packRotated v (31 - hotTop v 31)).extractLsb' 16 4 = 12#4 :=
    extractLsb'_of_and_eq hframe (by decide)
  unfold decodeVeneer32
  rw [if_neg (and_ne_of_and_eq hop (by decide)), if_neg (by rw [hop]; decide), if_pos hop,
    modImmFields_or_opcode, hexpand, hrd, hrn]
  rfl

def hotImm16 : Layout := ⟨16, 12, 4⟩ :: hotImm12

variable {off : BitVec 32}

theorem hotMovw_word (h : off ≤ 0xffff#32) :
    (0xf240#32 ||| (off >>> 1) &&& 0x400#32 ||| off >>> 12).setWidth 16 ++
        (((off >>> 8) &&& 7#32) <<< 12 ||| 0xc#32 <<< 8 ||| off &&& 0xff#32).setWidth 16 =
      hotImm16.set 0xf2400c00#32 off := by
  have hhigh : ∀ j, 16 ≤ j → off.getLsbD j = false := by
    intro j hj
    apply Nat.testBit_lt_two_pow
    exact lt_of_le_of_lt (BitVec.le_def.mp h)
      (lt_of_lt_of_le (by decide : (0xffff : ℕ) < 2 ^ 16) (Nat.pow_le_pow_right (by decide) hj))
  apply eq_of_getLsbD_eq
  intro i hi
  rw [getLsbD_set _ _ _ hi]
  simp only [getLsbD_append, getLsbD_setWidth, getLsbD_or, getLsbD_and,
    getLsbD_shiftLeft, getLsbD_ushiftRight, hotImm16, hotImm12, BitField.Covers]
  interval_cases i <;> simp [-getLsbD_eq_getElem, hhigh]

theorem movwImm_eq_get (w : BitVec 32) :
    (w.extractLsb' 16 4 ++ modImmFields w).setWidth 32 = hotImm16.get w := by
  apply eq_of_getLsbD_eq
  intro i hi
  rw [getLsbD_get _ _ hi]
  simp only [modImmFields, getLsbD_append, getLsbD_setWidth, getLsbD_extractLsb',
    hotImm16, hotImm12, BitField.Holds, any_cons, any_nil]
  interval_cases i <;> simp

theorem decode_movw (h : off ≤ 0xffff#32) :
    decodeVeneer32 (hotImm16.set 0xf2400c00#32 off) = some (.movw 12#4 off) := by
  have hframe := set_and_not_mask hotImm16 0xf2400c00#32 off
  have hop : hotImm16.set 0xf2400c00#32 off &&& 0xfbf08000#32 = 0xf2400000#32 :=
    and_eq_of_and_eq hframe (by decide)
  have himm : ((hotImm16.set 0xf2400c00#32 off).extractLsb' 16 4 ++
      modImmFields (hotImm16.set 0xf2400c00#32 off)).setWidth 32 = off := by
    rw [movwImm_eq_get, get_set (by decide)]
    apply eq_of_toNat_eq
    exact Nat.and_two_pow_sub_one_of_lt_two_pow (n := 16)
      (lt_of_le_of_lt (BitVec.le_def.mp h) (by decide))
  have hrd : (hotImm16.set 0xf2400c00#32 off).extractLsb' 8 4 = 12#4 :=
    extractLsb'_of_and_eq hframe (by decide)
  unfold decodeVeneer32
  rw [if_neg (and_ne_of_and_eq hop (by decide)), if_neg (by rw [hop]; decide),
    if_neg (by rw [hop]; decide), if_pos hop, himm, hrd]

end Decoding

section Running

open ThumbMachine

/-- Nothing but `ip` and the program counter changes. -/
structure OnlyIp (m m' : ThumbMachine) : Prop where
  reg : ∀ r, r ≠ 12#4 → m'.reg r = m.reg r
  flags : m'.flags = m.flags
  mem : m'.mem = m.mem

variable {m m' m'' : ThumbMachine} {vs : List (BitVec 16)} {k : ℕ} {off slot : BitVec 32}

theorem OnlyIp.trans (h : OnlyIp m m') (h' : OnlyIp m' m'') :
    OnlyIp m m'' :=
  ⟨fun r hr => (h'.reg r hr).trans (h.reg r hr), h'.flags.trans h.flags, h'.mem.trans h.mem⟩

theorem onlyIp_write (m : ThumbMachine) (v size : BitVec 32) : OnlyIp m (m.write 12#4 v size) :=
  ⟨fun _ hr => m.write_reg_of_ne hr v size, rfl, rfl⟩

/-- `k` halfwords of code add `v` to `ip`. -/
structure AddsIp (m m' : ThumbMachine) (k : ℕ) (v : BitVec 32) : Prop where
  runs : Runs m m'
  onlyIp : OnlyIp m m'
  thumb : m'.thumb = true
  pc : m'.pc = m.pc + BitVec.ofNat 32 (2 * k)
  ip : m'.reg 12#4 = m.reg 12#4 + v

theorem addsIp_single {v1 v2 : BitVec 16} {v : BitVec 32} (hthumb : m.thumb = true)
    (hcode : halvesAt m.mem m.pc (v1 :: v2 :: vs))
    (hdecode : decodeVeneer32 (v1 ++ v2) = some (.addImm 12#4 12#4 v)) :
    AddsIp m (m.write 12#4 (m.reg 12#4 + v) 4#32) 2 v where
  runs := Runs.single (step_wide hthumb hcode hdecode)
  onlyIp := onlyIp_write m _ _
  thumb := hthumb
  pc := rfl
  ip := m.write_reg_self _ _ _

theorem addsIp_hotPutAddIp {v : BitVec 32} (hk : 8 ≤ k) (hk24 : k ≤ 24)
    (hlt : v.toNat < 2 ^ (k + 8)) (hdvd : 2 ^ k ∣ v.toNat) (hthumb : m.thumb = true)
    (hcode : halvesAt m.mem m.pc ((hotPutAddIp v).map (BitVec.setWidth 16) ++ vs)) :
    ∃ m', AddsIp m m' ((hotPutAddIp v).map (BitVec.setWidth 16)).length v := by
  by_cases hv : v = 0#32
  · refine ⟨m, Runs.refl, ⟨fun _ _ => rfl, rfl, rfl⟩, hthumb, ?_, ?_⟩
    · rw [hotPutAddIp, if_pos hv]
      simp
    · rw [hv]
      simp
  · rw [hotPutAddIp, if_neg hv] at hcode ⊢
    refine ⟨_, addsIp_single hthumb hcode ?_⟩
    have hdecode := decode_addIp hk hk24 hv hlt hdvd
    have h31 := hotTop_le v 31
    have hsum : 8 + (31 - hotTop v 31) = 39 - hotTop v 31 := by omega
    have hshift : 24 - (31 - hotTop v 31) = hotTop v 31 - 7 := by omega
    unfold packRotated at hdecode
    rw [hsum, hshift] at hdecode
    rw [hotAddIp_word, hdecode]

theorem AddsIp.trans {k' : ℕ} {v v' : BitVec 32} (h : AddsIp m m' k v) (h' : AddsIp m' m'' k' v') :
    AddsIp m m'' (k + k') (v + v') where
  runs := h.runs.trans h'.runs
  onlyIp := h.onlyIp.trans h'.onlyIp
  thumb := h'.thumb
  pc := by
    rw [h'.pc, h.pc, BitVec.add_assoc, ← ofNat_add, Nat.mul_add]
  ip := by
    rw [h'.ip, h.ip, BitVec.add_assoc]

theorem AddsIp.halvesAt {v : BitVec 32} {l l' : List (BitVec 16)} (h : AddsIp m m' l.length v)
    (hcode : Tinycc.halvesAt m.mem m.pc (l ++ l')) :
    Tinycc.halvesAt m'.mem m'.pc l' := by
  rw [h.onlyIp.mem, h.pc]
  exact (halvesAt_append hcode).2

theorem toNat_and_part (off : BitVec 32) (hk : k ≤ 24) :
    (off &&& BitVec.ofNat 32 ((2 ^ 8 - 1) * 2 ^ k)).toNat = off.toNat / 2 ^ k % 2 ^ 8 * 2 ^ k := by
  have hlt : (2 ^ 8 - 1) * 2 ^ k < 2 ^ 32 :=
    lt_of_le_of_lt (Nat.mul_le_mul_left _ (Nat.pow_le_pow_right (by decide) hk)) (by decide)
  rw [toNat_and, toNat_ofNat, Nat.mod_eq_of_lt hlt, nat_and_mask]

theorem hot_part_wide (off : BitVec 32) (hk : k ≤ 24) :
    (off &&& BitVec.ofNat 32 ((2 ^ 8 - 1) * 2 ^ k)).toNat < 2 ^ (k + 8) ∧
      2 ^ k ∣ (off &&& BitVec.ofNat 32 ((2 ^ 8 - 1) * 2 ^ k)).toNat := by
  rw [toNat_and_part off hk]
  refine ⟨?_, Nat.dvd_mul_left _ _⟩
  rw [Nat.add_comm, Nat.pow_add]
  exact Nat.mul_lt_mul_of_pos_right (Nat.mod_lt _ (by decide)) (Nat.two_pow_pos k)

theorem hot_parts (h : off < 1#32 <<< 28) :
    (off &&& 0xfff#32) + ((off &&& 0x000ff000#32) + (off &&& 0x0ff00000#32)) = off := by
  have hlt : off.toNat < 2 ^ 28 := BitVec.lt_def.mp h
  have hlow : (off &&& 0xfff#32).toNat = off.toNat % 4096 := by
    exact Nat.and_two_pow_sub_one_eq_mod off.toNat 12
  have hmid : (off &&& 0x000ff000#32).toNat = off.toNat / 4096 % 256 * 4096 :=
    toNat_and_part off (k := 12) (by decide)
  have htop : (off &&& 0x0ff00000#32).toNat = off.toNat / 1048576 % 256 * 1048576 :=
    toNat_and_part off (k := 20) (by decide)
  apply eq_of_toNat_eq
  rw [toNat_add, toNat_add, hmid]
  omega

theorem step_ldr_slot (hslot : slot = 32#32 ∨ slot = 40#32) (hthumb : m.thumb = true)
    (hcode : Tinycc.halvesAt m.mem m.pc
      ((0xf8d9#32).setWidth 16 :: (0xc000#32 ||| slot).setWidth 16 :: vs)) :
    m.step = some (m.write 12#4 (m.mem.word (m.reg 9#4 + slot)) 4#32) := by
  have hdecode : decodeVeneer32 ((0xf8d9#32).setWidth 16 ++ (0xc000#32 ||| slot).setWidth 16) =
      some (.ldr 12#4 9#4 slot) := by
    rcases hslot with rfl | rfl <;> decide
  rw [step_wide hthumb hcode hdecode]
  rfl

theorem step_bx_ip (hthumb : m.thumb = true)
    (hcode : Tinycc.halvesAt m.mem m.pc ((0x4760#32).setWidth 16 :: vs)) :
    m.step = some (m.branchTo (m.reg 12#4)) := by
  rw [step_narrow hthumb hcode (by decide) (show _ = some (.bx 12#4) by decide)]
  rfl

theorem hotFar_runs {base : BitVec 32} (hslot : slot = 32#32 ∨ slot = 40#32)
    (hoff : off < 1#32 <<< 28) (hthumb : m.thumb = true)
    (hcode : Tinycc.halvesAt m.mem m.pc ((hotFarHalves slot off).map (BitVec.setWidth 16) ++ vs))
    (hbase : m.mem.word (m.reg 9#4 + slot) = base) :
    ∃ m', Runs m m' ∧ OnlyIp m m' ∧ m'.pc = (base + off) &&& ~~~1#32 ∧
      m'.thumb = (base + off).getLsbD 0 := by
  unfold hotFarHalves at hcode
  rw [List.map_append, List.map_append, List.append_assoc, List.append_assoc] at hcode
  have hldr := step_ldr_slot hslot hthumb hcode
  rw [hbase] at hldr
  obtain ⟨-, -, hcode1⟩ := hcode
  rw [BitVec.add_assoc] at hcode1
  -- the low twelve bits
  have hadd1 := addsIp_single (m := m.write 12#4 base 4#32) hthumb hcode1
    ((congrArg decodeVeneer32 (hotAddw_word off)).trans (decode_addw off))
  have hcode2 := AddsIp.halvesAt (l := [_, _]) hadd1 hcode1
  -- the bits from 12 and from 20 on
  obtain ⟨hlt2, hdvd2⟩ := hot_part_wide off (k := 12) (by decide)
  obtain ⟨m2, hadd2⟩ := addsIp_hotPutAddIp (by decide) (by decide) hlt2 hdvd2 hadd1.thumb hcode2
  have hcode3 := hadd2.halvesAt hcode2
  obtain ⟨hlt3, hdvd3⟩ := hot_part_wide off (k := 20) (by decide)
  obtain ⟨m3, hadd3⟩ := addsIp_hotPutAddIp (by decide) (by decide) hlt3 hdvd3 hadd2.thumb hcode3
  have hadd := hadd1.trans (hadd2.trans hadd3)
  have hip : m3.reg 12#4 = base + off := by
    rw [hadd.ip]
    exact congrArg (base + ·) (hot_parts hoff)
  have hbx := step_bx_ip hadd.thumb (hadd3.halvesAt hcode3)
  rw [hip] at hbx
  refine ⟨_, (Runs.single hldr).trans (hadd.runs.trans (Runs.single hbx)), ?_, rfl, rfl⟩
  refine (onlyIp_write m _ _).trans (hadd.onlyIp.trans ?_)
  exact ⟨fun _ _ => rfl, rfl, rfl⟩

/-- The veneer in the block that stands for a PLT stub does what the stub does: it loads the
callee's base and jumps through the GOT. -/
theorem hotPlt_runs (hoff : off ≤ 0xffff#32) (hthumb : m.thumb = true)
    (halign : (m.reg 9#4 + off) &&& 3#32 = 0#32)
    (hcode : Tinycc.halvesAt m.mem m.pc ((hotPltHalves off).map (BitVec.setWidth 16) ++ vs)) :
    ∃ m', Runs m m' ∧ (∀ r, r ≠ 9#4 → r ≠ 12#4 → m'.reg r = m.reg r) ∧
      m'.reg 9#4 = m.mem.word (m.reg 9#4 + off + 4#32) ∧ m'.flags = m.flags ∧ m'.mem = m.mem ∧
      m'.pc = m.mem.word (m.reg 9#4 + off) &&& ~~~1#32 ∧
      m'.thumb = (m.mem.word (m.reg 9#4 + off)).getLsbD 0 := by
  obtain ⟨h1, h2, h3, h4, h5, h6, h7, -⟩ := hcode
  have hpc : ∀ k l : BitVec 32, m.pc + k + l = m.pc + (k + l) := fun k l => BitVec.add_assoc _ _ _
  simp only [hpc, BitVec.reduceAdd] at h3 h4 h5 h6 h7
  have hmovw : m.step = some (m.write 12#4 off 4#32) := by
    rw [step_wide hthumb (l := []) ⟨h1, h2, trivial⟩
      ((congrArg decodeVeneer32 (hotMovw_word hoff)).trans (decode_movw hoff))]
    rfl
  let m1 := m.write 12#4 off 4#32
  let m2 := m1.write 12#4 (m.reg 9#4 + off) 2#32
  let m3 := m2.write 9#4 (m.mem.word (m.reg 9#4 + off + 4#32)) 4#32
  have hpc2 : m2.pc = m.pc + 6#32 := hpc 4#32 2#32
  have hpc3 : m3.pc = m.pc + 10#32 := (congrArg (· + 4#32) hpc2).trans (hpc 6#32 4#32)
  have hcode2 : Tinycc.halvesAt m2.mem m2.pc [0xf8dc#16, 0x9004#16] :=
    ⟨by rw [hpc2]; exact h4, by rw [hpc2, hpc]; exact h5, trivial⟩
  have hcode3 : Tinycc.halvesAt m3.mem m3.pc [0xf8dc#16, 0xf000#16] :=
    ⟨by rw [hpc3]; exact h6, by rw [hpc3, hpc]; exact h7, trivial⟩
  have hadd : m1.step = some m2 := by
    rw [step_narrow (m := m1) (v := 0x44cc#16) (l := []) hthumb ⟨h3, trivial⟩ (by decide)
      (show _ = some (.addReg 12#4 9#4) by decide)]
    change some (m1.write 12#4 (m1.reg 12#4 + m1.reg 9#4) 2#32) = _
    rw [write_reg_self, write_reg_of_ne _ (by decide), BitVec.add_comm off]
  have hbase : m2.step = some m3 := by
    rw [step_wide (m := m2) hthumb hcode2 (show _ = some (.ldr 9#4 12#4 4#32) by decide)]
    change some (m2.write 9#4 (m.mem.word (m2.reg 12#4 + 4#32)) 4#32) = _
    rw [write_reg_self]
  have hjump : m3.step = some (m3.branchTo (m.mem.word (m.reg 9#4 + off))) := by
    have hip : m3.reg 12#4 + 0#32 = m.reg 9#4 + off := by
      rw [write_reg_of_ne _ (by decide), write_reg_self, BitVec.add_zero]
    rw [step_wide (m := m3) hthumb hcode3 (show _ = some (.ldr 15#4 12#4 0#32) by decide)]
    unfold exec
    dsimp only
    rw [hip, if_pos halign]
    rfl
  refine ⟨_, (Runs.single hmovw).trans ((Runs.single hadd).trans ((Runs.single hbase).trans
    (Runs.single hjump))), fun r h9 h12 => ?_, ?_, rfl, rfl, rfl, rfl⟩
  · change m3.reg r = m.reg r
    rw [write_reg_of_ne _ h9, write_reg_of_ne _ h12, write_reg_of_ne _ h12]
  · change m3.reg 9#4 = _
    rw [write_reg_self]

end Running

section Veneers

variable {s : HotText} {symIndex : ℕ} {addr val : BitVec 32}

theorem hotSlot_eq (s : HotText) (addr : BitVec 32) :
    hotSlot s addr = 32#32 ∨ hotSlot s addr = 40#32 := by
  unfold hotSlot
  split
  · exact Or.inl rfl
  · exact Or.inr rfl

theorem hotTextFillVeneer_far (hplt : hotPltOffset s addr val = none)
    (herr : (hotTextFillVeneer s symIndex addr val).1 = []) :
    (val &&& ~~~1#32) - hotBase s addr < 1#32 <<< 28 ∧
      ((val &&& ~~~1#32) - hotBase s addr).getLsbD 0 = false ∧
      (hotTextFillVeneer s symIndex addr val).2 =
        (hotPad (hotFarHalves (hotSlot s addr) ((val &&& ~~~1#32) - hotBase s addr))).flatMap
          hotPut16 := by
  unfold hotTextFillVeneer at herr ⊢
  rw [hplt] at herr ⊢
  dsimp only at herr ⊢
  split_ifs at herr ⊢ with hbad
  push Not at hbad
  obtain ⟨-, hlt, heven, -⟩ := hbad
  have hbit := mt (@and_twoPow_ne_zero_iff 32 ((val &&& ~~~1#32) - hotBase s addr) 0
    (by decide)).mpr (not_not.mpr heven)
  exact ⟨BitVec.not_le.mp hlt, Bool.eq_false_of_not_eq_true hbit, rfl⟩

theorem hotTextFillVeneer_plt {off : BitVec 32} (hplt : hotPltOffset s addr val = some off)
    (herr : (hotTextFillVeneer s symIndex addr val).1 = []) :
    off ≤ 0xffff#32 ∧ (hotTextFillVeneer s symIndex addr val).2 =
      (hotPad (hotPltHalves off)).flatMap hotPut16 := by
  unfold hotTextFillVeneer at herr ⊢
  rw [hplt] at herr ⊢
  dsimp only at herr ⊢
  split_ifs at herr with hbad
  exact ⟨BitVec.not_lt.mp hbad, rfl⟩

theorem halvesAt_hotPad {mem : Memory} {a : BitVec 32} {vs : List (BitVec 32)}
    (h : holdsBytes mem a ((hotPad vs).flatMap hotPut16)) :
    ∃ ws, halvesAt mem a (vs.map (BitVec.setWidth 16) ++ ws) := by
  have hhalves := halvesAt_of_holdsBytes _ h
  rw [hotPad, map_append] at hhalves
  exact ⟨_, hhalves⟩

variable {x : BitVec 32}

theorem getLsbD_add_of_even {y : BitVec 32} (hx : x.getLsbD 0 = false) (hy : y.getLsbD 0 = false) :
    (x + y).getLsbD 0 = false := by
  rw [← testBit_toNat, Nat.testBit_zero, decide_eq_false_iff_not] at *
  rw [toNat_add]
  omega

theorem thumb_bit (hx : x.getLsbD 0 = false) :
    (x + 1#32) &&& ~~~1#32 = x ∧ (x + 1#32).getLsbD 0 = true := by
  have hzero : x &&& 1#32 = 0#32 := by
    have h := mt (@and_twoPow_ne_zero_iff 32 x 0 (by decide)).mp (by rw [hx]; decide)
    exact not_not.mp h
  rw [add_eq_or_of_and_eq_zero x 1#32 hzero]
  constructor
  · calc
      (x ||| 1#32) &&& ~~~1#32 = x &&& ~~~1#32 ||| x &&& 1#32 := by
        rw [hzero, BitVec.and_comm, and_or_distrib_left, BitVec.and_comm _ x]
        simp
      _ = x := by
        rw [← and_or_distrib_left, BitVec.or_comm, or_not_self, and_allOnes]
  · simp

/-- A veneer that is built fills the bytes reserved for it. One to the other block ends at the base
in its slot plus the displacement and changes `ip` alone; one for an import ends where the GOT entry
says and has loaded `r9` with the callee's base. -/
theorem hotTextFillVeneer_runs (s : HotText) (symIndex : ℕ) (addr val : BitVec 32)
    (herr : (hotTextFillVeneer s symIndex addr val).1 = []) :
    (hotTextFillVeneer s symIndex addr val).2.length = hotVeneerSize ∧
    ∀ m : ThumbMachine, m.thumb = true →
      holdsBytes m.mem m.pc (hotTextFillVeneer s symIndex addr val).2 →
      (hotPltOffset s addr val = none → ∀ base : BitVec 32, base.getLsbD 0 = false →
        m.mem.word (m.reg 9#4 + hotSlot s addr) = base + 1#32 →
        ∃ m', m.Runs m' ∧ OnlyIp m m' ∧
          m'.pc = base + ((val &&& ~~~1#32) - hotBase s addr) ∧ m'.thumb = true) ∧
      (∀ off, hotPltOffset s addr val = some off → (m.reg 9#4 + off) &&& 3#32 = 0#32 →
        ∃ m', m.Runs m' ∧ (∀ r, r ≠ 9#4 → r ≠ 12#4 → m'.reg r = m.reg r) ∧
          m'.reg 9#4 = m.mem.word (m.reg 9#4 + off + 4#32) ∧ m'.flags = m.flags ∧
          m'.mem = m.mem ∧ m'.pc = m.mem.word (m.reg 9#4 + off) &&& ~~~1#32 ∧
          m'.thumb = (m.mem.word (m.reg 9#4 + off)).getLsbD 0) := by
  constructor
  · cases hplt : hotPltOffset s addr val with
    | none =>
      rw [(hotTextFillVeneer_far hplt herr).2.2, length_hotPad (length_hotFarHalves_le _ _)]
    | some off => rw [(hotTextFillVeneer_plt hplt herr).2, length_hotPad (length_hotPltHalves_le off)]
  · intro m hthumb hbytes
    constructor
    · intro hplt base heven hbase
      obtain ⟨hlt, hoff, hcode⟩ := hotTextFillVeneer_far hplt herr
      rw [hcode] at hbytes
      obtain ⟨ws, hhalves⟩ := halvesAt_hotPad hbytes
      obtain ⟨m', hruns, honly, hpc, ht⟩ := hotFar_runs (hotSlot_eq s addr) hlt hthumb hhalves hbase
      have hsum : base + 1#32 + ((val &&& ~~~1#32) - hotBase s addr) =
          base + ((val &&& ~~~1#32) - hotBase s addr) + 1#32 := by
        rw [BitVec.add_assoc, BitVec.add_comm 1#32, BitVec.add_assoc]
      obtain ⟨hclear, hset⟩ := thumb_bit (getLsbD_add_of_even heven hoff)
      rw [hsum] at hpc ht
      exact ⟨m', hruns, honly, hpc.trans hclear, ht.trans hset⟩
    · intro off hplt halign
      obtain ⟨hoff, hcode⟩ := hotTextFillVeneer_plt hplt herr
      rw [hcode] at hbytes
      obtain ⟨ws, hhalves⟩ := halvesAt_hotPad hbytes
      exact hotPlt_runs hoff hthumb halign hhalves

/-- A link with the text at 0x8000, the block in its second half and a PLT stub whose GOT offset is
0x40. -/
def hotExample : HotText where
  textAddr := 0x8000#32
  textSize := 0x200000
  hotStart := 0x100000#32
  hotEnd := 0x200000#32
  plt := some ⟨0x4000#32, 32, fun i => if i = 28 then 0x40#8 else 0#8⟩

def hotMachine (bytes : List (BitVec 8)) : ThumbMachine where
  reg := fun r => if r = 9#4 then 0x1000#32 else 0#32
  pc := 0#32
  thumb := true
  flags := 5#4
  mem := fun a =>
    if a.toNat < 20 then bytes.getD a.toNat 0#8
    else if a = 0x1028#32 ∨ a = 0x1040#32 then 0x01#8
    else if a = 0x102b#32 ∨ a = 0x1043#32 ∨ a = 0x1047#32 then 0x20#8
    else 0#8

/-- A call from the rest to the address 0x12345 of the block, which runs at 0x20000000. -/
theorem hotTextFillVeneer_runs_example :
    ∃ m', (hotMachine (hotTextFillVeneer hotExample 1 0x8100#32 0x11a345#32).2).Runs m' ∧
      m'.pc = 0x20012344#32 ∧ m'.thumb = true := by
  obtain ⟨-, hruns⟩ := hotTextFillVeneer_runs hotExample 1 0x8100#32 0x11a345#32 (by decide)
  obtain ⟨m', h, -, hpc, hthumb⟩ := (hruns
    (hotMachine (hotTextFillVeneer hotExample 1 0x8100#32 0x11a345#32).2) rfl (by decide)).1
    (by decide) 0x20000000#32 (by decide) (by decide)
  exact ⟨m', h, hpc.trans (by decide), hthumb⟩

/-- A call out of the block to an import: the veneer gives `r9` another value. -/
theorem hotTextFillVeneer_changes_r9 :
    (hotTextFillVeneer hotExample 1 0x108000#32 0x4001#32).1 = [] ∧
      (hotMachine (hotTextFillVeneer hotExample 1 0x108000#32 0x4001#32).2).reg 9#4 = 0x1000#32 ∧
      ((ThumbMachine.run 4
        (hotMachine (hotTextFillVeneer hotExample 1 0x108000#32 0x4001#32).2)).map
          fun m' => (m'.reg 9#4, m'.pc, m'.thumb)) = some (0x20000000#32, 0x20000000#32, true) := by
  decide

end Veneers

end Tinycc
