import Mathlib.Tactic.IntervalCases
import Mathlib.Tactic.Ring
import Tinycc.Lib.BitSlice
import Tinycc.Lib.MemoCache

namespace Tinycc
open Lib BitVec

/-- The test of `th_pack_const` for eight bits that start with a 1 at bit `31 - j`. -/
def packsRotated (imm : BitVec 32) (j : ℕ) : Bool :=
  let mask := 0xFF000000#32 >>> j
  let one := 0x80000000#32 >>> j
  imm &&& one = one && imm &&& ~~~mask = 0#32

def packRotated (imm : BitVec 32) (j : ℕ) : BitVec 32 :=
  let i := BitVec.ofNat 32 (8 + j)
  let imm3 := (i >>> 1) &&& 7#32
  let a := i &&& 1#32
  let bcdefgh := (imm >>> (24 - j)) &&& 0x7f#32
  (i >>> 4) <<< 26 ||| imm3 <<< 12 ||| a <<< 7 ||| bcdefgh

def packConst (imm : BitVec 32) : BitVec 32 :=
  -- the cache of `th_pack_const` comes before this
  if imm &&& 0xffffff00#32 = 0#32 then imm
  else if imm &&& 0xff00ff00#32 = 0#32 ∧ imm >>> 16 = imm &&& 0xff#32 then
    1#32 <<< 12 ||| imm &&& 0xff#32
  else if imm &&& 0x00ff00ff#32 = 0#32 ∧ (imm >>> 16) &&& 0xff00#32 = imm &&& 0xff00#32 then
    2#32 <<< 12 ||| (imm >>> 8) &&& 0xff#32
  else if imm &&& 0xffff#32 = (imm >>> 16) &&& 0xffff#32 ∧
      (imm >>> 8) &&& 0xff#32 = imm &&& 0xff#32 then
    3#32 <<< 12 ||| imm &&& 0xff#32
  else
    match (List.range 24).find? (packsRotated imm) with
    | some j => packRotated imm j
    | none => 0#32

abbrev ThPackConstCacheEntry := MemoEntry (BitVec 32) (BitVec 32)

def thPackConstIdx (size : ℕ) (imm : BitVec 32) : ℕ :=
  ((imm ^^^ imm >>> 9 ^^^ imm >>> 17 ^^^ imm >>> 25) &&& BitVec.ofNat 32 (size - 1)).toNat

def thPackConst (size : ℕ) (cache : ℕ → ThPackConstCacheEntry) (imm : BitVec 32) :
    BitVec 32 × (ℕ → ThPackConstCacheEntry) :=
  memoCall (thPackConstIdx size) packConst cache imm

def thPackConstCache : ℕ → ThPackConstCacheEntry := fun _ => ⟨0#32, 0#32, false⟩

def ofBytes (d c b a : BitVec 8) : BitVec 32 := d ++ c ++ b ++ a

def thumbExpandImm (imm12 : BitVec 12) : Option (BitVec 32) :=
  -- a repeated zero byte is unpredictable
  let imm8 := imm12.setWidth 8
  if slice imm12 11 10 = 0 then
    if slice imm12 9 8 = 0 then some (ofBytes 0#8 0#8 0#8 imm8)
    else if imm8 = 0#8 then none
    else if slice imm12 9 8 = 1 then some (ofBytes 0#8 imm8 0#8 imm8)
    else if slice imm12 9 8 = 2 then some (ofBytes imm8 0#8 imm8 0#8)
    else some (ofBytes imm8 imm8 imm8 imm8)
  else some ((ofBytes 0#8 0#8 0#8 (imm8 ||| 0x80#8)).rotateRight (slice imm12 11 7))

def modImmFields (w : BitVec 32) : BitVec 12 :=
  w.extractLsb' 26 1 ++ w.extractLsb' 12 3 ++ w.extractLsb' 0 8

section Numbers

variable {imm : BitVec 32} {j : ℕ}

theorem toNat_ofBytes (d c b a : BitVec 8) :
    (ofBytes d c b a).toNat = d.toNat * 16777216 + c.toNat * 65536 + b.toNat * 256 + a.toNat := by
  have ha := a.isLt
  have hb := b.isLt
  have hc := c.isLt
  unfold ofBytes
  rw [toNat_append, toNat_append, toNat_append,
    ← Nat.shiftLeft_add_eq_or_of_lt ha, ← Nat.shiftLeft_add_eq_or_of_lt hb,
    ← Nat.shiftLeft_add_eq_or_of_lt hc]
  omega

theorem toNat_ofBytes_low (a : BitVec 8) : (ofBytes 0#8 0#8 0#8 a).toNat = a.toNat := by
  rw [toNat_ofBytes]
  simp

theorem toNat_modImmFields (w : BitVec 32) :
    (modImmFields w).toNat =
      w.toNat / 67108864 % 2 * 2048 + w.toNat / 4096 % 8 * 256 + w.toNat % 256 := by
  have h1 : (w.extractLsb' 12 3).toNat < 2 ^ 3 := (w.extractLsb' 12 3).isLt
  have h0 : (w.extractLsb' 0 8).toNat < 2 ^ 8 := (w.extractLsb' 0 8).isLt
  unfold modImmFields
  rw [toNat_append, toNat_append, ← Nat.shiftLeft_add_eq_or_of_lt h1,
    ← Nat.shiftLeft_add_eq_or_of_lt h0]
  simp only [extractLsb'_toNat, Nat.shiftLeft_eq, Nat.shiftRight_eq_div_pow]
  omega

theorem and_not_eq_zero_iff {m : BitVec 32} : imm &&& ~~~m = 0#32 ↔ imm &&& m = imm := by
  constructor
  · intro h
    calc
      imm &&& m = imm &&& m ||| imm &&& ~~~m := by rw [h, or_zero]
      _ = imm := by rw [← and_or_distrib_left, or_not_self, and_allOnes]
  · intro h
    rw [← h, BitVec.and_assoc, BitVec.and_not_self]
    exact and_zero

theorem toNat_packMask (hj : j < 24) :
    (0xFF000000#32 >>> j).toNat = 255 * 2 ^ (24 - j) ∧
      (0x80000000#32 >>> j).toNat = 2 ^ (31 - j) := by
  interval_cases j <;> exact ⟨rfl, rfl⟩

theorem packsRotated_iff (hj : j < 24) :
    packsRotated imm j = true ↔ ∃ v, 128 ≤ v ∧ v < 256 ∧ imm.toNat = v * 2 ^ (24 - j) := by
  obtain ⟨hmask, hone⟩ := toNat_packMask hj
  have hpos := Nat.two_pow_pos (24 - j)
  unfold packsRotated
  rw [Bool.and_eq_true, decide_eq_true_eq, decide_eq_true_eq, and_not_eq_zero_iff,
    and_eq_iff_slice imm (31 - j) (31 - j) (n := 1) (by rw [hone]; simp) (by rw [hone]; simp),
    ← toNat_inj, toNat_and, hmask, show 255 = 2 ^ 8 - 1 from rfl, nat_and_mask,
    slice_eq, Nat.sub_self, show 31 - j = 24 - j + 7 by omega, Nat.pow_add,
    ← Nat.div_div_eq_div_mul]
  change imm.toNat / 2 ^ (24 - j) / 128 % 2 = 1 ∧
    imm.toNat / 2 ^ (24 - j) % 256 * 2 ^ (24 - j) = imm.toNat ↔ _
  generalize 2 ^ (24 - j) = p at hpos
  constructor
  · rintro ⟨hbit, heq⟩
    refine ⟨imm.toNat / p % 256, ?_, Nat.mod_lt _ (by decide), heq.symm⟩
    omega
  · rintro ⟨v, h1, h2, heq⟩
    rw [heq, Nat.mul_div_cancel _ hpos, Nat.mod_eq_of_lt h2]
    exact ⟨by omega, rfl⟩

theorem toNat_ofNat_shr {n k : ℕ} (hn : n < 32) : (BitVec.ofNat 32 n >>> k).toNat = n / 2 ^ k := by
  rw [toNat_ushiftRight, toNat_ofNat, Nat.mod_eq_of_lt (by omega),
    Nat.shiftRight_eq_div_pow]

theorem toNat_packRotated (hj : j < 24) :
    (packRotated imm j).toNat =
      (8 + j) / 16 * 67108864 + ((8 + j) / 2 % 8 * 4096 + ((8 + j) % 2 * 128 +
        imm.toNat / 2 ^ (24 - j) % 128)) := by
  have hi : (BitVec.ofNat 32 (8 + j)).toNat = 8 + j := by
    rw [toNat_ofNat]
    omega
  have h4 : (BitVec.ofNat 32 (8 + j) >>> 4).toNat = (8 + j) / 16 := toNat_ofNat_shr (by omega)
  have h3 : ((BitVec.ofNat 32 (8 + j) >>> 1) &&& 7#32).toNat = (8 + j) / 2 % 8 := by
    rw [toNat_shr_and _ 3 1 rfl, slice_eq, hi]
    rfl
  have h1 : (BitVec.ofNat 32 (8 + j) &&& 1#32).toNat = (8 + j) % 2 := by
    simp
  have h0 : ((imm >>> (24 - j)) &&& 0x7f#32).toNat = imm.toNat / 2 ^ (24 - j) % 128 := by
    have hlen : 30 - j - (24 - j) + 1 = 7 := by omega
    rw [toNat_shr_and _ (30 - j) (24 - j) (by rw [hlen]; rfl), slice_eq, hlen]
    rfl
  unfold packRotated
  -- the fields from the right, each above the ones already placed
  have hlow := @toNat_shl_or_of_lt 32 (BitVec.ofNat 32 (8 + j) &&& 1#32)
    ((imm >>> (24 - j)) &&& 0x7f#32) 7 (by omega) (by omega)
  have hmid := @toNat_shl_or_of_lt 32 ((BitVec.ofNat 32 (8 + j) >>> 1) &&& 7#32)
    ((BitVec.ofNat 32 (8 + j) &&& 1#32) <<< 7 ||| (imm >>> (24 - j)) &&& 0x7f#32) 12 (by omega)
    (by omega)
  rw [BitVec.or_assoc, BitVec.or_assoc, toNat_shl_or_of_lt, hmid, hlow, h1]
  all_goals omega

theorem modImmFields_packRotated (hj : j < 24) :
    (packRotated imm j).toNat ≠ 0 ∧
      (modImmFields (packRotated imm j)).toNat =
        (8 + j) * 128 + imm.toNat / 2 ^ (24 - j) % 128 := by
  rw [toNat_modImmFields, toNat_packRotated hj]
  interval_cases j <;> omega

theorem toNat_rotateRight_byte {b : BitVec 32} (hb : b.toNat < 256) {k : ℕ} (h8 : 8 ≤ k)
    (h32 : k < 32) : (b.rotateRight k).toNat = b.toNat * 2 ^ (32 - k) := by
  have hpow : 2 ^ 8 * 2 ^ (32 - k) ≤ 2 ^ 32 := by
    rw [← Nat.pow_add]
    exact Nat.pow_le_pow_right (by decide) (by omega)
  have hlt : b.toNat * 2 ^ (32 - k) < 2 ^ 32 :=
    ((Nat.mul_lt_mul_right (Nat.two_pow_pos _)).mpr hb).trans_le hpow
  have hzero : b.toNat / 2 ^ k = 0 :=
    Nat.div_eq_of_lt (hb.trans_le (Nat.pow_le_pow_right (by decide) h8 : 2 ^ 8 ≤ 2 ^ k))
  rw [rotateRight_def, Nat.mod_eq_of_lt h32, toNat_or, toNat_ushiftRight,
    Nat.shiftRight_eq_div_pow, hzero, Nat.zero_or, toNat_shiftLeft, Nat.shiftLeft_eq,
    Nat.mod_eq_of_lt hlt]

theorem and_top_eq_zero_iff : imm &&& 0xffffff00#32 = 0#32 ↔ imm.toNat < 256 := by
  rw [@and_eq_iff_slice 32 0xffffff00#32 0#32 imm 31 8 0 (by simp) rfl, slice_eq]
  omega

theorem eq_bytes (n : ℕ) : n = n / 16777216 * 16777216 +
    n / 65536 % 256 * 65536 + n / 256 % 256 * 256 + n % 256 := by
  omega

theorem packs_even_iff : (imm &&& 0xff00ff00#32 = 0#32 ∧ imm >>> 16 = imm &&& 0xff#32) ↔
    ∃ b < 256, imm.toNat = b * 65537 := by
  have hparts := @and_eq_iff_parts 32 0xff00ff00#32 0#32 imm 0xff000000#32 0xff00#32 rfl rfl
  rw [zero_and, zero_and,
    @and_eq_iff_slice 32 0xff000000#32 0#32 imm 31 24 0 (by simp) rfl,
    @and_eq_iff_slice 32 0xff00#32 0#32 imm 15 8 0 (by simp) rfl] at hparts
  rw [hparts, ← toNat_inj, toNat_ushiftRight,
    toNat_and_low imm 7 rfl, slice_eq, slice_eq, slice_eq, pow_zero, Nat.div_one]
  have hlt := imm.isLt
  generalize imm.toNat = n at hlt
  constructor
  · intro h
    exact ⟨n % 256, Nat.mod_lt n (by decide), by omega⟩
  · rintro ⟨b, hb, rfl⟩
    have h1 : b * 65537 / 16777216 = 0 := by omega
    have h2 : b * 65537 / 256 = b * 256 := by omega
    omega

theorem packs_odd_iff :
    (imm &&& 0x00ff00ff#32 = 0#32 ∧ (imm >>> 16) &&& 0xff00#32 = imm &&& 0xff00#32) ↔
      ∃ b < 256, imm.toNat = b * 16777472 := by
  have hparts := @and_eq_iff_parts 32 0x00ff00ff#32 0#32 imm 0x00ff0000#32 0xff#32 rfl rfl
  rw [zero_and, zero_and,
    @and_eq_iff_slice 32 0x00ff0000#32 0#32 imm 23 16 0 (by simp) rfl,
    @and_eq_iff_slice 32 0xff#32 0#32 imm 7 0 0 (by simp) rfl] at hparts
  rw [hparts, ← toNat_inj, toNat_and, toNat_and, toNat_ushiftRight,
    Nat.shiftRight_eq_div_pow, show (0xff00#32 : BitVec 32).toNat = (2 ^ 8 - 1) * 2 ^ 8 from rfl,
    nat_and_mask, nat_and_mask, slice_eq, slice_eq, pow_zero, Nat.div_one]
  have hlt := imm.isLt
  generalize imm.toNat = n at hlt
  change (n / 65536 % 256 = 0 ∧ n % 256 = 0) ∧
    n / 65536 / 256 % 256 * 256 = n / 256 % 256 * 256 ↔ _
  constructor
  · rintro ⟨⟨hc, ha⟩, heq⟩
    have hn := eq_bytes n
    have hd : n / 65536 / 256 % 256 = n / 16777216 := by
      rw [Nat.div_div_eq_div_mul]
      exact Nat.mod_eq_of_lt (by omega)
    rw [hd] at heq
    rw [hc, ha, Nat.mul_right_cancel (by decide) heq] at hn
    exact ⟨n / 256 % 256, Nat.mod_lt _ (by decide), hn.trans (by ring)⟩
  · rintro ⟨b, hb, rfl⟩
    have h1 : b * 16777472 / 65536 = b * 256 := by omega
    omega

theorem packs_all_iff :
    (imm &&& 0xffff#32 = (imm >>> 16) &&& 0xffff#32 ∧
      (imm >>> 8) &&& 0xff#32 = imm &&& 0xff#32) ↔ ∃ b < 256, imm.toNat = b * 16843009 := by
  rw [← toNat_inj, ← toNat_inj, toNat_and_low imm 15 rfl, toNat_and_low imm 7 rfl,
    toNat_shr_and imm 31 16 rfl, toNat_shr_and imm 15 8 rfl, slice_eq, slice_eq, slice_eq, slice_eq,
    pow_zero, Nat.div_one]
  have hlt := imm.isLt
  generalize imm.toNat = n at hlt
  change n % 65536 = n / 65536 % 65536 ∧ n / 256 % 256 = n % 256 ↔ _
  constructor
  · rintro ⟨hhalf, hbyte⟩
    have hlow : n % 65536 = n % 256 * 257 := by omega
    have hn : n = n / 65536 * 65536 + n % 65536 := by omega
    rw [Nat.mod_eq_of_lt (by omega : n / 65536 < 65536)] at hhalf
    rw [← hhalf, hlow] at hn
    exact ⟨n % 256, Nat.mod_lt _ (by decide), hn.trans (by ring)⟩
  · rintro ⟨b, hb, rfl⟩
    have h1 : b * 16843009 / 65536 = b * 257 := by omega
    have h2 : b * 16843009 / 256 = b * 65793 := by omega
    omega

end Numbers

section Correctness

variable {imm : BitVec 32} {f : BitVec 12}

theorem toNat_setWidth_byte (f : BitVec 12) : (f.setWidth 8).toNat = f.toNat % 256 :=
  toNat_setWidth 8 f

theorem toNat_or_0x80 (b : BitVec 8) : (b ||| 0x80#8).toNat = 128 + b.toNat % 128 := by
  have hlow : b ||| 0x80#8 = 1#8 <<< 7 ||| b &&& 0x7f#8 := by
    ext i hi
    interval_cases i <;> simp
  have hmod : (b &&& 0x7f#8).toNat = b.toNat % 128 := by
    rw [toNat_and_low b 6 rfl, slice_eq, pow_zero, Nat.div_one]
    rfl
  rw [hlow, toNat_shl_or_of_lt (by decide) (by omega), hmod]
  rfl

theorem thumbExpandImm_code {c b : ℕ} (hc : c < 4) (hb : b < 256) (h0 : c = 0 ∨ b ≠ 0)
    (hf : f.toNat = c * 256 + b) {m : ℕ}
    (hm : m = if c = 0 then 1 else if c = 1 then 65537 else if c = 2 then 16777472 else 16843009)
    (hn : imm.toNat = b * m) : thumbExpandImm f = some imm := by
  have h8 : (f.setWidth 8).toNat = b := by
    rw [toNat_setWidth_byte]
    omega
  have hne : c ≠ 0 → ¬f.setWidth 8 = 0#8 := by
    intro hc0 h
    rw [h] at h8
    exact (h0.resolve_left hc0) h8.symm
  have htop : slice f 11 10 = 0 := by
    rw [slice_eq]
    omega
  have hcode : slice f 9 8 = c := by
    rw [slice_eq]
    omega
  unfold thumbExpandImm
  rw [if_pos htop, hcode]
  have hval : ∀ w : BitVec 32, w.toNat = imm.toNat → some w = some imm := fun w h =>
    congrArg some (eq_of_toNat_eq h)
  obtain rfl | rfl | rfl | rfl : c = 0 ∨ c = 1 ∨ c = 2 ∨ c = 3 := by omega
  · apply hval
    rw [toNat_ofBytes, h8, hn, hm]
    simp
  · rw [if_neg (hne (by decide))]
    apply hval
    rw [toNat_ofBytes, hn, hm]
    simp
    omega
  · rw [if_neg (hne (by decide)), if_neg (by decide)]
    apply hval
    rw [toNat_ofBytes, hn, hm]
    simp
    omega
  · rw [if_neg (hne (by decide)), if_neg (by decide)]
    apply hval
    rw [toNat_ofBytes, hn, hm]
    simp
    omega

theorem thumbExpandImm_packedCode {p : BitVec 32} {c b m : ℕ} (hc : c < 4) (hb : b < 256)
    (h0 : c = 0 ∨ b ≠ 0) (hp : p.toNat = c * 4096 + b)
    (hm : m = if c = 0 then 1 else if c = 1 then 65537 else if c = 2 then 16777472 else 16843009)
    (hn : imm.toNat = b * m) : thumbExpandImm (modImmFields p) = some imm := by
  refine thumbExpandImm_code hc hb h0 ?_ hm hn
  rw [toNat_modImmFields]
  omega

theorem thumbExpandImm_rotation {k c : ℕ} (hk : 8 ≤ k) (hk32 : k < 32) (hc : c < 128)
    (hf : f.toNat = k * 128 + c) (hn : imm.toNat = (128 + c) * 2 ^ (32 - k)) :
    thumbExpandImm f = some imm := by
  have hb : (ofBytes 0#8 0#8 0#8 (f.setWidth 8 ||| 0x80#8)).toNat = 128 + c := by
    rw [toNat_ofBytes, toNat_or_0x80, toNat_setWidth_byte]
    simp only [toNat_ofNat]
    omega
  have htop : ¬slice f 11 10 = 0 := by
    rw [slice_eq]
    omega
  have hrot : slice f 11 7 = k := by
    rw [slice_eq]
    omega
  unfold thumbExpandImm
  rw [if_neg htop, hrot]
  apply congrArg some
  apply eq_of_toNat_eq
  rw [toNat_rotateRight_byte (by omega) hk hk32, hb, hn]

/-- The constants with an encoding, by the number that stands in the word. -/
def Expressible (n : ℕ) : Prop :=
  n < 256 ∨ (∃ b < 256, n = b * 65537) ∨ (∃ b < 256, n = b * 16777472) ∨
    (∃ b < 256, n = b * 16843009) ∨
    ∃ j < 24, ∃ v, 128 ≤ v ∧ v < 256 ∧ n = v * 2 ^ (24 - j)

theorem expressible_of_thumbExpandImm (h : thumbExpandImm f = some imm) :
    Expressible imm.toNat := by
  have h8 := toNat_setWidth_byte f
  have hb : f.toNat % 256 < 256 := Nat.mod_lt _ (by decide)
  unfold thumbExpandImm at h
  dsimp only at h
  split at h
  · split at h
    · cases h
      left
      rw [toNat_ofBytes_low]
      exact hb
    split at h
    · cases h
    split at h
    · cases h
      right; left
      refine ⟨f.toNat % 256, hb, ?_⟩
      rw [toNat_ofBytes]
      simp
      ring
    split at h
    · cases h
      right; right; left
      refine ⟨f.toNat % 256, hb, ?_⟩
      rw [toNat_ofBytes]
      simp
      ring
    · cases h
      right; right; right; left
      refine ⟨f.toNat % 256, hb, ?_⟩
      rw [toNat_ofBytes, h8]
      ring
  · next htop =>
    cases h
    right; right; right; right
    have hv := toNat_or_0x80 (f.setWidth 8)
    have hrot : slice f 11 7 = f.toNat / 128 := by
      rw [slice_eq]
      omega
    rw [slice_eq] at htop
    rw [hrot, toNat_rotateRight_byte (by rw [toNat_ofBytes_low]; omega) (by omega) (by omega),
      toNat_ofBytes_low, hv]
    refine ⟨f.toNat / 128 - 8, by omega, 128 + (f.setWidth 8).toNat % 128, by omega, by omega, ?_⟩
    rw [show 24 - (f.toNat / 128 - 8) = 32 - f.toNat / 128 by omega]

/-- A packing reads back as its constant, and every constant with an encoding but 0 has one. -/
theorem packConst_spec (imm : BitVec 32) :
    (packConst imm ≠ 0#32 → thumbExpandImm (modImmFields (packConst imm)) = some imm) ∧
      (Expressible imm.toNat → imm ≠ 0#32 → packConst imm ≠ 0#32) := by
  have hne : ∀ w : BitVec 32, w.toNat ≠ 0 → w ≠ 0#32 := by
    rintro w h rfl
    exact h rfl
  have hlow : (imm &&& 0xff#32).toNat = imm.toNat % 256 := by
    rw [toNat_and_low imm 7 rfl, slice_eq, pow_zero, Nat.div_one]
    rfl
  have hmid : ((imm >>> 8) &&& 0xff#32).toNat = imm.toNat / 256 % 256 := by
    rw [toNat_shr_and imm 15 8 rfl, slice_eq]
    rfl
  unfold packConst
  by_cases h1 : imm &&& 0xffffff00#32 = 0#32
  · rw [if_pos h1]
    rw [and_top_eq_zero_iff] at h1
    exact ⟨fun _ => thumbExpandImm_packedCode (by decide) h1 (Or.inl rfl) (by omega) rfl
      (Nat.mul_one _).symm, fun _ h => h⟩
  rw [if_neg h1]
  rw [and_top_eq_zero_iff] at h1
  by_cases h2 : imm &&& 0xff00ff00#32 = 0#32 ∧ imm >>> 16 = imm &&& 0xff#32
  · rw [if_pos h2]
    obtain ⟨b, hb, hn⟩ := packs_even_iff.mp h2
    have hp : (1#32 <<< 12 ||| imm &&& 0xff#32).toNat = 1 * 4096 + b := by
      rw [toNat_shl_or_of_lt (by decide) (by omega), hlow]
      simp
      omega
    exact ⟨fun _ => thumbExpandImm_packedCode (by decide) hb (Or.inr (by omega)) hp rfl hn,
      fun _ _ => hne _ (by omega)⟩
  rw [if_neg h2]
  by_cases h3 : imm &&& 0x00ff00ff#32 = 0#32 ∧ (imm >>> 16) &&& 0xff00#32 = imm &&& 0xff00#32
  · rw [if_pos h3]
    obtain ⟨b, hb, hn⟩ := packs_odd_iff.mp h3
    have hp : (2#32 <<< 12 ||| (imm >>> 8) &&& 0xff#32).toNat = 2 * 4096 + b := by
      rw [toNat_shl_or_of_lt (by decide) (by omega), hmid, hn]
      simp
      omega
    exact ⟨fun _ => thumbExpandImm_packedCode (by decide) hb (Or.inr (by omega)) hp rfl hn,
      fun _ _ => hne _ (by omega)⟩
  rw [if_neg h3]
  by_cases h4 : imm &&& 0xffff#32 = (imm >>> 16) &&& 0xffff#32 ∧
      (imm >>> 8) &&& 0xff#32 = imm &&& 0xff#32
  · rw [if_pos h4]
    obtain ⟨b, hb, hn⟩ := packs_all_iff.mp h4
    have hp : (3#32 <<< 12 ||| imm &&& 0xff#32).toNat = 3 * 4096 + b := by
      rw [toNat_shl_or_of_lt (by decide) (by omega), hlow]
      simp
      omega
    exact ⟨fun _ => thumbExpandImm_packedCode (by decide) hb (Or.inr (by omega)) hp rfl hn,
      fun _ _ => hne _ (by omega)⟩
  rw [if_neg h4]
  -- what is left are the rotations of a byte with its top bit set
  cases hfind : (List.range 24).find? (packsRotated imm) with
  | none =>
    refine ⟨fun h => absurd rfl h, ?_⟩
    rintro (h | h | h | h | ⟨j, hj, h⟩) _
    · exact absurd h h1
    · exact absurd (packs_even_iff.mpr h) h2
    · exact absurd (packs_odd_iff.mpr h) h3
    · exact absurd (packs_all_iff.mpr h) h4
    · exact absurd ((packsRotated_iff hj).mpr h) (List.find?_eq_none.mp hfind j (List.mem_range.mpr hj))
  | some j =>
    have hj : j < 24 := List.mem_range.mp (List.mem_of_find?_eq_some hfind)
    obtain ⟨v, hv1, hv2, hn⟩ := (packsRotated_iff hj).mp (List.find?_some hfind)
    have hdiv : imm.toNat / 2 ^ (24 - j) = v := by
      rw [hn, Nat.mul_div_cancel _ (Nat.two_pow_pos _)]
    obtain ⟨hp, hfields⟩ := @modImmFields_packRotated imm j hj
    rw [hdiv] at hfields
    refine ⟨fun _ => ?_, fun _ _ => hne _ hp⟩
    refine thumbExpandImm_rotation (by omega) (by omega) (Nat.mod_lt v (by decide)) hfields ?_
    rw [hn, show 32 - (8 + j) = 24 - j by omega, show 128 + v % 128 = v by omega]

/-- The result of a call of `th_pack_const` after earlier ones, from the empty cache on. -/
def thPackConstAfter (size : ℕ) (earlier : List (BitVec 32)) (imm : BitVec 32) : BitVec 32 :=
  (thPackConst size (memoRun (thPackConstIdx size) packConst thPackConstCache earlier) imm).1

/-- Whatever was asked before, a constant is packed exactly when it is not 0 and has an encoding,
and the encoding expands to it. -/
theorem thPackConst_correct (size : ℕ) (earlier : List (BitVec 32)) (imm : BitVec 32) :
    (thPackConstAfter size earlier imm ≠ 0#32 ↔
        imm ≠ 0#32 ∧ ∃ f, thumbExpandImm f = some imm) ∧
      (thPackConstAfter size earlier imm ≠ 0#32 →
        thumbExpandImm (modImmFields (thPackConstAfter size earlier imm)) = some imm) := by
  have hsound : MemoCache.Sound packConst
      (memoRun (thPackConstIdx size) packConst thPackConstCache earlier) :=
    memoRun_sound (MemoCache.sound_of_invalid fun _ => rfl) earlier
  have hpacked : thPackConstAfter size earlier imm = packConst imm := memoCall_fst hsound imm
  obtain ⟨hread, hfound⟩ := packConst_spec imm
  rw [hpacked]
  refine ⟨⟨fun h => ⟨?_, _, hread h⟩, fun ⟨h0, f, hf⟩ => ?_⟩, hread⟩
  · rintro rfl
    exact h rfl
  · exact hfound (expressible_of_thumbExpandImm hf) h0

end Correctness

end Tinycc
