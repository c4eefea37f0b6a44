import Tinycc.Runtime.Divmod

namespace Tinycc
open Lib Option
open BitVec hiding not_not not_or neg_neg and_self

variable (lo hi : BitVec 32)

def pairValue : ℕ := hi.toNat * 4294967296 + lo.toNat

theorem toNat_shr {w : ℕ} (x : BitVec w) (n : ℕ) : (x >>> n).toNat = x.toNat / 2 ^ n := by
  rw [toNat_ushiftRight, Nat.shiftRight_eq_div_pow]

theorem pairValue_lt : pairValue lo hi < 18446744073709551616 := by
  unfold pairValue
  omega

theorem pairValue_lt_iff (al ah bl bh : BitVec 32) :
    pairValue al ah < pairValue bl bh ↔ ah < bh ∨ ah = bh ∧ al < bl := by
  simp only [pairValue, lt_def, ← toNat_inj]
  omega

theorem toNat_high (v : BitVec 32) : (v >>> 16).toNat = v.toNat / 65536 := toNat_shr v 16

theorem toNat_low (v : BitVec 32) : (v &&& 0xFFFF).toNat = v.toNat % 65536 := by
  exact Nat.and_two_pow_sub_one_eq_mod v.toNat 16

theorem toNat_shiftLeft_or {x y : BitVec 32} {k : ℕ} (hx : x.toNat * 2 ^ k < 2 ^ 32)
    (hy : y.toNat < 2 ^ k) : ((x <<< k) ||| y).toNat = x.toNat * 2 ^ k + y.toNat := by
  rw [toNat_or, toNat_shiftLeft, Nat.shiftLeft_eq, Nat.mod_eq_of_lt hx,
    ← Nat.shiftLeft_eq, ← Nat.shiftLeft_add_eq_or_of_lt hy]

theorem and_topMask_eq_zero_iff {w : ℕ} (v : BitVec w) (m : ℕ) :
    v &&& (BitVec.allOnes w <<< m) = 0#w ↔ v.toNat < 2 ^ m := by
  have hkey : v &&& (BitVec.allOnes w <<< m) = (v >>> m) <<< m := by
    ext i hi
    by_cases h : i < m
    · simp [h]
    · simp [h, show m + (i - m) = i by omega, getLsbD_eq_getElem hi]
  have hle : v.toNat / 2 ^ m * 2 ^ m ≤ v.toNat := Nat.div_mul_le_self _ _
  rw [hkey, ← toNat_inj, toNat_shiftLeft, toNat_shr, Nat.shiftLeft_eq, Nat.mod_eq_of_lt (by omega),
    toNat_zero, Nat.mul_eq_zero, Nat.div_eq_zero_iff]
  have hpos := Nat.two_pow_pos m
  omega

/-- The word is the given one shifted, and its top bits are clear for less than `2 ^ j` places. -/
structure Shifted (v : BitVec 32) (j : ℕ) (st : BitVec 32 × ℕ) : Prop where
  value : st.1.toNat = v.toNat * 2 ^ st.2
  top : 2 ^ (32 - j) ≤ st.1.toNat
  shift : st.2 + j ≤ 32

theorem clzStep_shifted {v mask : BitVec 32} {k : ℕ} {st : BitVec 32 × ℕ} (h : Shifted v (2 * k) st)
    (hk : 0 < k) (hmask : mask = BitVec.allOnes 32 <<< (32 - k)) :
    Shifted v k (clzStep mask k st) := by
  have hk32 : 2 * k ≤ 32 := by have := h.shift; omega
  unfold clzStep
  rw [hmask]
  split
  · next hz =>
    have hlt := (and_topMask_eq_zero_iff _ _).mp hz
    have hpow : 2 ^ (32 - k) * 2 ^ k = 2 ^ 32 := by rw [← Nat.pow_add]; congr 1; omega
    have hshl : (st.1 <<< k).toNat = st.1.toNat * 2 ^ k := by
      rw [toNat_shiftLeft, Nat.shiftLeft_eq, Nat.mod_eq_of_lt]
      rw [← hpow]
      exact Nat.mul_lt_mul_of_pos_right hlt (Nat.two_pow_pos k)
    refine ⟨?_, ?_, ?_⟩
    · rw [hshl, h.value, Nat.mul_assoc, ← Nat.pow_add]
    · rw [hshl]
      calc
        2 ^ (32 - k) = 2 ^ (32 - 2 * k) * 2 ^ k := by rw [← Nat.pow_add]; congr 1; omega
        _ ≤ st.1.toNat * 2 ^ k := Nat.mul_le_mul_right _ h.top
    · have := h.shift
      omega
  · next hz =>
    have hge : 2 ^ (32 - k) ≤ st.1.toNat := by
      by_contra hlt
      exact hz ((and_topMask_eq_zero_iff _ _).mpr (by omega))
    exact ⟨h.value, hge, by have := h.shift; omega⟩

theorem clzNormalise_spec {v : BitVec 32} (hv : v ≠ 0) :
    (clzNormalise v).1.toNat = v.toNat * 2 ^ (clzNormalise v).2 ∧
      2147483648 ≤ (clzNormalise v).1.toNat ∧ (clzNormalise v).2 ≤ 31 := by
  have hpos : 1 ≤ v.toNat := by
    rw [Nat.one_le_iff_ne_zero]
    intro h
    exact hv (eq_of_toNat_eq h)
  have h₀ : Shifted v 32 (v, 0) := ⟨by simp, by simpa using hpos, by simp⟩
  have h₁ := @clzStep_shifted v 0xFFFF0000 16 _ h₀ (by decide) (by decide)
  have h₂ := @clzStep_shifted v 0xFF000000 8 _ h₁ (by decide) (by decide)
  have h₃ := @clzStep_shifted v 0xF0000000 4 _ h₂ (by decide) (by decide)
  have h₄ := @clzStep_shifted v 0xC0000000 2 _ h₃ (by decide) (by decide)
  have h₅ := @clzStep_shifted v 0x80000000 1 _ h₄ (by decide) (by decide)
  refine ⟨h₅.value, h₅.top, ?_⟩
  have := h₅.shift
  unfold clzNormalise
  omega

theorem correctDigit_spec {vn1 vn0 un : BitVec 32} {u : ℕ} (hnorm : 32768 ≤ vn1.toNat)
    (hvn1 : vn1.toNat < 65536) (hvn0 : vn0.toNat < 65536) (hun : un.toNat < 65536)
    (hu : u < vn1.toNat * 65536 + vn0.toNat) :
    ∀ (n : ℕ) (q rhat : BitVec 32), DigitInv 65536 vn1.toNat vn0.toNat u un.toNat q.toNat rhat.toNat →
      q.toNat ≤ 65537 → rhat.toNat < 65536 → 65536 ≤ rhat.toNat + n * 32768 →
      ∃ q', correctDigit vn1 vn0 un n q rhat = some q' ∧
        q'.toNat = (u * 65536 + un.toNat) / (vn1.toNat * 65536 + vn0.toNat) := by
  intro n
  induction n with
  | zero => intro q rhat _ _ _ _; omega
  | succ n ih =>
    intro q rhat I hq hr hn
    have hor : ((rhat <<< 16) ||| un).toNat = rhat.toNat * 65536 + un.toNat :=
      toNat_shiftLeft_or (by omega) (by omega)
    have hmul : q.toNat < 65536 → (q * vn0).toNat = q.toNat * vn0.toNat := by
      intro h
      rw [toNat_mul, Nat.mod_eq_of_lt]
      calc
        q.toNat * vn0.toNat ≤ 65535 * 65535 := Nat.mul_le_mul (by omega) (by omega)
        _ < 2 ^ 32 := by decide
    unfold correctDigit
    split
    · next hcond =>
      -- the test fails, so the digit is too big and goes down by one
      have hfail : 65536 ≤ q.toNat ∨ rhat.toNat * 65536 + un.toNat < q.toNat * vn0.toNat := by
        by_cases hbig : 65536 ≤ q.toNat
        · exact .inl hbig
        · simp only [lt_def, hor, hmul (by omega)] at hcond
          exact .inr (hcond.resolve_left (show ¬ 65535 < q.toNat by omega))
      have I' := I.pred hu hun hfail
      have hpos : 0 < q.toNat := by
        rcases hfail with h | h
        · omega
        · exact Nat.pos_of_mul_pos_right (Nat.zero_lt_of_lt h)
      have hq' : (q - 1).toNat = q.toNat - 1 := by
        simp
        omega
      have hr' : (rhat + vn1).toNat = rhat.toNat + vn1.toNat := by
        rw [toNat_add, Nat.mod_eq_of_lt (by omega)]
      rw [← hq', ← hr'] at I'
      dsimp only
      split
      · next hbreak =>
        have hbreak' : 65535 < (rhat + vn1).toNat := hbreak
        -- the partial remainder is a full digit now: no digit can fail the test
        refine ⟨q - 1, rfl, I'.eq_of_le (by omega) ?_⟩
        calc
          (q - 1).toNat * vn0.toNat ≤ 65536 * 65535 := Nat.mul_le_mul (by omega) (by omega)
          _ ≤ (rhat + vn1).toNat * 65536 + un.toNat := by omega
      · next hgo =>
        have hgo' : ¬ 65535 < (rhat + vn1).toNat := hgo
        exact ih _ _ I' (by omega) (by omega) (by omega)
    · next hcond =>
      rw [not_or] at hcond
      have hsmall : q.toNat < 65536 := by
        have : ¬ 65535 < q.toNat := hcond.1
        omega
      have hle : ¬ rhat.toNat * 65536 + un.toNat < q.toNat * vn0.toNat := by
        have := hcond.2
        rwa [lt_def, hor, hmul hsmall] at this
      exact ⟨q, rfl, I.eq_of_le (by omega) (by omega)⟩

theorem toNat_sub_div_mul (u d : BitVec 32) : (u - u / d * d).toNat = u.toNat % d.toNat := by
  have hle := Nat.div_mul_le_self u.toNat d.toNat
  have hmul : (u / d * d).toNat = u.toNat / d.toNat * d.toNat := by
    rw [toNat_mul, toNat_udiv, Nat.mod_eq_of_lt (by have := u.isLt; omega)]
  rw [toNat_sub_of_le (by rw [le_def, hmul]; exact hle)]
  have := Nat.div_add_mod' u.toNat d.toNat
  omega

theorem divDigit_spec {v u un : BitVec 32} (hv : 2147483648 ≤ v.toNat) (hu : u.toNat < v.toNat)
    (hun : un.toNat < 65536) :
    ∃ q, divDigit v u un = some q ∧ q.toNat = (u.toNat * 65536 + un.toNat) / v.toNat ∧
      q.toNat < 65536 := by
  have hsplit : v.toNat / 65536 * 65536 + v.toNat % 65536 = v.toNat := Nat.div_add_mod' _ _
  have hdiv : (u / (v >>> 16)).toNat = u.toNat / (v.toNat / 65536) := by
    rw [toNat_udiv, toNat_high]
  have hrem : (u - u / (v >>> 16) * (v >>> 16)).toNat = u.toNat % (v.toNat / 65536) := by
    rw [toNat_sub_div_mul, toNat_high]
  have hinit : DigitInv 65536 (v.toNat / 65536) (v.toNat % 65536) u.toNat un.toNat _ _ :=
    digitInv_init (by omega) hun
  have hmod : u.toNat % (v.toNat / 65536) < v.toNat / 65536 := Nat.mod_lt _ (by omega)
  have hest := @div_le_add_one 65536 (v.toNat / 65536) (v.toNat % 65536) u.toNat (by omega)
    (by omega) (by omega)
  obtain ⟨q, hq, hval⟩ := @correctDigit_spec (v >>> 16) (v &&& 0xFFFF) un u.toNat
    (by rw [toNat_high]; omega) (by rw [toNat_high]; omega) (by rw [toNat_low]; omega) hun
    (by rw [toNat_high, toNat_low]; omega) 2 (u / (v >>> 16)) (u - u / (v >>> 16) * (v >>> 16))
    (by rw [hrem, hdiv, toNat_high, toNat_low]; exact hinit) (by rw [hdiv]; exact hest)
    (by rw [hrem]; omega) (by omega)
  rw [toNat_high, toNat_low, hsplit] at hval
  refine ⟨q, hq, hval, ?_⟩
  rw [hval, ← hsplit]
  exact digit_lt (by omega) hun

theorem toNat_digit_rem {v u un q : BitVec 32} (hv : 0 < v.toNat)
    (hq : q.toNat = (u.toNat * 65536 + un.toNat) / v.toNat) :
    ((u <<< 16) + un - q * v).toNat = (u.toNat * 65536 + un.toNat) % v.toNat := by
  have hmod := Nat.mod_lt (u.toNat * 65536 + un.toNat) hv
  have hdiv := Nat.div_add_mod' (u.toNat * 65536 + un.toNat) v.toNat
  rw [toNat_sub, toNat_add, toNat_mul, toNat_shiftLeft, hq]
  omega

/-- The two-digit step divides, when the divisor is normalised and above the high word. -/
theorem divTwoDigits_spec {v un32 : BitVec 32} (un10 : BitVec 32) (hv : 2147483648 ≤ v.toNat)
    (hu : un32.toNat < v.toNat) :
    ∃ q1 q0 rem, divTwoDigits v un32 un10 = some (q1, q0, rem) ∧
      ((q1 <<< 16) ||| q0).toNat = pairValue un10 un32 / v.toNat ∧
      rem.toNat = pairValue un10 un32 % v.toNat ∧ q0.toNat < 65536 := by
  have hun1 : (un10 >>> 16).toNat < 65536 := by rw [toNat_high]; omega
  have hun0 : (un10 &&& 0xFFFF).toNat < 65536 := by rw [toNat_low]; omega
  obtain ⟨q1, h1, hq1, hq1lt⟩ := divDigit_spec hv hu hun1
  have hrem1 := toNat_digit_rem (by omega) hq1
  have hlt1 : ((un32 <<< 16) + (un10 >>> 16) - q1 * v).toNat < v.toNat := by
    rw [hrem1]
    exact Nat.mod_lt _ (by omega)
  obtain ⟨q0, h0, hq0, hq0lt⟩ := divDigit_spec hv hlt1 hun0
  have hrem0 := toNat_digit_rem (by omega) hq0
  have hsplit : un32.toNat * 65536 * 65536 + (un10 >>> 16).toNat * 65536 +
      (un10 &&& 0xFFFF).toNat = pairValue un10 un32 := by
    rw [toNat_high, toNat_low, pairValue]
    omega
  obtain ⟨hdiv, hmod⟩ := @two_digits 65536 un32.toNat v.toNat (un10 &&& 0xFFFF).toNat
    (un10 >>> 16).toNat (by omega)
  rw [hsplit] at hdiv hmod
  refine ⟨q1, q0, (((un32 <<< 16) + (un10 >>> 16) - q1 * v) <<< 16) + (un10 &&& 0xFFFF) - q0 * v,
    ?_, ?_, ?_, hq0lt⟩
  · simp only [divTwoDigits, h1, bind_eq_bind, bind_some, h0]
  · rw [toNat_shiftLeft_or (by omega) (by omega), hq0, hrem1, hq1]
    exact hdiv
  · rw [hrem0, hrem1]
    exact hmod

/-- What a helper is to store: quotient and remainder of the numbers. -/
def IsDivmod (n d : ℕ) (r : DivmodResult) : Prop :=
  pairValue r.qLo r.qHi = n / d ∧ pairValue r.rLo r.rHi = n % d

theorem toNat_shift_in {x y : BitVec 32} {s : ℕ} (hs : s ≤ 31) (hx : x.toNat * 2 ^ s < 2 ^ 32) :
    (if s ≠ 0 then (x <<< s) ||| (y >>> (32 - s)) else x).toNat =
      x.toNat * 2 ^ s + y.toNat / 2 ^ (32 - s) := by
  have hy := y.isLt
  split
  · have hshr : (y >>> (32 - s)).toNat = y.toNat / 2 ^ (32 - s) := by
      rw [toNat_shr]
    rw [toNat_shiftLeft_or hx, hshr]
    rw [hshr, Nat.div_lt_iff_lt_mul (Nat.two_pow_pos _), ← Nat.pow_add]
    rwa [show s + (32 - s) = 32 by omega]
  · next h =>
    obtain rfl : s = 0 := by omega
    simp [Nat.div_eq_of_lt hy]

theorem pairValue_shift {lo hi hi' : BitVec 32} {s : ℕ} (hs : s ≤ 31)
    (hhi : hi'.toNat = hi.toNat * 2 ^ s + lo.toNat / 2 ^ (32 - s)) :
    pairValue (lo <<< s) hi' = pairValue lo hi * 2 ^ s := by
  have hpow : 2 ^ (32 - s) * 2 ^ s = 4294967296 := by
    rw [← Nat.pow_add, show 32 - s + s = 32 by omega]
  have hmod : lo.toNat * 2 ^ s % (2 ^ (32 - s) * 2 ^ s) = lo.toNat % 2 ^ (32 - s) * 2 ^ s :=
    Nat.mul_mod_mul_right _ _ _
  have hsplit := Nat.div_add_mod' lo.toNat (2 ^ (32 - s))
  rw [pairValue, pairValue, hhi, toNat_shiftLeft, Nat.shiftLeft_eq,
    show (2 : ℕ) ^ 32 = 2 ^ (32 - s) * 2 ^ s by rw [hpow]; norm_num, hmod]
  calc
    (hi.toNat * 2 ^ s + lo.toNat / 2 ^ (32 - s)) * 4294967296 + lo.toNat % 2 ^ (32 - s) * 2 ^ s
      = hi.toNat * 4294967296 * 2 ^ s + (lo.toNat / 2 ^ (32 - s) * 2 ^ (32 - s) +
          lo.toNat % 2 ^ (32 - s)) * 2 ^ s := by rw [← hpow]; ring
    _ = _ := by rw [hsplit]; ring

theorem uldivmodByWord_spec (nLo nHi : BitVec 32) {dLo : BitVec 32} (hd : dLo ≠ 0) :
    ∃ r, uldivmodByWord nLo nHi dLo = some r ∧ IsDivmod (pairValue nLo nHi) dLo.toNat r := by
  obtain ⟨hv, htop, hs⟩ := clzNormalise_spec hd
  obtain ⟨v, s, hvs⟩ : ∃ v s, clzNormalise dLo = (v, s) := ⟨_, _, rfl⟩
  rw [hvs] at hv htop hs
  have hpos : 0 < dLo.toNat := Nat.pos_of_ne_zero fun h => hd (eq_of_toNat_eq h)
  have hspos := Nat.two_pow_pos s
  -- the peeled high part
  obtain ⟨qh, hqh⟩ : ∃ qh, qh = if dLo ≤ nHi then nHi / dLo else 0 := ⟨_, rfl⟩
  obtain ⟨k, hk⟩ : ∃ k, k = if dLo ≤ nHi then nHi - qh * dLo else nHi := ⟨_, rfl⟩
  have hqhval : qh.toNat = nHi.toNat / dLo.toNat := by
    rw [hqh]
    split
    · rw [toNat_udiv]
    · next h => exact (Nat.div_eq_of_lt (by simpa [le_def] using h)).symm
  have hkval : k.toNat = nHi.toNat % dLo.toNat := by
    have hdiv := Nat.div_add_mod' nHi.toNat dLo.toNat
    rw [hk]
    split
    · have hmul : (qh * dLo).toNat = nHi.toNat / dLo.toNat * dLo.toNat := by
        rw [toNat_mul, hqhval, Nat.mod_eq_of_lt (by have := nHi.isLt; omega)]
      rw [toNat_sub_of_le (by rw [le_def]; omega)]
      omega
    · next h => exact (Nat.mod_eq_of_lt (by simpa [le_def] using h)).symm
  have hklt : k.toNat < dLo.toNat := by rw [hkval]; exact Nat.mod_lt _ hpos
  -- the shifted dividend is below the shifted divisor
  obtain ⟨un32, hun32⟩ : ∃ x, x = if s ≠ 0 then (k <<< s) ||| (nLo >>> (32 - s)) else k := ⟨_, rfl⟩
  have hkv : (k.toNat + 1) * 2 ^ s ≤ v.toNat := by
    rw [hv]
    exact Nat.mul_le_mul_right _ hklt
  rw [Nat.succ_mul] at hkv
  have hval : un32.toNat = k.toNat * 2 ^ s + nLo.toNat / 2 ^ (32 - s) := by
    rw [hun32]
    exact toNat_shift_in hs (by have := v.isLt; omega)
  have hlow : nLo.toNat / 2 ^ (32 - s) < 2 ^ s := by
    rw [Nat.div_lt_iff_lt_mul (Nat.two_pow_pos _), ← Nat.pow_add, show s + (32 - s) = 32 by omega]
    exact nLo.isLt
  obtain ⟨q1, q0, rem, hstep, hq, hrem, -⟩ := @divTwoDigits_spec v un32 (nLo <<< s) htop (by omega)
  have hpair := pairValue_shift hs hval
  rw [hpair, hv, Nat.mul_div_mul_right _ _ hspos] at hq
  rw [hpair, hv, Nat.mul_mod_mul_right] at hrem
  refine ⟨⟨(q1 <<< 16) ||| q0, qh, rem >>> s, 0⟩, ?_, ?_, ?_⟩
  · simp only [uldivmodByWord, hvs, ← hqh, ← hk, ← hun32, hstep, bind_eq_bind,
      bind_some]
  all_goals
    obtain ⟨hdiv, hmod⟩ := @two_digits 4294967296 0 dLo.toNat nLo.toNat nHi.toNat hpos
    simp only [Nat.zero_mul, Nat.zero_add] at hdiv hmod
    rw [← hkval] at hdiv hmod
  · show qh.toNat * 4294967296 + ((q1 <<< 16) ||| q0).toNat = _
    rw [hq, hqhval]
    exact hdiv
  · show (0#32).toNat * 4294967296 + (rem >>> s).toNat = _
    rw [toNat_shr, hrem]
    simpa [pairValue] using hmod

theorem mulHalves_spec (a b : BitVec 32) :
    pairValue (mulHalves a b).1 (mulHalves a b).2 = a.toNat * b.toNat := by
  obtain ⟨al, hal⟩ : ∃ x, x = a &&& (0xFFFF : BitVec 32) := ⟨_, rfl⟩
  obtain ⟨ah, hah⟩ : ∃ x, x = a >>> 16 := ⟨_, rfl⟩
  obtain ⟨bl, hbl⟩ : ∃ x, x = b &&& (0xFFFF : BitVec 32) := ⟨_, rfl⟩
  obtain ⟨bh, hbh⟩ : ∃ x, x = b >>> 16 := ⟨_, rfl⟩
  obtain ⟨mid, hmid⟩ : ∃ m, m = ((al * bl) >>> 16) + ((al * bh) &&& (0xFFFF : BitVec 32)) +
    ((ah * bl) &&& (0xFFFF : BitVec 32)) := ⟨_, rfl⟩
  have hdef : mulHalves a b = (((al * bl) &&& (0xFFFF : BitVec 32)) ||| (mid <<< 16),
      ah * bh + ((al * bh) >>> 16) + ((ah * bl) >>> 16) + (mid >>> 16)) := by
    rw [hmid, hal, hah, hbl, hbh]
    rfl
  have hal' : al.toNat = a.toNat % 65536 := by rw [hal]; exact toNat_low a
  have hah' : ah.toNat = a.toNat / 65536 := by rw [hah]; exact toNat_high a
  have hbl' : bl.toNat = b.toNat % 65536 := by rw [hbl]; exact toNat_low b
  have hbh' : bh.toNat = b.toNat / 65536 := by rw [hbh]; exact toNat_high b
  -- the four products as numbers
  have hprod : ∀ x y : BitVec 32, x.toNat < 65536 → y.toNat < 65536 →
      (x * y).toNat = x.toNat * y.toNat ∧ x.toNat * y.toNat ≤ 65535 * 65535 := by
    intro x y hx hy
    have hle : x.toNat * y.toNat ≤ 65535 * 65535 := Nat.mul_le_mul (by omega) (by omega)
    exact ⟨by rw [toNat_mul, Nat.mod_eq_of_lt (by omega)], hle⟩
  obtain ⟨hll, bll⟩ := hprod al bl (by omega) (by omega)
  obtain ⟨hlh, blh⟩ := hprod al bh (by omega) (by omega)
  obtain ⟨hhl, bhl⟩ := hprod ah bl (by omega) (by omega)
  obtain ⟨hhh, bhh⟩ := hprod ah bh (by omega) (by omega)
  have hab : a.toNat * b.toNat = ah.toNat * bh.toNat * 4294967296 +
      (al.toNat * bh.toNat + ah.toNat * bl.toNat) * 65536 + al.toNat * bl.toNat := by
    rw [show a.toNat = ah.toNat * 65536 + al.toNat by omega,
      show b.toNat = bh.toNat * 65536 + bl.toNat by omega]
    ring
  have hmid' : mid.toNat = al.toNat * bl.toNat / 65536 + al.toNat * bh.toNat % 65536 +
      ah.toNat * bl.toNat % 65536 := by
    rw [hmid, toNat_add, toNat_add, toNat_high, toNat_low, toNat_low, hlh]
    omega
  have hlo : (((al * bl) &&& (0xFFFF : BitVec 32)) ||| (mid <<< 16)).toNat =
      al.toNat * bl.toNat % 65536 + mid.toNat % 65536 * 65536 := by
    rw [BitVec.or_comm, toNat_or, toNat_shiftLeft, toNat_low, Nat.shiftLeft_eq,
      show (2 : ℕ) ^ 32 = 65536 * 2 ^ 16 by norm_num, Nat.mul_mod_mul_right, ← Nat.shiftLeft_eq,
      ← Nat.shiftLeft_add_eq_or_of_lt (by omega)]
    omega
  rw [hdef, pairValue, hlo, toNat_add, toNat_add, toNat_add, toNat_high,
    toNat_high, toNat_high, hab]
  omega

theorem pairValue_sub {xl xh yl yh : BitVec 32} (h : pairValue yl yh ≤ pairValue xl xh) :
    pairValue (xl - yl) (xh - yh - (if xl < yl then 1 else 0)) =
      pairValue xl xh - pairValue yl yh := by
  unfold pairValue at h ⊢
  split
  · next hlt =>
    rw [lt_def] at hlt
    rw [toNat_sub, toNat_sub, toNat_sub, show BitVec.toNat (1 : BitVec 32) = 1
      from rfl]
    omega
  · next hlt =>
    rw [lt_def] at hlt
    rw [toNat_sub, toNat_sub, toNat_sub, show BitVec.toNat (0 : BitVec 32) = 0
      from rfl]
    omega

theorem pair_estimate {n d D v s : ℕ} (hs : s ≤ 31) (hn : n < 18446744073709551616)
    (hv : 2147483648 ≤ v) (hD : D = v * 2 ^ (32 - s)) (hle : D ≤ d) (hd : d < D + 2 ^ (32 - s)) :
    n / 2 / v / 2 ^ (31 - s) = n / D ∧ n / d ≤ n / D ∧ n / D ≤ n / d + 1 := by
  -- the estimate is half the dividend over the top word of the shifted divisor
  have hpow : (2 : ℕ) ^ (32 - s) = 2 * 2 ^ (31 - s) := by
    rw [← Nat.pow_succ', show (31 - s).succ = 32 - s by omega]
  have hlow : 2 ^ (63 - s) ≤ D := by
    rw [hD, show 63 - s = 31 + (32 - s) by omega, Nat.pow_add]
    exact Nat.mul_le_mul_right _ (by omega)
  have hDpos : 0 < D := Nat.lt_of_lt_of_le (Nat.two_pow_pos _) hlow
  have hquot : n / d + 1 ≤ 2 ^ (s + 1) := by
    apply Nat.succ_le_of_lt
    apply (Nat.div_lt_iff_lt_mul (Nat.lt_of_lt_of_le hDpos hle)).mpr
    calc
      n < 2 ^ (s + 1) * 2 ^ (63 - s) := by
        rw [← Nat.pow_add, show s + 1 + (63 - s) = 64 by omega]
        omega
      _ ≤ 2 ^ (s + 1) * d := Nat.mul_le_mul_left _ (hlow.trans hle)
  have hcut : (n / d + 1) * (2 ^ (32 - s) - 1) ≤ D := by
    calc
      (n / d + 1) * (2 ^ (32 - s) - 1) ≤ 2 ^ (s + 1) * (2 ^ (32 - s) - 1) :=
        Nat.mul_le_mul_right _ hquot
      _ = 2 ^ 33 - 2 ^ (s + 1) := by
        rw [Nat.mul_sub, ← Nat.pow_add, show s + 1 + (32 - s) = 33 by omega, Nat.mul_one]
      _ ≤ 2 ^ (63 - s) := by
        rcases Nat.lt_or_ge s 31 with h | h
        · exact (Nat.sub_le _ _).trans (Nat.pow_le_pow_right (by omega) (by omega))
        · obtain rfl : s = 31 := by omega
          norm_num
      _ ≤ D := hlow
  refine ⟨?_, div_cut_le hDpos hle (by clear hD; omega) hcut⟩
  rw [Nat.div_div_eq_div_mul, Nat.div_div_eq_div_mul, hD, hpow]
  congr 1
  ring

theorem pairValue_half :
    pairValue ((lo >>> 1) ||| (hi <<< 31)) (hi >>> 1) = pairValue lo hi / 2 := by
  have h1 : (lo >>> 1).toNat = lo.toNat / 2 := toNat_shr lo 1
  have h2 : (hi >>> 1).toNat = hi.toNat / 2 := toNat_shr hi 1
  have hor : ((lo >>> 1) ||| (hi <<< 31)).toNat = hi.toNat % 2 * 2147483648 + lo.toNat / 2 := by
    rw [BitVec.or_comm, toNat_or, toNat_shiftLeft, h1, Nat.shiftLeft_eq,
      show (2 : ℕ) ^ 32 = 2 * 2 ^ 31 by norm_num, Nat.mul_mod_mul_right, ← Nat.shiftLeft_eq,
      ← Nat.shiftLeft_add_eq_or_of_lt (by omega)]
  rw [pairValue, pairValue, hor]
  omega

theorem pair_top {dLo dHi : BitVec 32} (hd : dHi ≠ 0) :
    ∃ v s, clzNormalise dHi = (v, s) ∧ s ≤ 31 ∧
      (if s ≠ 0 then v ||| (dLo >>> (32 - s)) else v).toNat =
        dHi.toNat * 2 ^ s + dLo.toNat / 2 ^ (32 - s) ∧
      2147483648 ≤ dHi.toNat * 2 ^ s := by
  obtain ⟨hv, htop, hs⟩ := clzNormalise_spec hd
  obtain ⟨v, s, hvs⟩ : ∃ v s, clzNormalise dHi = (v, s) := ⟨_, _, rfl⟩
  rw [hvs] at hv htop hs
  dsimp only at hv htop hs
  have hlt : dHi.toNat * 2 ^ s < 2 ^ 32 := by rw [← hv]; exact v.isLt
  have hshl : v = dHi <<< s := by
    apply eq_of_toNat_eq
    rw [hv, toNat_shiftLeft, Nat.shiftLeft_eq, Nat.mod_eq_of_lt hlt]
  refine ⟨v, s, hvs, hs, ?_, by omega⟩
  rw [← toNat_shift_in hs hlt, hshl]
  split
  · rfl
  · next h =>
    obtain rfl : s = 0 := by omega
    simp

theorem pairValue_mul {pLo pHi q dLo dHi : BitVec 32} (h : pairValue pLo pHi = q.toNat * dLo.toNat)
    (hlt : q.toNat * pairValue dLo dHi < 18446744073709551616) :
    pairValue pLo (pHi + q * dHi) = q.toNat * pairValue dLo dHi := by
  have hexp : q.toNat * pairValue dLo dHi =
      q.toNat * dHi.toNat * 4294967296 + q.toNat * dLo.toNat := by
    rw [pairValue]
    ring
  rw [hexp, ← h] at hlt ⊢
  simp only [pairValue, toNat_add, toNat_mul] at hlt ⊢
  omega

theorem uldivmodByPair_spec {nLo nHi dLo dHi : BitVec 32} (hd : dHi ≠ 0)
    (hle : pairValue dLo dHi ≤ pairValue nLo nHi) :
    ∃ r, uldivmodByPair nLo nHi dLo dHi = some r ∧
      IsDivmod (pairValue nLo nHi) (pairValue dLo dHi) r := by
  have hn := pairValue_lt nLo nHi
  have hdbig : 4294967296 ≤ pairValue dLo dHi := by
    have : dHi.toNat ≠ 0 := fun h => hd (eq_of_toNat_eq h)
    unfold pairValue
    omega
  have hd0 : 0 < pairValue dLo dHi := by omega
  obtain ⟨v, s, hvs, hs, hv, htop⟩ := @pair_top dLo dHi hd
  obtain ⟨v', hv'⟩ : ∃ x, x = if s ≠ 0 then v ||| (dLo >>> (32 - s)) else v := ⟨_, rfl⟩
  rw [← hv'] at hv
  have hpow : (2 : ℕ) ^ s * 2 ^ (32 - s) = 4294967296 := by
    rw [← Nat.pow_add, show s + (32 - s) = 32 by omega]
  -- the divisor cut off below
  have hD : v'.toNat * 2 ^ (32 - s) + dLo.toNat % 2 ^ (32 - s) = pairValue dLo dHi := by
    have hsplit := Nat.div_add_mod' dLo.toNat (2 ^ (32 - s))
    rw [hv, pairValue, ← hpow, Nat.add_mul, Nat.mul_assoc]
    omega
  have hvtop : 2147483648 ≤ v'.toNat := by
    rw [hv]
    exact Nat.le_add_right_of_le htop
  obtain ⟨q1, q0, rem, hstep, hq, _⟩ := @divTwoDigits_spec v' (nHi >>> 1)
    ((nLo >>> 1) ||| (nHi <<< 31)) hvtop (by
      rw [toNat_ushiftRight]
      omega)
  rw [pairValue_half] at hq
  obtain ⟨hest, hlow, hhigh⟩ := @pair_estimate (pairValue nLo nHi) (pairValue dLo dHi) _ v'.toNat s
    hs hn hvtop rfl (by omega) (by omega)
  have hq1 : 0 < pairValue nLo nHi / pairValue dLo dHi := Nat.div_pos hle hd0
  -- the estimate less one
  obtain ⟨e, he⟩ : ∃ e, e = ((q1 <<< 16) ||| q0) >>> (31 - s) := ⟨_, rfl⟩
  have heval : e.toNat = pairValue nLo nHi / (v'.toNat * 2 ^ (32 - s)) := by
    rw [he, toNat_shr, hq, hest]
  obtain ⟨q, hqdef⟩ : ∃ q, q = if e ≠ 0 then e - 1 else e := ⟨_, rfl⟩
  have hqval : q.toNat = e.toNat - 1 := by
    have hne : e ≠ 0 := fun h => by
      rw [h] at heval
      have : (0 : ℕ) = _ := heval
      omega
    rw [hqdef, if_pos hne, toNat_sub_of_le]
    · rfl
    · show 1 ≤ e.toNat
      omega
  -- its product with the divisor
  obtain ⟨pLo, pHi, hp⟩ : ∃ pLo pHi, mulHalves q dLo = (pLo, pHi) := ⟨_, _, rfl⟩
  have hmul := mulHalves_spec q dLo
  rw [hp] at hmul
  have hqd : q.toNat * pairValue dLo dHi ≤ pairValue nLo nHi :=
    (Nat.mul_le_mul_right _ (by omega)).trans (Nat.div_mul_le_self _ _)
  have hprod := @pairValue_mul pLo pHi q dLo dHi hmul (hqd.trans_lt hn)
  obtain ⟨remLo, hremLo⟩ : ∃ x, x = nLo - pLo := ⟨_, rfl⟩
  obtain ⟨remHi, hremHi⟩ : ∃ x, x = nHi - (pHi + q * dHi) - (if nLo < pLo then 1 else 0) := ⟨_, rfl⟩
  have hrem : pairValue remLo remHi = pairValue nLo nHi - q.toNat * pairValue dLo dHi := by
    have hsub := @pairValue_sub nLo nHi pLo (pHi + q * dHi) (by rw [hprod]; exact hqd)
    rw [hprod] at hsub
    rw [hremLo, hremHi]
    exact hsub
  have hdiv := Nat.div_add_mod' (pairValue nLo nHi) (pairValue dLo dHi)
  have hmod := Nat.mod_lt (pairValue nLo nHi) hd0
  have hcond : (dHi < remHi ∨ remHi = dHi ∧ dLo ≤ remLo) ↔
      pairValue dLo dHi ≤ pairValue remLo remHi := by
    rw [← Nat.not_lt, pairValue_lt_iff, lt_def, lt_def, lt_def, le_def,
      ← toNat_inj]
    omega
  have hunfold : uldivmodByPair nLo nHi dLo dHi =
      if dHi < remHi ∨ remHi = dHi ∧ dLo ≤ remLo then
        some ⟨q + 1, 0, remLo - dLo, remHi - dHi - (if remLo < dLo then 1 else 0)⟩
      else some ⟨q, 0, remLo, remHi⟩ := by
    simp only [uldivmodByPair, hvs, ← hv', hstep, bind_eq_bind, bind_some, ← he,
      ← hqdef, hp, ← hremLo, ← hremHi]
  rw [hunfold]
  by_cases hge : pairValue dLo dHi ≤ pairValue remLo remHi
  · -- the estimate less one was one too small
    rw [if_pos (hcond.mpr hge)]
    have hq' : q.toNat + 1 = pairValue nLo nHi / pairValue dLo dHi := by
      by_contra hne
      have heq : q.toNat = pairValue nLo nHi / pairValue dLo dHi := by omega
      rw [← heq] at hdiv
      omega
    refine ⟨_, rfl, ?_, ?_⟩
    · show (0#32).toNat * 4294967296 + (q + 1).toNat = _
      rw [← hq', toNat_add, show BitVec.toNat (1 : BitVec 32) = 1 from rfl]
      simp only [toNat_zero, Nat.zero_mul, Nat.zero_add]
      omega
    · rw [pairValue_sub hge]
      rw [← hq', Nat.succ_mul] at hdiv
      omega
  · rw [if_neg fun h => hge (hcond.mp h)]
    have hq' : q.toNat = pairValue nLo nHi / pairValue dLo dHi := by
      by_contra hne
      have heq : pairValue nLo nHi / pairValue dLo dHi = q.toNat + 1 := by omega
      rw [heq, Nat.succ_mul] at hdiv
      omega
    refine ⟨_, rfl, ?_, ?_⟩
    · show (0#32).toNat * 4294967296 + q.toNat = _
      simp [hq']
    · show pairValue remLo remHi = _
      rw [← hq'] at hdiv
      omega

theorem tccAeabiUldivmodHelper_spec (nLo nHi dLo dHi : BitVec 32) :
    ∃ r, tccAeabiUldivmodHelper nLo nHi dLo dHi = some r ∧
      (pairValue dLo dHi ≠ 0 → IsDivmod (pairValue nLo nHi) (pairValue dLo dHi) r) ∧
      (pairValue dLo dHi = 0 → r = ⟨0, 0, 0, 0⟩) := by
  have hzero : dLo ||| dHi = 0 ↔ pairValue dLo dHi = 0 := by
    show dLo ||| dHi = 0#32 ↔ _
    rw [or_eq_zero_iff, ← toNat_inj, ← toNat_inj, pairValue, toNat_zero]
    omega
  unfold tccAeabiUldivmodHelper
  by_cases hd : dLo ||| dHi = 0
  · have hp := hzero.mp hd
    rw [if_neg (not_not.mpr hd)]
    exact ⟨_, rfl, fun h => absurd hp h, fun _ => rfl⟩
  have hp : pairValue dLo dHi ≠ 0 := fun h => hd (hzero.mpr h)
  rw [if_pos hd]
  by_cases hhi : dHi = 0
  · have hval : pairValue dLo dHi = dLo.toNat := by simp [pairValue, hhi]
    rw [if_pos hhi, hval]
    rw [hval] at hp
    obtain ⟨r, hr, hdiv⟩ := @uldivmodByWord_spec nLo nHi dLo fun h => hp (by rw [h]; rfl)
    exact ⟨r, hr, fun _ => hdiv, fun h => absurd h hp⟩
  rw [if_neg hhi]
  by_cases hlt : nHi < dHi ∨ nHi = dHi ∧ nLo < dLo
  · have hlt' := (pairValue_lt_iff nLo nHi dLo dHi).mpr hlt
    rw [if_pos hlt]
    refine ⟨_, rfl, fun _ => ⟨?_, ?_⟩, fun h => absurd h hp⟩
    · rw [Nat.div_eq_of_lt hlt']
      simp [pairValue]
    · exact (Nat.mod_eq_of_lt hlt').symm
  · rw [if_neg hlt]
    obtain ⟨r, hr, hdiv⟩ := uldivmodByPair_spec hhi
      (Nat.not_lt.mp fun h => hlt ((pairValue_lt_iff nLo nHi dLo dHi).mp h))
    exact ⟨r, hr, fun _ => hdiv, fun h => absurd h hp⟩

def pairInt : ℤ := hi.toInt * 4294967296 + lo.toNat

theorem pairInt_eq :
    pairInt lo hi = if hi.toInt < 0 then (pairValue lo hi : ℤ) - 18446744073709551616
      else pairValue lo hi := by
  rw [pairInt, pairValue, toInt_eq_toNat_cond]
  split <;> split <;> push_cast <;> omega

theorem pairInt_neg_iff :
    hi.toInt < 0 ↔ 9223372036854775808 ≤ pairValue lo hi := by
  rw [pairValue, toInt_eq_toNat_cond]
  split <;> omega

theorem u64Neg_spec :
    pairValue (u64Neg lo hi).1 (u64Neg lo hi).2 =
      (18446744073709551616 - pairValue lo hi) % 18446744073709551616 := by
  have hneg : (~~~lo + 1).toNat = (4294967296 - lo.toNat) % 4294967296 := by
    rw [toNat_add, toNat_not, show BitVec.toNat (1 : BitVec 32) = 1 from rfl]
    omega
  have hz : ~~~lo + 1 = 0 ↔ lo.toNat = 0 := by
    rw [← toNat_inj, show BitVec.toNat (0 : BitVec 32) = 0 from rfl]
    omega
  simp only [u64Neg, pairValue, hneg, toNat_add, toNat_not, hz]
  split
  · rw [show BitVec.toNat (1 : BitVec 32) = 1 from rfl]
    omega
  · rw [show BitVec.toNat (0 : BitVec 32) = 0 from rfl]
    omega

theorem pairValue_magnitude {lo hi lo' hi' : BitVec 32}
    (h : (lo', hi') = if decide (hi.toInt < 0) = true then u64Neg lo hi else (lo, hi)) :
    pairValue lo' hi' = (pairInt lo hi).natAbs := by
  have hlt := pairValue_lt lo hi
  have hiff := pairInt_neg_iff lo hi
  rw [pairInt_eq]
  by_cases hneg : hi.toInt < 0
  · have hspec := u64Neg_spec lo hi
    rw [if_pos (decide_eq_true hneg)] at h
    rw [← h] at hspec
    rw [hspec]
    omega
  · rw [if_neg (by simpa using hneg)] at h
    cases h
    rw [if_neg hneg]
    rfl

theorem pairInt_signed {lo hi lo' hi' : BitVec 32} {neg : Bool}
    (h : (lo', hi') = if neg = true then u64Neg lo hi else (lo, hi))
    (hfit : pairValue lo hi ≤ 9223372036854775808) :
    (neg = true ∨ pairValue lo hi < 9223372036854775808 →
      pairInt lo' hi' = if neg = true then -(pairValue lo hi : ℤ) else pairValue lo hi) ∧
    (neg = false ∧ pairValue lo hi = 9223372036854775808 →
      pairInt lo' hi' = -9223372036854775808) := by
  have hiff := pairInt_neg_iff lo' hi'
  rw [pairInt_eq]
  cases neg with
  | true =>
    have hspec := u64Neg_spec lo hi
    rw [if_pos rfl] at h
    rw [← h] at hspec
    dsimp only at hspec
    simp only [true_or, if_true, true_imp_iff, Bool.true_eq_false, false_and, false_imp_iff, and_true]
    split <;> omega
  | false =>
    cases h
    simp only [Bool.false_eq_true, false_or, if_false, true_and]
    constructor
    · intro hlt
      split <;> omega
    · intro heq
      split <;> omega

theorem tdiv_tmod_natAbs (n d : ℤ) :
    n.tdiv d = (if (decide (n < 0) ^^ decide (d < 0)) = true then -((n.natAbs / d.natAbs : ℕ) : ℤ)
      else (n.natAbs / d.natAbs : ℕ)) ∧
    n.tmod d = (if decide (n < 0) = true then -((n.natAbs % d.natAbs : ℕ) : ℤ)
      else (n.natAbs % d.natAbs : ℕ)) := by
  have hsign : ∀ x : ℤ, (x < 0 ∧ x = -(x.natAbs : ℤ)) ∨ (¬ x < 0 ∧ x = x.natAbs) := fun x => by omega
  have hn := hsign n
  have hd := hsign d
  generalize n.natAbs = a at hn ⊢
  generalize d.natAbs = b at hd ⊢
  rcases hn with ⟨hn, rfl⟩ | ⟨hn, rfl⟩ <;> rcases hd with ⟨hd, rfl⟩ | ⟨hd, rfl⟩ <;>
    simp only [hn, hd, decide_true, decide_false, Bool.xor_true, Bool.xor_false, Bool.not_true,
      Bool.not_false, if_true, Bool.false_eq_true, if_false, Int.neg_tdiv, Int.tdiv_neg, neg_neg,
      Int.neg_tmod, Int.tmod_neg, Int.ofNat_tdiv, Int.ofNat_tmod, and_self]

theorem pairInt_lt_zero_iff : pairInt lo hi < 0 ↔ hi.toInt < 0 := by
  rw [pairInt]
  omega

theorem pairInt_bounds :
    -9223372036854775808 ≤ pairInt lo hi ∧ pairInt lo hi < 9223372036854775808 := by
  have hlt := pairValue_lt lo hi
  have hiff := pairInt_neg_iff lo hi
  rw [pairInt_eq]
  split <;> omega

theorem natAbs_eq_one_of_le_div (n d : ℤ) (hn : n.natAbs ≤ 9223372036854775808)
    (h : 9223372036854775808 ≤ n.natAbs / d.natAbs) :
    n.natAbs = 9223372036854775808 ∧ d.natAbs = 1 := by
  rcases Nat.eq_zero_or_pos d.natAbs with hzero | hpos
  · rw [hzero] at h
    omega
  · have hmul := (Nat.le_div_iff_mul_le hpos).mp h
    omega

/-- The signed helper divides towards zero; the one quotient that does not fit wraps. -/
theorem tccAeabiLdivmodHelper_spec (nLo nHi dLo dHi : BitVec 32) :
    ∃ r, tccAeabiLdivmodHelper nLo nHi dLo dHi = some r ∧
      (pairInt dLo dHi ≠ 0 → pairInt r.rLo r.rHi = (pairInt nLo nHi).tmod (pairInt dLo dHi) ∧
        (¬ (pairInt nLo nHi = -9223372036854775808 ∧ pairInt dLo dHi = -1) →
          pairInt r.qLo r.qHi = (pairInt nLo nHi).tdiv (pairInt dLo dHi)) ∧
        (pairInt nLo nHi = -9223372036854775808 ∧ pairInt dLo dHi = -1 →
          pairInt r.qLo r.qHi = -9223372036854775808 ∧ pairInt r.rLo r.rHi = 0)) ∧
      (pairInt dLo dHi = 0 → r = ⟨0, 0, 0, 0⟩) := by
  obtain ⟨un, hun⟩ : ∃ un, un = if decide (nHi.toInt < 0) = true then u64Neg nLo nHi
    else (nLo, nHi) := ⟨_, rfl⟩
  obtain ⟨ud, hud⟩ : ∃ ud, ud = if decide (dHi.toInt < 0) = true then u64Neg dLo dHi
    else (dLo, dHi) := ⟨_, rfl⟩
  have hunval : pairValue un.1 un.2 = (pairInt nLo nHi).natAbs := pairValue_magnitude hun
  have hudval : pairValue ud.1 ud.2 = (pairInt dLo dHi).natAbs := pairValue_magnitude hud
  obtain ⟨u, hu, hdiv, hzero⟩ := tccAeabiUldivmodHelper_spec un.1 un.2 ud.1 ud.2
  rw [hunval, hudval] at hdiv
  obtain ⟨q, hq⟩ : ∃ q, q = if (decide (nHi.toInt < 0) ^^ decide (dHi.toInt < 0)) = true then
    u64Neg u.qLo u.qHi else (u.qLo, u.qHi) := ⟨_, rfl⟩
  obtain ⟨m, hm⟩ : ∃ m, m = if decide (nHi.toInt < 0) = true then u64Neg u.rLo u.rHi
    else (u.rLo, u.rHi) := ⟨_, rfl⟩
  refine ⟨⟨q.1, q.2, m.1, m.2⟩, ?_, ?_, ?_⟩
  · simp only [tccAeabiLdivmodHelper, ← hun, ← hud, hu, bind_eq_bind, bind_some, ← hq,
      ← hm]
  · intro hd
    obtain ⟨hquot, hrem⟩ := hdiv (by omega)
    obtain ⟨htdiv, htmod⟩ := tdiv_tmod_natAbs (pairInt nLo nHi) (pairInt dLo dHi)
    simp only [pairInt_lt_zero_iff] at htdiv htmod
    have hn := pairInt_bounds nLo nHi
    have hqle : (pairInt nLo nHi).natAbs / (pairInt dLo dHi).natAbs ≤ (pairInt nLo nHi).natAbs :=
      Nat.div_le_self _ _
    have hrlt := Nat.mod_lt (pairInt nLo nHi).natAbs (show 0 < (pairInt dLo dHi).natAbs by omega)
    have hdb := pairInt_bounds dLo dHi
    obtain ⟨hqfit, hqwrap⟩ := pairInt_signed hq (by omega)
    obtain ⟨hrfit, _⟩ := pairInt_signed hm (by omega)
    rw [hquot] at hqfit hqwrap
    rw [hrem] at hrfit
    refine ⟨(hrfit (.inr (by omega))).trans htmod.symm, fun hsafe => ?_, fun hover => ?_⟩
    · refine (hqfit ?_).trans htdiv.symm
      -- the quotient has magnitude 2^63 only when the divisor is 1 or -1
      by_contra hbig
      rw [not_or, Nat.not_lt] at hbig
      have hone := natAbs_eq_one_of_le_div (pairInt nLo nHi) (pairInt dLo dHi) (by omega) hbig.2
      have hnneg : nHi.toInt < 0 := (pairInt_lt_zero_iff nLo nHi).mp (by omega)
      have hdneg : dHi.toInt < 0 := by simpa [hnneg] using hbig.1
      have := (pairInt_lt_zero_iff dLo dHi).mpr hdneg
      omega
    · have hnneg := (pairInt_lt_zero_iff nLo nHi).mp (by omega)
      have hdneg := (pairInt_lt_zero_iff dLo dHi).mp (by omega)
      rw [hover.1, hover.2] at hqwrap hrfit
      exact ⟨hqwrap ⟨by simp [hnneg, hdneg], by decide⟩, by simpa using hrfit (.inr (by decide))⟩
  · intro hd
    obtain rfl := hzero (by omega)
    have hneg : u64Neg 0 0 = (0, 0) := by decide
    rw [hq, hm, hneg]
    simp

/-- Both helpers, for all pairs of words. -/
theorem divmod_helpers_correct (nLo nHi dLo dHi : BitVec 32) :
    (∃ r, tccAeabiUldivmodHelper nLo nHi dLo dHi = some r ∧
      (pairValue dLo dHi ≠ 0 →
        pairValue nLo nHi = pairValue r.qLo r.qHi * pairValue dLo dHi + pairValue r.rLo r.rHi ∧
        pairValue r.rLo r.rHi < pairValue dLo dHi) ∧
      (pairValue dLo dHi = 0 → pairValue r.qLo r.qHi = 0 ∧ pairValue r.rLo r.rHi = 0)) ∧
    ∃ r, tccAeabiLdivmodHelper nLo nHi dLo dHi = some r ∧
      (pairInt dLo dHi ≠ 0 →
        pairInt r.rLo r.rHi = (pairInt nLo nHi).tmod (pairInt dLo dHi) ∧
        (¬ (pairInt nLo nHi = -9223372036854775808 ∧ pairInt dLo dHi = -1) →
          pairInt r.qLo r.qHi = (pairInt nLo nHi).tdiv (pairInt dLo dHi)) ∧
        (pairInt nLo nHi = -9223372036854775808 ∧ pairInt dLo dHi = -1 →
          pairInt r.qLo r.qHi = -9223372036854775808 ∧ pairInt r.rLo r.rHi = 0)) ∧
      (pairInt dLo dHi = 0 → pairInt r.qLo r.qHi = 0 ∧ pairInt r.rLo r.rHi = 0) := by
  constructor
  · obtain ⟨r, hr, hdiv, hzero⟩ := tccAeabiUldivmodHelper_spec nLo nHi dLo dHi
    refine ⟨r, hr, fun hd => ?_, fun hd => ?_⟩
    · obtain ⟨hq, hrem⟩ := hdiv hd
      rw [hq, hrem]
      exact ⟨(Nat.div_add_mod' _ _).symm, Nat.mod_lt _ (Nat.pos_of_ne_zero hd)⟩
    · rw [hzero hd]
      simp [pairValue]
  · obtain ⟨r, hr, hdiv, hzero⟩ := tccAeabiLdivmodHelper_spec nLo nHi dLo dHi
    refine ⟨r, hr, hdiv, fun hd => ?_⟩
    rw [hzero hd]
    simp [pairInt]

end Tinycc
