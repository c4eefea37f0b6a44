import Tinycc.Lib.DigitDivision

namespace Tinycc

def clzStep (mask : BitVec 32) (k : ℕ) (st : BitVec 32 × ℕ) : BitVec 32 × ℕ :=
  if st.1 &&& mask = 0 then (st.1 <<< k, st.2 + k) else st

/-- The five tests: the word with its leading zeros shifted out, and their number. -/
def clzNormalise (v : BitVec 32) : BitVec 32 × ℕ :=
  clzStep 0x80000000 1 <| clzStep 0xC0000000 2 <| clzStep 0xF0000000 4 <|
    clzStep 0xFF000000 8 <| clzStep 0xFFFF0000 16 (v, 0)

def correctDigit (vn1 vn0 un : BitVec 32) : ℕ → BitVec 32 → BitVec 32 → Option (BitVec 32)
  | 0, _, _ => none
  | n + 1, q, rhat =>
    if 0xFFFF < q ∨ ((rhat <<< 16) ||| un) < q * vn0 then
      let q := q - 1
      let rhat := rhat + vn1
      if 0xFFFF < rhat then some q else correctDigit vn1 vn0 un n q rhat
    else some q

def divDigit (v u un : BitVec 32) : Option (BitVec 32) :=
  let vn1 := v >>> 16
  let vn0 := v &&& 0xFFFF
  let q := u / vn1
  let rhat := u - q * vn1
  correctDigit vn1 vn0 un 2 q rhat

/-- The two-digit step: the two digits and the final `(un21 << 16) + un0 - q0 * v`. -/
def divTwoDigits (v un32 un10 : BitVec 32) : Option (BitVec 32 × BitVec 32 × BitVec 32) := do
  let un1 := un10 >>> 16
  let un0 := un10 &&& 0xFFFF
  let q1 ← divDigit v un32 un1
  let un21 := (un32 <<< 16) + un1 - q1 * v
  let q0 ← divDigit v un21 un0
  some (q1, q0, (un21 <<< 16) + un0 - q0 * v)

def mulHalves (q0 d : BitVec 32) : BitVec 32 × BitVec 32 :=
  -- the 32 x 32 -> 64 multiply from 16-bit halves, low word first
  let al := q0 &&& 0xFFFF
  let ah := q0 >>> 16
  let bl := d &&& 0xFFFF
  let bh := d >>> 16
  let ll := al * bl
  let lh := al * bh
  let hl := ah * bl
  let hh := ah * bh
  let mid := (ll >>> 16) + (lh &&& 0xFFFF) + (hl &&& 0xFFFF)
  ((ll &&& 0xFFFF) ||| (mid <<< 16), hh + (lh >>> 16) + (hl >>> 16) + (mid >>> 16))

structure DivmodResult where
  qLo : BitVec 32
  qHi : BitVec 32
  rLo : BitVec 32
  rHi : BitVec 32
  deriving DecidableEq, Repr

def uldivmodByWord (nLo nHi dLo : BitVec 32) : Option DivmodResult := do
  let qh := if dLo ≤ nHi then nHi / dLo else 0
  let k := if dLo ≤ nHi then nHi - qh * dLo else nHi
  let (v, s) := clzNormalise dLo
  let un32 := if s ≠ 0 then (k <<< s) ||| (nLo >>> (32 - s)) else k
  let (q1, q0, un) ← divTwoDigits v un32 (nLo <<< s)
  some ⟨(q1 <<< 16) ||| q0, qh, un >>> s, 0⟩

def uldivmodByPair (nLo nHi dLo dHi : BitVec 32) : Option DivmodResult := do
  let (v, s) := clzNormalise dHi
  let v := if s ≠ 0 then v ||| (dLo >>> (32 - s)) else v
  let u1 := nHi >>> 1
  let u0 := (nLo >>> 1) ||| (nHi <<< 31)
  let (q1, q0, _) ← divTwoDigits v u1 u0
  let q0 := ((q1 <<< 16) ||| q0) >>> (31 - s)
  let q0 := if q0 ≠ 0 then q0 - 1 else q0
  let (pLo, pHi) := mulHalves q0 dLo
  let pHi := pHi + q0 * dHi
  let remLo := nLo - pLo
  let remHi := nHi - pHi - (if nLo < pLo then 1 else 0)
  if dHi < remHi ∨ remHi = dHi ∧ dLo ≤ remLo then
    some ⟨q0 + 1, 0, remLo - dLo, remHi - dHi - (if remLo < dLo then 1 else 0)⟩
  else some ⟨q0, 0, remLo, remHi⟩

def tccAeabiUldivmodHelper (nLo nHi dLo dHi : BitVec 32) : Option DivmodResult :=
  if dLo ||| dHi ≠ 0 then
    if dHi = 0 then uldivmodByWord nLo nHi dLo
    else if nHi < dHi ∨ nHi = dHi ∧ nLo < dLo then some ⟨0, 0, nLo, nHi⟩
    else uldivmodByPair nLo nHi dLo dHi
  else some ⟨0, 0, 0, 0⟩

def u64Neg (lo hi : BitVec 32) : BitVec 32 × BitVec 32 :=
  let lo := ~~~lo + 1
  (lo, ~~~hi + (if lo = 0 then 1 else 0))

def tccAeabiLdivmodHelper (nLo nHi dLo dHi : BitVec 32) : Option DivmodResult := do
  let nNeg := decide (nHi.toInt < 0)
  let dNeg := decide (dHi.toInt < 0)
  let (unLo, unHi) := if nNeg then u64Neg nLo nHi else (nLo, nHi)
  let (udLo, udHi) := if dNeg then u64Neg dLo dHi else (dLo, dHi)
  let r ← tccAeabiUldivmodHelper unLo unHi udLo udHi
  let (qLo, qHi) := if nNeg ^^ dNeg then u64Neg r.qLo r.qHi else (r.qLo, r.qHi)
  let (rLo, rHi) := if nNeg then u64Neg r.rLo r.rHi else (r.rLo, r.rHi)
  some ⟨qLo, qHi, rLo, rHi⟩

end Tinycc
