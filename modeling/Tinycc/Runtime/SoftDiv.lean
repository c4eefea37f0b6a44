import Tinycc.Runtime.SoftMul

namespace Tinycc

def sfpCorrectDigit (vn1 vn0 un : BitVec 32) : ℕ → BitVec 32 → BitVec 32 → Option (BitVec 32)
  | 0, _, _ => none
  | n + 1, q, rhat =>
    if 65536 ≤ q ∨ 65536 * rhat + un < q * vn0 then
      let q := q - 1
      let rhat := rhat + vn1
      if 65536 ≤ rhat then some q else sfpCorrectDigit vn1 vn0 un n q rhat
    else some q

def sfpDivlu32 (u1 u0 v : BitVec 32) : Option (BitVec 32 × BitVec 32) := do
  let vn1 := v >>> 16
  let vn0 := v &&& 0xFFFF
  let un1 := u0 >>> 16
  let un0 := u0 &&& 0xFFFF
  let q1 := u1 / vn1
  let q1 ← sfpCorrectDigit vn1 vn0 un1 2 q1 (u1 - q1 * vn1)
  let un21 := u1 * 65536 + un1 - q1 * v
  let q0 := un21 / vn1
  let q0 ← sfpCorrectDigit vn1 vn0 un0 2 q0 (un21 - q0 * vn1)
  some (q1 * 65536 + q0, un21 * 65536 + un0 - q0 * v)

def correctQuotient (v1 v0 w0 : BitVec 32) : ℕ → BitVec 32 → BitVec 64 → Option (BitVec 32)
  | 0, _, _ => none
  | n + 1, qh, rh =>
    if rh < (1 : BitVec 64) <<< 32 ∧
        ((rh <<< 32) ||| w0.setWidth 64) < qh.setWidth 64 * v0.setWidth 64 then
      correctQuotient v1 v0 w0 n (qh - 1) (rh + v1.setWidth 64)
    else some qh

/-- The three words of the window of a digit step and its quotient digit. -/
structure DivWindow where
  w2 : BitVec 32
  w1 : BitVec 32
  w0 : BitVec 32
  qd : BitVec 32
  deriving DecidableEq, Repr

def subtractProduct (v1 v0 w2 w1 w0 qh : BitVec 32) : DivWindow :=
  -- the divisor is put back when the digit was one too much
  let p0 := qh.setWidth 64 * v0.setWidth 64
  let p1 := qh.setWidth 64 * v1.setWidth 64 + (p0 >>> 32)
  let t0 : ℤ := w0.toNat - (lowWord p0).toNat
  let w0 := BitVec.ofInt 32 t0
  let t1 : ℤ := w1.toNat - (lowWord p1).toNat - (if t0 < 0 then 1 else 0)
  let w1 := BitVec.ofInt 32 t1
  let t2 : ℤ := w2.toNat - (highWord p1).toNat - (if t1 < 0 then 1 else 0)
  let w2 := BitVec.ofInt 32 t2
  if t2 < 0 then
    let s0 := w0.setWidth 64 + v0.setWidth 64
    let s1 := w1.setWidth 64 + v1.setWidth 64 + (s0 >>> 32)
    ⟨lowWord (w2.setWidth 64 + (s1 >>> 32)), lowWord s1, lowWord s0, qh - 1⟩
  else ⟨w2, w1, w0, qh⟩

/-- The estimate of a quotient digit from the top digit of the divisor, and its remainder. -/
def divstepEstimate (v1 w2 w1 : BitVec 32) : Option (BitVec 32 × BitVec 64) :=
  if v1 ≤ w2 then
    -- the digit would be 2^32: clamp it, with the remainder that goes with the clamped value
    some (0xFFFFFFFF, ((w2 - v1).setWidth 64 <<< 32) + w1.setWidth 64 + v1.setWidth 64)
  else (sfpDivlu32 w2 w1 v1).map fun qr => (qr.1, qr.2.setWidth 64)

def sfpDivstep (v1 v0 w2 w1 w0 : BitVec 32) : Option DivWindow := do
  let (qh, rh) ← divstepEstimate v1 w2 w1
  let qh ← correctQuotient v1 v0 w0 3 qh rh
  some (subtractProduct v1 v0 w2 w1 w0 qh)

def sfpDivSig64 (dividend divisor : BitVec 64) : Option (BitVec 64) := do
  let d := divisor <<< 11
  let v1 := highWord d
  let v0 := lowWord d
  let w3 := highWord (dividend <<< 2)
  let w2 := lowWord (dividend <<< 2)
  let first ← sfpDivstep v1 v0 w3 w2 0
  let second ← sfpDivstep v1 v0 first.w1 first.w0 0
  some (((first.qd.setWidth 64 <<< 32) ||| second.qd.setWidth 64) |||
    truthWord 64 (second.w1 ||| second.w0 ≠ 0))

def aeabiDdiv (aBits bBits : BitVec 64) : Option (BitVec 64) :=
  let aExp := doubleExp aBits
  let bExp := doubleExp bBits
  let aMant := doubleMant aBits
  let bMant := doubleMant bBits
  let resultSign := doubleSign aBits ^^ doubleSign bBits
  if aExp = 0x7FF then
    if aMant ≠ 0 then some aBits
    else if bExp = 0x7FF then
      if bMant ≠ 0 then some bBits else some 0x7FF8000000000000
    else some (makeDouble resultSign 0x7FF 0)
  else if bExp = 0x7FF then
    if bMant ≠ 0 then some bBits else some (makeDouble resultSign 0 0)
  else if bExp = 0 ∧ bMant = 0 then
    if aExp = 0 ∧ aMant = 0 then some 0x7FF8000000000000
    else some (makeDouble resultSign 0x7FF 0)
  else do
    let (bExp, divisor) ← unpackNormal 52 bExp bMant
    if aExp = 0 ∧ aMant = 0 then some (makeDouble resultSign 0 0)
    else do
      let (aExp, aMant) ← unpackNormal 52 aExp aMant
      let resultExp := aExp - bExp + 1023
      let resultExp' := if aMant < divisor then resultExp - 1 else resultExp
      let dividend := if aMant < divisor then aMant <<< 1 else aMant
      let quotient ← sfpDivSig64 dividend divisor
      sfpRoundPackDouble resultSign resultExp' quotient

def fdivLoop (divisor : BitVec 64) : ℕ → BitVec 64 → BitVec 64 → BitVec 64 × BitVec 64
  | 0, dividend, quotient => (dividend, quotient)
  | n + 1, dividend, quotient =>
    let quotient := quotient <<< 1
    if divisor ≤ dividend then
      fdivLoop divisor n ((dividend - divisor) <<< 1) (quotient ||| 1)
    else fdivLoop divisor n (dividend <<< 1) quotient

def fdivGeneral (resultSign : Bool) (aExp bExp : ℤ) (aMant bMant : BitVec 32) :
    Option (BitVec 32) := do
  let (aExp, aMant) ← unpackNormal 23 aExp aMant
  let (bExp, bMant) ← unpackNormal 23 bExp bMant
  let resultExp := aExp - bExp + 127
  let dividend := aMant.setWidth 64
  let divisor := bMant.setWidth 64
  let resultExp' := if dividend < divisor then resultExp - 1 else resultExp
  let dividend := if dividend < divisor then dividend <<< 1 else dividend
  let (dividend, quotient) := fdivLoop divisor (24 + 3) dividend 0
  let quotient := quotient ||| truthWord 64 (dividend ≠ 0)
  sfpRoundPackFloat resultSign resultExp' (quotient.setWidth 32)

def aeabiFdiv (aBits bBits : BitVec 32) : Option (BitVec 32) :=
  let resultSign := floatSign aBits ^^ floatSign bBits
  if isNanF aBits then some aBits
  else if isNanF bBits then some bBits
  else if isInfF aBits then
    if isInfF bBits then some 0x7FC00000 else some (makeFloat resultSign 0xFF 0)
  else if isInfF bBits then some (makeFloat resultSign 0 0)
  else if isZeroF bBits then
    if isZeroF aBits then some 0x7FC00000 else some (makeFloat resultSign 0xFF 0)
  else if isZeroF aBits then some (makeFloat resultSign 0 0)
  else fdivGeneral resultSign (floatExp aBits) (floatExp bBits) (floatMant aBits) (floatMant bBits)

end Tinycc
