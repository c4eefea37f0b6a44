import Tinycc.Runtime.SoftCommon

namespace Tinycc

section Unpack

variable {w : ℕ}

/-- `while (!(mant & implicit)) { mant <<= 1; exp--; }`; the number bounds the tests. -/
def scaleSubnormal (implicitBit : BitVec w) : ℕ → ℤ → BitVec w → Option (ℤ × BitVec w)
  | 0, _, _ => none
  | n + 1, exp, mant =>
    if mant &&& implicitBit = 0 then scaleSubnormal implicitBit n (exp - 1) (mant <<< 1)
    else some (exp, mant)

def unpackNormal (fracBits : ℕ) (exp : ℤ) (mant : BitVec w) : Option (ℤ × BitVec w) :=
  let implicitBit := (1 : BitVec w) <<< fracBits
  if exp ≠ 0 then some (exp, mant ||| implicitBit) else scaleSubnormal implicitBit w 1 mant

end Unpack

def lowWord (x : BitVec 64) : BitVec 32 := x.setWidth 32

def highWord (x : BitVec 64) : BitVec 32 := (x >>> 32).setWidth 32

def mul64wide (a b : BitVec 64) : BitVec 64 × BitVec 64 :=
  let a0 := (lowWord a).setWidth 64
  let a1 := (highWord a).setWidth 64
  let b0 := (lowWord b).setWidth 64
  let b1 := (highWord b).setWidth 64
  let p00 := a0 * b0
  let p01 := a0 * b1
  let p10 := a1 * b0
  let p11 := a1 * b1
  let mid := (highWord p00).setWidth 64 + (lowWord p01).setWidth 64 + (lowWord p10).setWidth 64
  (p11 + (highWord p01).setWidth 64 + (highWord p10).setWidth 64 + (highWord mid).setWidth 64,
    ((lowWord mid).setWidth 64 <<< 32) ||| (lowWord p00).setWidth 64)

/-- The significand with guard and sticky bits that is left of the product when `64 - up` of its
bits are cut off; the source has `up = 12` and `up = 11`. -/
def productSignificand (up : ℕ) (prodHi prodLo : BitVec 64) : BitVec 64 :=
  let loLo := lowWord prodLo
  let loHi := highWord prodLo
  let hiLo := lowWord prodHi
  let hiHi := highWord prodHi
  let mantLo32 := (hiLo <<< up) ||| (loHi >>> (32 - up))
  let mantHi32 := (hiHi <<< up) ||| (hiLo >>> (32 - up))
  let guard := (loHi >>> (31 - up)) &&& 1
  let sticky := loLo ≠ 0 ∨ loHi &&& (((1 : BitVec 32) <<< (31 - up)) - 1) ≠ 0
  let mant := (mantHi32.setWidth 64 <<< 32) ||| mantLo32.setWidth 64
  (mant <<< 3) ||| (truthWord 64 (guard ≠ 0) <<< 2) ||| truthWord 64 sticky

def dmulGeneral (resultSign : Bool) (aExp bExp : ℤ) (aMant bMant : BitVec 64) :
    Option (BitVec 64) := do
  let (aExp, aMant) ← unpackNormal 52 aExp aMant
  let (bExp, bMant) ← unpackNormal 52 bExp bMant
  let resultExp := aExp + bExp - 1023
  let (prodHi, prodLo) := mul64wide aMant bMant
  if highWord prodHi &&& ((1 : BitVec 32) <<< 9) ≠ 0 then
    sfpRoundPackDouble resultSign (resultExp + 1) (productSignificand 11 prodHi prodLo)
  else sfpRoundPackDouble resultSign resultExp (productSignificand 12 prodHi prodLo)

def dmulPowerOfTwo (resultSign : Bool) (aExp bExp : ℤ) (aMant bMant : BitVec 64) :
    Option (BitVec 64) :=
  let exp := aExp + bExp - 1023
  if aExp ≠ 0 ∧ bExp ≠ 0 ∧ 0 < exp ∧ exp < 0x7FF then
    if aMant = 0 then some (makeDouble resultSign exp bMant)
    else if bMant = 0 then some (makeDouble resultSign exp aMant)
    else none
  else none

def aeabiDmul (aBits bBits : BitVec 64) : Option (BitVec 64) :=
  let aExp := doubleExp aBits
  let bExp := doubleExp bBits
  let aMant := doubleMant aBits
  let bMant := doubleMant bBits
  let resultSign := doubleSign aBits ^^ doubleSign bBits
  if aExp = 0x7FF then
    if aMant ≠ 0 then some aBits
    else if bExp = 0x7FF ∧ bMant ≠ 0 then some bBits
    else if bExp = 0 ∧ bMant = 0 then some 0x7FF8000000000000
    else some (makeDouble resultSign 0x7FF 0)
  else if bExp = 0x7FF then
    if bMant ≠ 0 then some bBits
    else if aExp = 0 ∧ aMant = 0 then some 0x7FF8000000000000
    else some (makeDouble resultSign 0x7FF 0)
  else if aExp = 0 ∧ aMant = 0 ∨ bExp = 0 ∧ bMant = 0 then some (makeDouble resultSign 0 0)
  else
    match dmulPowerOfTwo resultSign aExp bExp aMant bMant with
    | some r => some r
    | none => dmulGeneral resultSign aExp bExp aMant bMant

def fmulAdjust (adj : ℤ) (product : BitVec 64) : BitVec 64 :=
  if 0 < adj then product <<< adj.toNat
  else if adj < 0 then sfpShrSticky64 product (-adj)
  else product

def fmulGeneral (resultSign : Bool) (aExp bExp : ℤ) (aMant bMant : BitVec 32) :
    Option (BitVec 32) :=
  let implicitBit := (1 : BitVec 32) <<< 23
  let aMant := if aExp ≠ 0 then aMant ||| implicitBit else aMant
  let aExp := if aExp ≠ 0 then aExp else 1
  let bMant := if bExp ≠ 0 then bMant ||| implicitBit else bMant
  let bExp := if bExp ≠ 0 then bExp else 1
  let product := aMant.setWidth 64 * bMant.setWidth 64
  let resultExp := aExp + bExp - 127
  let lead := 63 - clz64 product
  let adj := 46 - lead
  let resultMant := (sfpShrSticky64 (fmulAdjust adj product) (46 - (23 + 3))).setWidth 32
  sfpRoundPackFloat resultSign (resultExp - adj) resultMant

def aeabiFmul (aBits bBits : BitVec 32) : Option (BitVec 32) :=
  let resultSign := floatSign aBits ^^ floatSign bBits
  if isNanF aBits then some aBits
  else if isNanF bBits then some bBits
  else if isInfF aBits then
    if isZeroF bBits then some 0x7FC00000 else some (makeFloat resultSign 0xFF 0)
  else if isInfF bBits then
    if isZeroF aBits then some 0x7FC00000 else some (makeFloat resultSign 0xFF 0)
  else if isZeroF aBits ∨ isZeroF bBits then some (makeFloat resultSign 0 0)
  else fmulGeneral resultSign (floatExp aBits) (floatExp bBits) (floatMant aBits) (floatMant bBits)

end Tinycc
