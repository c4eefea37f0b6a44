import Tinycc.Runtime.SoftCommon

namespace Tinycc

section Core

variable {w : ℕ}

def addAligned (roundPack : Bool → ℤ → BitVec w → Option (BitVec w)) (resultExp : ℤ)
    (aSign bSign : Bool) (aMant bMant : BitVec w) : Option (BitVec w) :=
  if aSign = bSign then roundPack aSign resultExp (aMant + bMant)
  else
    let resultMant := if bMant ≤ aMant then aMant - bMant else bMant - aMant
    let resultSign := if bMant ≤ aMant then aSign else bSign
    -- exact cancellation is +0
    if resultMant = 0 then some 0 else roundPack resultSign resultExp resultMant

/-- The part the two additions share, from the implicit bits on; `align` is the right shift of
the operand with the smaller exponent. -/
def addFinite (fracBits : ℕ) (align : BitVec w → ℤ → BitVec w)
    (roundPack : Bool → ℤ → BitVec w → Option (BitVec w)) (aSign bSign : Bool) (aExp bExp : ℤ)
    (aMant bMant : BitVec w) : Option (BitVec w) :=
  let implicitBit := (1 : BitVec w) <<< fracBits
  let aMant := if aExp ≠ 0 then aMant ||| implicitBit else aMant
  let aExp := if aExp ≠ 0 then aExp else 1
  let bMant := if bExp ≠ 0 then bMant ||| implicitBit else bMant
  let bExp := if bExp ≠ 0 then bExp else 1
  let expDiff := aExp - bExp
  let aMant := aMant <<< 3
  let bMant := bMant <<< 3
  if 0 < expDiff then addAligned roundPack aExp aSign bSign aMant (align bMant expDiff)
  else if expDiff < 0 then addAligned roundPack bExp aSign bSign (align aMant (-expDiff)) bMant
  else addAligned roundPack aExp aSign bSign aMant bMant

end Core

/-- The alignment shift that `__aeabi_dadd` writes out. -/
def daddAlign (mant : BitVec 64) (expDiff : ℤ) : BitVec 64 :=
  if expDiff < 64 then
    (mant >>> expDiff.toNat) ||| truthWord 64 (mant <<< (64 - expDiff).toNat ≠ 0)
  else truthWord 64 (mant ≠ 0)

def aeabiDadd (aBits bBits : BitVec 64) : Option (BitVec 64) :=
  let aSign := doubleSign aBits
  let bSign := doubleSign bBits
  let aExp := doubleExp aBits
  let bExp := doubleExp bBits
  let aMant := doubleMant aBits
  let bMant := doubleMant bBits
  if aExp = 0x7FF then
    if aMant ≠ 0 then some aBits
    else if bExp = 0x7FF then
      if bMant ≠ 0 then some bBits
      else if aSign ≠ bSign then some 0x7FF8000000000000
      else some aBits
    else some aBits
  else if bExp = 0x7FF then some bBits
  else if aExp = 0 ∧ aMant = 0 then
    if bExp = 0 ∧ bMant = 0 then some (if aSign && bSign then 1 <<< 63 else 0)
    else some bBits
  else if bExp = 0 ∧ bMant = 0 then some aBits
  else addFinite 52 daddAlign sfpRoundPackDouble aSign bSign aExp bExp aMant bMant

def aeabiDsub (aBits bBits : BitVec 64) : Option (BitVec 64) :=
  aeabiDadd aBits (bBits ^^^ ((1 : BitVec 64) <<< 63))

def aeabiFadd (aBits bBits : BitVec 32) : Option (BitVec 32) :=
  let aSign := floatSign aBits
  let bSign := floatSign bBits
  if isNanF aBits then some aBits
  else if isNanF bBits then some bBits
  else if isInfF aBits then
    if isInfF bBits ∧ aSign ≠ bSign then some 0x7FC00000 else some aBits
  else if isInfF bBits then some bBits
  else if isZeroF aBits ∧ isZeroF bBits then some (if aSign && bSign then 1 <<< 31 else 0)
  else if isZeroF aBits then some bBits
  else if isZeroF bBits then some aBits
  else addFinite 23 sfpShrSticky32 sfpRoundPackFloat aSign bSign (floatExp aBits) (floatExp bBits)
    (floatMant aBits) (floatMant bBits)

def aeabiFsub (aBits bBits : BitVec 32) : Option (BitVec 32) :=
  aeabiFadd aBits (bBits ^^^ ((1 : BitVec 32) <<< 31))

end Tinycc
