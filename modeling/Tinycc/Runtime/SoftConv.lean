import Tinycc.Runtime.SoftMul

namespace Tinycc

variable (a : BitVec 64)

def aeabiLlsr (b : ℕ) : BitVec 64 :=
  let low := lowWord a
  let high := highWord a
  if 32 ≤ b then (0 : BitVec 32) ++ (high >>> (b - 32))
  else if b ≠ 0 then (high >>> b) ++ ((low >>> b) ||| (high <<< (32 - b)))
  else a

def aeabiLlsl (b : ℕ) : BitVec 64 :=
  let low := lowWord a
  let high := highWord a
  if 32 ≤ b then (low <<< (b - 32)) ++ (0 : BitVec 32)
  else if b ≠ 0 then ((high <<< b) ||| (low >>> (32 - b))) ++ (low <<< b)
  else a

def armeabiClz32 (x : BitVec 32) : ℤ := clz32 x

def armeabiMsb64 : ℤ :=
  let hi := highWord a
  if hi ≠ 0 then 63 - armeabiClz32 hi else 31 - armeabiClz32 (lowWord a)

/-- The magnitude of a signed word. `__aeabi_i2d` negates it as a signed number, which wraps as the
unsigned negation of the others does. -/
def absWord {w : ℕ} (a : BitVec w) : BitVec w := if a.toInt < 0 then 0 - a else a

def wordToFloat (sign : Bool) (absA : BitVec 32) : Option (BitVec 32) :=
  let msbPos := 31 - clz32 absA
  let shift := (23 + 3) - msbPos
  let mant := if 0 ≤ shift then absA <<< shift.toNat else sfpShrSticky32 absA (-shift)
  sfpRoundPackFloat sign (127 + msbPos) mant

def aeabiI2f (a : BitVec 32) : Option (BitVec 32) :=
  if a = 0 then some 0 else wordToFloat (a.toInt < 0) (absWord a)

def aeabiUi2f (a : BitVec 32) : Option (BitVec 32) := if a = 0 then some 0 else wordToFloat false a

def wordToDouble (sign : Bool) (absA : BitVec 32) : BitVec 64 :=
  let msbPos := 31 - clz32 absA
  makeDouble sign (1023 + msbPos)
    (aeabiLlsl (absA.setWidth 64) (52 - msbPos).toNat &&& 0x000FFFFFFFFFFFFF)

def aeabiI2d (a : BitVec 32) : BitVec 64 :=
  if a = 0 then 0 else wordToDouble (a.toInt < 0) (absWord a)

def aeabiUi2d (a : BitVec 32) : BitVec 64 := if a = 0 then 0 else wordToDouble false a

/-- A nonzero 64-bit magnitude below a sign, rounded to the given fraction bits; the four
conversions of `armeabi.c` from 64-bit integers. -/
def magToBits {w : ℕ} (fracBits : ℕ) (bias : ℤ) (sign : BitVec w) (mag : BitVec 64) : BitVec w :=
  let fracMask := ((1 : BitVec w) <<< fracBits) - 1
  let msb := armeabiMsb64 mag
  let exp := bias + msb
  if msb ≤ fracBits then
    let mant := (mag.setWidth w <<< (fracBits - msb).toNat) &&& fracMask
    sign ||| (BitVec.ofInt w exp <<< fracBits) ||| mant
  else
    let shift := (msb - fracBits).toNat
    let mant := (mag >>> shift).setWidth w
    let dropped := mag &&& (((1 : BitVec 64) <<< shift) - 1)
    let half := (1 : BitVec 64) <<< (shift - 1)
    if half < dropped ∨ dropped = half ∧ mant &&& 1 ≠ 0 then
      let mant := mant + 1
      if mant = (1 : BitVec w) <<< (fracBits + 1) then
        sign ||| (BitVec.ofInt w (exp + 1) <<< fracBits) |||
          (((1 : BitVec w) <<< fracBits) &&& fracMask)
      else sign ||| (BitVec.ofInt w exp <<< fracBits) ||| (mant &&& fracMask)
    else sign ||| (BitVec.ofInt w exp <<< fracBits) ||| (mant &&& fracMask)

def aeabiUl2f : BitVec 32 := if a = 0 then 0 else magToBits 23 127 0 a

def aeabiUl2d : BitVec 64 := if a = 0 then 0 else magToBits 52 1023 0 a

def aeabiL2f : BitVec 32 :=
  if a = 0 then 0 else magToBits 23 127 (if a.toInt < 0 then 0x80000000 else 0) (absWord a)

def aeabiL2d : BitVec 64 :=
  if a = 0 then 0 else magToBits 52 1023 (if a.toInt < 0 then 0x8000000000000000 else 0) (absWord a)

def fixShift {m : ℕ} (shl shr : BitVec m → ℕ → BitVec m) (fracBits : ℕ) (mant : BitVec m)
    (actualExp : ℤ) : BitVec m :=
  let shift := actualExp - fracBits
  if 0 ≤ shift then shl mant shift.toNat else shr mant (-shift).toNat

def fixSigned {w : ℕ} (expMax bias : ℤ) (sign : Bool) (exp : ℤ) (magnitude : ℤ → BitVec w) :
    BitVec w :=
  if exp = expMax then 0
  else if exp = 0 then 0
  else
    let actualExp := exp - bias
    if actualExp < 0 then 0
    else if w - 1 ≤ actualExp then if sign then BitVec.intMin w else BitVec.intMax w
    else if sign then -magnitude actualExp else magnitude actualExp

def fixUnsigned {w : ℕ} (expMax bias : ℤ) (sign : Bool) (exp : ℤ) (magnitude : ℤ → BitVec w) :
    BitVec w :=
  if sign then 0
  else if exp = expMax then 0
  else if exp = 0 then 0
  else
    let actualExp := exp - bias
    if actualExp < 0 then 0
    else if w ≤ actualExp then BitVec.allOnes w
    else magnitude actualExp

variable (bits : BitVec 32)

def floatSig : BitVec 32 := floatMant bits ||| (1 <<< 23)

def doubleSig (bits : BitVec 64) : BitVec 64 := doubleMant bits ||| (1 <<< 52)

def aeabiF2iz : BitVec 32 :=
  fixSigned 0xFF 127 (floatSign bits) (floatExp bits)
    (fixShift (· <<< ·) (· >>> ·) 23 (floatSig bits))

def aeabiF2uiz : BitVec 32 :=
  fixUnsigned 0xFF 127 (floatSign bits) (floatExp bits)
    (fixShift (· <<< ·) (· >>> ·) 23 (floatSig bits))

def aeabiF2lz : BitVec 64 :=
  fixSigned 0xFF 127 (floatSign bits) (floatExp bits)
    (fixShift (· <<< ·) (· >>> ·) 23 ((floatSig bits).setWidth 64))

def aeabiF2ulz : BitVec 64 :=
  fixUnsigned 0xFF 127 (floatSign bits) (floatExp bits) fun actualExp =>
    if 64 ≤ actualExp - 23 then BitVec.allOnes 64
    else fixShift (· <<< ·) (· >>> ·) 23 ((floatSig bits).setWidth 64) actualExp

def aeabiD2iz (bits : BitVec 64) : BitVec 32 :=
  fixSigned 0x7FF 1023 (doubleSign bits) (doubleExp bits) fun actualExp =>
    (fixShift aeabiLlsl aeabiLlsr 52 (doubleSig bits) actualExp).setWidth 32

def aeabiD2uiz (bits : BitVec 64) : BitVec 32 :=
  fixUnsigned 0x7FF 1023 (doubleSign bits) (doubleExp bits) fun actualExp =>
    (fixShift aeabiLlsl aeabiLlsr 52 (doubleSig bits) actualExp).setWidth 32

def aeabiD2lz (bits : BitVec 64) : BitVec 64 :=
  fixSigned 0x7FF 1023 (doubleSign bits) (doubleExp bits)
    (fixShift aeabiLlsl aeabiLlsr 52 (doubleSig bits))

def aeabiD2ulz (bits : BitVec 64) : BitVec 64 :=
  fixUnsigned 0x7FF 1023 (doubleSign bits) (doubleExp bits) fun actualExp =>
    if 64 ≤ actualExp - 52 then BitVec.allOnes 64
    else fixShift aeabiLlsl aeabiLlsr 52 (doubleSig bits) actualExp

def doubleWords (sign : Bool) (exp : ℤ) (fracHi lo : BitVec 32) : BitVec 64 :=
  ((truthWord 32 sign <<< 31) ||| (BitVec.ofInt 32 exp <<< 20) ||| fracHi) ++ lo

def aeabiF2dBits : BitVec 64 :=
  let sign := floatSign bits
  let exp := floatExp bits
  let mant := floatMant bits
  if exp = 0xFF then doubleWords sign 0x7FF (mant >>> 3) (mant <<< 29)
  else if exp = 0 ∧ mant = 0 then doubleWords sign 0 0 0
  else if exp = 0 then
    let msbPos := 31 - clz32 mant
    let subExp := 1023 - 127 + 1 + msbPos - 23
    let dmant := aeabiLlsl (mant.setWidth 64) (52 - msbPos).toNat &&& 0x000FFFFFFFFFFFFF
    doubleWords sign subExp (highWord dmant) (lowWord dmant)
  else doubleWords sign (exp - 127 + 1023) (mant >>> 3) (mant <<< 29)

def aeabiD2f (bits : BitVec 64) : Option (BitVec 32) :=
  let sign := doubleSign bits
  let exp := doubleExp bits
  let mant := doubleMant bits
  if exp = 0x7FF then
    some ((truthWord 32 sign <<< 31) ||| 0x7F800000 ||| (lowWord (aeabiLlsr mant 29) &&& 0x007FFFFF))
  else if exp = 0 ∧ mant = 0 then some (truthWord 32 sign <<< 31)
  else
    let sig := if exp ≠ 0 then mant ||| (1 <<< 52) else mant
    let srcExp := if exp ≠ 0 then exp else 1
    let newMant := lowWord (sfpShrSticky64 sig (52 - (23 + 3)))
    sfpRoundPackFloat sign (srcExp - 1023 + 127) newMant

end Tinycc
