import Tinycc.Runtime.Divmod

namespace Tinycc

def doubleSign (bits : BitVec 64) : Bool := (bits >>> 63) &&& 1 ≠ 0

def doubleExp (bits : BitVec 64) : ℤ := ((bits >>> 52) &&& 0x7FF).toNat

def doubleMant (bits : BitVec 64) : BitVec 64 := bits &&& 0x000FFFFFFFFFFFFF

def makeDouble (sign : Bool) (exp : ℤ) (mant : BitVec 64) : BitVec 64 :=
  ((if sign then 1 else 0 : BitVec 64) <<< 63) ||| ((BitVec.ofInt 64 exp &&& 0x7FF) <<< 52) |||
    (mant &&& 0x000FFFFFFFFFFFFF)

variable (bits : BitVec 32)

def floatSign : Bool := (bits >>> 31) &&& 1 ≠ 0

def floatExp : ℤ := ((bits >>> 23) &&& 0xFF).toNat

def floatMant : BitVec 32 := bits &&& 0x007FFFFF

def isNanF : Bool := floatExp bits = 0xFF ∧ floatMant bits ≠ 0

def isInfF : Bool := floatExp bits = 0xFF ∧ floatMant bits = 0

def isZeroF : Bool := floatExp bits = 0 ∧ floatMant bits = 0

def makeFloat (sign : Bool) (exp : ℤ) (mant : BitVec 32) : BitVec 32 :=
  ((if sign then 1 else 0 : BitVec 32) <<< 31) ||| (BitVec.ofInt 32 exp <<< 23) ||| (mant &&& 0x007FFFFF)

def clz32 (x : BitVec 32) : ℤ := if x = 0 then 32 else (clzNormalise x).2

def clz64 (x : BitVec 64) : ℤ :=
  let hi := (x >>> 32).setWidth 32
  if hi ≠ 0 then clz32 hi else 32 + clz32 (x.setWidth 32)

section RoundPack

variable {w : ℕ}

def truthWord (w : ℕ) (b : Bool) : BitVec w := if b then 1 else 0

def sfpShrSticky (m : BitVec w) (shift : ℤ) : BitVec w :=
  if shift ≤ 0 then m
  else if (w : ℤ) ≤ shift then truthWord w (m ≠ 0)
  else (m >>> shift.toNat) ||| truthWord w (m &&& (((1 : BitVec w) <<< shift.toNat) - 1) ≠ 0)

def sfpShrSticky32 (m : BitVec 32) (shift : ℤ) : BitVec 32 := sfpShrSticky m shift

def sfpShrSticky64 (m : BitVec 64) (shift : ℤ) : BitVec 64 := sfpShrSticky m shift

/-- `while (mant >= limit) { mant = halve(mant); exp++; }`; the number bounds the tests. -/
def shiftDown (limit : BitVec w) (halve : BitVec w → BitVec w) :
    ℕ → ℤ → BitVec w → Option (ℤ × BitVec w)
  | 0, _, _ => none
  | n + 1, exp, mant =>
    if limit ≤ mant then shiftDown limit halve n (exp + 1) (halve mant) else some (exp, mant)

def shiftUp (limit : BitVec w) : ℕ → ℤ → BitVec w → Option (ℤ × BitVec w)
  | 0, _, _ => none
  | n + 1, exp, mant =>
    if mant < limit then shiftUp limit n (exp - 1) (mant <<< 1) else some (exp, mant)

/-- The round step: three low bits off, to nearest, ties to even. -/
def roundGuardBits (mant : BitVec w) : BitVec w :=
  let lsb := mant &&& ((1 : BitVec w) <<< 3)
  let rem := mant &&& (((1 : BitVec w) <<< 3) - 1)
  (if (1 : BitVec w) <<< 2 < rem ∨ rem = (1 : BitVec w) <<< 2 ∧ lsb ≠ 0 then
    mant + ((1 : BitVec w) <<< 3) else mant) >>> 3

def packRounded (fracBits : ℕ) (expMax : ℤ) (make : Bool → ℤ → BitVec w → BitVec w)
    (sign : Bool) (exp : ℤ) (mant : BitVec w) : BitVec w :=
  -- the carry into the next binade, overflow, and the packing
  let implicitBit := (1 : BitVec w) <<< fracBits
  let carry := mant &&& (implicitBit <<< 1) ≠ 0
  let exp' :=
    if exp = 0 then (if mant &&& implicitBit ≠ 0 then 1 else exp)
    else if carry then exp + 1 else exp
  let mant' := if exp ≠ 0 ∧ carry then mant >>> 1 else mant
  if expMax ≤ exp' then make sign expMax 0 else make sign exp' mant'

/-- `sfp_round_pack_float` and `sfp_round_pack_double`, of a format with the given fraction bits,
largest exponent, shift by one and packing. -/
def sfpRoundPack (fracBits : ℕ) (expMax : ℤ) (halve : BitVec w → BitVec w)
    (make : Bool → ℤ → BitVec w → BitVec w) (sign : Bool) (exp : ℤ) (mant : BitVec w) :
    Option (BitVec w) :=
  let normBit := (1 : BitVec w) <<< (fracBits + 3)
  if mant = 0 then some (make sign 0 0)
  else do
    let (exp, mant) ← shiftDown (normBit <<< 1) halve w exp mant
    let (exp, mant) ← shiftUp normBit w exp mant
    if exp ≤ 0 then
      some (packRounded fracBits expMax make sign 0 (roundGuardBits (sfpShrSticky mant (1 - exp))))
    else some (packRounded fracBits expMax make sign exp (roundGuardBits mant))

def sfpRoundPackFloat : Bool → ℤ → BitVec 32 → Option (BitVec 32) :=
  sfpRoundPack 23 0xFF (fun mant => sfpShrSticky32 mant 1) makeFloat

/-- The shift by one is written out here. -/
def sfpRoundPackDouble : Bool → ℤ → BitVec 64 → Option (BitVec 64) :=
  sfpRoundPack 52 0x7FF (fun mant => (mant >>> 1) ||| (mant &&& 1)) makeDouble

end RoundPack

end Tinycc
