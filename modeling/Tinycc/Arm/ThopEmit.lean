import Tinycc.Arm.ThumbImmediate

namespace Tinycc
open Lib

structure ThumbOpcode where
  size : ℕ
  opcode : BitVec 32
  deriving DecidableEq, Repr

inductive ThumbShiftType
  | none | rrx | lsl | lsr | asr | ror
  deriving DecidableEq, Repr

def ThumbShiftType.code : ThumbShiftType → ℕ
  | none => 0
  | rrx => 1
  | lsl => 2
  | lsr => 3
  | asr => 4
  | ror => 5

/-- `thumb_shift`; the mode is not read here. -/
structure ThumbShift where
  type : ThumbShiftType
  value : BitVec 32
  deriving DecidableEq, Repr

def thShiftValueToSrType (shift : ThumbShift) : BitVec 32 :=
  match shift.type with
  | .none | .lsl => 0#32
  | .lsr => 1#32
  | .asr => 2#32
  | .ror | .rrx => 3#32

inductive ThumbFlagsBehaviour
  | notImportant | set | block
  deriving DecidableEq, Repr

inductive ThumbEnforceEncoding
  | none | enforce16bit | enforce32bit
  deriving DecidableEq, Repr

/-- `bitfield`: where an operand lands; a width of 0 is an unused field. -/
structure ThopField where
  shift : ℕ := 0
  width : ℕ := 0
  deriving DecidableEq, Repr

inductive ImmKind
  | none | raw | packConst | pack381 | pack10110 | signedPuw
  deriving DecidableEq, Repr

structure ImmSpec where
  kind : ImmKind := .none
  width : ℕ := 0
  scaleLog2 : ℕ := 0
  isSigned : Bool := false
  deriving DecidableEq, Repr

abbrev RegMask := BitVec 16

def regAny : RegMask := 0#16
def regLowOnly : RegMask := 1#16
def regNotSp : RegMask := 2#16
def regNotPc : RegMask := 4#16
def regNotLr : RegMask := 8#16
def regEqRn : RegMask := 16#16
def regEqRm : RegMask := 32#16
def regSpOnly : RegMask := 64#16
def regPcOnly : RegMask := 128#16
def regLowRegset : RegMask := 256#16
def regRmBitNotSp : RegMask := 512#16
def regRmBitsNotLrPc : RegMask := 1024#16

def RegMask.has (con flag : RegMask) : Bool := con &&& flag ≠ 0#16

def thopRegOk (reg : BitVec 32) (con : RegMask) : Bool :=
  if con.has regLowOnly ∧ 7#32 < reg then false
  else if con.has regNotSp ∧ reg = 13#32 then false
  else if con.has regNotPc ∧ reg = 15#32 then false
  else if con.has regNotLr ∧ reg = 14#32 then false
  else if con.has regSpOnly ∧ reg ≠ 13#32 then false
  else if con.has regPcOnly ∧ reg ≠ 15#32 then false
  else true

structure ThopVariantShape where
  feat : BitVec 32 := 0#32
  imm : ImmSpec := {}
  rdPlace : ThopField := {}
  rnPlace : ThopField := {}
  rmPlace : ThopField := {}
  raPlace : ThopField := {}
  immPlace : ThopField := {}
  shiftTypeBits : ThopField := {}
  shiftImm2Bits : ThopField := {}
  shiftImm3Bits : ThopField := {}
  imm2Place : ThopField := {}
  splitImm2Place : ThopField := {}
  splitImm3Place : ThopField := {}
  puwBits : ThopField := {}
  rmRawPlace : ThopField := {}
  dnRdSplit : ThopField := {}
  rdCon : RegMask := regAny
  rnCon : RegMask := regAny
  rmCon : RegMask := regAny
  raCon : RegMask := regAny
  size : ℕ
  shiftAllowed : BitVec 6 := 0#6
  puwFixed : BitVec 8 := 0#8
  hasSBit : Bool := false
  implicitS : Bool := false
  forbidSInIt : Bool := false
  hasRdHi : Bool := false
  deriving DecidableEq, Repr

structure ThopArgs where
  rd : BitVec 32 := 0#32
  rn : BitVec 32 := 0#32
  rm : BitVec 32 := 0#32
  ra : BitVec 32 := 0#32
  imm : BitVec 32 := 0#32
  imm2 : BitVec 32 := 0#32
  shift : ThumbShift := ⟨.none, 0#32⟩
  flags : ThumbFlagsBehaviour := .notImportant
  enc : ThumbEnforceEncoding := .none
  inItBlock : Bool := false
  puw : BitVec 8 := 0#8
  excludeBit : BitVec 8 := 0#8
  deriving DecidableEq, Repr

/-- `thop_variant`; `custom` is the emitter in place of the encoding by shape. -/
structure ThopVariant where
  shape : ThopVariantShape
  base : BitVec 32
  custom : Option (BitVec 32 → ThopArgs → ThumbOpcode)

def thopPlace (val : BitVec 32) (bf : ThopField) : BitVec 32 :=
  if bf.width = 0 then 0#32 else (val &&& (1#32 <<< bf.width - 1#32)) <<< bf.shift

def thPackimm10110 (imm : BitVec 32) : BitVec 32 :=
  let imm11 := (imm >>> 1) &&& 0x7ff#32
  let imm10 := (imm >>> 12) &&& 0x3ff#32
  let s := (imm >>> 24) &&& 1#32
  let j1 := ~~~((imm >>> 23) ^^^ s) &&& 1#32
  let j2 := ~~~((imm >>> 22) ^^^ s) &&& 1#32
  s <<< 26 ||| imm10 <<< 16 ||| j1 <<< 13 ||| j2 <<< 11 ||| imm11

def thPackimm381 (imm : BitVec 32) : BitVec 32 :=
  let imm8 := imm &&& 0xff#32
  let imm3 := (imm >>> 8) &&& 0x7#32
  let i := (imm >>> 11) &&& 1#32
  let imm4 := (imm >>> 12) &&& 0xf#32
  i <<< 26 ||| imm4 <<< 16 ||| imm3 <<< 12 ||| imm8

def thopTryImm (s : ThopVariantShape) (imm : BitVec 32) : Option (BitVec 32) :=
  -- `th_pack_const` without its cache
  let spec := s.imm
  if spec.kind = .none then if imm = 0#32 then some 0#32 else none
  else if spec.isSigned ∧ 0 ≤ imm.toInt then none
  else
    let scaled := if spec.isSigned then -imm else imm
    if 0 < spec.scaleLog2 ∧ scaled &&& (1#32 <<< spec.scaleLog2 - 1#32) ≠ 0#32 then none
    else
      let scaled := scaled >>> spec.scaleLog2
      match spec.kind with
      | .raw => if 1#32 <<< spec.width ≤ scaled then none else some (thopPlace scaled s.immPlace)
      | .packConst => if packConst imm = 0#32 ∧ imm ≠ 0#32 then none else some (packConst imm)
      | .pack381 =>
        if (if spec.width ≠ 0 then 1#32 <<< spec.width ≤ scaled else 0xFFFF#32 < scaled) then none
        else some (thPackimm381 scaled)
      | .pack10110 => some (thPackimm10110 imm)
      | .none | .signedPuw => none

def thopFeat32Subset (sub : BitVec 32) (sup : BitVec 64) : Bool := sub &&& sup.setWidth 32 = sub

section Row

variable (feat : BitVec 64) (s : ThopVariantShape) (a : ThopArgs)

def thopRegFits (reg : BitVec 32) (place : ThopField) (con : RegMask) : Bool :=
  place.width = 0 && con = 0#16 || thopRegOk reg con

def thopRegsFit : Bool :=
  thopRegFits a.rd s.rdPlace s.rdCon && thopRegFits a.rn s.rnPlace s.rnCon &&
    thopRegFits a.rm s.rmPlace s.rmCon && thopRegFits a.ra s.raPlace s.raCon &&
    !(s.rdCon.has regEqRn && a.rd ≠ a.rn) && !(s.rdCon.has regEqRm && a.rd ≠ a.rm)

def thopSizeFits : Bool :=
  !(a.enc = .enforce16bit && s.size ≠ 2) && !(a.enc = .enforce32bit && s.size ≠ 4)

def thopFlagsFit : Bool :=
  !(a.flags = .set && !s.hasSBit && !s.implicitS) && !(a.flags = .block && s.implicitS) &&
    !(s.forbidSInIt && a.inItBlock && a.flags = .set) && !(s.implicitS && a.inItBlock)

def thopShiftFits : Bool :=
  a.shift.type = .none ||
    !((s.shiftTypeBits.width = 0 && s.shiftImm2Bits.width = 0 && s.shiftImm3Bits.width = 0) &&
        s.shiftAllowed = 0#6) &&
      !(s.shiftAllowed ≠ 0#6 && !s.shiftAllowed.getLsbD a.shift.type.code)

def thopPuwFits : Bool :=
  !(s.puwBits.width = 0 && s.puwFixed ≠ 0#8 && a.puw ≠ s.puwFixed)

def thopReglistFits : Bool :=
  !(s.rmCon.has regLowRegset && a.rm &&& ~~~0xff#32 ≠ 0#32) &&
    !(s.rmCon.has regRmBitNotSp && a.rm &&& 1#32 <<< 13 ≠ 0#32) &&
    !(s.rmCon.has regRmBitsNotLrPc && a.rm &&& (1#32 <<< 14 ||| 1#32 <<< 15) ≠ 0#32)

/-- The immediate field; a shape without one does not look at the immediate. -/
def thopImmBits : Option (BitVec 32) :=
  if s.imm.kind = .none then some 0#32 else thopTryImm s a.imm

def rmForPlace : BitVec 32 :=
  if s.rmRawPlace.width ≠ 0 ∧ a.excludeBit ≠ 0#8 then a.rm &&& ~~~(1#32 <<< a.excludeBit.toNat)
  else a.rm

def thopAssemble (base immBits : BitVec 32) : BitVec 32 :=
  base ||| thopPlace a.rd s.rdPlace |||
    (if s.hasRdHi then thopPlace (a.rd >>> s.rdPlace.width) ⟨7, 1⟩ else 0#32) |||
    thopPlace a.rn s.rnPlace ||| thopPlace a.rm s.rmPlace ||| thopPlace a.ra s.raPlace |||
    immBits |||
    (if s.dnRdSplit.width ≠ 0 then
      thopPlace ((a.rd >>> 3) &&& 1#32) ⟨7, 1⟩ |||
        thopPlace (a.rd &&& (1#32 <<< s.dnRdSplit.width - 1#32)) s.dnRdSplit
    else 0#32) |||
    (if s.hasSBit ∧ a.flags = .set then 1#32 <<< 20 else 0#32) |||
    thopPlace (thShiftValueToSrType a.shift) s.shiftTypeBits |||
    thopPlace (a.shift.value &&& 0x3#32) s.shiftImm2Bits |||
    thopPlace ((a.shift.value >>> 2) &&& 0x7#32) s.shiftImm3Bits |||
    thopPlace a.imm2 s.imm2Place ||| thopPlace (a.imm &&& 0x3#32) s.splitImm2Place |||
    thopPlace ((a.imm >>> 2) &&& 0x7#32) s.splitImm3Place |||
    thopPlace (a.puw.setWidth 32 &&& 0x7#32) s.puwBits |||
    thopPlace (rmForPlace s a) s.rmRawPlace

end Row

/-- One turn of the loop of `thop_emit_in`: the opcode of a row, or `none` where the loop goes on. -/
def thopRow (feat : BitVec 64) (a : ThopArgs) (v : ThopVariant) : Option ThumbOpcode :=
  let s := v.shape
  if thopFeat32Subset s.feat feat = false then none
  else if thopSizeFits s a = false then none
  else if thopRegsFit s a = false then none
  else if thopFlagsFit s a = false then none
  else if thopShiftFits s a = false then none
  else if thopPuwFits s a = false then none
  else
    match thopImmBits s a with
    | none => none
    | some immBits =>
      if thopReglistFits s a = false then none
      else
        match v.custom with
        | some emit => if (emit v.base a).size ≠ 0 then some (emit v.base a) else none
        | none => some ⟨s.size, thopAssemble s a v.base immBits⟩

/-- `thop_emit_in`; `thop_emit_error_in` is the opcode of size 0. -/
def thopEmitIn (feat : BitVec 64) (table : List ThopVariant) (a : ThopArgs) : ThumbOpcode :=
  (table.findSome? (thopRow feat a)).getD ⟨0, 0#32⟩

section Acceptance

variable {feat : BitVec 64} {a : ThopArgs} {v : ThopVariant}

def thopAccepts (s : ThopVariantShape) (a : ThopArgs) : Bool :=
  thopSizeFits s a && thopRegsFit s a && thopFlagsFit s a && thopShiftFits s a && thopPuwFits s a &&
    (thopImmBits s a).isSome && thopReglistFits s a

/-- The opcode of a row that passes the tests; an emitter can still refuse. -/
def thopEncode (v : ThopVariant) (a : ThopArgs) : Option ThumbOpcode :=
  match v.custom with
  | some emit => if (emit v.base a).size ≠ 0 then some (emit v.base a) else none
  | none => some ⟨v.shape.size, thopAssemble v.shape a v.base ((thopImmBits v.shape a).getD 0#32)⟩

theorem thopRow_eq (feat : BitVec 64) (a : ThopArgs) (v : ThopVariant) :
    thopRow feat a v =
      if thopFeat32Subset v.shape.feat feat = true ∧ thopAccepts v.shape a = true then
        thopEncode v a
      else none := by
  unfold thopRow thopAccepts thopEncode
  dsimp only
  cases thopFeat32Subset v.shape.feat feat <;> cases thopSizeFits v.shape a <;>
    cases thopRegsFit v.shape a <;> cases thopFlagsFit v.shape a <;>
    cases thopShiftFits v.shape a <;> cases thopPuwFits v.shape a <;>
    first
    | rfl
    | skip
  cases thopImmBits v.shape a with
  | none => rfl
  | some bits => cases thopReglistFits v.shape a <;> rfl

end Acceptance

end Tinycc
