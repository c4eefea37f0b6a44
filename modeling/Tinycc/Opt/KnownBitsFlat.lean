import Tinycc.IR.Value

namespace Tinycc

structure KnownWord where
  kz : BitVec 32
  ko : BitVec 32
  deriving DecidableEq, Repr

namespace KnownWord

def const (x : BitVec 32) : KnownWord := ⟨~~~x, x⟩

def isFull (a : KnownWord) : Bool := a.kz ||| a.ko = 0xFFFFFFFF#32

end KnownWord

/-- The loop of `ADD` and `SUB` over the last `n` bits; `carry_known` is 1 all along. -/
def kbAddLoop (a b : KnownWord) : ℕ → Bool → KnownWord → KnownWord
  | 0, _, out => out
  | n + 1, carry, out =>
    let i := 31 - n
    let mask := 1#32 <<< i
    if (a.kz ||| a.ko).getLsbD i = false ∨ (b.kz ||| b.ko).getLsbD i = false then out
    else
      let aBit := a.ko.getLsbD i
      let bBit := b.ko.getLsbD i
      let sumBit := aBit ^^ bBit ^^ carry
      let newCarry := (aBit && bBit) || ((aBit ^^ bBit) && carry)
      kbAddLoop a b n newCarry
        (if sumBit then { out with ko := out.ko ||| mask } else { out with kz := out.kz ||| mask })

def kbHighMask (n : ℕ) : BitVec 32 := 0xFFFFFFFF#32 <<< (32 - n)

/-- `kb_compute`; it returns 1 if a bit is known in the result. -/
def kbCompute (op : TccIrOp) (a b : KnownWord) : KnownWord :=
  let n := (b.ko &&& 31#32).toNat
  match op with
  | .and => ⟨a.kz ||| b.kz, a.ko &&& b.ko⟩
  | .or => ⟨a.kz &&& b.kz, a.ko ||| b.ko⟩
  | .xor => ⟨(a.ko &&& b.ko) ||| (a.kz &&& b.kz), (a.ko &&& b.kz) ||| (a.kz &&& b.ko)⟩
  | .shl =>
    if b.isFull = false then ⟨0#32, 0#32⟩
    else if n = 0 then a
    else ⟨a.kz <<< n ||| ((1#32 <<< n) - 1#32), a.ko <<< n⟩
  | .shr =>
    if b.isFull = false then ⟨0#32, 0#32⟩
    else if n = 0 then a
    else ⟨a.kz >>> n ||| kbHighMask n, a.ko >>> n⟩
  | .sar =>
    if b.isFull = false then ⟨0#32, 0#32⟩
    else if n = 0 then a
    else if a.ko.getLsbD 31 then ⟨a.kz >>> n, a.ko >>> n ||| kbHighMask n⟩
    else if a.kz.getLsbD 31 then ⟨a.kz >>> n ||| kbHighMask n, a.ko >>> n⟩
    else ⟨a.kz >>> n, a.ko >>> n⟩
  | .assign | .load | .zext => a
  | .add => kbAddLoop a b 32 false ⟨0#32, 0#32⟩
  -- `a + ~b + 1`
  | .sub => kbAddLoop a ⟨b.ko, b.kz⟩ 32 true ⟨0#32, 0#32⟩
  | _ => ⟨0#32, 0#32⟩

/-- What the pass holds about a TEMP, as far as the narrowing of operands reads it. -/
structure TmpKB where
  gen : ℤ
  word : KnownWord
  isLow32 : Bool

structure KBState where
  tmpKb : ℕ → TmpKB
  maxTmpPos : ℕ
  currentGen : ℤ

def KBState.forget (st : KBState) (pos : ℕ) : KBState :=
  { st with tmpKb := Function.update st.tmpKb pos { st.tmpKb pos with gen := 0 } }

def IropBtype.isWide (b : IropBtype) : Bool := b = .int64 || b = .float32 || b = .float64

def IRQuadCompact.hasWideSrc (q : IRQuadCompact) : Bool :=
  q.getSrc1.btype.isWide || q.getSrc2.btype.isWide

def kbNarrows (op : TccIrOp) : Bool :=
  op = .shl || op = .shr || op = .sar || op = .and || op = .sub || op = .add || op = .assign ||
    op = .zext

/-- The low word of a doubleword operand, if all of it is known. -/
def KBState.low32Of (st : KBState) (s : IROperand) : Option (BitVec 32) :=
  match s.btype, s.vreg with
  | .int64, some ⟨.temp, sp⟩ =>
    let t := st.tmpKb sp
    if sp ≤ st.maxTmpPos ∧ t.gen = st.currentGen ∧ t.isLow32 ∧ t.word.isFull then some t.word.ko
    else none
  | _, _ => none

namespace IRQuadCompact

def narrowSrc1 (q : IRQuadCompact) (v : BitVec 32) : IRQuadCompact :=
  { q with src1 := .makeImm32 v .int32 }

def narrowSrc2 (q : IRQuadCompact) (v : BitVec 32) : IRQuadCompact :=
  { q with src2 := .makeImm32 v .int32 }

end IRQuadCompact

structure KbNarrow where
  st : KBState
  quad : IRQuadCompact
  consumed : Bool
  changes : ℕ

/-- `kb_dest_narrow_wide_src` for an instruction that defines the TEMP `dpos`. -/
def kbDestNarrowWideSrc (st : KBState) (q : IRQuadCompact) (dpos : ℕ) : KbNarrow :=
  if q.hasWideSrc = false then ⟨st, q, false, 0⟩
  else if kbNarrows q.op ∧ q.dest.btype ≠ .int64 then
    match st.low32Of q.getSrc1, st.low32Of q.getSrc2 with
    | some v, _ =>
      let q' := q.narrowSrc1 v
      if q'.hasWideSrc then ⟨st.forget dpos, q', true, 1⟩ else ⟨st, q', false, 1⟩
    | none, some v =>
      let q' := q.narrowSrc2 v
      if q'.hasWideSrc then ⟨st.forget dpos, q', true, 1⟩ else ⟨st, q', false, 1⟩
    | none, none => ⟨st.forget dpos, q, true, 0⟩
  else ⟨st.forget dpos, q, true, 0⟩

end Tinycc
