import Tinycc.Arm.ThumbImmediate

namespace Tinycc
open Lib BitVec

abbrev Memory := BitVec 32 → BitVec 8

def Memory.word (mem : Memory) (addr : BitVec 32) : BitVec 32 :=
  mem (addr + 3) ++ mem (addr + 2) ++ mem (addr + 1) ++ mem addr

/-- A core in Thumb state: `r0` to `r14`, the program counter, the T bit, the flags and the memory. -/
structure ThumbMachine where
  reg : BitVec 4 → BitVec 32
  pc : BitVec 32
  thumb : Bool
  flags : BitVec 4
  mem : Memory

inductive VeneerInstr
  /-- LDR (immediate), T3 -/
  | ldr (rt rn : BitVec 4) (imm : BitVec 32)
  /-- ADD (immediate) that leaves the flags alone, T3 and T4 -/
  | addImm (rd rn : BitVec 4) (imm : BitVec 32)
  /-- MOV (immediate), T3 -/
  | movw (rd : BitVec 4) (imm : BitVec 32)
  /-- ADD (register), T2 -/
  | addReg (rdn rm : BitVec 4)
  | bx (rm : BitVec 4)
  | nop
  deriving DecidableEq, Repr

def decodeVeneer16 (hw : BitVec 16) : Option VeneerInstr :=
  if hw &&& 0xff00#16 = 0x4400#16 then
    some (.addReg (hw.extractLsb' 7 1 ++ hw.extractLsb' 0 3) (hw.extractLsb' 3 4))
  else if hw &&& 0xff87#16 = 0x4700#16 then some (.bx (hw.extractLsb' 3 4))
  else if hw = 0xbf00#16 then some .nop
  else none

def decodeVeneer32 (w : BitVec 32) : Option VeneerInstr :=
  if w &&& 0xfff00000#32 = 0xf8d00000#32 then
    some (.ldr (w.extractLsb' 12 4) (w.extractLsb' 16 4) (w &&& 0xfff#32))
  else if w &&& 0xfbf08000#32 = 0xf2000000#32 then
    some (.addImm (w.extractLsb' 8 4) (w.extractLsb' 16 4) ((modImmFields w).setWidth 32))
  else if w &&& 0xfbf08000#32 = 0xf1000000#32 then
    (thumbExpandImm (modImmFields w)).map (.addImm (w.extractLsb' 8 4) (w.extractLsb' 16 4) ·)
  else if w &&& 0xfbf08000#32 = 0xf2400000#32 then
    some (.movw (w.extractLsb' 8 4) ((w.extractLsb' 16 4 ++ modImmFields w).setWidth 32))
  else none

def halfAt (mem : Memory) (a : BitVec 32) : BitVec 16 := mem (a + 1#32) ++ mem a

def isWide (hw : BitVec 16) : Bool := 0xe800#16 ≤ hw

def fetchVeneer (mem : Memory) (a : BitVec 32) : Option (VeneerInstr × BitVec 32) :=
  if isWide (halfAt mem a) then
    (decodeVeneer32 (halfAt mem a ++ halfAt mem (a + 2#32))).map (·, 4#32)
  else (decodeVeneer16 (halfAt mem a)).map (·, 2#32)

namespace ThumbMachine

variable (m : ThumbMachine)

def write (rd : BitVec 4) (v size : BitVec 32) : ThumbMachine :=
  { m with reg := Function.update m.reg rd v, pc := m.pc + size }

theorem write_reg_self (rd : BitVec 4) (v size : BitVec 32) : (m.write rd v size).reg rd = v := by
  simp [write]

theorem write_reg_of_ne {r rd : BitVec 4} (h : r ≠ rd) (v size : BitVec 32) :
    (m.write rd v size).reg r = m.reg r := by
  simp [write, h]

/-- `BXWritePC` -/
def branchTo (v : BitVec 32) : ThumbMachine :=
  { m with pc := v &&& ~~~1#32, thumb := v.getLsbD 0 }

/-- What an instruction does; `none` where the architecture does not say or the program counter is
an operand in another way than below. -/
def exec (size : BitVec 32) : VeneerInstr → Option ThumbMachine
  | .ldr rt rn imm =>
    if rn = 15#4 then none
    else if rt = 15#4 then
      if (m.reg rn + imm) &&& 3#32 = 0#32 then some (m.branchTo (m.mem.word (m.reg rn + imm)))
      else none
    else some (m.write rt (m.mem.word (m.reg rn + imm)) size)
  | .addImm rd rn imm =>
    if rd = 15#4 ∨ rn = 15#4 then none else some (m.write rd (m.reg rn + imm) size)
  | .movw rd imm => if rd = 15#4 then none else some (m.write rd imm size)
  | .addReg rdn rm =>
    if rdn = 15#4 ∨ rm = 15#4 then none else some (m.write rdn (m.reg rdn + m.reg rm) size)
  | .bx rm => if rm = 15#4 then none else some (m.branchTo (m.reg rm))
  | .nop => some { m with pc := m.pc + size }

def step : Option ThumbMachine :=
  if m.thumb then
    match fetchVeneer m.mem m.pc with
    | none => none
    | some (instr, size) => m.exec size instr
  else none

def run : ℕ → ThumbMachine → Option ThumbMachine
  | 0, m => some m
  | n + 1, m =>
    match m.step with
    | none => none
    | some m' => run n m'

/-- Some number of instructions leads from one state to another. -/
def Runs (m m' : ThumbMachine) : Prop := ∃ n, run n m = some m'

variable {m} {m' m'' : ThumbMachine}

theorem Runs.refl : Runs m m := ⟨0, rfl⟩

theorem Runs.trans (h : Runs m m') (h' : Runs m' m'') : Runs m m'' := by
  obtain ⟨n, hn⟩ := h
  obtain ⟨n', hn'⟩ := h'
  refine ⟨n + n', ?_⟩
  induction n generalizing m with
  | zero =>
    cases hn
    rw [Nat.zero_add]
    exact hn'
  | succ n ih =>
    rw [run] at hn
    rw [Nat.succ_add, run]
    cases hstep : m.step with
    | none =>
      rw [hstep] at hn
      cases hn
    | some m1 =>
      rw [hstep] at hn
      exact ih hn

theorem Runs.single (h : m.step = some m') : Runs m m' := ⟨1, by simp only [run, h]⟩

end ThumbMachine

section Placement

def holdsBytes (mem : Memory) : BitVec 32 → List (BitVec 8) → Prop
  | _, [] => True
  | a, b :: bs => mem a = b ∧ holdsBytes mem (a + 1#32) bs

instance holdsBytesDecidable (mem : Memory) :
    (a : BitVec 32) → (bs : List (BitVec 8)) → Decidable (holdsBytes mem a bs)
  | _, [] => isTrue trivial
  | a, b :: bs =>
    have := holdsBytesDecidable mem (a + 1#32) bs
    inferInstanceAs (Decidable (mem a = b ∧ holdsBytes mem (a + 1#32) bs))

def halvesAt (mem : Memory) : BitVec 32 → List (BitVec 16) → Prop
  | _, [] => True
  | a, v :: vs => halfAt mem a = v ∧ halvesAt mem (a + 2#32) vs

theorem halvesAt_append {mem : Memory} {a : BitVec 32} {vs ws : List (BitVec 16)}
    (h : halvesAt mem a (vs ++ ws)) :
    halvesAt mem a vs ∧ halvesAt mem (a + BitVec.ofNat 32 (2 * vs.length)) ws := by
  induction vs generalizing a with
  | nil => simpa using ⟨trivial, h⟩
  | cons v vs ih =>
    obtain ⟨hv, hrest⟩ := h
    obtain ⟨h1, h2⟩ := ih hrest
    refine ⟨⟨hv, h1⟩, ?_⟩
    have hadd : a + BitVec.ofNat 32 (2 * (v :: vs).length) =
        a + 2#32 + BitVec.ofNat 32 (2 * vs.length) := by
      rw [List.length_cons, BitVec.add_assoc, ← ofNat_add]
      congr 2
      omega
    rw [hadd]
    exact h2

variable {w : BitVec 32} {instr : VeneerInstr} {v1 v2 : BitVec 16} {l : List (BitVec 16)}

theorem toNat_le_of_and_eq {m v : BitVec 32} (h : w &&& m = v) : v.toNat ≤ w.toNat := by
  rw [← h]
  exact Nat.and_le_left

theorem le_toNat_of_decodeVeneer32 (h : decodeVeneer32 w = some instr) : 0xf0000000 ≤ w.toNat := by
  unfold decodeVeneer32 at h
  split_ifs at h with h1 h2 h3 h4
  · exact le_trans (by decide) (toNat_le_of_and_eq h1)
  · exact le_trans (by decide) (toNat_le_of_and_eq h2)
  · exact le_trans (by decide) (toNat_le_of_and_eq h3)
  · exact le_trans (by decide) (toNat_le_of_and_eq h4)

theorem isWide_of_decodeVeneer32 (h : decodeVeneer32 (v1 ++ v2) = some instr) :
    isWide v1 = true := by
  have hle := le_toNat_of_decodeVeneer32 h
  have hlt := v2.isLt
  rw [toNat_append, ← Nat.shiftLeft_add_eq_or_of_lt hlt] at hle
  unfold isWide
  rw [decide_eq_true_iff, le_def, toNat_ofNat]
  omega

theorem step_wide {m : ThumbMachine} (hthumb : m.thumb = true)
    (hcode : halvesAt m.mem m.pc (v1 :: v2 :: l))
    (hdecode : decodeVeneer32 (v1 ++ v2) = some instr) : m.step = m.exec 4#32 instr := by
  obtain ⟨h1, h2, -⟩ := hcode
  have hwide := isWide_of_decodeVeneer32 hdecode
  unfold ThumbMachine.step fetchVeneer
  rw [hthumb, h1, h2, hwide, hdecode]
  rfl

theorem step_narrow {m : ThumbMachine} {v : BitVec 16} (hthumb : m.thumb = true)
    (hcode : halvesAt m.mem m.pc (v :: l)) (hwide : isWide v = false)
    (hdecode : decodeVeneer16 v = some instr) :
    m.step = m.exec 2#32 instr := by
  unfold ThumbMachine.step fetchVeneer
  rw [hthumb, hcode.1, hwide, hdecode]
  rfl

end Placement

end Tinycc
