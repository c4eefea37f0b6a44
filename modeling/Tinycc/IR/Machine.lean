import Tinycc.Cfg.BuildSound
import Tinycc.Lib.Simulation

namespace Tinycc
open Lib

structure Nzcv where
  n : Bool
  z : Bool
  c : Bool
  v : Bool
  deriving DecidableEq, Repr, Inhabited

def mapcc (cc : BitVec 32) : Option ℕ :=
  if cc.toNat ≤ 0xd then some cc.toNat
  else if cc = 0x92#32 then some 0x3
  else if cc = 0x93#32 then some 0x2
  else if cc = 0x94#32 then some 0x0
  else if cc = 0x95#32 then some 0x1
  else if cc = 0x96#32 then some 0x9
  else if cc = 0x97#32 then some 0x8
  else if cc = 0x98#32 then some 0x4
  else if cc = 0x99#32 then some 0x5
  else if cc = 0x9c#32 then some 0xb
  else if cc = 0x9d#32 then some 0xa
  else if cc = 0x9e#32 then some 0xd
  else if cc = 0x9f#32 then some 0xc
  else none

def condPassed (code : ℕ) (f : Nzcv) : Bool :=
  match code with
  | 0x0 => f.z
  | 0x1 => !f.z
  | 0x2 => f.c
  | 0x3 => !f.c
  | 0x4 => f.n
  | 0x5 => !f.n
  | 0x6 => f.v
  | 0x7 => !f.v
  | 0x8 => f.c && !f.z
  | 0x9 => !f.c || f.z
  | 0xa => f.n == f.v
  | 0xb => f.n != f.v
  | 0xc => !f.z && f.n == f.v
  | 0xd => f.z || f.n != f.v
  | _ => true

def jumpTaken (cc : BitVec 32) (f : Nzcv) : Option Bool := (mapcc cc).map (condPassed · f)

/-- A cast of an immediate to `int`, as a word. -/
def IROperand.getImm32 (op : IROperand) : BitVec 32 := op.getImm64.truncate 32

theorem IROperand.getImmInt_eq (op : IROperand) : op.getImmInt = op.getImm32.toInt := rfl

/-- The meaning of the instructions: what each does to the vregs and to everything else, the world.
Temporaries have no address, so an instruction reads and writes those alone that it names; of the
other vregs nothing is asked. -/
structure IrSem (Val World : Type) where
  exec : IRQuadCompact → (Vreg → Val) → World → Except World ((Vreg → Val) × World)
  /-- The entry of its table that a `SWITCH_TABLE` takes. -/
  switchIndex : IRQuadCompact → (Vreg → Val) → World → ℤ
  flags : World → Nzcv
  uses : IRQuadCompact → Set Vreg
  defs : IRQuadCompact → Set Vreg
  exec_error {q : IRQuadCompact} {σ τ : Vreg → Val} {w w' : World} :
    (∀ v, v ∈ uses q ∨ v.type ≠ .temp → σ v = τ v) → exec q σ w = .error w' →
      exec q τ w = .error w'
  exec_ok {q : IRQuadCompact} {σ τ σ' : Vreg → Val} {w w' : World} :
    (∀ v, v ∈ uses q ∨ v.type ≠ .temp → σ v = τ v) → exec q σ w = .ok (σ', w') →
      ∃ τ', exec q τ w = .ok (τ', w') ∧ ∀ v, v ∈ defs q ∨ v.type ≠ .temp → σ' v = τ' v
  exec_frame {q : IRQuadCompact} {σ σ' : Vreg → Val} {w w' : World} :
    exec q σ w = .ok (σ', w') → ∀ v, v.type = .temp → v ∉ defs q → σ' v = σ v
  /-- A branch gives no vreg a value. -/
  defs_branch {q : IRQuadCompact} :
    q.op = .jump ∨ q.op = .jumpif ∨ q.op = .switchTable → defs q = ∅
  switchIndex_congr {q : IRQuadCompact} {σ τ : Vreg → Val} (w : World) :
    (∀ v, v ∈ uses q ∨ v.type ≠ .temp → σ v = τ v) → switchIndex q σ w = switchIndex q τ w

structure IrState (Val World : Type) where
  pc : ℕ
  regs : Vreg → Val
  world : World

def TccIrOp.isBranch : TccIrOp → Bool
  | .jump | .jumpif | .switchTable => true
  | _ => false

namespace IrSem

variable {Val World : Type} (sem : IrSem Val World) (ir : TCCIRState)

/-- Where control goes after an instruction, if it goes on. -/
def control (i : ℕ) (σ : Vreg → Val) (w : World) : Option ℤ :=
  let q := ir.quad i
  if q.op = .jump then some q.getDest.getImmInt
  else if q.op = .jumpif then
    (jumpTaken q.getSrc1.getImm32 (sem.flags w)).map fun taken =>
      if taken then q.getDest.getImmInt else i + 1
  else if q.op = .switchTable then
    (TCCIRState.lookup ir.switchTables q.getSrc2.getImmInt).bind fun table =>
      TCCIRState.lookup table.targets (sem.switchIndex q σ w)
  else if fallsThrough q then some (i + 1)
  else none

def effect (q : IRQuadCompact) (σ : Vreg → Val) (w : World) : Except World ((Vreg → Val) × World) :=
  if q.op.isBranch then .ok (σ, w) else sem.exec q σ w

/-- Control goes to `t`; a negative index leaves the function for good. -/
def goto (onEdge : ℕ → ℕ → (Vreg → Val) → Vreg → Val) (i : ℕ) (σ : Vreg → Val) (w : World)
    (t : Option ℤ) : IrState Val World ⊕ World :=
  match t with
  | some t => if 0 ≤ t then .inl ⟨t.toNat, onEdge i t.toNat σ, w⟩ else .inr w
  | none => .inr w

def machine (onEdge : ℕ → ℕ → (Vreg → Val) → Vreg → Val) : Machine (IrState Val World) World :=
  fun s =>
    if s.pc < ir.nextInstructionIndex then
      match sem.effect (ir.quad s.pc) s.regs s.world with
      | .error w => .inr w
      | .ok (σ, w) => goto onEdge s.pc σ w (sem.control ir s.pc σ w)
    else .inr s.world

def flatMachine : Machine (IrState Val World) World := sem.machine ir fun _ _ σ => σ

variable {sem ir} {onEdge : ℕ → ℕ → (Vreg → Val) → Vreg → Val} {s s' : IrState Val World}
  {σ : Vreg → Val} {w : World} {t : ℤ} {i : ℕ}

theorem machine_of_ge (h : ir.nextInstructionIndex ≤ s.pc) :
    sem.machine ir onEdge s = .inr s.world :=
  if_neg (Nat.not_lt.mpr h)

theorem machine_of_error (h : s.pc < ir.nextInstructionIndex)
    (he : sem.effect (ir.quad s.pc) s.regs s.world = .error w) :
    sem.machine ir onEdge s = .inr w := by
  simp only [machine, if_pos h, he]

theorem machine_of_ok (h : s.pc < ir.nextInstructionIndex)
    (he : sem.effect (ir.quad s.pc) s.regs s.world = .ok (σ, w)) :
    sem.machine ir onEdge s = goto onEdge s.pc σ w (sem.control ir s.pc σ w) := by
  simp only [machine, if_pos h, he]

theorem goto_of_nonneg (h : 0 ≤ t) :
    goto onEdge i σ w (some t) = .inl ⟨t.toNat, onEdge i t.toNat σ, w⟩ := if_pos h

theorem goto_of_neg (h : t < 0) : goto onEdge i σ w (some t) = .inr w := if_neg (by omega)

theorem effect_of_branch {q : IRQuadCompact} (h : q.op.isBranch = true) :
    sem.effect q σ w = .ok (σ, w) := if_pos h

theorem effect_of_not_branch {q : IRQuadCompact} (h : q.op.isBranch = false) :
    sem.effect q σ w = sem.exec q σ w := if_neg (by rw [h]; exact Bool.false_ne_true)

theorem transfer_of_control (hi : i < ir.nextInstructionIndex)
    (h : sem.control ir i σ w = some t) (h0 : 0 ≤ t) (ht : t < ir.nextInstructionIndex) :
    Transfer ir i t.toNat := by
  have hcast : ((t.toNat : ℕ) : ℤ) = t := Int.toNat_of_nonneg h0
  have hlt : t.toNat < ir.nextInstructionIndex := by omega
  unfold control at h
  dsimp only at h
  split at h
  · next hop =>
    exact .jump hi hlt hop (by rw [hcast]; exact Option.some.inj h)
  · split at h
    · next hop =>
      obtain ⟨taken, _, htaken⟩ := Option.map_eq_some_iff.mp h
      cases taken with
      | true => exact .jumpif hi hlt hop (by rw [hcast]; exact htaken)
      | false =>
        have hnext : t.toNat = i + 1 := by
          have : (i : ℤ) + 1 = t := htaken
          omega
        rw [hnext] at hlt ⊢
        refine .fallThrough hlt ?_
        simp [fallsThrough, hop, cfgInstrEndsFlow]
    · split at h
      · next hop =>
        obtain ⟨table, htable, hentry⟩ := Option.bind_eq_some_iff.mp h
        refine .switchTable hi hlt hop htable ?_
        unfold TCCIRState.lookup at hentry
        split at hentry
        · rw [hcast]
          exact List.mem_of_getElem? hentry
        · cases hentry
      · split at h
        · next hfall =>
          have hnext : t.toNat = i + 1 := by
            have : (i : ℤ) + 1 = t := Option.some.inj h
            omega
          rw [hnext] at hlt ⊢
          exact .fallThrough hlt hfall
        · cases h

end IrSem

end Tinycc
