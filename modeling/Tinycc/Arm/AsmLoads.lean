import Tinycc.Lib.SweepSchedule

/-!
# Loading the operands of an inline asm statement

The operands are loaded into the registers the constraints ask for, as a parallel move.  A cycle is
broken through the stack: one source is pushed and later popped into its destination, together with
`lr` so that two registers are transferred.
-/

namespace Tinycc
open Lib Function Finset

/-- What a load reads: a register, memory through a pointer in a register, or something that no
load can destroy, such as a stack slot or a constant. -/
inductive AsmSource (β : Type*)
  | reg (r : ℕ)
  | deref (r : ℕ)
  | other (k : β)

structure AsmLoad (β : Type*) where
  dest : ℕ
  source : AsmSource β

/-- What the prolog reads of an operand: `llocalMemory` is set for a memory operand whose address is
in a stack slot, `source` is the value to load. -/
structure ASMOperand (β : Type*) where
  reg : Option ℕ
  llocalMemory : Bool
  isRw : Bool
  isLlong : Bool
  source : AsmSource β

variable {β : Type*}

def ASMOperand.load (nbOutputs i : ℕ) (op : ASMOperand β) : Except String (Option (AsmLoad β)) :=
  match op.reg with
  | none => .ok none
  | some reg =>
    if op.llocalMemory then .ok (some ⟨reg, op.source⟩)
    else if nbOutputs ≤ i ∨ op.isRw then
      if op.isLlong then .error "long long not implemented" else .ok (some ⟨reg, op.source⟩)
    else .ok none

def asmLoads (nbOutputs : ℕ) : ℕ → List (ASMOperand β) → Except String (List (AsmLoad β))
  | _, [] => .ok []
  | i, op :: ops => do
    let load ← op.load nbOutputs i
    let loads ← asmLoads nbOutputs (i + 1) ops
    return load.toList ++ loads

def AsmSource.srcReg : AsmSource β → Option ℕ
  | .reg r => some r
  | _ => none

inductive AsmInstr (β : Type*)
  | load (dest : ℕ) (source : AsmSource β)
  | push (src : ℕ)
  | pop (dest : ℕ)

section Sequence

variable (loads : List (AsmLoad β))

def loadDest (i : ℕ) : ℕ := (loads.getD i ⟨0, .reg 0⟩).dest

def loadSource (i : ℕ) : AsmSource β := (loads.getD i ⟨0, .reg 0⟩).source

def asmEventInstr : SweepEvent ℕ → AsmInstr β
  | .emit i _ parked =>
    if parked then .pop (loadDest loads i) else .load (loadDest loads i) (loadSource loads i)
  | .park _ src => .push src

def asmSequence : Option (List (AsmInstr β)) :=
  (sweepSchedule (loadDest loads) none loads.length fun i => (loadSource loads i).srcReg).map
    fun ev => ev.map (asmEventInstr loads)

end Sequence

/-! ## The machine -/

structure AsmMachine where
  regs : ℕ → BitVec 32
  sp : ℤ
  stack : ℤ → BitVec 32

/-- What the loads read besides registers: memory through a pointer, and the operands that depend
at most on the stack pointer. -/
structure AsmEnv (β : Type*) where
  deref : BitVec 32 → BitVec 32
  other : β → ℤ → BitVec 32

namespace AsmMachine

variable (env : AsmEnv β)

def value (m : AsmMachine) : AsmSource β → BitVec 32
  | .reg r => m.regs r
  | .deref r => env.deref (m.regs r)
  | .other k => env.other k m.sp

def exec (m : AsmMachine) : AsmInstr β → AsmMachine
  | .load dest source => { m with regs := update m.regs dest (m.value env source) }
  | .push src =>
    { m with
      sp := m.sp - 8
      stack := update (update m.stack (m.sp - 8) (m.regs src)) (m.sp - 4)
        (m.regs 14) }
  | .pop dest =>
    { m with
      regs := update (update m.regs dest (m.stack m.sp)) 14 (m.stack (m.sp + 4))
      sp := m.sp + 8 }

theorem exec_load_regs (m : AsmMachine) (dest : ℕ) (source : AsmSource β) :
    (m.exec env (.load dest source)).regs
      = update m.regs dest (m.value env source) := rfl

theorem exec_pop_regs (m : AsmMachine) (dest : ℕ) :
    (m.exec env (.pop dest)).regs
      = update (update m.regs dest (m.stack m.sp)) 14 (m.stack (m.sp + 4)) := rfl

theorem exec_push_stack (m : AsmMachine) (src : ℕ) :
    (m.exec env (.push src)).stack
      = update (update m.stack (m.sp - 8) (m.regs src)) (m.sp - 4)
        (m.regs 14) := rfl

def run (m : AsmMachine) (code : List (AsmInstr β)) : AsmMachine := code.foldl (exec env) m

end AsmMachine

/-- Code in which pushes and pops nest: a value is pushed only when none is parked, and popped into
the destination of the load that was to read it. -/
inductive Nested (loads : List (AsmLoad β)) : List (AsmInstr β) → Prop
  | nil : Nested loads []
  | load {c : List (AsmInstr β)} (dest : ℕ) (source : AsmSource β) (h : Nested loads c) :
    Nested loads (c ++ [.load dest source])
  | park {c mid : List (AsmInstr β)} {i r : ℕ} (h : Nested loads c) (hi : i < loads.length)
    (hr : loadSource loads i = .reg r) (hmid : ∀ x ∈ mid, ∃ d s, x = .load d s) :
    Nested loads (c ++ .push r :: mid ++ [.pop (loadDest loads i)])

/-- The loads go to distinct registers that the constraint solver hands out. -/
def AsmPlaced (loads : List (AsmLoad β)) : Prop :=
  (loads.map AsmLoad.dest).Nodup ∧ ∀ l ∈ loads, l.dest ≤ 8

/-- The sequence of loads is emitted, nests its pushes and pops, and gives every operand its
value; the stack pointer and the link register are as before. -/
def AsmSequenced (loads : List (AsmLoad β)) : Prop :=
  ∃ code, asmSequence loads = some code ∧ Nested loads code ∧
    ∀ (env : AsmEnv β) (m : AsmMachine), (m.run env code).sp = m.sp ∧
      (m.run env code).regs 14 = m.regs 14 ∧
      ∀ l ∈ loads, (m.run env code).regs l.dest = m.value env l.source

/-! ## The invariant -/

section Invariant

variable {loads : List (AsmLoad β)} {env : AsmEnv β} {m : AsmMachine} {P K : Finset ℕ}
  {src : ℕ → Option ℕ} {ev : List (SweepEvent ℕ)} {i : ℕ}

def asmCode (loads : List (AsmLoad β)) (ev : List (SweepEvent ℕ)) : List (AsmInstr β) :=
  ev.map (asmEventInstr loads)

theorem asmCode_snoc (loads : List (AsmLoad β)) (ev : List (SweepEvent ℕ)) (e : SweepEvent ℕ) :
    asmCode loads (ev ++ [e]) = asmCode loads ev ++ [asmEventInstr loads e] := by
  rw [asmCode, List.map_append]
  rfl

theorem run_snoc (m : AsmMachine) (c : List (AsmInstr β)) (x : AsmInstr β) :
    m.run env (c ++ [x]) = (m.run env c).exec env x := by
  rw [AsmMachine.run, List.foldl_append]
  rfl

structure LoadsPlaced (loads : List (AsmLoad β)) : Prop where
  inj : Set.InjOn (loadDest loads) (range loads.length)
  ne_lr : ∀ i < loads.length, loadDest loads i ≠ 14

/-- No load is read through a pointer in a register that another load changes. -/
def PointersSafe (loads : List (AsmLoad β)) : Prop :=
  ∀ i < loads.length, ∀ j < loads.length, j ≠ i → ∀ r, loadSource loads i = .deref r →
    loadDest loads j = r → loadSource loads j = .reg r

/-- The loads `P` are pending, and of these those in `K` are on the stack. -/
structure AsmInv (loads : List (AsmLoad β)) (env : AsmEnv β) (m : AsmMachine) (P K : Finset ℕ)
    (src : ℕ → Option ℕ) (code : List (AsmInstr β)) : Prop where
  sub : P ⊆ range loads.length
  counted : ∀ i ∈ P, i ∉ K → src i = (loadSource loads i).srcReg
  alone : ∀ i ∈ P, i ∈ K → src i = none ∧ ∀ j ∈ P, j ≠ i → j ∉ K ∧ src j ≠ none
  top : ∀ i ∈ P, i ∈ K → (m.run env code).sp = m.sp - 8 ∧
    (m.run env code).stack (m.sp - 8) = m.value env (loadSource loads i) ∧
    (m.run env code).stack (m.sp - 4) = m.regs 14
  sp : (∀ i ∈ P, i ∉ K) → (m.run env code).sp = m.sp
  pending : ∀ i ∈ P, i ∉ K → ∀ r, loadSource loads i = .reg r ∨ loadSource loads i = .deref r →
    (m.run env code).regs r = m.regs r
  done : ∀ i < loads.length, i ∉ P →
    (m.run env code).regs (loadDest loads i) = m.value env (loadSource loads i)
  lr : (m.run env code).regs 14 = m.regs 14

theorem AsmInv.init (loads : List (AsmLoad β)) (env : AsmEnv β) (m : AsmMachine) :
    AsmInv loads env m (range loads.length) ∅ (fun i => (loadSource loads i).srcReg) [] where
  sub := Finset.Subset.refl _
  counted _ _ _ := rfl
  alone _ _ h := absurd h (notMem_empty _)
  top _ _ h := absurd h (notMem_empty _)
  sp _ := rfl
  pending _ _ _ _ _ := rfl
  done _ hi hn := absurd (Finset.mem_range.mpr hi) hn
  lr := rfl

variable {code : List (AsmInstr β)}

theorem AsmInv.value_eq (I : AsmInv loads env m P K src code) (hi : i ∈ P) (hK : i ∉ K) :
    (m.run env code).value env (loadSource loads i) = m.value env (loadSource loads i) := by
  cases hsource : loadSource loads i with
  | reg r => exact I.pending i hi hK r (.inl hsource)
  | deref r => exact congrArg env.deref (I.pending i hi hK r (.inr hsource))
  | other k =>
    -- nothing is on the stack while a load that reads no register is pending
    have hsp : (m.run env code).sp = m.sp := I.sp fun j hj hjK => by
      have hsrc : src i = none := by rw [I.counted i hi hK, hsource]; rfl
      have hij : i ≠ j := fun e => hK (e ▸ hjK)
      exact ((I.alone j hj hjK).2 i hi hij).2 hsrc
    exact congrArg (env.other k) hsp

section

variable (hp : LoadsPlaced loads)
include hp

theorem loadDest_ne (I : AsmInv loads env m P K src code) (hi : i ∈ P)
    {j : ℕ} (hj : j < loads.length) (hji : j ≠ i) : loadDest loads j ≠ loadDest loads i := fun e =>
  hji (hp.inj (Finset.mem_coe.mpr (Finset.mem_range.mpr hj)) (Finset.mem_coe.mpr (I.sub hi)) e)

theorem AsmInv.emit_load (hptr : PointersSafe loads)
    (I : AsmInv loads env m P K src code) (hi : i ∈ P) (hK : i ∉ K)
    (hready : ∀ j ∈ P, j ≠ i → src j ≠ some (loadDest loads i)) :
    AsmInv loads env m (P.erase i) K src
      (code ++ [.load (loadDest loads i) (loadSource loads i)]) := by
  have hval := I.value_eq hi hK
  have hin := Finset.mem_range.mp (I.sub hi)
  refine ⟨(erase_subset i P).trans I.sub, fun j hj hjK => ?_, fun j hj hjK => ?_,
    fun j hj hjK => ?_, fun hno => ?_, fun j hj hjK r hr => ?_, fun j hj hjP => ?_, ?_⟩
  · exact I.counted j (mem_of_mem_erase hj) hjK
  · obtain ⟨hnone, hrest⟩ := I.alone j (mem_of_mem_erase hj) hjK
    exact ⟨hnone, fun k hk => hrest k (mem_of_mem_erase hk)⟩
  · rw [run_snoc]
    exact I.top j (mem_of_mem_erase hj) hjK
  · rw [run_snoc]
    refine I.sp fun j hj => ?_
    by_cases hji : j = i
    · exact hji ▸ hK
    · exact hno j (Finset.mem_erase.mpr ⟨hji, hj⟩)
  · obtain ⟨hji, hj⟩ := Finset.mem_erase.mp hj
    rw [run_snoc, AsmMachine.exec_load_regs]
    by_cases hdest : r = loadDest loads i
    · -- only a pointer may lie in the destination, and then the load does not change it
      subst hdest
      rw [update_self, hval]
      rcases hr with hr | hr
      · have hcounted := I.counted j hj hjK
        rw [hr] at hcounted
        exact absurd hcounted (hready j hj hji)
      · have hjn := Finset.mem_range.mp (I.sub hj)
        rw [hptr j hjn i hin (Ne.symm hji) _ hr rfl]
        rfl
    · rw [update_of_ne hdest]
      exact I.pending j hj hjK r hr
  · rw [run_snoc, AsmMachine.exec_load_regs]
    by_cases hji : j = i
    · rw [hji, update_self, hval]
    · rw [update_of_ne (loadDest_ne hp I hi hj hji)]
      exact I.done j hj fun h => hjP (Finset.mem_erase.mpr ⟨hji, h⟩)
  · rw [run_snoc, AsmMachine.exec_load_regs, update_of_ne (hp.ne_lr i hin).symm]
    exact I.lr

theorem AsmInv.emit_pop (I : AsmInv loads env m P K src code) (hi : i ∈ P)
    (hK : i ∈ K) (hready : ∀ j ∈ P, j ≠ i → src j ≠ some (loadDest loads i)) :
    AsmInv loads env m (P.erase i) K src (code ++ [.pop (loadDest loads i)]) := by
  obtain ⟨_, hrest⟩ := I.alone i hi hK
  obtain ⟨hsp, hstack, hlr⟩ := I.top i hi hK
  have hnotK : ∀ j ∈ P.erase i, j ∉ K := fun j hj =>
    (hrest j (mem_of_mem_erase hj) (ne_of_mem_erase hj)).1
  have hregs : (m.run env (code ++ [.pop (loadDest loads i)])).regs
      = update (update (m.run env code).regs (loadDest loads i)
        (m.value env (loadSource loads i))) 14 (m.regs 14) := by
    rw [run_snoc, AsmMachine.exec_pop_regs, hsp, show m.sp - 8 + 4 = m.sp - 4 by omega, hstack, hlr]
  refine ⟨(erase_subset i P).trans I.sub, fun j hj hjK => ?_, fun j hj hjK => ?_,
    fun j hj hjK => ?_, fun _ => ?_, fun j hj hjK r hr => ?_, fun j hj hjP => ?_, ?_⟩
  · exact I.counted j (mem_of_mem_erase hj) hjK
  · exact absurd hjK (hnotK j hj)
  · exact absurd hjK (hnotK j hj)
  · rw [run_snoc]
    change (m.run env code).sp + 8 = m.sp
    omega
  · obtain ⟨hji, hj⟩ := Finset.mem_erase.mp hj
    rw [hregs]
    by_cases h14 : r = 14
    · rw [h14, update_self]
    · rw [update_of_ne h14, update_of_ne]
      · exact I.pending j hj hjK r hr
      · -- every load still pending counts the register it reads
        have hne := (hrest j hj hji).2
        have hcounted := I.counted j hj hjK
        rcases hr with hr | hr
        · rw [hr] at hcounted
          rintro rfl
          exact hready j hj hji hcounted
        · rw [hr] at hcounted
          exact absurd hcounted hne
  · rw [hregs, update_of_ne (hp.ne_lr j hj)]
    by_cases hji : j = i
    · rw [hji, update_self]
    · rw [update_of_ne (loadDest_ne hp I hi hj hji)]
      exact I.done j hj fun h => hjP (Finset.mem_erase.mpr ⟨hji, h⟩)
  · rw [hregs, update_self]

theorem AsmInv.stuck (I : AsmInv loads env m P K src code)
    (hstuck : SweepStuck (loadDest loads) P src) : ∀ j ∈ P, j ∉ K ∧ src j ≠ none := by
  intro j hj
  obtain ⟨k, _, hk⟩ := (hstuck.sources (hp.inj.mono (Finset.coe_subset.mpr I.sub))).2 j hj
  have hne : src j ≠ none := by rw [hk]; exact Option.some_ne_none _
  exact ⟨fun hjK => hne (I.alone j hj hjK).1, hne⟩

end

theorem srcReg_eq_some {s : AsmSource β} {r : ℕ} (h : s.srcReg = some r) : s = .reg r := by
  cases s with
  | reg r' => rw [Option.some.inj h]
  | deref r' => cases h
  | other k => cases h

theorem AsmInv.park {v : ℕ} (hp : LoadsPlaced loads) (I : AsmInv loads env m P K src code)
    (hstuck : SweepStuck (loadDest loads) P src) (hi : i ∈ P) (hv : src i = some v) :
    AsmInv loads env m P (insert i K) (update src i none) (code ++ [.push v]) := by
  have hall := I.stuck hp hstuck
  have hsp := I.sp fun j hj => (hall j hj).1
  have hsource : loadSource loads i = .reg v :=
    srcReg_eq_some ((I.counted i hi (hall i hi).1).symm.trans hv)
  have hval : (m.run env code).regs v = m.regs v :=
    I.pending i hi (hall i hi).1 v (.inl hsource)
  have hinsert : ∀ j ∈ P, j ∈ insert i K → j = i := fun j hj hjK =>
    (Finset.mem_insert.mp hjK).resolve_right (hall j hj).1
  refine ⟨I.sub, fun j hj hjK => ?_, fun j hj hjK => ?_, fun j hj hjK => ?_, fun hno => ?_,
    fun j hj hjK r hr => ?_, fun j hj hjP => ?_, ?_⟩
  · have hji : j ≠ i := fun e => hjK (e ▸ mem_insert_self i K)
    rw [update_of_ne hji]
    exact I.counted j hj (hall j hj).1
  · obtain rfl := hinsert j hj hjK
    refine ⟨update_self .., fun k hk hkj => ⟨fun hkK => hkj (hinsert k hk hkK), ?_⟩⟩
    rw [update_of_ne hkj]
    exact (hall k hk).2
  · obtain rfl := hinsert j hj hjK
    rw [run_snoc, hsource, AsmMachine.exec_push_stack, hsp, hval, I.lr, update_self,
      update_of_ne (show m.sp - 8 ≠ m.sp - 4 by omega), update_self]
    exact ⟨congrArg (· - 8) hsp, rfl, rfl⟩
  · exact absurd (mem_insert_self i K) (hno i hi)
  · rw [run_snoc]
    exact I.pending j hj (hall j hj).1 r hr
  · rw [run_snoc]
    exact I.done j hj hjP
  · rw [run_snoc]
    exact I.lr

/-- The code nests, up to the load that is on the stack now. -/
structure NestInv (loads : List (AsmLoad β)) (P K : Finset ℕ) (code : List (AsmInstr β)) :
    Prop where
  closed : (∀ i ∈ P, i ∉ K) → Nested loads code
  opened : ∀ i ∈ P, i ∈ K → ∃ c mid r, loadSource loads i = .reg r ∧ Nested loads c ∧
    (∀ x ∈ mid, ∃ d s, x = .load d s) ∧ code = c ++ .push r :: mid

theorem NestInv.emit_load (N : NestInv loads P K code) (hK : i ∉ K) (dest : ℕ)
    (source : AsmSource β) : NestInv loads (P.erase i) K (code ++ [.load dest source]) where
  closed hno := by
    refine (N.closed fun j hj => ?_).load dest source
    by_cases hji : j = i
    · exact hji ▸ hK
    · exact hno j (Finset.mem_erase.mpr ⟨hji, hj⟩)
  opened j hj hjK := by
    obtain ⟨c, mid, r, hr, hc, hmid, rfl⟩ := N.opened j (mem_of_mem_erase hj) hjK
    refine ⟨c, mid ++ [.load dest source], r, hr, hc, fun x hx => ?_, by simp⟩
    rcases List.mem_append.mp hx with hx | hx
    · exact hmid x hx
    · exact ⟨dest, source, List.mem_singleton.mp hx⟩

theorem NestInv.emit_pop (I : AsmInv loads env m P K src code) (N : NestInv loads P K code)
    (hi : i ∈ P) (hK : i ∈ K) : NestInv loads (P.erase i) K (code ++ [.pop (loadDest loads i)]) where
  closed _ := by
    obtain ⟨c, mid, r, hr, hc, hmid, rfl⟩ := N.opened i hi hK
    exact .park hc (Finset.mem_range.mp (I.sub hi)) hr hmid
  opened j hj hjK := by
    obtain ⟨hji, hj⟩ := Finset.mem_erase.mp hj
    exact absurd hjK ((I.alone i hi hK).2 j hj hji).1

theorem NestInv.park {v : ℕ} (hp : LoadsPlaced loads) (I : AsmInv loads env m P K src code)
    (N : NestInv loads P K code) (hstuck : SweepStuck (loadDest loads) P src) (hi : i ∈ P)
    (hv : src i = some v) : NestInv loads P (insert i K) (code ++ [.push v]) where
  closed hno := absurd (mem_insert_self i K) (hno i hi)
  opened j hj hjK := by
    have hall := I.stuck hp hstuck
    obtain rfl := (Finset.mem_insert.mp hjK).resolve_right (hall j hj).1
    refine ⟨code, [], v, ?_, N.closed fun k hk => (hall k hk).1, by simp, rfl⟩
    exact srcReg_eq_some ((I.counted j hj (hall j hj).1).symm.trans hv)

theorem asm_sweepRule (hp : LoadsPlaced loads) (hptr : PointersSafe loads) (env : AsmEnv β)
    (m : AsmMachine) : SweepRule (loadDest loads) none fun P src K ev =>
      AsmInv loads env m P K src (asmCode loads ev) ∧ NestInv loads P K (asmCode loads ev) where
  emit P src K ev i h hi hready := by
    rw [asmCode_snoc, asmEventInstr]
    by_cases hK : i ∈ K
    · rw [if_pos (by simpa using hK)]
      exact ⟨h.1.emit_pop hp hi hK hready, NestInv.emit_pop h.1 h.2 hi hK⟩
    · rw [if_neg (by simpa using hK)]
      exact ⟨h.1.emit_load hp hptr hi hK hready, h.2.emit_load hK _ _⟩
  park P src K ev i v h hstuck hi _ hv := by
    rw [asmCode_snoc]
    exact ⟨h.1.park hp hstuck hi hv, NestInv.park hp h.1 h.2 hstuck hi hv⟩
  free _ _ _ _ _ _ _ _ := (Option.some_ne_none _).symm

end Invariant

section Statement

variable {loads : List (AsmLoad β)}

theorem loadDest_eq {i : ℕ} (hi : i < loads.length) : loadDest loads i = loads[i].dest := by
  rw [loadDest, List.getD_eq_getElem _ _ hi]

theorem loadSource_eq {i : ℕ} (hi : i < loads.length) : loadSource loads i = loads[i].source := by
  rw [loadSource, List.getD_eq_getElem _ _ hi]

theorem AsmPlaced.loadsPlaced (h : AsmPlaced loads) : LoadsPlaced loads where
  inj := injOn_getD_of_nodup h.1 _
  ne_lr i hi := by
    have hle := h.2 _ (List.getElem_mem hi)
    rw [loadDest_eq hi]
    omega

/-- Where no pointer register is the destination of another load, the sequence is right. -/
theorem asmSequenced_of_safe (hp : AsmPlaced loads) (hptr : PointersSafe loads) :
    AsmSequenced loads := by
  have hrule := fun env m => sweepSchedule_rule (asm_sweepRule hp.loadsPlaced hptr env m)
    hp.loadsPlaced.inj
    ⟨AsmInv.init loads env m, fun _ => .nil, fun i _ hi => absurd hi (notMem_empty i)⟩
  obtain ⟨ev, _, K, hev, _, hnest⟩ := hrule ⟨id, fun _ _ => 0⟩ ⟨fun _ => 0, 0, fun _ => 0⟩
  refine ⟨asmCode loads ev, by rw [asmSequence, hev]; rfl,
    hnest.closed fun i hi => absurd hi (notMem_empty i), fun env m => ?_⟩
  obtain ⟨ev', _, K', hev', I, _⟩ := hrule env m
  obtain rfl : ev = ev' := Option.some.inj (hev.symm.trans hev')
  refine ⟨I.sp fun i hi => absurd hi (notMem_empty i), I.lr, fun l hl => ?_⟩
  obtain ⟨i, hi, rfl⟩ := List.getElem_of_mem hl
  rw [← loadDest_eq hi, ← loadSource_eq hi]
  exact I.done i hi (notMem_empty i)

theorem not_asmSequenced {l m : AsmLoad β} {r : ℕ} (hl : l.source = .deref r) (hm : m.dest = r)
    (hchange : m.source ≠ .reg r) : ¬ AsmSequenced [m, l] := by
  rintro ⟨code, hcode, _, hright⟩
  have hseq : asmSequence [m, l] = some [.load m.dest m.source, .load l.dest l.source] := by
    have hsrc : l.source.srcReg = none := by
      rw [hl]
      rfl
    simp [asmSequence, sweepSchedule, whileLoopM, sweepRound, forRange, List.range_succ, sweepStep,
      sweepBlocked, hsrc, asmEventInstr, loadDest, loadSource]
  obtain rfl := Option.some.inj (hseq.symm.trans hcode)
  -- the second load reads through the value of the first
  have hlast : ∀ (env : AsmEnv β) (start : AsmMachine),
      env.deref (start.value env m.source) = env.deref (start.regs r) := by
    intro env start
    have h := (hright env start).2.2 l (by simp)
    simp only [AsmMachine.run, List.foldl_cons, List.foldl_nil, AsmMachine.exec_load_regs,
      update_self, hl, AsmMachine.value, hm] at h
    exact h
  cases hsource : m.source with
  | reg r' =>
    have hr : r ≠ r' := fun e => hchange (by rw [hsource, e])
    have h := hlast ⟨id, fun _ _ => 0⟩ ⟨update (fun _ => 0) r' 1, 0, fun _ => 0⟩
    rw [hsource] at h
    simp [AsmMachine.value, update_of_ne hr] at h
  | deref r' =>
    have h := hlast ⟨(· + 1), fun _ _ => 0⟩ ⟨fun _ => 0, 0, fun _ => 0⟩
    rw [hsource] at h
    simp [AsmMachine.value] at h
  | other k =>
    have h := hlast ⟨id, fun _ _ => 1⟩ ⟨fun _ => 0, 0, fun _ => 0⟩
    rw [hsource] at h
    simp [AsmMachine.value] at h

/-- All statements with operands of a class are loaded right exactly if none of them is read through
a pointer in a register that another one changes. -/
theorem asmOperandLoads_iff (kind : AsmLoad β → Prop) :
    (∀ nbOutputs (ops : List (ASMOperand β)) loads, asmLoads nbOutputs 0 ops = .ok loads →
      (∀ l ∈ loads, kind l) → AsmPlaced loads → AsmSequenced loads) ↔
    ∀ l m, kind l → kind m → l.dest ≤ 8 → m.dest ≤ 8 → l.dest ≠ m.dest →
      ∀ r, l.source = .deref r → m.dest = r → m.source = .reg r := by
  constructor
  · intro hall l m hkl hkm hl hm hne r hlr hmr
    by_contra hchange
    refine not_asmSequenced hlr hmr hchange (hall 0 [⟨some m.dest, false, false, false, m.source⟩,
      ⟨some l.dest, false, false, false, l.source⟩] [m, l] ?_ ?_ ?_)
    · rfl
    · intro x hx
      rcases List.mem_pair.mp hx with rfl | rfl
      · exact hkm
      · exact hkl
    · refine ⟨by simpa using Ne.symm hne, fun x hx => ?_⟩
      rcases List.mem_pair.mp hx with rfl | rfl
      · exact hm
      · exact hl
  · intro hcond nbOutputs ops loads _ hkind hp
    refine asmSequenced_of_safe hp fun i hi j hj hji r hr hjr => ?_
    rw [loadSource_eq hi] at hr
    rw [loadDest_eq hj] at hjr
    rw [loadSource_eq hj]
    have hdest : loads[i].dest ≠ loads[j].dest := by
      rw [← loadDest_eq hi, ← loadDest_eq hj]
      exact fun e => hji (hp.loadsPlaced.inj (Finset.mem_coe.mpr (Finset.mem_range.mpr hi))
        (Finset.mem_coe.mpr (Finset.mem_range.mpr hj)) e).symm
    exact hcond _ _ (hkind _ (List.getElem_mem hi)) (hkind _ (List.getElem_mem hj))
      (hp.2 _ (List.getElem_mem hi)) (hp.2 _ (List.getElem_mem hj)) hdest r hr hjr

/-- A constant for `r1` and a value behind a pointer in `r1` for `r0`: the constant comes first, and
the second load goes through it. -/
theorem pointer_overwritten :
    asmLoads 0 0 [⟨some 1, false, false, false, .other ()⟩, ⟨some 0, false, false, false, .deref 1⟩]
      = .ok [⟨1, .other ()⟩, ⟨0, .deref 1⟩] ∧
    asmSequence [⟨1, .other ()⟩, ⟨0, .deref 1⟩] = some [.load 1 (.other ()), .load 0 (.deref 1)] ∧
    ∃ (env : AsmEnv Unit) (m : AsmMachine),
      (m.run env [.load 1 (.other ()), .load 0 (.deref 1)]).regs 0 = 7 ∧
      m.value env (.deref 1) = 5 :=
  ⟨rfl, rfl, ⟨id, fun _ _ => 7⟩, ⟨fun _ => 5, 0, fun _ => 0⟩, rfl, rfl⟩

end Statement

end Tinycc
