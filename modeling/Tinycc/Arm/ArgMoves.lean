import Mathlib.Algebra.Order.BigOperators.Group.Finset
import Mathlib.Order.Interval.Finset.Nat
import Tinycc.Lib.Loop

/-!
# The moves of arguments into the core registers

The moves into `r0`-`r3` read and write sets of registers.  They are emitted one by one, each when
no other pending move reads what it writes; when none is ready, a register that one move reads and
another writes is copied to a scratch register, and its readers are pointed there.
-/

namespace Tinycc
open Lib Function Finset Option

inductive ThumbArgMoveKind
  | reg
  | imm
  | imm64
  | localAddr
  | struct
  | mop
  deriving DecidableEq, Repr

/-- `payload` is what the value depends on besides registers; of the machine operand `mopIsReg`,
`r0` and `r1` are kept apart. -/
structure ThumbArgMove (β : Type*) where
  kind : ThumbArgMoveKind
  dstReg : ℕ
  dstRegHi : ℕ
  srcReg : ℕ
  structWordCount : ℕ
  mopIsReg : Bool
  r0 : ℕ
  r1 : ℕ
  payload : β

def thumbIsHwReg (r : ℕ) : Bool := decide (r < 16)

namespace ThumbArgMove

variable {β A : Type*}

def writeSet (m : ThumbArgMove β) : Finset ℕ :=
  {m.dstReg} ∪
    match m.kind with
    | .imm64 => {m.dstRegHi}
    | .mop => if 0 < m.dstRegHi ∧ m.dstRegHi < 16 then {m.dstRegHi} else ∅
    | .struct => (range m.structWordCount).image (m.dstReg + ·)
    | _ => ∅

def readSet (m : ThumbArgMove β) : Finset ℕ :=
  match m.kind with
  | .reg => {m.srcReg}
  | .mop | .struct =>
    if m.mopIsReg = false then ∅
    else (if thumbIsHwReg m.r0 then {m.r0} else ∅) ∪ (if thumbIsHwReg m.r1 then {m.r1} else ∅)
  | _ => ∅

def redirectRead (m : ThumbArgMove β) (src dst : ℕ) : ThumbArgMove β :=
  match m.kind with
  | .reg => if m.srcReg = src then { m with srcReg := dst } else m
  | .mop | .struct =>
    if m.mopIsReg then
      { m with
        r0 := if m.r0 = src then dst else m.r0
        r1 := if m.r1 = src then dst else m.r1 }
    else m
  | _ => m

/-- What a move does with the values of the registers it reads: the value for each destination. -/
structure Meaning (β A : Type*) where
  regs : β → Option A → Option A → ℕ → A
  other : β → ℕ → A

variable (I : Meaning β A)

/-- The value of an operand register; other numbers are no registers. -/
def operand (σ : ℕ → A) (r : ℕ) : Option A := if thumbIsHwReg r then some (σ r) else none

def result (σ : ℕ → A) (m : ThumbArgMove β) (d : ℕ) : A :=
  match m.kind with
  | .reg => σ m.srcReg
  | .mop | .struct =>
    if m.mopIsReg then I.regs m.payload (operand σ m.r0) (operand σ m.r1) d
    else I.other m.payload d
  | _ => I.other m.payload d

/-- `thumb_emit_arg_move`, taken as an atomic step. -/
def exec (σ : ℕ → A) (m : ThumbArgMove β) : ℕ → A := fun r =>
  if r ∈ m.writeSet then m.result I σ r else σ r

variable {I} {σ σ' : ℕ → A} {m : ThumbArgMove β} {x t : ℕ}

theorem operand_congr {r : ℕ} (h : thumbIsHwReg r → σ r = σ' r) : operand σ r = operand σ' r := by
  unfold operand
  split
  · next hr => rw [h hr]
  · rfl

def readsPair (m : ThumbArgMove β) : Prop := (m.kind = .mop ∨ m.kind = .struct) ∧ m.mopIsReg = true

theorem readSet_pair (h : m.readsPair) : m.readSet
    = (if thumbIsHwReg m.r0 then {m.r0} else ∅) ∪ (if thumbIsHwReg m.r1 then {m.r1} else ∅) := by
  obtain ⟨hk | hk, hreg⟩ := h
  · simp [readSet, hk, hreg]
  · simp [readSet, hk, hreg]

theorem result_pair (h : m.readsPair) (σ : ℕ → A) (d : ℕ) :
    m.result I σ d = I.regs m.payload (operand σ m.r0) (operand σ m.r1) d := by
  obtain ⟨hk | hk, hreg⟩ := h
  · simp [result, hk, hreg]
  · simp [result, hk, hreg]

theorem redirectRead_pair (h : m.readsPair) : m.redirectRead x t =
    { m with
      r0 := if m.r0 = x then t else m.r0
      r1 := if m.r1 = x then t else m.r1 } := by
  obtain ⟨hk | hk, hreg⟩ := h
  · simp [redirectRead, hk, hreg]
  · simp [redirectRead, hk, hreg]

theorem reads_cases (I : Meaning β A) (m : ThumbArgMove β) :
    m.kind = .reg ∨ m.readsPair ∨ m.readSet = ∅ ∧ (∀ x t, m.redirectRead x t = m) ∧
      ∀ (σ : ℕ → A) d, m.result I σ d = I.other m.payload d := by
  by_cases hpair : m.readsPair
  · exact .inr (.inl hpair)
  · cases hk : m.kind with
    | reg => exact .inl rfl
    | mop =>
      have hreg : m.mopIsReg = false := by simpa [readsPair, hk] using hpair
      exact .inr (.inr ⟨by simp [readSet, hk, hreg], by simp [redirectRead, hk, hreg],
        by simp [result, hk, hreg]⟩)
    | struct =>
      have hreg : m.mopIsReg = false := by simpa [readsPair, hk] using hpair
      exact .inr (.inr ⟨by simp [readSet, hk, hreg], by simp [redirectRead, hk, hreg],
        by simp [result, hk, hreg]⟩)
    | _ => exact .inr (.inr ⟨by simp [readSet, hk], by simp [redirectRead, hk], by simp [result, hk]⟩)

theorem readSet_reg (h : m.kind = .reg) : m.readSet = {m.srcReg} := by simp [readSet, h]

theorem result_reg (h : m.kind = .reg) (σ : ℕ → A) (d : ℕ) : m.result I σ d = σ m.srcReg := by
  simp [result, h]

theorem redirectRead_reg (h : m.kind = .reg) :
    m.redirectRead x t = { m with srcReg := if m.srcReg = x then t else m.srcReg } := by
  obtain ⟨kind, dstReg, dstRegHi, srcReg, count, isReg, r0, r1, payload⟩ := m
  obtain rfl : kind = .reg := h
  by_cases hsrc : srcReg = x
  · simp [redirectRead, hsrc]
  · simp [redirectRead, hsrc]

theorem result_congr (h : ∀ r ∈ m.readSet, σ r = σ' r) (d : ℕ) :
    m.result I σ d = m.result I σ' d := by
  rcases m.reads_cases I with hk | hp | ⟨_, _, hres⟩
  · rw [result_reg hk, result_reg hk]
    exact h _ (by rw [readSet_reg hk]; exact mem_singleton_self _)
  · rw [readSet_pair hp] at h
    rw [result_pair hp, result_pair hp, operand_congr fun hr => h m.r0 (by simp [hr]),
      operand_congr fun hr => h m.r1 (by simp [hr])]
  · rw [hres, hres]

theorem operand_redirect (hx : x < 16) (ht : t < 16) {r : ℕ} (hr : thumbIsHwReg r → r ≠ t) :
    operand (update σ t (σ x)) (if r = x then t else r) = operand σ r := by
  unfold operand
  by_cases hrx : r = x
  · subst hrx
    simp [thumbIsHwReg, hx, ht]
  · rw [if_neg hrx]
    split
    · next hhw => rw [update_of_ne (hr hhw)]
    · rfl

theorem result_redirectRead (hx : x < 16) (ht : t < 16) (htr : t ∉ m.readSet) (d : ℕ) :
    (m.redirectRead x t).result I (update σ t (σ x)) d = m.result I σ d := by
  rcases m.reads_cases I with hk | hp | ⟨_, hred, hres⟩
  · rw [redirectRead_reg hk, result_reg hk, result_reg (by exact hk)]
    rw [readSet_reg hk, mem_singleton] at htr
    split
    · next hsrc => rw [update_self, hsrc]
    · rw [update_of_ne (Ne.symm htr)]
  · rw [redirectRead_pair hp, result_pair hp, result_pair (by exact hp)]
    rw [readSet_pair hp] at htr
    rw [operand_redirect hx ht fun hr => by rintro rfl; simp [hr] at htr,
      operand_redirect hx ht fun hr => by rintro rfl; simp [hr] at htr]
  · rw [hred, hres, hres]

theorem writeSet_redirectRead : (m.redirectRead x t).writeSet = m.writeSet := by
  rcases m.reads_cases (⟨fun _ _ _ _ => (), fun _ _ => ()⟩ : Meaning β Unit) with
    hk | hp | ⟨_, hred, _⟩
  · rw [redirectRead_reg hk]
    rfl
  · rw [redirectRead_pair hp]
    rfl
  · rw [hred]

theorem readSet_redirectRead :
    (m.redirectRead x t).readSet ⊆ insert t (m.readSet.erase x) := by
  rcases m.reads_cases (⟨fun _ _ _ _ => (), fun _ _ => ()⟩ : Meaning β Unit) with
    hk | hp | ⟨hempty, hred, _⟩
  · rw [redirectRead_reg hk, readSet_reg hk, readSet_reg (by exact hk)]
    intro r hr
    rw [mem_singleton] at hr
    split at hr
    · exact Finset.mem_insert.mpr (.inl hr)
    · next hne =>
      subst hr
      simp [hne]
  · rw [redirectRead_pair hp, readSet_pair hp, readSet_pair (by exact hp)]
    intro r hr
    simp only [mem_union] at hr
    have hcase : ∀ q, (r ∈ if thumbIsHwReg (if q = x then t else q)
        then ({if q = x then t else q} : Finset ℕ) else ∅) →
        r = t ∨ r ≠ x ∧ r = q ∧ thumbIsHwReg q = true := by
      intro q hq
      by_cases hqx : q = x
      · rw [if_pos hqx] at hq
        split at hq
        · exact .inl (Finset.mem_singleton.mp hq)
        · cases hq
      · rw [if_neg hqx] at hq
        split at hq
        · next hhw =>
          have := Finset.mem_singleton.mp hq
          exact .inr ⟨this ▸ hqx, this, hhw⟩
        · cases hq
    rcases hr with hr | hr
    · rcases hcase m.r0 hr with h | ⟨hne, rfl, hhw⟩
      · exact Finset.mem_insert.mpr (.inl h)
      · simp [hne, hhw]
    · rcases hcase m.r1 hr with h | ⟨hne, rfl, hhw⟩
      · exact Finset.mem_insert.mpr (.inl h)
      · simp [hne, hhw]
  · rw [hred, hempty]
    exact empty_subset _

theorem card_readSet_le (m : ThumbArgMove β) : m.readSet.card ≤ 2 := by
  rcases m.reads_cases (⟨fun _ _ _ _ => (), fun _ _ => ()⟩ : Meaning β Unit) with
    hk | hp | ⟨hempty, _⟩
  · rw [readSet_reg hk, card_singleton]
    omega
  · rw [readSet_pair hp]
    refine (card_union_le _ _).trans ?_
    have hone : ∀ q, (if thumbIsHwReg q then ({q} : Finset ℕ) else ∅).card ≤ 1 := by
      intro q
      split <;> simp
    have h0 := hone m.r0
    have h1 := hone m.r1
    omega
  · rw [hempty]
    exact Nat.zero_le _

end ThumbArgMove

/-! ## The scheduler -/

/-- What is emitted: the moves, copies into scratch registers, and the saves and restores of
scratch registers that were not free. -/
inductive ArgInstr (β : Type*)
  | move (m : ThumbArgMove β)
  | mov (dst src : ℕ)
  | save (r : ℕ)
  | restore (r : ℕ)

structure ScratchRegAlloc where
  reg : ℕ
  saved : Bool

/-- The state of `thumb_emit_parallel_arg_moves`; `ice` is the text of an internal error. -/
structure ArgSched (β : Type*) where
  moves : ℕ → ThumbArgMove β
  pending : Finset ℕ
  remaining : ℕ
  tmps : List ScratchRegAlloc
  code : List (ArgInstr β)
  ice : Option String

section Scheduler

variable {β A : Type*} (scratch : Finset ℕ → ScratchRegAlloc) (moveCount : ℕ)

namespace ArgSched

variable (s : ArgSched β)

def otherReads (i : ℕ) : Finset ℕ := (s.pending.erase i).biUnion fun j => (s.moves j).readSet

def otherWrites (i : ℕ) : Finset ℕ := (s.pending.erase i).biUnion fun j => (s.moves j).writeSet

def reads : Finset ℕ := s.pending.biUnion fun j => (s.moves j).readSet

def writes : Finset ℕ := s.pending.biUnion fun j => (s.moves j).writeSet

/-- The first pending move that writes nothing another one reads. -/
def chosen : Option ℕ :=
  (List.range moveCount).find? fun i =>
    decide (i ∈ s.pending) && decide (s.otherReads i ∩ (s.moves i).writeSet = ∅)

def clash (i : ℕ) : Finset ℕ := (s.moves i).readSet ∩ s.otherWrites i

def victim : Option ℕ :=
  ((List.range moveCount).find? fun i =>
    decide (i ∈ s.pending) && decide (s.clash i ≠ ∅)).bind fun i =>
      (List.range 32).find? fun r => decide (r ∈ s.clash i)

def newScratch : ArgSched β :=
  let exclude := s.writes ∪ s.reads ∪ {13, 15} ∪ (s.tmps.map ScratchRegAlloc.reg).toFinset
  let alloc := scratch exclude
  { s with
    tmps := s.tmps ++ [alloc]
    code := if alloc.saved then s.code ++ [.save alloc.reg] else s.code }

def takeScratch : ArgSched β :=
  -- the last scratch register is used again once nothing pending reads it
  let ntmp := s.tmps.length
  match s.tmps.getLast? with
  | some last =>
    if last.reg ∈ s.reads then
      if ntmp = 4 then
        { s with ice := some s!"arg move cycles need more than {ntmp} scratch registers" }
      else s.newScratch scratch
    else s
  | none => s.newScratch scratch

/-- Copy `v` to the last scratch register and point its readers there. -/
def redirectTo (v : ℕ) : ArgSched β :=
  match s.tmps.getLast? with
  | some tmp =>
    { s with
      code := s.code ++ [.mov tmp.reg v]
      moves := fun i => if i ∈ s.pending then (s.moves i).redirectRead v tmp.reg else s.moves i }
  | none => s

def breakCycle : ArgSched β :=
  match s.victim moveCount with
  | none => { s with ice := some "arg move cycle without a shared register" }
  | some v =>
    let s := s.takeScratch scratch
    if s.ice.isSome then s else s.redirectTo v

def emitMove (i : ℕ) : ArgSched β :=
  { s with
    code := s.code ++ [.move (s.moves i)]
    pending := s.pending.erase i
    remaining := s.remaining - 1 }

def step : ArgSched β :=
  match s.chosen moveCount with
  | some i => s.emitMove i
  | none => s.breakCycle scratch moveCount

end ArgSched

def thumbEmitParallelArgMoves (moves : ℕ → ThumbArgMove β) :
    Option (Except String (List (ArgInstr β))) :=
  (whileLoop (fun s => decide (0 < s.remaining) && s.ice.isNone) (ArgSched.step scratch moveCount)
    (moveCount + 5) ⟨moves, range moveCount, moveCount, [], [], none⟩).map fun s =>
      match s.ice with
      | some e => .error e
      | none => .ok (s.code ++ (s.tmps.reverse.filter ScratchRegAlloc.saved).map (.restore ·.reg))

structure ArgMachine (A : Type*) where
  regs : ℕ → A
  stack : List A

namespace ArgMachine

variable (I : ThumbArgMove.Meaning β A)

def exec (m : ArgMachine A) : ArgInstr β → ArgMachine A
  | .move mv => { m with regs := mv.exec I m.regs }
  | .mov dst src => { m with regs := update m.regs dst (m.regs src) }
  | .save r => { m with stack := m.regs r :: m.stack }
  | .restore r =>
    match m.stack with
    | v :: rest => ⟨update m.regs r v, rest⟩
    | [] => m

def run (m : ArgMachine A) (code : List (ArgInstr β)) : ArgMachine A := code.foldl (exec I) m

theorem run_snoc (m : ArgMachine A) (code : List (ArgInstr β)) (x : ArgInstr β) :
    m.run I (code ++ [x]) = (m.run I code).exec I x := by
  rw [run, List.foldl_append]
  rfl

theorem regs_run_restore (m : ArgMachine A) (tmps : List ScratchRegAlloc) {d : ℕ}
    (hd : ∀ t ∈ tmps, d ≠ t.reg) :
    (m.run I (tmps.map (.restore ·.reg))).regs d = m.regs d := by
  induction tmps generalizing m with
  | nil => rfl
  | cons t tmps ih =>
    have hstep : (m.exec I (.restore t.reg)).regs d = m.regs d := by
      have hne := hd t (by simp)
      cases hstack : m.stack with
      | nil => simp [exec, hstack]
      | cons v rest => simp [exec, hstack, hne]
    exact (ih _ fun u hu => hd u (List.mem_cons_of_mem t hu)).trans hstep

end ArgMachine

/-! ## Correctness -/

variable {scratch moveCount} {I : ThumbArgMove.Meaning β A} {moves : ℕ → ThumbArgMove β}
  {σ : ArgMachine A} {s : ArgSched β} {i : ℕ}

def ArgSched.lowReads (s : ArgSched β) : Finset ℕ := s.reads.filter (· < 4)

/-- The destinations are disjoint sets of argument registers. -/
structure ArgPlaced (moveCount : ℕ) (moves : ℕ → ThumbArgMove β) : Prop where
  low : ∀ i < moveCount, ∀ d ∈ (moves i).writeSet, d < 4
  disjoint : ∀ i < moveCount, ∀ j < moveCount, i ≠ j → Disjoint (moves i).writeSet (moves j).writeSet

/-- The allocator returns a register of `r4`-`r15` that is not excluded, when there is one. -/
def ScratchSpec (scratch : Finset ℕ → ScratchRegAlloc) : Prop :=
  ∀ exclude : Finset ℕ, (∃ r ∉ exclude, 4 ≤ r ∧ r < 16) →
    (scratch exclude).reg ∉ exclude ∧ 4 ≤ (scratch exclude).reg ∧ (scratch exclude).reg < 16

/-- The scheduler's state between two turns of its loop. -/
structure ArgInv (I : ThumbArgMove.Meaning β A) (moveCount : ℕ) (moves : ℕ → ThumbArgMove β)
    (σ : ArgMachine A) (s : ArgSched β) : Prop where
  ice : s.ice = none
  sub : s.pending ⊆ range moveCount
  card : s.remaining = s.pending.card
  writeSet : ∀ i, (s.moves i).writeSet = (moves i).writeSet
  pending : ∀ i ∈ s.pending, ∀ d,
    (s.moves i).result I (σ.run I s.code).regs d = (moves i).result I σ.regs d
  done : ∀ i < moveCount, i ∉ s.pending → ∀ d ∈ (moves i).writeSet,
    (σ.run I s.code).regs d = (moves i).result I σ.regs d
  tmps : ∀ t ∈ s.tmps, 4 ≤ t.reg ∧ t.reg < 16
  room : s.tmps.length + s.lowReads.card ≤ 4

/-- A scratch register is at hand in `s'`, and nothing else has changed. -/
structure TookScratch (I : ThumbArgMove.Meaning β A) (σ : ArgMachine A) (s s' : ArgSched β) :
    Prop where
  last : ∃ tmp, s'.tmps.getLast? = some tmp ∧ tmp.reg ∉ s.reads
  length : s'.tmps.length ≤ s.tmps.length + 1
  tmps : ∀ t ∈ s'.tmps, 4 ≤ t.reg ∧ t.reg < 16
  regs : (σ.run I s'.code).regs = (σ.run I s.code).regs
  moves : s'.moves = s.moves
  pending : s'.pending = s.pending
  remaining : s'.remaining = s.remaining
  ice : s'.ice = none

theorem ArgInv.init (I : ThumbArgMove.Meaning β A) (moves : ℕ → ThumbArgMove β) (σ : ArgMachine A) :
    ArgInv I moveCount moves σ
      ⟨moves, range moveCount, moveCount, [], [], none⟩ where
  ice := rfl
  sub := Finset.Subset.refl _
  card := (card_range _).symm
  writeSet _ := rfl
  pending _ _ _ := rfl
  done _ hi hn := absurd (Finset.mem_range.mpr hi) hn
  tmps _ ht := by cases ht
  room := by
    have hsub : (ArgSched.lowReads ⟨moves, range moveCount, moveCount, [], [], none⟩)
        ⊆ range 4 := by
      intro r hr
      exact Finset.mem_range.mpr (Finset.mem_filter.mp hr).2
    have hle := card_le_card hsub
    simpa using hle

theorem ArgPlaced.eq_of_mem (hp : ArgPlaced moveCount moves) {j d : ℕ} (hi : i < moveCount)
    (hj : j < moveCount) (hdi : d ∈ (moves i).writeSet) (hdj : d ∈ (moves j).writeSet) : i = j := by
  by_contra hne
  exact Finset.disjoint_left.mp (hp.disjoint i hi j hj hne) hdi hdj

theorem chosen_eq_some (h : s.chosen moveCount = some i) :
    i ∈ s.pending ∧ ∀ j ∈ s.pending, j ≠ i → ∀ r ∈ (s.moves j).readSet, r ∉ (s.moves i).writeSet := by
  have hi := List.find?_some h
  simp only [Bool.and_eq_true, decide_eq_true_eq] at hi
  refine ⟨hi.1, fun j hj hji r hr hw => ?_⟩
  have hmem : r ∈ s.otherReads i ∩ (s.moves i).writeSet :=
    Finset.mem_inter.mpr ⟨Finset.mem_biUnion.mpr ⟨j, Finset.mem_erase.mpr ⟨hji, hj⟩, hr⟩, hw⟩
  rw [hi.2] at hmem
  exact absurd hmem (notMem_empty r)

theorem chosen_eq_none (hsub : s.pending ⊆ range moveCount)
    (h : s.chosen moveCount = none) (hi : i ∈ s.pending) :
    ∃ j ∈ s.pending, j ≠ i ∧ ∃ r ∈ (s.moves j).readSet, r ∈ (s.moves i).writeSet := by
  have hnone := List.find?_eq_none.mp h i (List.mem_range.mpr (Finset.mem_range.mp (hsub hi)))
  simp only [hi, decide_true, Bool.true_and, decide_eq_true_eq] at hnone
  obtain ⟨r, hr⟩ := Finset.nonempty_iff_ne_empty.mpr hnone
  obtain ⟨hreads, hw⟩ := Finset.mem_inter.mp hr
  obtain ⟨j, hj, hrj⟩ := Finset.mem_biUnion.mp hreads
  exact ⟨j, mem_of_mem_erase hj, ne_of_mem_erase hj, r, hrj, hw⟩

theorem ArgInv.emit (hp : ArgPlaced moveCount moves) (h : ArgInv I moveCount moves σ s)
    (hc : s.chosen moveCount = some i) : ArgInv I moveCount moves σ (s.emitMove i) := by
  obtain ⟨hi, hready⟩ := chosen_eq_some hc
  have hin := Finset.mem_range.mp (h.sub hi)
  have hregs : (σ.run I (s.emitMove i).code).regs = (s.moves i).exec I (σ.run I s.code).regs := by
    rw [ArgSched.emitMove, ArgMachine.run_snoc]
    rfl
  refine ⟨h.ice, (erase_subset _ _).trans h.sub, ?_, h.writeSet, fun j hj d => ?_,
    fun j hj hjP d hd => ?_, h.tmps, ?_⟩
  · rw [ArgSched.emitMove, card_erase_of_mem hi, h.card]
  · obtain ⟨hji, hj⟩ := Finset.mem_erase.mp hj
    rw [hregs, ← h.pending j hj]
    refine ThumbArgMove.result_congr (fun r hr => ?_) d
    rw [ThumbArgMove.exec, if_neg (hready j hj hji r hr)]
  · rw [hregs, ThumbArgMove.exec]
    by_cases hji : j = i
    · subst hji
      rw [if_pos (by rw [h.writeSet]; exact hd), h.pending j hi]
    · have hnot : d ∉ (s.moves i).writeSet := by
        rw [h.writeSet]
        exact fun hdi => hji (hp.eq_of_mem hj hin hd hdi)
      rw [if_neg hnot]
      exact h.done j hj (fun hjm => hjP (Finset.mem_erase.mpr ⟨hji, hjm⟩)) d hd
  · have hsub : (s.emitMove i).lowReads ⊆ s.lowReads := by
      refine filter_subset_filter _ (biUnion_subset_biUnion_of_subset_left _ ?_)
      exact erase_subset _ _
    have hle := card_le_card hsub
    have hroom := h.room
    have htmps : (s.emitMove i).tmps = s.tmps := rfl
    rw [htmps]
    omega

section Cycle

variable (hp : ArgPlaced moveCount moves) (h : ArgInv I moveCount moves σ s)
  (hc : s.chosen moveCount = none)

include hp h

theorem ArgInv.write_lt (hi : i ∈ s.pending) {d : ℕ} (hd : d ∈ (s.moves i).writeSet) : d < 4 :=
  hp.low i (Finset.mem_range.mp (h.sub hi)) d (h.writeSet i ▸ hd)

theorem ArgInv.mem_lowReads {j r : ℕ} (hi : i ∈ s.pending) (hw : r ∈ (s.moves i).writeSet)
    (hj : j ∈ s.pending) (hr : r ∈ (s.moves j).readSet) : r ∈ s.lowReads :=
  Finset.mem_filter.mpr ⟨Finset.mem_biUnion.mpr ⟨j, hj, hr⟩, h.write_lt hp hi hw⟩

include hc

theorem ArgInv.exists_victim (hne : s.pending.Nonempty) :
    ∃ v ∈ s.lowReads, s.victim moveCount = some v := by
  obtain ⟨i, hi⟩ := hne
  obtain ⟨j, hj, hji, r, hr, hw⟩ := chosen_eq_none h.sub hc hi
  have hclash : s.clash j ≠ ∅ := Finset.nonempty_iff_ne_empty.mp ⟨r, Finset.mem_inter.mpr
    ⟨hr, Finset.mem_biUnion.mpr ⟨i, Finset.mem_erase.mpr ⟨Ne.symm hji, hi⟩, hw⟩⟩⟩
  obtain ⟨k, hk⟩ := Option.isSome_iff_exists.mp (List.find?_isSome.mpr
    ⟨j, List.mem_range.mpr (Finset.mem_range.mp (h.sub hj)), by simp [hj, hclash]⟩ :
      ((List.range moveCount).find? fun i =>
        decide (i ∈ s.pending) && decide (s.clash i ≠ ∅)).isSome = true)
  have hkp := List.find?_some hk
  simp only [Bool.and_eq_true, decide_eq_true_eq] at hkp
  have hlow : ∀ v ∈ s.clash k, v ∈ s.lowReads := by
    intro v hv
    obtain ⟨hvr, hvw⟩ := Finset.mem_inter.mp hv
    obtain ⟨l, hl, hlw⟩ := Finset.mem_biUnion.mp hvw
    exact h.mem_lowReads hp (mem_of_mem_erase hl) hlw hkp.1 hvr
  obtain ⟨q, hq⟩ := Finset.nonempty_iff_ne_empty.mpr hkp.2
  have hq4 := (Finset.mem_filter.mp (hlow q hq)).2
  obtain ⟨v, hv⟩ := Option.isSome_iff_exists.mp (List.find?_isSome.mpr
    ⟨q, List.mem_range.mpr (by omega), by simp [hq]⟩ :
      ((List.range 32).find? fun r => decide (r ∈ s.clash k)).isSome = true)
  refine ⟨v, hlow v (by simpa using List.find?_some hv), ?_⟩
  rw [ArgSched.victim, hk, bind_some, hv]

theorem ArgInv.two_le_lowReads (hne : s.pending.Nonempty) : 2 ≤ s.lowReads.card := by
  obtain ⟨i, hi⟩ := hne
  obtain ⟨j, hj, hji, r, hr, hw⟩ := chosen_eq_none h.sub hc hi
  obtain ⟨k, hk, _, q, hq, hqw⟩ := chosen_eq_none h.sub hc hj
  have hrq : r ≠ q := by
    rintro rfl
    rw [h.writeSet] at hw hqw
    exact hji (hp.eq_of_mem (Finset.mem_range.mp (h.sub hj)) (Finset.mem_range.mp (h.sub hi)) hqw hw)
  have hsub : {r, q} ⊆ s.lowReads := by
    intro x hx
    rcases Finset.mem_insert.mp hx with rfl | hx
    · exact h.mem_lowReads hp hi hw hj hr
    · rw [Finset.mem_singleton.mp hx]
      exact h.mem_lowReads hp hj hqw hk hq
  rw [← card_pair hrq]
  exact card_le_card hsub

omit hc in
theorem ArgInv.card_pending_le : s.pending.card ≤ 4 := by
  rw [← card_range 4]
  have hdst : ∀ i, (moves i).dstReg ∈ (moves i).writeSet := fun i =>
    mem_union_left _ (mem_singleton_self _)
  refine card_le_card_of_injOn (fun i => (moves i).dstReg) (fun i hi => ?_)
    fun i hi j hj hij => ?_
  · exact Finset.mem_coe.mpr (Finset.mem_range.mpr
      (hp.low i (Finset.mem_range.mp (h.sub hi)) _ (hdst i)))
  · refine hp.eq_of_mem (Finset.mem_range.mp (h.sub hi)) (Finset.mem_range.mp (h.sub hj)) (hdst i) ?_
    rw [show (moves i).dstReg = (moves j).dstReg from hij]
    exact hdst j

theorem ArgInv.exists_free (hne : s.pending.Nonempty) :
    ∃ r ∉ s.writes ∪ s.reads ∪ {13, 15} ∪ (s.tmps.map ScratchRegAlloc.reg).toFinset,
      4 ≤ r ∧ r < 16 := by
  by_contra hno
  push Not at hno
  have hsub : Ico 4 16 ⊆
      (s.reads \ s.lowReads) ∪ {13, 15} ∪ (s.tmps.map ScratchRegAlloc.reg).toFinset := by
    intro r hr
    obtain ⟨h4, h16⟩ := Finset.mem_Ico.mp hr
    have hmem : r ∈ s.writes ∪ s.reads ∪ {13, 15} ∪ (s.tmps.map ScratchRegAlloc.reg).toFinset := by
      by_contra hnot
      exact absurd (hno r hnot h4) (by omega)
    have hnotw : r ∉ s.writes := by
      intro hw
      obtain ⟨i, hi, hiw⟩ := Finset.mem_biUnion.mp hw
      exact absurd (h.write_lt hp hi hiw) (by omega)
    have hnotlow : r ∉ s.lowReads := fun hl => absurd (Finset.mem_filter.mp hl).2 (by omega)
    simp only [mem_union, mem_sdiff] at hmem ⊢
    tauto
  have hcard := card_le_card hsub
  rw [Nat.card_Ico] at hcard
  have htwo := h.two_le_lowReads hp hc hne
  have hfour := h.card_pending_le hp
  have hroom := h.room
  have hreads : s.reads.card ≤ s.pending.card * 2 :=
    card_biUnion_le_card_mul _ _ _ fun i _ => (s.moves i).card_readSet_le
  have hlowsub : s.lowReads ⊆ s.reads := filter_subset _ _
  have hhigh := card_sdiff_of_subset hlowsub
  have htmps := List.toFinset_card_le (s.tmps.map ScratchRegAlloc.reg)
  rw [List.length_map] at htmps
  have hunion := card_union_le (s.reads \ s.lowReads ∪ {13, 15})
    (s.tmps.map ScratchRegAlloc.reg).toFinset
  have hunion2 := card_union_le (s.reads \ s.lowReads) {13, 15}
  have hpair : ({13, 15} : Finset ℕ).card = 2 := rfl
  omega

theorem ArgInv.takeScratch (hs : ScratchSpec scratch) (hne : s.pending.Nonempty) :
    TookScratch I σ s (s.takeScratch scratch) := by
  have hnew : TookScratch I σ s (s.newScratch scratch) := by
    obtain ⟨hreg, hrange⟩ := hs _ (h.exists_free hp hc hne)
    refine ⟨⟨_, List.getLast?_concat, ?_⟩, by simp [ArgSched.newScratch], ?_, ?_, rfl, rfl, rfl, h.ice⟩
    · intro hmem
      exact hreg (mem_union_left _ (mem_union_left _ (mem_union_right _ hmem)))
    · intro t ht
      rcases List.mem_append.mp ht with ht | ht
      · exact h.tmps t ht
      · rw [List.mem_singleton.mp ht]
        exact hrange
    · rw [ArgSched.newScratch]
      split
      · rw [ArgMachine.run_snoc]
        rfl
      · rfl
  have htwo := h.two_le_lowReads hp hc hne
  have hroom := h.room
  unfold ArgSched.takeScratch
  split
  · next last hlast =>
    split
    · rw [if_neg (by omega)]
      exact hnew
    · next hfree =>
      exact ⟨⟨last, hlast, hfree⟩, Nat.le_succ _, h.tmps, rfl, rfl, rfl, rfl, h.ice⟩
  · exact hnew

/-- A cycle is broken, and one register less of `r0`-`r3` is read. -/
theorem ArgInv.breakCycle (hs : ScratchSpec scratch) (hne : s.pending.Nonempty) :
    ArgInv I moveCount moves σ (s.breakCycle scratch moveCount) ∧
      (s.breakCycle scratch moveCount).pending = s.pending ∧
      (s.breakCycle scratch moveCount).lowReads.card < s.lowReads.card := by
  obtain ⟨v, hv, hvictim⟩ := h.exists_victim hp hc hne
  obtain ⟨⟨tmp, hlast, hfree⟩, hlen, htmps, hregs, hmoves, hpend, hrem, hice⟩ :=
    h.takeScratch hp hc hs hne
  have htmp := htmps tmp (List.mem_of_getLast? hlast)
  have hv4 := (Finset.mem_filter.mp hv).2
  have hnotread : ∀ j ∈ s.pending, tmp.reg ∉ (s.moves j).readSet := fun j hj hr =>
    hfree (Finset.mem_biUnion.mpr ⟨j, hj, hr⟩)
  rw [ArgSched.breakCycle, hvictim]
  dsimp only
  rw [hice, if_neg (by decide), ArgSched.redirectTo, hlast]
  rw [hmoves, hpend]
  have hrun : (σ.run I ((s.takeScratch scratch).code ++ [.mov tmp.reg v])).regs
      = update (σ.run I s.code).regs tmp.reg ((σ.run I s.code).regs v) := by
    rw [ArgMachine.run_snoc, ← hregs]
    rfl
  -- what is read of `r0`-`r3` afterwards
  have hlow : ∀ r ∈ (s.pending.biUnion fun j => (if j ∈ s.pending
      then (s.moves j).redirectRead v tmp.reg else s.moves j).readSet).filter (· < 4),
      r ∈ s.lowReads.erase v := by
    intro r hr
    obtain ⟨hr, hr4⟩ := Finset.mem_filter.mp hr
    obtain ⟨j, hj, hrj⟩ := Finset.mem_biUnion.mp hr
    rw [if_pos hj] at hrj
    rcases Finset.mem_insert.mp (ThumbArgMove.readSet_redirectRead hrj) with rfl | hrj
    · omega
    · obtain ⟨hrv, hrj⟩ := Finset.mem_erase.mp hrj
      exact Finset.mem_erase.mpr ⟨hrv, Finset.mem_filter.mpr
        ⟨Finset.mem_biUnion.mpr ⟨j, hj, hrj⟩, hr4⟩⟩
  have hcard := (card_le_card hlow).trans_lt (card_erase_lt_of_mem hv)
  refine ⟨⟨hice, h.sub, hrem.trans h.card, fun i => ?_, fun i hi d => ?_, fun i hi hiP d hd => ?_,
    htmps, ?_⟩, rfl, hcard⟩
  · dsimp only
    split
    · rw [ThumbArgMove.writeSet_redirectRead, h.writeSet]
    · exact h.writeSet i
  · dsimp only at hi ⊢
    rw [if_pos hi, hrun, ThumbArgMove.result_redirectRead (by omega) htmp.2 (hnotread i hi)]
    exact h.pending i hi d
  · have hd4 := hp.low i hi d hd
    rw [hrun, update_of_ne (by omega)]
    exact h.done i hi hiP d hd
  · have hroom := h.room
    unfold ArgSched.lowReads ArgSched.reads at hcard ⊢
    dsimp only at hcard ⊢
    unfold ArgSched.lowReads ArgSched.reads at hroom
    omega

end Cycle

theorem argLoop_total (hs : ScratchSpec scratch) (hp : ArgPlaced moveCount moves)
    (I : ThumbArgMove.Meaning β A) (σ : ArgMachine A) :
    ∃ s, whileLoop (fun s => decide (0 < s.remaining) && s.ice.isNone)
        (ArgSched.step scratch moveCount) (moveCount + 5)
        ⟨moves, range moveCount, moveCount, [], [], none⟩ = some s ∧
      ArgInv I moveCount moves σ s ∧ s.pending = ∅ := by
  -- a turn emits a move, or one register less of `r0`-`r3` is read
  have hstep : ∀ s : ArgSched β, ArgInv I moveCount moves σ s →
      (decide (0 < s.remaining) && s.ice.isNone) = true →
      ArgInv I moveCount moves σ (s.step scratch moveCount) ∧
        (s.step scratch moveCount).pending.card + (s.step scratch moveCount).lowReads.card
          < s.pending.card + s.lowReads.card := by
    intro s h hcond
    have hne : s.pending.Nonempty := by
      rw [← card_pos, ← h.card]
      simpa [h.ice] using hcond
    rw [ArgSched.step]
    split
    · next i hi =>
      refine ⟨h.emit hp hi, ?_⟩
      have herase : (s.emitMove i).pending.card < s.pending.card :=
        card_erase_lt_of_mem (chosen_eq_some hi).1
      have hlow : (s.emitMove i).lowReads.card ≤ s.lowReads.card :=
        card_le_card (filter_subset_filter _
          (biUnion_subset_biUnion_of_subset_left _ (erase_subset _ _)))
      omega
    · next hnone =>
      obtain ⟨hinv, hpend, hlt⟩ := h.breakCycle hp hnone hs hne
      refine ⟨hinv, ?_⟩
      rw [hpend]
      omega
  have hinit : ArgInv I moveCount moves σ ⟨moves, range moveCount, moveCount, [], [], none⟩ :=
    ArgInv.init I moves σ
  obtain ⟨s, hrun, h, hdone⟩ := whileLoop_total (ArgInv I moveCount moves σ)
    (fun s => s.pending.card + s.lowReads.card) hstep (moveCount + 5) _ hinit (by
      have hroom := hinit.room
      have hcard := hinit.card
      dsimp only at hcard ⊢
      omega)
  refine ⟨s, hrun, h, ?_⟩
  have hz : s.remaining = 0 := by simpa [h.ice] using hdone
  rw [h.card] at hz
  exact Finset.card_eq_zero.mp hz

/-- The moves are emitted without an internal error, and give every destination the value its move
would have had at the start. -/
theorem thumbEmitParallelArgMoves_correct (scratch : Finset ℕ → ScratchRegAlloc)
    (hs : ScratchSpec scratch) (moveCount : ℕ) (moves : ℕ → ThumbArgMove β)
    (hp : ArgPlaced moveCount moves) :
    ∃ code, thumbEmitParallelArgMoves scratch moveCount moves = some (.ok code) ∧
      ∀ (I : ThumbArgMove.Meaning β A) (σ : ArgMachine A), ∀ i < moveCount,
        ∀ d ∈ (moves i).writeSet, (σ.run I code).regs d = (moves i).result I σ.regs d := by
  obtain ⟨s, hrun, h, _⟩ := argLoop_total hs hp
    (⟨fun _ _ _ _ => (), fun _ _ => ()⟩ : ThumbArgMove.Meaning β Unit) ⟨fun _ => (), []⟩
  refine ⟨s.code ++ (s.tmps.reverse.filter ScratchRegAlloc.saved).map (.restore ·.reg), ?_,
    fun I σ i hi d hd => ?_⟩
  · rw [thumbEmitParallelArgMoves, hrun, map_some, h.ice]
  · obtain ⟨s', hrun', h', hempty⟩ := argLoop_total hs hp I σ
    obtain rfl : s = s' := Option.some.inj (hrun.symm.trans hrun')
    -- the scratch registers are restored last, and are none of the destinations
    have hd4 := hp.low i hi d hd
    rw [ArgMachine.run, List.foldl_append]
    refine (ArgMachine.regs_run_restore I _ _ fun t ht => ?_).trans
      (h'.done i hi (by rw [hempty]; exact notMem_empty i) d hd)
    have ht4 := h'.tmps t (List.mem_reverse.mp (List.mem_filter.mp ht).1)
    omega

end Scheduler

def firstScratch (exclude : Finset ℕ) : ScratchRegAlloc :=
  ⟨((List.range' 4 12).find? fun r => decide (r ∉ exclude)).getD 4, true⟩

theorem firstScratch_spec : ScratchSpec firstScratch := by
  rintro exclude ⟨r, hr, h4, h16⟩
  obtain ⟨q, hq⟩ := Option.isSome_iff_exists.mp (List.find?_isSome.mpr
    ⟨r, List.mem_range'_1.mpr ⟨h4, h16⟩, by simpa using hr⟩ :
      ((List.range' 4 12).find? fun r => decide (r ∉ exclude)).isSome = true)
  have hmem := List.mem_range'_1.mp (List.mem_of_find?_eq_some hq)
  have hnot : q ∉ exclude := by simpa using List.find?_some hq
  rw [firstScratch, hq]
  exact ⟨hnot, hmem.1, hmem.2⟩

/-- `mov r0, r1` with `ldr r1, [r0]`, a cycle. -/
def crossedMoves : ℕ → ThumbArgMove Unit
  | 0 => ⟨.reg, 0, 0, 1, 0, false, 16, 16, ()⟩
  | _ => ⟨.mop, 1, 0, 0, 0, true, 0, 16, ()⟩

theorem crossedMoves_placed : ArgPlaced 2 crossedMoves where
  low := by decide
  disjoint := by decide

theorem thumbEmitParallelArgMoves_correct_crossed :
    ScratchSpec firstScratch ∧ ArgPlaced 2 crossedMoves ∧
    ∃ code, thumbEmitParallelArgMoves firstScratch 2 crossedMoves = some (.ok code) ∧
      ∀ (I : ThumbArgMove.Meaning Unit (BitVec 32)) (σ : ArgMachine (BitVec 32)), ∀ i < 2,
        ∀ d ∈ (crossedMoves i).writeSet,
          (σ.run I code).regs d = (crossedMoves i).result I σ.regs d :=
  ⟨firstScratch_spec, crossedMoves_placed,
    thumbEmitParallelArgMoves_correct firstScratch firstScratch_spec 2 crossedMoves crossedMoves_placed⟩

end Tinycc
