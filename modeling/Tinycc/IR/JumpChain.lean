import Mathlib.Data.List.Perm.Subperm
import Mathlib.Data.List.TakeWhile
import Tinycc.IR.Instr
import Tinycc.Lib.LinkedChain

/-!
# Chains of jumps that wait for their target

Until the target of a jump is known, its destination field holds the index of the next jump of a
chain.  A chain is patched in place: each link is replaced by the target.
-/

namespace Tinycc
open Lib List Int

/-- An instruction as the chains see it: `imm32` is the field of the destination operand, `rest`
all other operands. -/
structure JumpQuad (β : Type*) where
  op : TccIrOp
  imm32 : ℤ
  isJumpTarget : Bool
  rest : β

/-- The instructions made so far; their number is `next_instruction_index`. -/
structure JumpIr (β : Type*) where
  instrs : List (JumpQuad β)
  nextInsnIsJumpTarget : Bool

namespace JumpIr

variable {β : Type*}

def markTarget (ir : JumpIr β) (targetAddress : ℤ) : JumpIr β :=
  if 0 ≤ targetAddress ∧ targetAddress < ir.instrs.length then
    { ir with instrs := ir.instrs.modify targetAddress.toNat fun q => { q with isJumpTarget := true } }
  else if targetAddress = ir.instrs.length then { ir with nextInsnIsJumpTarget := true }
  else ir

/-- The loop of `tcc_ir_backpatch`, cut off after a number of tests. -/
def backpatchLoop (targetAddress : ℤ) : ℕ → JumpIr β → ℤ → Option (JumpIr β)
  | 0, _, _ => none
  | fuel + 1, ir, t =>
    if 0 ≤ t ∧ t < ir.instrs.length then
      match ir.instrs[t.toNat]? with
      | none => none
      | some q =>
        if q.op ≠ .jump ∧ q.op ≠ .jumpif then some ir
        else
          let next := q.imm32
          let ir := { ir with instrs := ir.instrs.set t.toNat { q with imm32 := targetAddress } }
          let ir := ir.markTarget targetAddress
          -- the chain ends, or the target was met
          if next < 0 ∨ ir.instrs.length ≤ next ∨ next = targetAddress then some ir
          else backpatchLoop targetAddress fuel ir next
    else some ir

def tccIrBackpatch (ir : JumpIr β) (t targetAddress : ℤ) : Option (JumpIr β) :=
  if t < 0 then some ir else backpatchLoop targetAddress (ir.instrs.length + 1) ir t

/-- The loop of `tcc_ir_backpatch_first`: the last jump of the chain. -/
def lastOfChain : ℕ → JumpIr β → ℤ → Option ℤ
  | 0, _, _ => none
  | fuel + 1, ir, t =>
    match ir.instrs[t.toNat]? with
    | none => none
    | some q =>
      if q.imm32 < 0 ∨ ir.instrs.length ≤ q.imm32 then some t else lastOfChain fuel ir q.imm32

def tccIrPoolJumpTargetSet (ir : JumpIr β) (instrIdx targetAddress : ℤ) : JumpIr β :=
  { ir with instrs := ir.instrs.modify instrIdx.toNat fun q => { q with imm32 := targetAddress } }

def tccIrBackpatchFirst (ir : JumpIr β) (t targetAddress : ℤ) : Option (JumpIr β) :=
  if t < 0 then some ir
  else (lastOfChain (ir.instrs.length + 1) ir t).map fun lp =>
    ir.tccIrPoolJumpTargetSet lp targetAddress

def tccIrGjmpAppend (ir : JumpIr β) (n t : ℤ) : Option (JumpIr β × ℤ) :=
  if 0 ≤ n ∧ n < ir.instrs.length then (ir.tccIrBackpatchFirst n t).map fun ir => (ir, n)
  else some (ir, t)

/-! ## Chains -/

def link (ir : JumpIr β) (i : ℕ) : Option ℤ :=
  ir.instrs[i]?.bind fun q => if q.op = .jump ∨ q.op = .jumpif then some q.imm32 else none

/-- Distinct jumps linked through their destination fields and ended by `-1`. -/
structure Chain (ir : JumpIr β) (t : ℤ) (c : List ℕ) : Prop where
  linked : Linked ir.link t c
  nodup : c.Nodup

/-- What patching a chain is to do: its members get the target, the target is marked if there is a
member, and nothing else changes. -/
def patched (ir : JumpIr β) (c : List ℕ) (target : ℤ) : JumpIr β where
  instrs := ir.instrs.mapIdx fun i q =>
    { q with
      imm32 := if i ∈ c then target else q.imm32
      isJumpTarget := q.isJumpTarget || (decide (c ≠ []) && decide (target = i)) }
  nextInsnIsJumpTarget :=
    ir.nextInsnIsJumpTarget || (decide (c ≠ []) && decide (target = ir.instrs.length))

variable {ir : JumpIr β} {t u target : ℤ} {c d : List ℕ} {i j : ℕ}

theorem link_eq_some_iff : ir.link i = some u ↔
    ∃ q, ir.instrs[i]? = some q ∧ (q.op = .jump ∨ q.op = .jumpif) ∧ q.imm32 = u := by
  rw [link, Option.bind_eq_some_iff]
  constructor
  · rintro ⟨q, hq, hu⟩
    split at hu
    · next hop => exact ⟨q, hq, hop, Option.some.inj hu⟩
    · cases hu
  · rintro ⟨q, hq, hop, rfl⟩
    exact ⟨q, hq, if_pos hop⟩

theorem lt_length_of_link (h : ir.link i = some u) : i < ir.instrs.length := by
  obtain ⟨q, hq, _⟩ := link_eq_some_iff.mp h
  exact (List.getElem?_eq_some_iff.mp hq).1

@[simp]
theorem length_patched (ir : JumpIr β) (c : List ℕ) (target : ℤ) :
    (ir.patched c target).instrs.length = ir.instrs.length := by
  simp [patched]

theorem getElem?_patched (ir : JumpIr β) (c : List ℕ) (target : ℤ) (i : ℕ) :
    (ir.patched c target).instrs[i]? = ir.instrs[i]?.map fun q =>
      { q with
        imm32 := if i ∈ c then target else q.imm32
        isJumpTarget := q.isJumpTarget || (decide (c ≠ []) && decide (target = i)) } := by
  rw [patched, List.getElem?_mapIdx]

theorem ext_instrs {ir ir' : JumpIr β} (h : ∀ i : ℕ, ir.instrs[i]? = ir'.instrs[i]?)
    (hnext : ir.nextInsnIsJumpTarget = ir'.nextInsnIsJumpTarget) : ir = ir' := by
  obtain ⟨instrs, next⟩ := ir
  obtain ⟨instrs', next'⟩ := ir'
  obtain rfl : instrs = instrs' := List.ext_getElem? h
  obtain rfl : next = next' := hnext
  rfl

theorem getElem?_markTarget (ir : JumpIr β) (target : ℤ) (i : ℕ) :
    (ir.markTarget target).instrs[i]? = ir.instrs[i]?.map fun q =>
      { q with isJumpTarget := q.isJumpTarget || decide (target = i) } := by
  have hrange : ∀ q, ir.instrs[i]? = some q → (i : ℤ) < ir.instrs.length := by
    intro q hq
    exact_mod_cast (List.getElem?_eq_some_iff.mp hq).1
  rw [markTarget]
  split
  · next hin =>
    obtain ⟨k, rfl⟩ := eq_ofNat_of_zero_le hin.1
    rw [List.getElem?_modify]
    cases ir.instrs[i]? with
    | none => rfl
    | some q =>
      by_cases hk : k = i
      · simp [hk]
      · have hki : (k : ℤ) ≠ i := by omega
        simp [hk, hki]
  · next hin =>
    have hne : ∀ q, ir.instrs[i]? = some q → target ≠ i := by
      intro q hq
      have := hrange q hq
      omega
    have hsame : ir.instrs[i]? = ir.instrs[i]?.map fun q =>
        { q with isJumpTarget := q.isJumpTarget || decide (target = i) } := by
      cases hq : ir.instrs[i]? with
      | none => rfl
      | some q => simp [hne q hq]
    split
    · exact hsame
    · exact hsame

theorem nextInsn_markTarget (ir : JumpIr β) (target : ℤ) :
    (ir.markTarget target).nextInsnIsJumpTarget =
      (ir.nextInsnIsJumpTarget || decide (target = ir.instrs.length)) := by
  rw [markTarget]
  split
  · simp [show target ≠ ir.instrs.length by omega]
  split
  · next h => simp [h]
  · next h => simp [h]

theorem set_markTarget {q : JumpQuad β} (hq : ir.instrs[i]? = some q) :
    markTarget { ir with instrs := ir.instrs.set i { q with imm32 := target } } target
      = ir.patched [i] target := by
  have hi := (List.getElem?_eq_some_iff.mp hq).1
  apply ext_instrs
  · intro j
    rw [getElem?_markTarget, getElem?_patched]
    by_cases hij : i = j
    · subst hij
      rw [List.getElem?_set_self hi, hq]
      simp
    · rw [List.getElem?_set_ne hij]
      simp [Ne.symm hij]
  · rw [nextInsn_markTarget]
    simp [patched]

theorem patched_cons (ir : JumpIr β) (i : ℕ) (c : List ℕ) (target : ℤ) :
    (ir.patched [i] target).patched c target = ir.patched (i :: c) target := by
  apply ext_instrs
  · intro j
    rw [getElem?_patched, getElem?_patched, getElem?_patched]
    cases ir.instrs[j]? with
    | none => rfl
    | some q =>
      cases c with
      | nil => simp
      | cons k c =>
        by_cases hjc : j ∈ k :: c
        · simp [hjc]
        · simp [hjc]
  · cases c with
    | nil => simp [patched]
    | cons k c => simp [patched]

theorem link_patched (hj : j ∉ c) : (ir.patched c target).link j = ir.link j := by
  rw [link, link, getElem?_patched]
  cases ir.instrs[j]? with
  | none => rfl
  | some q => simp [hj]

/-- The loop patches a chain up to its first later member that is the target. -/
theorem backpatchLoop_eq {fuel : ℕ} (h : Linked ir.link i (i :: c)) (hnodup : (i :: c).Nodup)
    (hfuel : c.length < fuel) : backpatchLoop target fuel ir i
      = some (ir.patched (i :: c.takeWhile fun j => decide ((j : ℤ) ≠ target)) target) := by
  induction c generalizing ir i fuel with
  | nil =>
    obtain ⟨fuel, rfl⟩ : ∃ n, fuel = n + 1 := ⟨fuel - 1, by omega⟩
    obtain ⟨_, u, hu, hend⟩ := h
    have hu1 : u = -1 := hend
    have hi := lt_length_of_link hu
    obtain ⟨q, hq, hop, hlink⟩ := link_eq_some_iff.mp hu
    rw [backpatchLoop, if_pos (by omega), toNat_natCast, hq]
    dsimp only
    rw [if_neg fun h => hop.elim h.1 h.2, set_markTarget hq, if_pos (.inl (by omega))]
    rfl
  | cons j c ih =>
    obtain ⟨fuel, rfl⟩ : ∃ n, fuel = n + 1 := ⟨fuel - 1, by omega⟩
    obtain ⟨_, u, hu, hrest⟩ := h
    obtain rfl : u = j := hrest.1
    have hi := lt_length_of_link hu
    obtain ⟨v, hv, _⟩ := hrest.2
    have hj := lt_length_of_link hv
    obtain ⟨q, hq, hop, hlink⟩ := link_eq_some_iff.mp hu
    rw [backpatchLoop, if_pos (by omega), toNat_natCast, hq]
    dsimp only
    rw [if_neg fun h => hop.elim h.1 h.2, set_markTarget hq, length_patched, hlink]
    by_cases htarget : (j : ℤ) = target
    · rw [if_pos (.inr (.inr htarget)), takeWhile_cons_of_neg (by simpa using htarget)]
    · rw [if_neg (by omega), takeWhile_cons_of_pos (by simpa using htarget),
        ← patched_cons ir i (j :: _)]
      have hcongr : Linked (ir.patched [i] target).link j (j :: c) := by
        refine hrest.congr fun k hk => link_patched ?_
        rw [mem_singleton]
        rintro rfl
        exact (List.nodup_cons.mp hnodup).1 hk
      exact ih hcongr (List.nodup_cons.mp hnodup).2 (by simp at hfuel; omega)

theorem Chain.length_le (h : ir.Chain t c) : c.length ≤ ir.instrs.length := by
  have hsub : c ⊆ List.range ir.instrs.length := by
    intro i hi
    rw [mem_range]
    rcases h.linked.next_mem hi with ⟨j, _, hj⟩ | ⟨hend, _⟩
    · exact lt_length_of_link hj
    · exact lt_length_of_link hend
  have hle := (subperm_of_subset h.nodup hsub).length_le
  rwa [length_range] at hle

/-- A chain is patched as a whole exactly if the target is none of its later members. -/
theorem backpatch_iff (h : ir.Chain t c) :
    ir.tccIrBackpatch t target = some (ir.patched c target) ↔ ∀ j ∈ c.tail, (j : ℤ) ≠ target := by
  cases c with
  | nil =>
    have hend : t = -1 := h.linked
    have hnil : ir.patched [] target = ir := by
      apply ext_instrs
      · intro i
        rw [getElem?_patched]
        cases ir.instrs[i]? with
        | none => rfl
        | some q => simp
      · simp [patched]
    simp [tccIrBackpatch, hend, hnil]
  | cons i c =>
    obtain rfl : t = i := h.linked.1
    have hlen := h.length_le
    rw [length_cons] at hlen
    rw [tccIrBackpatch, if_neg (by omega), backpatchLoop_eq h.linked h.nodup (by omega),
      Option.some_inj, tail_cons]
    constructor
    · intro heq j hj htarget
      -- the target keeps its own link, which is not to itself
      have hjc : j ∉ i :: c.takeWhile fun j => decide ((j : ℤ) ≠ target) := by
        rw [mem_cons, not_or]
        refine ⟨?_, fun hmem => ?_⟩
        · rintro rfl
          exact (List.nodup_cons.mp h.nodup).1 hj
        · simpa [htarget] using mem_takeWhile_imp hmem
      have hself : ir.link j = some (j : ℤ) := by
        obtain ⟨v, hv⟩ : ∃ v, ir.link j = some v := by
          rcases h.linked.next_mem (mem_cons_of_mem i hj) with ⟨k, _, hk⟩ | ⟨hend, _⟩
          · exact ⟨_, hk⟩
          · exact ⟨_, hend⟩
        obtain ⟨q, hq, hop, rfl⟩ := link_eq_some_iff.mp hv
        have hinstr := congrArg (fun ir : JumpIr β => ir.instrs[j]?) heq
        simp only [getElem?_patched, hq, if_neg hjc, if_pos (mem_cons_of_mem i hj),
          Option.map_some, Option.some_inj, JumpQuad.mk.injEq] at hinstr
        rw [hv, hinstr.2.1, htarget]
      obtain ⟨b, d, rfl⟩ := append_of_mem hj
      exact not_linked_of_closed (· = j) (fun k hk => ⟨j, rfl, by rw [hk, hself]⟩) rfl
        (Linked.suffix (c := i :: b) h.linked)
    · intro hall
      rw [List.takeWhile_eq_self_iff.mpr fun j hj => by simpa using hall j hj]

/-! ## Joining chains -/

theorem lastOfChain_eq {fuel : ℕ} (h : Linked ir.link t (c ++ [i])) (hfuel : c.length < fuel) :
    lastOfChain fuel ir t = some (i : ℤ) := by
  induction c generalizing t fuel with
  | nil =>
    obtain ⟨fuel, rfl⟩ : ∃ n, fuel = n + 1 := ⟨fuel - 1, by omega⟩
    obtain ⟨rfl, u, hu, hend⟩ := h
    have hu1 : u = -1 := hend
    obtain ⟨q, hq, _, hlink⟩ := link_eq_some_iff.mp hu
    rw [lastOfChain, toNat_natCast, hq]
    dsimp only
    rw [if_pos (.inl (by omega))]
  | cons j c ih =>
    obtain ⟨fuel, rfl⟩ : ∃ n, fuel = n + 1 := ⟨fuel - 1, by omega⟩
    obtain ⟨rfl, u, hu, hrest⟩ := h
    obtain ⟨k, hk, hkmem⟩ : ∃ k : ℕ, u = k ∧ k < ir.instrs.length := by
      cases c with
      | nil => exact ⟨i, hrest.1, lt_length_of_link hrest.2.choose_spec.1⟩
      | cons k c => exact ⟨k, hrest.1, lt_length_of_link hrest.2.choose_spec.1⟩
    obtain ⟨q, hq, _, hlink⟩ := link_eq_some_iff.mp hu
    rw [lastOfChain, toNat_natCast, hq]
    dsimp only
    rw [if_neg (by omega), hlink]
    exact ih hrest (by simp at hfuel; omega)

theorem link_jumpTargetSet_self (h : ir.link i = some u) :
    (ir.tccIrPoolJumpTargetSet i target).link i = some target := by
  obtain ⟨q, hq, hop, _⟩ := link_eq_some_iff.mp h
  refine link_eq_some_iff.mpr ⟨{ q with imm32 := target }, ?_, hop, rfl⟩
  rw [tccIrPoolJumpTargetSet, List.getElem?_modify, hq]
  simp

theorem link_jumpTargetSet_ne (h : i ≠ j) :
    (ir.tccIrPoolJumpTargetSet i target).link j = ir.link j := by
  rw [link, link, tccIrPoolJumpTargetSet]
  simp [h]

/-- Two chains are joined to one exactly if they have no jump in common. -/
theorem gjmpAppend_iff (hc : ir.Chain t c) (hd : ir.Chain u d) :
    (∃ ir' r e, ir.tccIrGjmpAppend t u = some (ir', r) ∧ ir'.Chain r e ∧
      ∀ i, i ∈ e ↔ i ∈ c ∨ i ∈ d) ↔ ∀ i ∈ c, i ∉ d := by
  rcases eq_nil_or_concat c with rfl | ⟨b, l, hbl⟩
  · have hend : t = -1 := hc.linked
    rw [tccIrGjmpAppend, if_neg (by omega)]
    exact iff_of_true ⟨ir, u, d, rfl, hd, by simp⟩ (by simp)
  rw [concat_eq_append] at hbl
  have hl : l ∈ c := by simp [hbl]
  have hlb : l ∉ b := by
    have hnodup := hc.nodup
    rw [hbl, nodup_append] at hnodup
    exact fun hmem => hnodup.2.2 l hmem l (by simp) rfl
  obtain ⟨n, hn, rfl⟩ : ∃ n ∈ c, t = n := by
    cases hcc : c with
    | nil => simp [hcc] at hl
    | cons n c' => exact ⟨n, by simp, (hcc ▸ hc.linked).1⟩
  have hlink : ∀ i ∈ c, ∃ v, ir.link i = some v := by
    intro i hi
    rcases hc.linked.next_mem hi with ⟨k, _, hk⟩ | ⟨hend, _⟩
    · exact ⟨_, hk⟩
    · exact ⟨_, hend⟩
  have hn' := lt_length_of_link (hlink n hn).choose_spec
  have happend : ir.tccIrGjmpAppend n u = some (ir.tccIrPoolJumpTargetSet l u, (n : ℤ)) := by
    have hlen := hc.length_le
    rw [hbl, length_append] at hlen
    rw [tccIrGjmpAppend, if_pos (by omega), tccIrBackpatchFirst,
      lastOfChain_eq (hbl ▸ hc.linked) (by omega)]
    rfl
  rw [happend]
  have hself : (ir.tccIrPoolJumpTargetSet l u).link l = some u :=
    link_jumpTargetSet_self (hlink l hl).choose_spec
  constructor
  · rintro ⟨ir', r, e, heq, he, _⟩ i hic hid
    obtain ⟨rfl, rfl⟩ : ir.tccIrPoolJumpTargetSet l u = ir' ∧ (n : ℤ) = r := by simpa using heq
    obtain ⟨k, ⟨p, hp⟩, q, hq⟩ := hc.linked.common_end hd.linked hic hid
    obtain rfl : l = k := by
      have := hbl.symm.trans hp
      exact (append_inj' this rfl).2 |> singleton_injective
    -- the end of both chains is linked back to the second one
    refine not_linked_of_closed (fun x => x ∈ c ∨ x ∈ d) (fun x hx => ?_) (.inl hn) he.linked
    by_cases hxl : l = x
    · subst hxl
      cases hdd : d with
      | nil => simp [hdd] at hid
      | cons m d' =>
        have hhead := hd.linked
        rw [hdd] at hhead
        exact ⟨m, .inr (by simp), by rw [hself, hhead.1]⟩
    · rw [link_jumpTargetSet_ne hxl]
      rcases hx with hx | hx
      · rcases hc.linked.next_mem hx with ⟨y, hy, hxy⟩ | ⟨_, b', hb'⟩
        · exact ⟨y, .inl hy, hxy⟩
        · exact absurd (singleton_injective (append_inj' (hp.symm.trans hb') rfl).2) hxl
      · rcases hd.linked.next_mem hx with ⟨y, hy, hxy⟩ | ⟨_, b', hb'⟩
        · exact ⟨y, .inr hy, hxy⟩
        · exact absurd (singleton_injective (append_inj' (hq.symm.trans hb') rfl).2) hxl
  · intro hdisj
    refine ⟨_, _, b ++ l :: d, rfl, ⟨?_, ?_⟩, ?_⟩
    · refine Linked.append (hbl ▸ hc.linked) (fun j hj => link_jumpTargetSet_ne ?_) hself ?_
      · rintro rfl
        exact hlb hj
      · refine hd.linked.congr fun j hj => link_jumpTargetSet_ne ?_
        rintro rfl
        exact hdisj l hl hj
    · have hnodup := List.nodup_append.mpr ⟨hc.nodup, hd.nodup, fun x hx y hy hxy =>
        hdisj x hx (hxy ▸ hy)⟩
      rw [hbl, append_assoc] at hnodup
      exact hnodup
    · intro i
      simp [hbl, or_assoc]

/-- A chain is patched to a target exactly if no later member is the target, and two chains are
joined exactly if they have no member in common. -/
theorem jumpChains_iff (hc : ir.Chain t c) (hd : ir.Chain u d) (target : ℤ) :
    (ir.tccIrBackpatch t target = some (ir.patched c target) ↔
      ∀ j ∈ c.tail, (j : ℤ) ≠ target) ∧
    ((∃ ir' r e, ir.tccIrGjmpAppend t u = some (ir', r) ∧ ir'.Chain r e ∧
      ∀ i, i ∈ e ↔ i ∈ c ∨ i ∈ d) ↔ ∀ i ∈ c, i ∉ d) :=
  ⟨backpatch_iff hc, gjmpAppend_iff hc hd⟩

def threeJumps : JumpIr Unit :=
  ⟨[⟨.jumpif, -1, false, ()⟩, ⟨.jump, -1, false, ()⟩, ⟨.jump, 0, false, ()⟩], false⟩

theorem threeJumps_chain : threeJumps.Chain 2 [2, 0] ∧ threeJumps.Chain 1 [1] := by
  constructor
  · exact ⟨⟨rfl, 0, by decide, rfl, -1, by decide, rfl⟩, by decide⟩
  · exact ⟨⟨rfl, -1, by decide, rfl⟩, by decide⟩

theorem jumpChains_iff_threeJumps : threeJumps.Chain 2 [2, 0] ∧ threeJumps.Chain 1 [1] ∧
    threeJumps.tccIrBackpatch 2 3 = some (threeJumps.patched [2, 0] 3) ∧
    ∃ ir' r e, threeJumps.tccIrGjmpAppend 2 1 = some (ir', r) ∧ ir'.Chain r e ∧
      ∀ i, i ∈ e ↔ i ∈ [2, 0] ∨ i ∈ [1] := by
  have h := jumpChains_iff threeJumps_chain.1 threeJumps_chain.2 3
  exact ⟨threeJumps_chain.1, threeJumps_chain.2, h.1.mpr (by decide), h.2.mpr (by decide)⟩

/-- A loop body that starts with one of its own jumps back: the jump at the target keeps the end
mark of the chain for its destination. -/
theorem backpatch_to_member : threeJumps.Chain 2 [2, 0] ∧
    (∃ ir', threeJumps.tccIrBackpatch 2 0 = some ir' ∧ ir'.instrs.map (·.imm32) = [-1, -1, 0]) ∧
    (threeJumps.patched [2, 0] 0).instrs.map (·.imm32) = [0, -1, 0] :=
  ⟨threeJumps_chain.1, ⟨_, rfl, by decide⟩, by decide⟩

end JumpIr

end Tinycc
