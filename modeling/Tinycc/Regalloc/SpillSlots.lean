import Mathlib.Data.List.GetD
import Mathlib.Data.List.Nodup
import Mathlib.Data.List.Perm.Basic
import Tinycc.Lib.Loop

namespace Tinycc
open Lib Function List

section Source

inductive LsRegType
  | int
  | float
  | double
  | llong
  | doubleSoft
  | complexFloat
  | complexDouble
  deriving DecidableEq

def LsRegType.width : LsRegType → ℕ
  | .int | .float => 4
  | .complexDouble => 16
  | .double | .llong | .doubleSoft | .complexFloat => 8

/-- What the stack slots depend on. Intervals are built with their end not before their start and,
for a parameter, with the start at the entry. -/
structure SlotInterval where
  vreg : ℕ
  start : ℕ
  stop : ℕ
  regType : LsRegType
  isParam : Bool
  precolored : Bool
  addrtaken : Bool
  isVolatile : Bool
  o0Mem : Bool
  coalesced : Bool
  start_le : start ≤ stop
  param_start : isParam = true → start = 0

def sortByStart (a b : SlotInterval) : Bool :=
  if a.isParam ≠ b.isParam then a.isParam
  else if a.start ≠ b.start then a.start < b.start
  else if a.precolored ≠ b.precolored then a.precolored
  else a.vreg ≤ b.vreg

structure RaFreeSpillSlot where
  off : ℤ
  size : ℕ
  released : ℕ

structure RaActiveSpill where
  iv : ℕ
  size : ℕ

structure RaSpillPool where
  noReuse : Bool
  freeSlots : List RaFreeSpillSlot
  active : List RaActiveSpill
  activeMinEnd : ℕ

/-- The part of the scan's state that the slots depend on; `freeSlots4` has the last one first. -/
structure SlotState where
  stackLocation : ℕ → Option ℤ
  spool : RaSpillPool
  activeAddrtaken : List ℕ
  activeAddrtakenMinEnd : ℕ
  freeSlots4 : List ℤ
  spillLoc : ℤ

def takeSlot {α : Type*} (ok : α → Bool) : List α → Option (α × List α)
  | [] => none
  | last :: rest =>
    if ok last then some (last, rest)
    else (rest.findIdx? ok).bind fun k => rest[k]?.map fun x => (x, rest.set k last)

variable (iv : ℕ → SlotInterval)

def minEnd (ks : List ℕ) : ℕ := ks.foldl (fun m k => min m (iv k).stop) 0xFFFFFFFF

namespace SlotState

def location (s : SlotState) (k : ℕ) : ℤ := (s.stackLocation k).getD 0

def spoolExpire (pos : ℕ) (s : SlotState) : SlotState :=
  if s.spool.active = [] ∨ pos ≤ s.spool.activeMinEnd then s
  else
    let expired := s.spool.active.filter fun a => (iv a.iv).stop < pos
    let kept := s.spool.active.filter fun a => !((iv a.iv).stop < pos : Bool)
    { s with spool := { s.spool with
        freeSlots := (expired.map fun a => ⟨s.location a.iv, a.size, (iv a.iv).stop⟩).reverse ++
          s.spool.freeSlots
        active := kept
        activeMinEnd := minEnd iv (kept.map (·.iv)) } }

def addrtakenExpire (pos : ℕ) (s : SlotState) : SlotState :=
  if s.activeAddrtaken ≠ [] ∧ s.activeAddrtakenMinEnd < pos then
    let expired := s.activeAddrtaken.filter fun k => (iv k).stop < pos
    let kept := s.activeAddrtaken.filter fun k => !((iv k).stop < pos : Bool)
    { s with
      freeSlots4 := (expired.map s.location).reverse ++ s.freeSlots4
      activeAddrtaken := kept
      activeAddrtakenMinEnd := minEnd iv kept }
  else s

def spoolHold (i size : ℕ) (off : ℤ) (s : SlotState) : SlotState :=
  { s with
    stackLocation := update s.stackLocation i (some off)
    spool := { s.spool with
      active := s.spool.active ++ [⟨i, size⟩]
      activeMinEnd := min s.spool.activeMinEnd (iv i).stop } }

def spoolAssign (i size : ℕ) (s : SlotState) : SlotState :=
  match if s.spool.noReuse then none else
      takeSlot (fun f => f.size = size && (f.released < (iv i).start : Bool)) s.spool.freeSlots with
  | some (f, rest) =>
    { s with spool := { s.spool with freeSlots := rest } }.spoolHold iv i size f.off
  | none => { s with spillLoc := s.spillLoc - size }.spoolHold iv i size (s.spillLoc - size)

def memHold (i : ℕ) (off : ℤ) (s : SlotState) : SlotState :=
  { s with
    stackLocation := update s.stackLocation i (some off)
    activeAddrtaken := s.activeAddrtaken ++ [i]
    activeAddrtakenMinEnd := min s.activeAddrtakenMinEnd (iv i).stop }

def memAssign (i : ℕ) (s : SlotState) : SlotState :=
  match if s.spool.noReuse then [] else s.freeSlots4 with
  | off :: rest => { s with freeSlots4 := rest }.memHold iv i off
  | [] => { s with spillLoc := s.spillLoc - 4 }.memHold iv i (s.spillLoc - 4)

/-- The interval may be in the active set and be chosen for eviction when the scan is at `i`. -/
def evictable (i : ℕ) (s : SlotState) (k : ℕ) : Bool :=
  (k < i : Bool) && (s.stackLocation k).isNone && !(iv k).coalesced && !(iv k).precolored &&
    !((iv k).o0Mem || (iv k).addrtaken || (iv k).isVolatile) &&
    ((iv k).regType = .int || (iv k).regType = .llong)

def evict (i : ℕ) (s : SlotState) (k : ℕ) : SlotState :=
  if s.evictable iv i k then s.spoolAssign iv k (iv k).regType.width else s

end SlotState

structure RegisterChoice where
  evicted : ℕ → List ℕ
  spilled : ℕ → Bool

def slotStep (d : RegisterChoice) (s : SlotState) (i : ℕ) : SlotState :=
  let cur := iv i
  if cur.coalesced then s
  else
    let s := (s.addrtakenExpire iv cur.start).spoolExpire iv cur.start
    if cur.o0Mem && !cur.addrtaken && !cur.isVolatile && cur.regType ≠ .int then
      s.spoolAssign iv i (if cur.regType = .float then 4 else 8)
    else if cur.o0Mem || cur.addrtaken || cur.isVolatile then s.memAssign iv i
    else if cur.precolored then s
    else
      let s := (d.evicted i).foldl (SlotState.evict iv i) s
      if d.spilled i || cur.regType = .complexDouble then s.spoolAssign iv i cur.regType.width
      else s

def initialSlots (noReuse : Bool) (spillBase : ℤ) : SlotState :=
  ⟨fun _ => none, ⟨noReuse, [], [], 0xFFFFFFFF⟩, [], 0xFFFFFFFF, [], spillBase⟩

/-- The slots after `ra_linear_scan` of intervals in scan order. -/
def raLinearScanSlots (d : RegisterChoice) (noReuse : Bool) (spillBase : ℤ) (count : ℕ) :
    SlotState :=
  forRange count (slotStep iv d) (initialSlots noReuse spillBase)

end Source

section Placement

def SlotInterval.reserved (v : SlotInterval) : ℕ :=
  if v.o0Mem && !v.addrtaken && !v.isVolatile && v.regType ≠ .int then
    if v.regType = .float then 4 else 8
  else if v.o0Mem || v.addrtaken || v.isVolatile then 4
  else v.regType.width

/-- Slots are apart, or they are the same slot at different times. -/
structure Placed (iv : ℕ → SlotInterval) (base : ℤ) (loc : ℕ → Option ℤ) (spillLoc : ℤ) :
    Prop where
  room : spillLoc ≤ base
  within : ∀ k o, loc k = some o → spillLoc ≤ o ∧ o < base
  apart : ∀ j k o p, loc j = some o → loc k = some p → o ≠ p →
    o + (iv j).reserved ≤ p ∨ p + (iv k).reserved ≤ o
  same : ∀ j k o, loc j = some o → loc k = some o → (iv j).reserved = (iv k).reserved
  shared : ∀ j k o, j ≠ k → loc j = some o → loc k = some o →
    (iv j).stop < (iv k).start ∨ (iv k).stop < (iv j).start

variable {iv : ℕ → SlotInterval} {loc : ℕ → Option ℤ} {base spillLoc newLoc off : ℤ} {i : ℕ}

/-- The slot at `off` can be given to the interval `i`. -/
structure CanHold (iv : ℕ → SlotInterval) (loc : ℕ → Option ℤ) (i : ℕ) (off : ℤ) : Prop where
  apart : ∀ j p, loc j = some p → p ≠ off →
    off + (iv i).reserved ≤ p ∨ p + (iv j).reserved ≤ off
  earlier : ∀ j, loc j = some off → (iv j).reserved = (iv i).reserved ∧ (iv j).stop < (iv i).start

theorem Placed.place (h : Placed iv base loc spillLoc) (hc : CanHold iv loc i off)
    (hoff : newLoc ≤ off ∧ off < base) (hle : newLoc ≤ spillLoc) :
    Placed iv base (update loc i (some off)) newLoc := by
  refine ⟨Int.le_trans hle h.room, fun k o hk => ?_, fun j k o p hj hk hne => ?_, fun j k o hj hk => ?_,
    fun j k o hjk hj hk => ?_⟩
  · rcases update_eq_some hk with ⟨_, rfl⟩ | ⟨_, hk⟩
    · exact hoff
    · exact ⟨Int.le_trans hle (h.within k o hk).1, (h.within k o hk).2⟩
  · rcases update_eq_some hj with ⟨rfl, rfl⟩ | ⟨_, hj'⟩
    · rcases update_eq_some hk with ⟨_, rfl⟩ | ⟨_, hk⟩
      · exact absurd rfl hne
      · exact hc.apart k p hk hne.symm
    · rcases update_eq_some hk with ⟨rfl, rfl⟩ | ⟨_, hk⟩
      · exact (hc.apart j o hj' hne).symm
      · exact h.apart j k o p hj' hk hne
  · rcases update_eq_some hj with ⟨rfl, rfl⟩ | ⟨_, hj'⟩
    · rcases update_eq_some hk with ⟨rfl, _⟩ | ⟨_, hk⟩
      · rfl
      · exact (hc.earlier k hk).1.symm
    · rcases update_eq_some hk with ⟨rfl, rfl⟩ | ⟨_, hk⟩
      · exact (hc.earlier j hj').1
      · exact h.same j k o hj' hk
  · rcases update_eq_some hj with ⟨rfl, rfl⟩ | ⟨_, hj'⟩
    · rcases update_eq_some hk with ⟨rfl, _⟩ | ⟨_, hk⟩
      · exact absurd rfl hjk
      · exact .inr (hc.earlier k hk).2
    · rcases update_eq_some hk with ⟨rfl, rfl⟩ | ⟨_, hk⟩
      · exact .inl (hc.earlier j hj').2
      · exact h.shared j k o hjk hj' hk

theorem Placed.canHold_fresh (h : Placed iv base loc spillLoc) (hpos : 0 < (iv i).reserved) :
    CanHold iv loc i (spillLoc - (iv i).reserved) := by
  refine ⟨fun j p hj _ => .inl ?_, fun j hj => ?_⟩
  · have := h.within j p hj
    omega
  · have := h.within j _ hj
    omega

theorem Placed.canHold_reuse (h : Placed iv base loc spillLoc) (hused : ∃ j, loc j = some off)
    (hover : ∀ j, loc j = some off →
      (iv j).reserved = (iv i).reserved ∧ (iv j).stop < (iv i).start) :
    CanHold iv loc i off ∧ spillLoc ≤ off ∧ off < base := by
  obtain ⟨k, hk⟩ := hused
  refine ⟨⟨fun j p hj hne => ?_, hover⟩, h.within k off hk⟩
  rw [← (hover k hk).1]
  exact h.apart k j off p hk hj hne.symm

/-- Every slot in use is held by one interval, the last one that it was given to, or it is in one
of the two lists of free slots. -/
structure SlotHeads (iv : ℕ → SlotInterval) (pos : ℕ) (loc : ℕ → Option ℤ)
    (held : List RaActiveSpill) (free : List RaFreeSpillSlot) (free4 : List ℤ) : Prop where
  nodup : (held.map (fun a => loc a.iv) ++ (free.map (fun f => some f.off) ++
    free4.map some)).Nodup
  held : ∀ a ∈ held, a.size = (iv a.iv).reserved ∧ (∃ o, loc a.iv = some o) ∧
    ∀ j, j ≠ a.iv → loc j = loc a.iv → (iv j).stop < (iv a.iv).start
  free : ∀ f ∈ free, (∃ j, loc j = some f.off) ∧ ∀ j, loc j = some f.off →
    (iv j).reserved = f.size ∧ (iv j).stop ≤ f.released
  free4 : ∀ o ∈ free4, (∃ j, loc j = some o) ∧ ∀ j, loc j = some o →
    (iv j).reserved = 4 ∧ (iv j).stop < pos

variable {pos : ℕ} {held held' : List RaActiveSpill} {free free' : List RaFreeSpillSlot}
  {free4 free4' : List ℤ} {a : RaActiveSpill} {f : RaFreeSpillSlot}

section

variable (h : SlotHeads iv pos loc held free free4)
include h

theorem SlotHeads.perm (hh : held.Perm held')
    (hf : free.Perm free') (h4 : free4.Perm free4') : SlotHeads iv pos loc held' free' free4' := by
  refine ⟨?_, fun a ha => h.held a (hh.mem_iff.mpr ha), fun f hf' => h.free f (hf.mem_iff.mpr hf'),
    fun o ho => h.free4 o (h4.mem_iff.mpr ho)⟩
  have hp := (hh.map fun a => loc a.iv).append ((hf.map fun f => some f.off).append (h4.map some))
  exact hp.nodup_iff.mp h.nodup

theorem SlotHeads.mono {pos' : ℕ} (hp : pos ≤ pos') :
    SlotHeads iv pos' loc held free free4 :=
  ⟨h.nodup, h.held, h.free, fun o ho => ⟨(h.free4 o ho).1, fun j hj =>
    ⟨((h.free4 o ho).2 j hj).1, ((h.free4 o ho).2 j hj).2.trans_le hp⟩⟩⟩

theorem SlotHeads.owners (hp : Placed iv base loc spillLoc)
    (ha : a ∈ held) {o : ℤ} (ho : loc a.iv = some o) {j : ℕ} (hj : loc j = some o) :
    (iv j).reserved = a.size ∧ (iv j).stop ≤ (iv a.iv).stop := by
  obtain ⟨hs, _, hlast⟩ := h.held a ha
  refine ⟨hs ▸ hp.same j a.iv o hj ho, ?_⟩
  by_cases hja : j = a.iv
  · rw [hja]
  · have h1 := hlast j hja (hj.trans ho.symm)
    have h2 := (iv a.iv).start_le
    omega

end

section

variable (h : SlotHeads iv pos loc (a :: held) free free4)
include h

theorem SlotHeads.nodup_of_held :
    ∃ o, loc a.iv = some o ∧ (held.map (fun a => loc a.iv) ++ some o :: (free.map
      (fun f => some f.off) ++ free4.map some)).Nodup := by
  obtain ⟨_, ⟨o, ho⟩, _⟩ := h.held a mem_cons_self
  exact ⟨o, ho, perm_middle.nodup_iff.mpr (ho ▸ h.nodup)⟩

theorem SlotHeads.release (hp : Placed iv base loc spillLoc) :
    SlotHeads iv pos loc held (⟨(loc a.iv).getD 0, a.size, (iv a.iv).stop⟩ :: free) free4 := by
  obtain ⟨o, ho, hn⟩ := h.nodup_of_held
  rw [ho]
  refine ⟨hn, fun b hb => h.held b (mem_cons_of_mem _ hb), ?_, h.free4⟩
  intro f hf
  rcases List.mem_cons.mp hf with rfl | hf
  · exact ⟨⟨a.iv, ho⟩, fun j hj => h.owners hp mem_cons_self ho hj⟩
  · exact h.free f hf

theorem SlotHeads.release4 (hp : Placed iv base loc spillLoc) (h4 : a.size = 4)
    (hstop : (iv a.iv).stop < pos) :
    SlotHeads iv pos loc held free ((loc a.iv).getD 0 :: free4) := by
  obtain ⟨o, ho, hn⟩ := h.nodup_of_held
  rw [ho]
  refine ⟨?_, fun b hb => h.held b (mem_cons_of_mem _ hb), h.free, ?_⟩
  · exact (perm_middle.append_left _).nodup_iff.mpr hn
  · intro x hx
    rcases List.mem_cons.mp hx with rfl | hx
    · refine ⟨⟨a.iv, ho⟩, fun j hj => ?_⟩
      have := h.owners hp mem_cons_self ho hj
      exact ⟨this.1.trans h4, by omega⟩
    · exact h.free4 x hx

end

theorem SlotHeads.hold (h : SlotHeads iv pos loc held free free4) (hi : loc i = none)
    (hoff : some off ∉ held.map (fun a => loc a.iv) ++ (free.map (fun f => some f.off) ++
      free4.map some)) (hc : CanHold iv loc i off) :
    SlotHeads iv pos (update loc i (some off)) (⟨i, (iv i).reserved⟩ :: held) free
      free4 := by
  simp only [mem_append, mem_map, not_or, not_exists, not_and] at hoff
  obtain ⟨hheld, hfree, hfree4⟩ := hoff
  have hne : ∀ a ∈ held, a.iv ≠ i := by
    rintro a ha rfl
    obtain ⟨_, ⟨o, ho⟩, _⟩ := h.held a ha
    rw [hi] at ho
    cases ho
  have hmap : held.map (fun a => update loc i (some off) a.iv) =
      held.map fun a => loc a.iv :=
    map_congr_left fun a ha => update_of_ne (hne a ha) _ _
  -- the owners of another slot are the same as before
  have hother : ∀ {j : ℕ} {o : ℤ}, o ≠ off → update loc i (some off) j = some o →
      loc j = some o := by
    intro j o ho hj
    rcases update_eq_some hj with ⟨_, rfl⟩ | ⟨_, hj⟩
    · exact absurd rfl ho
    · exact hj
  have hkeep : ∀ {j : ℕ} {o : ℤ}, loc j = some o →
      update loc i (some off) j = some o := by
    intro j o hj
    have hji : j ≠ i := by
      rintro rfl
      rw [hi] at hj
      cases hj
    rw [update_of_ne hji]
    exact hj
  refine ⟨?_, ?_, ?_, ?_⟩
  · rw [map_cons, cons_append, hmap, update_self, nodup_cons]
    refine ⟨?_, h.nodup⟩
    simp only [mem_append, mem_map, not_or, not_exists, not_and]
    exact ⟨hheld, hfree, hfree4⟩
  · intro a ha
    rcases List.mem_cons.mp ha with rfl | ha
    · refine ⟨rfl, ⟨off, update_self ..⟩, fun j hj hloc => ?_⟩
      rw [update_self, update_of_ne hj] at hloc
      exact (hc.earlier j hloc).2
    · obtain ⟨hs, ⟨o, ho⟩, hlast⟩ := h.held a ha
      refine ⟨hs, ⟨o, hkeep ho⟩, fun j hj hloc => hlast j hj ?_⟩
      rw [hkeep ho] at hloc
      rw [ho]
      exact hother (fun he => hheld a ha (by rw [ho, he])) hloc
  · intro f hf
    obtain ⟨⟨k, hk⟩, hown⟩ := h.free f hf
    exact ⟨⟨k, hkeep hk⟩, fun j hj => hown j (hother (fun he => hfree f hf (by rw [he])) hj)⟩
  · intro o ho
    obtain ⟨⟨k, hk⟩, hown⟩ := h.free4 o ho
    exact ⟨⟨k, hkeep hk⟩, fun j hj => hown j (hother (fun he => hfree4 o ho (by rw [he])) hj)⟩

end Placement

section Scan

variable {iv : ℕ → SlotInterval} {base : ℤ} {s : SlotState} {i k pos : ℕ}

theorem takeSlot_spec {α : Type*} {ok : α → Bool} {l rest : List α} {x : α}
    (h : takeSlot ok l = some (x, rest)) : ok x = true ∧ l.Perm (x :: rest) := by
  cases l with
  | nil => cases h
  | cons last l =>
    unfold takeSlot at h
    dsimp only at h
    by_cases hlast : ok last = true
    · rw [if_pos hlast] at h
      cases h
      exact ⟨hlast, .refl _⟩
    · rw [if_neg hlast] at h
      obtain ⟨k, hk, hx⟩ := Option.bind_eq_some_iff.mp h
      obtain ⟨hlt, hok, _⟩ := List.findIdx?_eq_some_iff_getElem.mp hk
      rw [List.getElem?_eq_getElem hlt, Option.map_some, Option.some.injEq] at hx
      obtain ⟨rfl, rfl⟩ := hx
      refine ⟨hok, ?_⟩
      calc last :: l
        _ |>.Perm (last :: l[k] :: l.eraseIdx k) :=
          (getElem_cons_eraseIdx_perm hlt).symm.cons _
        _ |>.Perm (l[k] :: last :: l.eraseIdx k) := .swap ..
        _ |>.Perm (l[k] :: l.set k last) := (set_perm_cons_eraseIdx hlt last).symm.cons _

def SlotState.held (s : SlotState) : List RaActiveSpill :=
  s.spool.active ++ s.activeAddrtaken.map (⟨·, 4⟩)

/-- The invariant of the scan after `i` intervals, the last of which starts at `pos`. -/
structure SlotInv (iv : ℕ → SlotInterval) (base : ℤ) (i pos : ℕ) (s : SlotState) : Prop where
  placed : Placed iv base s.stackLocation s.spillLoc
  heads : SlotHeads iv pos s.stackLocation s.held s.spool.freeSlots s.freeSlots4
  fresh : ∀ k, i ≤ k ∨ (iv k).coalesced = true → s.stackLocation k = none

theorem SlotHeads.releaseAll {loc : ℕ → Option ℤ} {spillLoc : ℤ} {free4 : List ℤ}
    (hp : Placed iv base loc spillLoc) (expired : List RaActiveSpill) :
    ∀ {rest : List RaActiveSpill} {free : List RaFreeSpillSlot},
      SlotHeads iv pos loc (expired ++ rest) free free4 →
      SlotHeads iv pos loc rest
        ((expired.map fun a => ⟨(loc a.iv).getD 0, a.size, (iv a.iv).stop⟩).reverse ++ free)
        free4 := by
  induction expired with
  | nil => exact fun h => h
  | cons a expired ih =>
    intro rest free h
    simpa using ih (h.release hp)

theorem SlotHeads.releaseAll4 {loc : ℕ → Option ℤ} {spillLoc : ℤ} {free : List RaFreeSpillSlot}
    (hp : Placed iv base loc spillLoc) (expired : List ℕ) (hstop : ∀ k ∈ expired, (iv k).stop < pos) :
    ∀ {rest : List RaActiveSpill} {free4 : List ℤ},
      SlotHeads iv pos loc (expired.map (⟨·, 4⟩) ++ rest) free free4 →
      SlotHeads iv pos loc rest free
        ((expired.map fun k => (loc k).getD 0).reverse ++ free4) := by
  induction expired with
  | nil => exact fun h => h
  | cons k expired ih =>
    intro rest free4 h
    have hk := h.release4 hp rfl (hstop k mem_cons_self)
    simpa using ih (fun j hj => hstop j (mem_cons_of_mem _ hj)) hk

theorem SlotInv.spoolExpire (h : SlotInv iv base i pos s) :
    SlotInv iv base i pos (s.spoolExpire iv pos) := by
  unfold SlotState.spoolExpire
  split
  · exact h
  · refine ⟨h.placed, SlotHeads.releaseAll h.placed _ ?_, h.fresh⟩
    refine h.heads.perm ?_ (.refl _) (.refl _)
    rw [SlotState.held, SlotState.held, ← append_assoc]
    exact (filter_append_perm _ s.spool.active).symm.append_right _

theorem SlotInv.addrtakenExpire (h : SlotInv iv base i pos s) :
    SlotInv iv base i pos (s.addrtakenExpire iv pos) := by
  unfold SlotState.addrtakenExpire
  split
  · refine ⟨h.placed, SlotHeads.releaseAll4 h.placed _ (fun k hk => ?_) ?_, h.fresh⟩
    · exact of_decide_eq_true (List.mem_filter.mp hk).2
    · refine h.heads.perm ?_ (.refl _) (.refl _)
      have hp := ((filter_append_perm (fun k => decide ((iv k).stop < pos))
        s.activeAddrtaken).symm.map fun k => (⟨k, 4⟩ : RaActiveSpill)).append_left s.spool.active
      rw [map_append] at hp
      exact hp.trans (perm_append_comm_assoc ..)
  · exact h

theorem SlotInterval.reserved_pos (v : SlotInterval) : 0 < v.reserved := by
  unfold SlotInterval.reserved LsRegType.width
  split
  · split
    · decide
    · decide
  · split
    · decide
    · split <;> decide

section

variable (h : SlotInv iv base i pos s)
include h

theorem SlotInv.fresh_notMem {x : ℤ} (hx : x < s.spillLoc) :
    some x ∉ s.held.map (fun a => s.stackLocation a.iv) ++
      (s.spool.freeSlots.map (fun f => some f.off) ++ s.freeSlots4.map some) := by
  simp only [mem_append, mem_map, Option.some.injEq, not_or, not_exists, not_and]
  refine ⟨fun a ha he => ?_, fun f hf he => ?_, fun o ho he => ?_⟩
  · have := h.placed.within _ _ he
    omega
  · obtain ⟨⟨j, hj⟩, _⟩ := h.heads.free f hf
    have := h.placed.within _ _ hj
    omega
  · obtain ⟨⟨j, hj⟩, _⟩ := h.heads.free4 o ho
    have := h.placed.within _ _ hj
    omega

theorem SlotInv.fresh_update (hk : k < i)
    (hco : ¬ (iv k).coalesced = true) {off : ℤ} (j : ℕ) (hj : i ≤ j ∨ (iv j).coalesced = true) :
    update s.stackLocation k (some off) j = none := by
  have hjk : j ≠ k := by
    rintro rfl
    exact hj.elim (fun hle => by omega) hco
  rw [update_of_ne hjk]
  exact h.fresh j hj

theorem SlotInv.spoolAssign (hk : k < i)
    (hco : ¬ (iv k).coalesced = true) (hloc : s.stackLocation k = none) :
    SlotInv iv base i pos (s.spoolAssign iv k (iv k).reserved) := by
  have hheld : ∀ a : RaActiveSpill, (a :: s.held).Perm
      (s.spool.active ++ [a] ++ s.activeAddrtaken.map (⟨·, 4⟩)) := by
    intro a
    rw [append_assoc]
    exact List.perm_middle.symm
  unfold SlotState.spoolAssign
  split
  · next f rest hf =>
    split at hf
    · cases hf
    · obtain ⟨hok, hperm⟩ := takeSlot_spec hf
      simp only [Bool.and_eq_true, decide_eq_true_eq] at hok
      have hheads := h.heads.perm (.refl _) hperm (.refl _)
      obtain ⟨hused, hown⟩ := hheads.free f mem_cons_self
      obtain ⟨hc, hle⟩ := h.placed.canHold_reuse hused fun j hj =>
        ⟨(hown j hj).1.trans hok.1, (hown j hj).2.trans_lt hok.2⟩
      -- the slot leaves the free list and is then in none of the lists
      have hn := hheads.nodup
      rw [map_cons, cons_append, List.perm_middle.nodup_iff, nodup_cons] at hn
      have hrest : SlotHeads iv pos s.stackLocation s.held rest s.freeSlots4 :=
        ⟨hn.2, hheads.held, fun g hg => hheads.free g (mem_cons_of_mem _ hg), hheads.free4⟩
      exact ⟨h.placed.place hc hle (Int.le_refl _),
        (hrest.hold hloc hn.1 hc).perm (hheld _) (.refl _) (.refl _), h.fresh_update hk hco⟩
  · have hpos := (iv k).reserved_pos
    have hc := h.placed.canHold_fresh hpos
    have hlt : s.spillLoc - (iv k).reserved < s.spillLoc := by omega
    exact ⟨h.placed.place hc ⟨Int.le_refl _, Int.lt_of_lt_of_le hlt h.placed.room⟩
        (Int.le_of_lt hlt),
      (h.heads.hold hloc (h.fresh_notMem hlt) hc).perm (hheld _) (.refl _) (.refl _),
      h.fresh_update hk hco⟩

theorem SlotInv.memAssign (hk : k < i)
    (hco : ¬ (iv k).coalesced = true) (hloc : s.stackLocation k = none)
    (h4 : (iv k).reserved = 4) (hpos : pos ≤ (iv k).start) :
    SlotInv iv base i pos (s.memAssign iv k) := by
  have hheld : (⟨k, (iv k).reserved⟩ :: s.held).Perm
      (s.spool.active ++ (s.activeAddrtaken ++ [k]).map (⟨·, 4⟩)) := by
    rw [h4, map_append, ← append_assoc]
    exact (perm_append_singleton _ _).symm
  unfold SlotState.memAssign
  split
  · next off rest hf =>
    split at hf
    · cases hf
    · have hheads := h.heads
      rw [hf] at hheads
      obtain ⟨hused, hown⟩ := hheads.free4 off mem_cons_self
      obtain ⟨hc, hle⟩ := h.placed.canHold_reuse hused fun j hj =>
        ⟨(hown j hj).1.trans h4.symm, (hown j hj).2.trans_le hpos⟩
      have hn := hheads.nodup
      rw [map_cons, ← append_assoc, List.perm_middle.nodup_iff, nodup_cons,
        append_assoc] at hn
      have hrest : SlotHeads iv pos s.stackLocation s.held s.spool.freeSlots rest :=
        ⟨hn.2, hheads.held, hheads.free, fun g hg => hheads.free4 g (mem_cons_of_mem _ hg)⟩
      exact ⟨h.placed.place hc hle (Int.le_refl _),
        (hrest.hold hloc hn.1 hc).perm hheld (.refl _) (.refl _), h.fresh_update hk hco⟩
  · have hc := h.placed.canHold_fresh (i := k) (by omega)
    rw [h4] at hc
    have hlt : s.spillLoc - 4 < s.spillLoc := by omega
    exact ⟨h.placed.place hc ⟨Int.le_refl _, Int.lt_of_lt_of_le hlt h.placed.room⟩
        (Int.le_of_lt hlt),
      (h.heads.hold hloc (h.fresh_notMem hlt) hc).perm hheld (.refl _) (.refl _),
      h.fresh_update hk hco⟩

theorem SlotInv.evict : SlotInv iv base i pos (s.evict iv i k) := by
  unfold SlotState.evict
  split
  · next he =>
    simp only [SlotState.evictable, Bool.and_eq_true, Bool.not_eq_true', Bool.or_eq_false_iff,
      decide_eq_true_eq, Option.isNone_iff_eq_none] at he
    obtain ⟨⟨⟨⟨⟨hk, hloc⟩, hco⟩, _⟩, hmem⟩, _⟩ := he
    have hr : (iv k).reserved = (iv k).regType.width := by
      simp [SlotInterval.reserved, hmem]
    rw [← hr]
    exact h.spoolAssign hk (by simp [hco]) hloc
  · exact h

end

theorem SlotInv.foldl_evict (ks : List ℕ) : ∀ {s : SlotState}, SlotInv iv base i pos s →
    SlotInv iv base i pos (ks.foldl (SlotState.evict iv i) s) := by
  induction ks with
  | nil => exact fun h => h
  | cons k ks ih => exact fun h => ih h.evict

theorem SlotInv.succ (h : SlotInv iv base i pos s) : SlotInv iv base (i + 1) pos s :=
  ⟨h.placed, h.heads, fun k hk => h.fresh k (hk.imp_left (by omega))⟩

theorem SlotInv.step (d : RegisterChoice) (h : SlotInv iv base i pos s) (hpos : pos ≤ (iv i).start) :
    SlotInv iv base (i + 1) (iv i).start (slotStep iv d s i) := by
  have h0 : SlotInv iv base i (iv i).start s := ⟨h.placed, h.heads.mono hpos, h.fresh⟩
  have h1 := h0.addrtakenExpire.spoolExpire
  unfold slotStep
  by_cases hco : (iv i).coalesced = true
  · rw [if_pos hco]
    exact h0.succ
  rw [if_neg hco]
  have hloc := h1.fresh i (.inl le_rfl)
  by_cases hwide : ((iv i).o0Mem && !(iv i).addrtaken && !(iv i).isVolatile &&
      decide ((iv i).regType ≠ .int)) = true
  · rw [if_pos hwide]
    have hr : (iv i).reserved = if (iv i).regType = .float then 4 else 8 := if_pos hwide
    rw [← hr]
    exact h1.succ.spoolAssign (Nat.lt_succ_self i) hco hloc
  rw [if_neg hwide]
  by_cases hmem : ((iv i).o0Mem || (iv i).addrtaken || (iv i).isVolatile) = true
  · rw [if_pos hmem]
    have hr : (iv i).reserved = 4 := (if_neg hwide).trans (if_pos hmem)
    exact h1.succ.memAssign (Nat.lt_succ_self i) hco hloc hr le_rfl
  rw [if_neg hmem]
  by_cases hpre : (iv i).precolored = true
  · rw [if_pos hpre]
    exact h1.succ
  rw [if_neg hpre]
  have hr : (iv i).reserved = (iv i).regType.width := (if_neg hwide).trans (if_neg hmem)
  have h2 := SlotInv.foldl_evict (d.evicted i) h1
  split
  · rw [← hr]
    exact h2.succ.spoolAssign (Nat.lt_succ_self i) hco (h2.fresh i (.inl le_rfl))
  · exact h2.succ

theorem slotInv_raLinearScanSlots (d : RegisterChoice) (noReuse : Bool) (spillBase : ℤ)
    {count : ℕ} (hsorted : ∀ j k, j ≤ k → k < count → (iv j).start ≤ (iv k).start) :
    ∃ pos, SlotInv iv spillBase count pos (raLinearScanSlots iv d noReuse spillBase count) := by
  have hinit : SlotInv iv spillBase 0 0 (initialSlots noReuse spillBase) :=
    ⟨⟨Int.le_refl _, nofun, nofun, nofun, nofun⟩, ⟨nodup_nil, nofun, nofun, nofun⟩, fun _ _ => rfl⟩
  obtain ⟨pos, h, _⟩ := forRange_induction
    (fun i s => ∃ pos, SlotInv iv spillBase i pos s ∧ ∀ k, i ≤ k → k < count → pos ≤ (iv k).start) count
    ⟨0, hinit, fun _ _ _ => Nat.zero_le _⟩ (by
      rintro i s hi ⟨pos, h, hpos⟩
      exact ⟨(iv i).start, h.step d (hpos i le_rfl hi), fun k hk hlt => hsorted i k (by omega) hlt⟩)
  exact ⟨pos, h⟩

end Scan

instance : Inhabited SlotInterval :=
  ⟨⟨0, 0, 0, .int, false, false, false, false, false, false, le_rfl, nofun⟩⟩

def scanOrder (ivs : List SlotInterval) (k : ℕ) : SlotInterval :=
  (ivs.mergeSort sortByStart).getD k default

theorem start_le_of_sortByStart {a b : SlotInterval} (h : sortByStart a b = true) :
    a.start ≤ b.start := by
  have hp := a.param_start
  unfold sortByStart at h
  grind

theorem scanOrder_start_le (ivs : List SlotInterval) {j k : ℕ} (hjk : j ≤ k)
    (hk : k < ivs.length) : (scanOrder ivs j).start ≤ (scanOrder ivs k).start := by
  -- parameters come first, but they start at the entry
  have hsorted : (ivs.mergeSort sortByStart).Pairwise fun a b => sortByStart a b = true := by
    apply pairwise_mergeSort
    · intro a b c
      unfold sortByStart
      grind
    · intro a b
      unfold sortByStart
      grind
  rcases Nat.lt_or_eq_of_le hjk with hlt | rfl
  · have hk' : k < (ivs.mergeSort sortByStart).length := by rwa [length_mergeSort]
    unfold scanOrder
    rw [getD_eq_getElem _ _ hk', getD_eq_getElem _ _ (hlt.trans hk')]
    exact start_le_of_sortByStart (List.pairwise_iff_getElem.mp hsorted j k _ _ hlt)
  · exact le_rfl

theorem scanOrder_of_sorted {ivs : List SlotInterval}
    (h : ivs.Pairwise fun a b => sortByStart a b = true) :
    scanOrder ivs = fun k => ivs.getD k default := by
  funext k
  rw [scanOrder, mergeSort_of_pairwise h]

/-- Two intervals with a stack byte in common are never live together; each one has the bytes of
its value. -/
def SlotsExclusive (iv : ℕ → SlotInterval) (loc : ℕ → Option ℤ) : Prop :=
  ∀ j k o p, j ≠ k → loc j = some o → loc k = some p → o < p + (iv k).regType.width →
    p < o + (iv j).regType.width → (iv j).stop < (iv k).start ∨ (iv k).stop < (iv j).start

def addrtakenWord : SlotInterval :=
  ⟨0, 0, 10, .int, false, false, true, false, false, false, by decide, nofun⟩

def addrtakenDoubleword : SlotInterval :=
  ⟨1, 1, 9, .llong, false, false, true, false, false, false, by decide, nofun⟩

/-- The bytes of the second variable, counted from its location, reach into the first one. -/
theorem addrtaken_slots_overlap :
    ¬ SlotsExclusive (scanOrder [addrtakenWord, addrtakenDoubleword])
      (raLinearScanSlots (scanOrder [addrtakenWord, addrtakenDoubleword])
        ⟨fun _ => [], fun _ => false⟩ false 0 2).stackLocation := by
  rw [scanOrder_of_sorted (by simp [sortByStart, addrtakenWord, addrtakenDoubleword])]
  intro h
  exact absurd (h 0 1 (-4) (-8) (by decide) rfl rfl (by decide) (by decide)) (by decide)

end Tinycc
