import Mathlib.Algebra.Group.Nat.Defs
import Mathlib.Data.List.Pairwise
import Tinycc.Regalloc.SpillSlots

namespace Tinycc
open Lib List

/-- What the layout of the frame reads of an interval; the location 0 stands for no slot. -/
structure LSLiveInterval where
  stackLocation : ℤ
  regType : LsRegType

instance : Inhabited LSLiveInterval := ⟨⟨0, .int⟩⟩

def tccLsRegTypeStackSize : LsRegType → ℕ
  | .llong | .double | .doubleSoft | .complexFloat => 8
  | .complexDouble => 16
  | .int | .float => 4

structure SlotMapEntry where
  oldOffset : ℤ
  size : ℕ
  newOffset : ℤ
  weight : ℕ

/-- The first pass at one interval. The hash table finds the entry of an old offset, and no two
entries have the same one. -/
def collectSlot (weights : Option (ℕ → ℕ)) (map : List SlotMapEntry) (it : LSLiveInterval × ℕ) :
    List SlotMapEntry :=
  let size := tccLsRegTypeStackSize it.1.regType
  let weight := weights.elim 0 (· it.2)
  if it.1.stackLocation = 0 then map
  else if map.any (·.oldOffset = it.1.stackLocation) then
    map.map fun e =>
      if e.oldOffset = it.1.stackLocation then
        { e with size := max e.size size, weight := (e.weight + weight) % 2 ^ 32 }
      else e
  else map ++ [⟨it.1.stackLocation, size, 0, weight % 2 ^ 32⟩]

def slotColdFirst (x y : SlotMapEntry) : Bool := x.weight * y.size ≤ y.weight * x.size

def assignOffsets : ℤ → List SlotMapEntry → List SlotMapEntry
  | _, [] => []
  | loc, e :: rest =>
    -- `(loc - size) & -size`, for a size that is a power of two
    let down := (loc - e.size) / e.size * e.size
    let loc := if down = 0 then -(e.size : ℤ) else down
    { e with newOffset := loc } :: assignOffsets loc rest

def rewriteLocation (map : List SlotMapEntry) (it : LSLiveInterval) : LSLiveInterval :=
  if it.stackLocation = 0 then it
  else match map.find? (·.oldOffset = it.stackLocation) with
    | some e => { it with stackLocation := e.newOffset }
    | none => it

def slotMap (ls : List LSLiveInterval) (weights : Option (ℕ → ℕ)) : List SlotMapEntry :=
  ls.zipIdx.foldl (collectSlot weights) []

def tccLsCompactStackLocationsWeighted (ls : List LSLiveInterval) (spillBase : ℤ)
    (weights : Option (ℕ → ℕ)) : List LSLiveInterval :=
  let map := slotMap ls weights
  let order := if weights.isSome then map.mergeSort slotColdFirst else map
  ls.map (rewriteLocation (assignOffsets (min spillBase 0) order))

/-- `ra_write_results` after the members of coalesced classes have taken over the slot of their
representative `rep`. -/
def raWriteResults (iv : ℕ → SlotInterval) (rep : ℕ → Option ℕ) (s : SlotState) (count : ℕ) :
    List LSLiveInterval :=
  (List.range count).map fun k =>
    ⟨if (iv k).coalesced then ((rep k).map s.location).getD 0 else s.location k, (iv k).regType⟩

section Layout

variable {ls : List LSLiveInterval} {weights : Option (ℕ → ℕ)} {map map' : List SlotMapEntry}
  {it : LSLiveInterval} {base : ℤ}

theorem tccLsRegTypeStackSize_eq_width (t : LsRegType) : tccLsRegTypeStackSize t = t.width := by
  cases t <;> rfl

/-- The map has an entry for the slot of the interval, wide enough for its value. -/
def Covers (map : List SlotMapEntry) (it : LSLiveInterval) : Prop :=
  ∃ e ∈ map, e.oldOffset = it.stackLocation ∧ it.regType.width ≤ e.size

/-- Every entry has its own old offset and some bytes. -/
structure SlotMapWF (map : List SlotMapEntry) : Prop where
  nodup : (map.map (·.oldOffset)).Nodup
  pos : ∀ e ∈ map, 0 < e.size

theorem SlotMapWF.perm (h : SlotMapWF map) (hp : map.Perm map') : SlotMapWF map' :=
  ⟨(hp.map _).nodup_iff.mp h.nodup, fun e he => h.pos e (hp.mem_iff.mpr he)⟩

theorem collectSlot_spec (h : SlotMapWF map) (k : ℕ) :
    SlotMapWF (collectSlot weights map (it, k)) ∧
      (it.stackLocation ≠ 0 → Covers (collectSlot weights map (it, k)) it) ∧
      ∀ other, Covers map other → Covers (collectSlot weights map (it, k)) other := by
  have hsize : tccLsRegTypeStackSize it.regType = it.regType.width :=
    tccLsRegTypeStackSize_eq_width _
  have hpos : 0 < it.regType.width := by cases it.regType <;> decide
  unfold collectSlot
  dsimp only
  by_cases h0 : it.stackLocation = 0
  · rw [if_pos h0]
    exact ⟨h, fun hne => absurd h0 hne, fun _ hc => hc⟩
  rw [if_neg h0]
  by_cases hany : map.any (·.oldOffset = it.stackLocation) = true
  · rw [if_pos hany]
    obtain ⟨e, he, heq⟩ := List.any_eq_true.mp hany
    rw [decide_eq_true_eq] at heq
    refine ⟨⟨?_, ?_⟩, fun _ => ⟨_, mem_map_of_mem he, ?_⟩, ?_⟩
    · -- an update keeps the old offsets
      rw [map_map, map_congr_left (g := fun e => e.oldOffset)]
      · exact h.nodup
      · intro x _
        simp only [Function.comp_apply]
        split
        · rfl
        · rfl
    · intro x hx
      obtain ⟨y, hy, rfl⟩ := mem_map.mp hx
      have := h.pos y hy
      split
      · exact this.trans_le (le_max_left _ _)
      · exact this
    · rw [if_pos heq, hsize]
      exact ⟨heq, le_max_right _ _⟩
    · rintro other ⟨x, hx, hox, hwx⟩
      refine ⟨_, mem_map_of_mem hx, ?_⟩
      split
      · exact ⟨hox, hwx.trans (le_max_left _ _)⟩
      · exact ⟨hox, hwx⟩
  · rw [if_neg hany]
    refine ⟨⟨?_, ?_⟩, fun _ => ⟨_, mem_append_right _ (mem_singleton_self _), rfl, hsize.ge⟩, ?_⟩
    · rw [map_append, map_cons, map_nil, nodup_append]
      refine ⟨h.nodup, nodup_singleton _, ?_⟩
      intro a ha b hb
      obtain ⟨e, he, rfl⟩ := mem_map.mp ha
      rw [mem_singleton] at hb
      rintro rfl
      exact hany (List.any_eq_true.mpr ⟨e, he, by simp [hb]⟩)
    · intro e he
      rcases mem_append.mp he with he | he
      · exact h.pos e he
      · rw [mem_singleton.mp he]
        exact hsize ▸ hpos
    · rintro other ⟨x, hx, hox⟩
      exact ⟨x, mem_append_left _ hx, hox⟩

theorem foldl_collectSlot_spec (l : List (LSLiveInterval × ℕ)) :
    ∀ {map : List SlotMapEntry}, SlotMapWF map →
      SlotMapWF (l.foldl (collectSlot weights) map) ∧
      (∀ it ∈ l, it.1.stackLocation ≠ 0 → Covers (l.foldl (collectSlot weights) map) it.1) ∧
      ∀ other, Covers map other → Covers (l.foldl (collectSlot weights) map) other := by
  induction l with
  | nil => exact fun h => ⟨h, nofun, fun _ hc => hc⟩
  | cons it l ih =>
    intro map h
    obtain ⟨hwf, hit, hkeep⟩ := @collectSlot_spec weights map it.1 h it.2
    obtain ⟨hwf', hl, hkeep'⟩ := ih hwf
    refine ⟨hwf', fun x hx hne => ?_, fun other hc => hkeep' other (hkeep other hc)⟩
    rcases mem_cons.mp hx with rfl | hx
    · exact hkeep' _ (hit hne)
    · exact hl x hx hne

theorem slotMap_spec (ls : List LSLiveInterval) (weights : Option (ℕ → ℕ)) :
    SlotMapWF (slotMap ls weights) ∧
      ∀ it ∈ ls, it.stackLocation ≠ 0 → Covers (slotMap ls weights) it := by
  obtain ⟨hwf, hl, _⟩ := @foldl_collectSlot_spec weights ls.zipIdx [] ⟨nodup_nil, nofun⟩
  refine ⟨hwf, fun it hit hne => ?_⟩
  obtain ⟨k, hk, rfl⟩ := mem_iff_getElem.mp hit
  exact hl (ls[k], k) (mk_mem_zipIdx_iff_getElem?.mpr (getElem?_eq_getElem hk)) hne

theorem assignOffsets_keeps (order : List SlotMapEntry) : ∀ base : ℤ,
    (assignOffsets base order).map (fun e => (e.oldOffset, e.size)) =
      order.map fun e => (e.oldOffset, e.size) := by
  induction order with
  | nil => exact fun _ => rfl
  | cons e rest ih =>
    intro base
    rw [assignOffsets, map_cons, ih, map_cons]

def SlotMapEntry.Below (a b : SlotMapEntry) : Prop := a.newOffset + a.size ≤ b.newOffset

theorem assignOffsets_below (order : List SlotMapEntry) : ∀ {base : ℤ}, base ≤ 0 →
    (∀ e ∈ order, 0 < e.size) →
    (∀ e ∈ assignOffsets base order, e.newOffset + (e.size : ℤ) ≤ base) ∧
      (assignOffsets base order).Pairwise fun a b => b.Below a := by
  induction order with
  | nil => exact fun _ _ => ⟨fun _ he => absurd he not_mem_nil, Pairwise.nil⟩
  | cons e rest ih =>
    intro base hbase hpos
    have he := hpos e mem_cons_self
    have hdown : (base - e.size) / e.size * e.size ≤ base - e.size :=
      Int.ediv_mul_le _ (by omega)
    have hne : (base - e.size) / e.size * e.size ≠ 0 := by omega
    have hlow : (base - e.size) / e.size * e.size ≤ 0 := by omega
    obtain ⟨hrest, hapart⟩ := ih hlow fun x hx => hpos x (mem_cons_of_mem _ hx)
    unfold assignOffsets
    dsimp only
    rw [if_neg hne]
    refine ⟨fun x hx => ?_, hapart.cons hrest⟩
    rcases mem_cons.mp hx with rfl | hx
    · dsimp only
      omega
    · have := hrest x hx
      omega

theorem below_or_below (hp : map.Pairwise fun a b => b.Below a) {e f : SlotMapEntry}
    (he : e ∈ map) (hf : f ∈ map) (hne : e ≠ f) : e.Below f ∨ f.Below e := by
  obtain ⟨i, hi, rfl⟩ := mem_iff_getElem.mp he
  obtain ⟨j, hj, rfl⟩ := mem_iff_getElem.mp hf
  have hlt := List.pairwise_iff_getElem.mp hp
  rcases Nat.lt_trichotomy i j with h | h | h
  · exact .inr (hlt i j hi hj h)
  · subst h
    exact absurd rfl hne
  · exact .inl (hlt j i hj hi h)

theorem rewriteLocation_spec (hn : (map.map (·.oldOffset)).Nodup) (h0 : it.stackLocation ≠ 0)
    (hc : Covers map it) : ∃ e ∈ map, e.oldOffset = it.stackLocation ∧
      it.regType.width ≤ e.size ∧ rewriteLocation map it = ⟨e.newOffset, it.regType⟩ := by
  obtain ⟨e, he, ho, hw⟩ := hc
  refine ⟨e, he, ho, hw, ?_⟩
  have hfind : map.find? (·.oldOffset = it.stackLocation) = some e := by
    cases hf : map.find? (·.oldOffset = it.stackLocation) with
    | none => exact absurd ho (by simpa using List.find?_eq_none.mp hf e he)
    | some x =>
      have hx := List.find?_some hf
      rw [decide_eq_true_eq] at hx
      rw [List.inj_on_of_nodup_map hn (List.mem_of_find?_eq_some hf) he (hx.trans ho.symm)]
  rw [rewriteLocation, if_neg h0, hfind]

/-- What the compaction makes of the slots: all lie below the base, at the width of the values in
them, and different slots have no byte in common. -/
theorem compact_spec (ls : List LSLiveInterval) (base : ℤ) (weights : Option (ℕ → ℕ)) :
    ∃ f : LSLiveInterval → LSLiveInterval,
      tccLsCompactStackLocationsWeighted ls base weights = ls.map f ∧
      (∀ a ∈ ls, a.stackLocation ≠ 0 → (f a).stackLocation + a.regType.width ≤ min base 0) ∧
      ∀ a ∈ ls, ∀ b ∈ ls, a.stackLocation ≠ 0 → b.stackLocation ≠ 0 →
        a.stackLocation ≠ b.stackLocation →
        (f a).stackLocation + a.regType.width ≤ (f b).stackLocation ∨
          (f b).stackLocation + b.regType.width ≤ (f a).stackLocation := by
  obtain ⟨hwf, hcov⟩ := slotMap_spec ls weights
  -- the order of the slots is the only thing that the weights decide
  obtain ⟨order, hperm, hmap⟩ : ∃ order, (slotMap ls weights).Perm order ∧
      tccLsCompactStackLocationsWeighted ls base weights =
        ls.map (rewriteLocation (assignOffsets (min base 0) order)) := by
    unfold tccLsCompactStackLocationsWeighted
    dsimp only
    split
    · exact ⟨_, (mergeSort_perm _ _).symm, rfl⟩
    · exact ⟨_, .refl _, rfl⟩
  have hkeep := assignOffsets_keeps order (min base 0)
  obtain ⟨hbelow, hapart⟩ := assignOffsets_below order (Int.min_le_right base 0)
    (hwf.perm hperm).pos
  have hnodup : ((assignOffsets (min base 0) order).map (·.oldOffset)).Nodup := by
    have h := congrArg (List.map Prod.fst) hkeep
    rw [map_map, map_map] at h
    exact h ▸ (hwf.perm hperm).nodup
  have hcov' : ∀ it ∈ ls, it.stackLocation ≠ 0 →
      Covers (assignOffsets (min base 0) order) it := by
    intro it hit h0
    obtain ⟨e, he, ho, hw⟩ := hcov it hit h0
    have hmem : (e.oldOffset, e.size) ∈ order.map fun e => (e.oldOffset, e.size) :=
      mem_map_of_mem (hperm.mem_iff.mp he)
    rw [← hkeep] at hmem
    obtain ⟨x, hx, hxe⟩ := mem_map.mp hmem
    rw [Prod.mk.injEq] at hxe
    exact ⟨x, hx, hxe.1.trans ho, hxe.2 ▸ hw⟩
  refine ⟨_, hmap, fun a ha h0 => ?_, fun a ha b hb h0a h0b hab => ?_⟩
  · obtain ⟨e, he, _, hw, hr⟩ := rewriteLocation_spec hnodup h0 (hcov' a ha h0)
    have := hbelow e he
    rw [hr]
    dsimp only
    omega
  · obtain ⟨e, he, hoe, hwe, hre⟩ := rewriteLocation_spec hnodup h0a (hcov' a ha h0a)
    obtain ⟨g, hg, hog, hwg, hrg⟩ := rewriteLocation_spec hnodup h0b (hcov' b hb h0b)
    have hne : e ≠ g := by
      rintro rfl
      exact hab (hoe.symm.trans hog)
    have := below_or_below hapart he hg hne
    unfold SlotMapEntry.Below at this
    rw [hre, hrg]
    dsimp only
    omega

end Layout

/-- Intervals that the scan leaves with one stack location are live at different times. After the
frame is laid out anew every slot lies in it, and two intervals with a byte in common are still live
at different times, each one counted with the full width of its value. -/
theorem raLinearScan_slots_exclusive (ivs : List SlotInterval) (d : RegisterChoice)
    (noReuse : Bool) (spillBase : ℤ) (rep : ℕ → Option ℕ) (others : List LSLiveInterval)
    (frameBase : ℤ) (weights : Option (ℕ → ℕ)) (hbase : spillBase ≤ 0) :
    let iv := scanOrder ivs
    let s := raLinearScanSlots iv d noReuse spillBase ivs.length
    let laidOut := tccLsCompactStackLocationsWeighted
      (raWriteResults iv rep s ivs.length ++ others) frameBase weights
    let location := fun k => (s.stackLocation k).map fun _ => (laidOut.getD k default).stackLocation
    (∀ j k o, j ≠ k → s.stackLocation j = some o → s.stackLocation k = some o →
      (iv j).stop < (iv k).start ∨ (iv k).stop < (iv j).start) ∧
    (∀ k o, location k = some o → o + (iv k).regType.width ≤ min frameBase 0) ∧
    SlotsExclusive iv location := by
  intro iv s laidOut location
  obtain ⟨pos, hinv⟩ := @slotInv_raLinearScanSlots iv d noReuse spillBase ivs.length
    fun j k hjk hk => scanOrder_start_le ivs hjk hk
  have hshared := hinv.placed.shared
  obtain ⟨f, (hf : laidOut = _), hbelow, hapart⟩ := compact_spec 
    (raWriteResults iv rep s ivs.length ++ others) frameBase weights
  -- an interval with a slot was scanned, so it is written back with that slot
  have hwritten : ∀ {k o}, s.stackLocation k = some o → o ≠ 0 ∧
      (⟨o, (iv k).regType⟩ : LSLiveInterval) ∈ raWriteResults iv rep s ivs.length ++ others ∧
      laidOut.getD k default = f ⟨o, (iv k).regType⟩ := by
    intro k o hk
    obtain ⟨hlt, hco⟩ := not_or.mp fun h' =>
      Option.some_ne_none o (hk.symm.trans (hinv.fresh k h'))
    have hget : (raWriteResults iv rep s ivs.length ++ others)[k]? =
        some ⟨o, (iv k).regType⟩ := by
      rw [getElem?_append_left (by simpa [raWriteResults] using hlt)]
      simp [raWriteResults, not_le.mp hlt, hco, SlotState.location, hk]
    refine ⟨?_, mem_of_getElem? hget, ?_⟩
    · have := hinv.placed.within k o hk
      omega
    · rw [getD_eq_getElem?_getD, hf, getElem?_map, hget]
      rfl
  have hlocation : ∀ {k p}, location k = some p → ∃ o, s.stackLocation k = some o ∧
      (f ⟨o, (iv k).regType⟩).stackLocation = p := by
    intro k p hk
    obtain ⟨o, ho, hp⟩ := Option.map_eq_some_iff.mp hk
    exact ⟨o, ho, (hwritten ho).2.2 ▸ hp⟩
  refine ⟨hshared, fun k p hk => ?_, fun j k p q hjk hj hk hlo hhi => ?_⟩
  · obtain ⟨o, ho, rfl⟩ := hlocation hk
    exact hbelow _ (hwritten ho).2.1 (hwritten ho).1
  · obtain ⟨o, ho, rfl⟩ := hlocation hj
    obtain ⟨o', ho', rfl⟩ := hlocation hk
    by_cases heq : o = o'
    · subst heq
      exact hshared j k o hjk ho ho'
    · have := hapart _ (hwritten ho).2.1 _ (hwritten ho').2.1 (hwritten ho).1 (hwritten ho').1 heq
      dsimp only at this
      omega

def evictedValue : SlotInterval :=
  ⟨2, 2, 30, .llong, false, false, false, false, false, false, by decide, nofun⟩

def lateVariable : SlotInterval :=
  ⟨3, 12, 20, .int, false, false, true, false, false, false, by decide, nofun⟩

def crowdingValue : SlotInterval :=
  ⟨4, 14, 25, .int, false, false, false, false, false, false, by decide, nofun⟩

/-- The late variable takes over the slot of the second one; the value that is evicted at 14 gets a
slot of its own. -/
theorem raLinearScan_slots_exclusive_evicted :
    let ivs := [addrtakenWord, addrtakenDoubleword, evictedValue, lateVariable, crowdingValue]
    let d : RegisterChoice := ⟨fun i => if i = 4 then [2] else [], fun _ => false⟩
    let s := raLinearScanSlots (scanOrder ivs) d false 0 5
    let laidOut := tccLsCompactStackLocationsWeighted
      (raWriteResults (scanOrder ivs) (fun _ => none) s 5 ++ []) (-8) none
    (List.range 5).map s.stackLocation = [some (-4), some (-8), some (-16), some (-8), none] ∧
      laidOut.map (·.stackLocation) = [-12, -24, -32, -24, 0] ∧
      SlotsExclusive (scanOrder ivs) fun k =>
        (s.stackLocation k).map fun _ => (laidOut.getD k default).stackLocation := by
  have horder := @scanOrder_of_sorted
    [addrtakenWord, addrtakenDoubleword, evictedValue, lateVariable, crowdingValue]
    (by simp [sortByStart, addrtakenWord, addrtakenDoubleword, evictedValue, lateVariable,
      crowdingValue])
  refine ⟨?_, ?_,
    (raLinearScan_slots_exclusive _ _ _ _ (fun _ => none) [] (-8) none (by decide)).2.2⟩
  · rw [horder]
    decide
  · rw [horder]
    decide

end Tinycc
