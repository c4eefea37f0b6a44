import Mathlib.Data.Int.Notation
import Mathlib.Data.Nat.Notation
import Mathlib.Logic.Basic

namespace Tinycc

/-- A section in the order of the layout: its class, and the region of the output section that
takes it. -/
structure LayoutSection where
  cls : ℕ
  shFlags : BitVec 32
  shSize : ℕ
  memoryRegionIdx : Option ℤ

/-- `SHF_ALLOC | SHF_WRITE | SHF_EXECINSTR | SHF_TLS`, and bit 4 for the RELRO sections. -/
def LayoutSection.phFlags (s : LayoutSection) : BitVec 32 :=
  if s.cls < 0x700 then
    if s.cls &&& 0xfff0 = 0x240 then s.shFlags &&& 0x407#32 ||| 0x10#32
    else s.shFlags &&& 0x407#32
  else 0#32

/-- The last loop of `sort_sections`: the headers needed, and the flags it leaves in `sec_cls`, with
bit 8 where a header starts. -/
def sortSections : BitVec 32 → List LayoutSection → ℕ × List (BitVec 32)
  | _, [] => (0, [])
  | f0, s :: rest =>
    if s.cls < 0x700 ∧ s.phFlags ≠ f0 ∧ s.shSize ≠ 0 then
      ((sortSections s.phFlags rest).1 + 1,
        (s.phFlags ||| 0x100#32) :: (sortSections s.phFlags rest).2)
    else ((sortSections f0 rest).1, s.phFlags :: (sortSections f0 rest).2)

def LayoutSection.newRegion (nbMemoryRegions : ℕ) (curMr : ℤ) (s : LayoutSection) : Option ℤ :=
  s.memoryRegionIdx.filter fun mr => 0 ≤ mr ∧ mr < nbMemoryRegions ∧ mr ≠ curMr

def layoutLoads (nbMemoryRegions : ℕ) : ℤ → List (LayoutSection × BitVec 32) → ℕ
  | _, [] => 0
  | curMr, (s, f) :: rest =>
    if f = 0#32 then layoutLoads nbMemoryRegions curMr rest
    else
      let mr := s.newRegion nbMemoryRegions curMr
      let f' := if mr.isSome then f ||| 0x100#32 else f
      (if f' &&& 0x100#32 ≠ 0#32 then 1 else 0) + layoutLoads nbMemoryRegions (mr.getD curMr) rest

/-- The changes of the region at a section that starts no header by its flags. -/
def regionChanges (nbMemoryRegions : ℕ) : ℤ → List (LayoutSection × BitVec 32) → ℕ
  | _, [] => 0
  | curMr, (s, f) :: rest =>
    if f = 0#32 then regionChanges nbMemoryRegions curMr rest
    else
      let mr := s.newRegion nbMemoryRegions curMr
      (if mr.isSome ∧ f &&& 0x100#32 = 0#32 then 1 else 0) +
        regionChanges nbMemoryRegions (mr.getD curMr) rest

/-- The sections with a header of their own. -/
structure DynInf where
  interp : Bool
  note : Bool
  dynamic : Bool
  ehFrameHdr : Bool
  roinf : Bool

def DynInf.phfill (d : DynInf) : ℕ := if d.interp then 2 else 0

def DynInf.others (d : DynInf) : ℕ :=
  d.note.toNat + d.dynamic.toNat + d.ehFrameHdr.toNat + d.roinf.toNat

def DynInf.phnum (d : DynInf) (nbMemoryRegions : ℕ) (secs : List LayoutSection) : ℕ :=
  (sortSections 0#32 secs).1 + d.phfill + d.others +
    if 1 < nbMemoryRegions then nbMemoryRegions - 1 else 0

def DynInf.filled (d : DynInf) (nbMemoryRegions : ℕ) (secs : List LayoutSection) : ℕ :=
  d.phfill + layoutLoads nbMemoryRegions 0 (secs.zip (sortSections 0#32 secs).2) + d.others

theorem phFlags_and (s : LayoutSection) : s.phFlags &&& 0x100#32 = 0#32 := by
  unfold LayoutSection.phFlags
  split
  · split <;> simp [BitVec.and_or_distrib_right, BitVec.and_assoc]
  · rfl

theorem or_and_ne_zero (f : BitVec 32) : (f ||| 0x100#32) &&& 0x100#32 ≠ 0#32 := by
  intro h
  simpa using congrArg (·.getLsbD 8) h

/-- A header is opened for each one counted, and for each change of the region besides. -/
theorem layoutLoads_eq (nb : ℕ) (f0 : BitVec 32) (curMr : ℤ) (secs : List LayoutSection) :
    layoutLoads nb curMr (secs.zip (sortSections f0 secs).2) = (sortSections f0 secs).1 +
      regionChanges nb curMr (secs.zip (sortSections f0 secs).2) := by
  induction secs generalizing f0 curMr with
  | nil => rfl
  | cons s rest ih =>
    rw [sortSections]
    split
    · have hor := or_and_ne_zero s.phFlags
      have hne : s.phFlags ||| 0x100#32 ≠ 0#32 := fun h => hor (by rw [h]; rfl)
      rw [List.zip_cons_cons, layoutLoads, regionChanges, if_neg hne, if_neg hne]
      dsimp only
      rw [ih, if_pos, if_neg fun h => hor h.2]
      · omega
      · split
        · exact or_and_ne_zero _
        · exact hor
    · rw [List.zip_cons_cons, layoutLoads, regionChanges]
      split
      · exact ih f0 curMr
      · dsimp only
        rw [ih]
        cases s.newRegion nb curMr with
        | none => simp [phFlags_and]
        | some _ =>
          simp [phFlags_and, or_and_ne_zero]
          omega

/-- The headers fit exactly if the region changes no more often, where the flags do not, than there
are regions behind the first. -/
theorem layoutSections_fits_iff (d : DynInf) (nb : ℕ) (secs : List LayoutSection) :
    d.filled nb secs ≤ d.phnum nb secs ↔
      regionChanges nb 0 (secs.zip (sortSections 0#32 secs).2) ≤ nb - 1 := by
  rw [DynInf.filled, DynInf.phnum, layoutLoads_eq]
  split <;> omega

/-- Four sections of read-only data, each in the other region than the one before. -/
theorem layoutSections_overflow :
    ∃ (d : DynInf) (nb : ℕ) (secs : List LayoutSection), secs.Pairwise (·.cls ≤ ·.cls) ∧
      d.phnum nb secs < d.filled nb secs :=
  ⟨⟨false, false, false, false, false⟩, 2, [⟨0x100, 2, 4, some 0⟩, ⟨0x101, 2, 4, some 1⟩,
    ⟨0x102, 2, 4, some 0⟩, ⟨0x103, 2, 4, some 1⟩], by decide, by decide⟩

end Tinycc
