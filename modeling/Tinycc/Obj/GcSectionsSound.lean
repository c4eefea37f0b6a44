import Tinycc.Obj.GcMarkSound

namespace Tinycc
open Lib Function Option

section Relocs

variable {s : LinkState} {used : ℕ → Bool}

variable {sec : LinkSection}

theorem sec_eq_some {i : ℕ} :
    s.sec i = some sec ↔ s.sections[i]? = some (some sec) := by
  rw [LinkState.sec, join_eq_some_iff]

theorem sec_reloc {i r : ℕ} (h : s.sec i = some sec) (hr : sec.reloc = some r) :
    ∃ sr, s.sec r = some sr ∧ sr.shType = .relx ∧ sr.alloc = false ∧ sr.shInfo = i := by
  obtain ⟨sr, hsr, h'⟩ := s.relocs i sec r (sec_eq_some.mp h) hr
  exact ⟨sr, sec_eq_some.mpr hsr, h'⟩

theorem markRelocs_eq (hroots : ∀ i, IsRoot s (· < shnLoreserve.toNat) i → used i = true) :
    markRelocs s used = used := by
  apply forRange_induction (fun _ u => u = used) _ rfl
  rintro k u _ rfl
  cases hsec : s.sec (k + 1) with
  | none => rfl
  | some sec =>
    dsimp only
    cases hr : sec.reloc with
    | none => rfl
    | some r =>
      dsimp only
      split_ifs
      · obtain ⟨sr, hsr, htype, _⟩ := sec_reloc hsec hr
        have hroot : IsRoot s (· < shnLoreserve.toNat) r :=
          .inl ⟨sr, hsr, by simp [rootSection, htype, keptType]⟩
        rw [← hroots r hroot, update_eq_self]
      · rfl

end Relocs

section Sweep

variable {s : LinkState} {used : ℕ → Bool} {i j k : ℕ}

def Removed (s : LinkState) (used : ℕ → Bool) (i : ℕ) : Prop :=
  ∃ sec, s.sec i = some sec ∧ used i = false ∧ sec.alloc = true ∧ 0 < sec.dataOffset

def Released (s : LinkState) (used : ℕ → Bool) (r : ℕ) : Prop :=
  ∃ i sec, Removed s used i ∧ s.sec i = some sec ∧ sec.reloc = some r

/-- What the sweep may have done to a section. -/
structure Swept (released : Prop) (old new : LinkSection) (collected : Bool) : Prop where
  shType : new.shType = old.shType
  shInfo : new.shInfo = old.shInfo
  reloc : new.reloc = old.reloc
  rels : new.rels = old.rels ∨ new.rels = [] ∧ (collected = true ∨ released)
  not_alloc : old.alloc = false → new.alloc = false
  kept : old.alloc = true → collected = false → new = old
  emptied : collected = true → new.dataOffset = 0

theorem Swept.refl (p : Prop) (sec : LinkSection) : Swept p sec sec false where
  shType := rfl
  shInfo := rfl
  reloc := rfl
  rels := .inl rfl
  not_alloc := id
  kept _ _ := rfl
  emptied h := by cases h

theorem Swept.release {p : Prop} {old new : LinkSection} {c : Bool} (h : Swept p old new c)
    (hold : old.alloc = false) (hp : p) : Swept p old new.release c where
  shType := h.shType
  shInfo := h.shInfo
  reloc := h.reloc
  rels := .inr ⟨rfl, .inr hp⟩
  not_alloc := h.not_alloc
  kept ha := by
    rw [hold] at ha
    cases ha
  emptied _ := rfl

variable {sec : LinkSection}

theorem Swept.collect (p : Prop) (ha : sec.alloc = true) (b : Bool) :
    Swept p sec { sec.release with alloc := b } true where
  shType := rfl
  shInfo := rfl
  reloc := rfl
  rels := .inr ⟨rfl, .inl rfl⟩
  not_alloc h := by
    rw [ha] at h
    cases h
  kept _ h := by cases h
  emptied _ := rfl

structure SweepState.Invariant (s : LinkState) (used : ℕ → Bool) (k : ℕ) (w : SweepState) :
    Prop where
  collected : ∀ i, w.collected i = true ↔ i ≤ k ∧ Removed s used i
  any : w.anyCollected = true ↔ ∃ i, w.collected i = true
  absent : ∀ i, s.sec i = none → w.sec i = none
  present : ∀ i old, s.sec i = some old →
    ∃ new, w.sec i = some new ∧ Swept (Released s used i) old new (w.collected i)

section

variable (secs : List (Option LinkSection))
include secs

theorem join_setSec (f : LinkSection → LinkSection) (i j : ℕ) :
    ((setSec secs i f)[j]?).join =
      if i = j then ((secs[j]?).join).map f else (secs[j]?).join := by
  rw [setSec, List.getElem?_modify]
  split_ifs
  · cases secs[j]? with
    | none => rfl
    | some o => rfl
  · cases secs[j]? <;> rfl

variable {sec : LinkSection}

theorem sec_sweepSection (hi : i ≠ j) (hr : sec.reloc ≠ some j) :
    ((sweepSection s i sec secs)[j]?).join = (secs[j]?).join := by
  unfold sweepSection
  cases hreloc : sec.reloc with
  | none => simp only [join_setSec, if_neg hi]
  | some r =>
    have hrj : r ≠ j := fun e => hr (by rw [hreloc, e])
    simp only [join_setSec, if_neg hi, if_neg hrj]

theorem sec_sweepSection_reloc (hi : i ≠ j) (hr : sec.reloc = some j) :
    ((sweepSection s i sec secs)[j]?).join = ((secs[j]?).join).map LinkSection.release := by
  unfold sweepSection
  simp only [hr, join_setSec, if_true, if_neg hi]

end

theorem sec_sweepSection_self {secs : List (Option LinkSection)} (hr : sec.reloc ≠ some i)
    (hsec : (secs[i]?).join = some sec) :
    ∃ b, ((sweepSection s i sec secs)[i]?).join = some { sec.release with alloc := b } := by
  unfold sweepSection
  cases hreloc : sec.reloc with
  | none => exact ⟨_, by simp only [join_setSec, if_true, hsec, map_some]; rfl⟩
  | some r =>
    have hri : r ≠ i := fun e => hr (by rw [hreloc, e])
    exact ⟨_, by simp only [join_setSec, if_true, hsec, map_some, if_neg hri]; rfl⟩

theorem Removed.not_reloc (h : Removed s used i) (hj : s.sec j = some sec) :
    sec.reloc ≠ some i := by
  intro hr
  obtain ⟨sr, hsr, _, hna, _⟩ := sec_reloc hj hr
  obtain ⟨old, hold, _, ha, _⟩ := h
  rw [hsr] at hold
  cases hold
  rw [hna] at ha
  cases ha

theorem SweepState.Invariant.collect {w : SweepState} (h : w.Invariant s used k)
    (hrem : Removed s used (k + 1)) (hsec : s.sec (k + 1) = some sec)
    (hw : w.sec (k + 1) = some sec) (ha : sec.alloc = true) :
    (SweepState.mk (sweepSection s (k + 1) sec w.sections)
      (update w.collected (k + 1) true) true).Invariant s used (k + 1) := by
  refine ⟨?_, ?_, ?_, ?_⟩
  · intro i
    by_cases hi : i = k + 1
    · subst hi
      simpa using hrem
    · have hle : i ≤ k + 1 ↔ i ≤ k := by omega
      dsimp only
      rw [update_of_ne hi, h.collected, hle]
  · exact iff_of_true rfl ⟨k + 1, update_self ..⟩
  · intro i hnone
    have hi : k + 1 ≠ i := by
      rintro rfl
      rw [hsec] at hnone
      cases hnone
    have hr : sec.reloc ≠ some i := by
      intro hr
      obtain ⟨sr, hsr, _⟩ := sec_reloc hsec hr
      rw [hsr] at hnone
      cases hnone
    exact (sec_sweepSection w.sections hi hr).trans (h.absent i hnone)
  · intro i old hold
    by_cases hi : k + 1 = i
    · subst hi
      rw [hsec] at hold
      cases hold
      obtain ⟨b, hb⟩ := sec_sweepSection_self (s := s) (hrem.not_reloc hsec) hw
      refine ⟨_, hb, ?_⟩
      dsimp only
      rw [update_self]
      exact .collect _ ha b
    · obtain ⟨new, hnew, hswept⟩ := h.present i old hold
      have hcol : update w.collected (k + 1) true i = w.collected i :=
        update_of_ne (Ne.symm hi) _ _
      -- the relocations of the collected section are released with it
      by_cases hr : sec.reloc = some i
      · refine ⟨new.release, ?_, ?_⟩
        · refine (sec_sweepSection_reloc w.sections hi hr).trans ?_
          exact congrArg (Option.map LinkSection.release) hnew
        · obtain ⟨sr, hsr, _, hna, _⟩ := sec_reloc hsec hr
          rw [hsr] at hold
          cases hold
          dsimp only
          rw [hcol]
          exact hswept.release hna ⟨k + 1, sec, hrem, hsec, hr⟩
      · refine ⟨new, (sec_sweepSection w.sections hi hr).trans hnew, ?_⟩
        dsimp only
        rw [hcol]
        exact hswept

theorem SweepState.Invariant.skip {w : SweepState} (h : w.Invariant s used k)
    (hrem : ¬Removed s used (k + 1)) : w.Invariant s used (k + 1) := by
  refine ⟨?_, h.any, h.absent, h.present⟩
  intro i
  rw [h.collected]
  constructor
  · rintro ⟨hle, hr⟩
    exact ⟨by omega, hr⟩
  · rintro ⟨hle, hr⟩
    have hne : i ≠ k + 1 := fun e => hrem (e ▸ hr)
    exact ⟨by omega, hr⟩

theorem gcSweep_invariant (s : LinkState) (used : ℕ → Bool) :
    (gcSweep s used).Invariant s used (s.sections.length - 1) := by
  apply forRange_induction (fun k (w : SweepState) => w.Invariant s used k)
  · refine ⟨?_, ?_, fun i h => h, fun i old h => ⟨old, h, .refl _ old⟩⟩
    · intro i
      simp only [Bool.false_eq_true, false_iff]
      rintro ⟨h0, sec, hsec, _⟩
      have := pos_of_sec hsec
      omega
    · simp
  · intro k w _ h
    dsimp only
    cases hold : s.sec (k + 1) with
    | none =>
      rw [h.absent _ hold]
      apply h.skip
      rintro ⟨sec, hsec, _⟩
      rw [hold] at hsec
      cases hsec
    | some old =>
      obtain ⟨new, hnew, hswept⟩ := h.present _ old hold
      have hnot : w.collected (k + 1) = false := by
        by_contra hc
        have := ((h.collected _).mp (by simpa using hc)).1
        omega
      rw [hnew]
      dsimp only
      -- an allocated section that is not collected is still as it was
      by_cases hrem : Removed s used (k + 1)
      · obtain ⟨sec, hsec, hu, ha, hd⟩ := id hrem
        rw [hold] at hsec
        cases hsec
        have heq := hswept.kept ha hnot
        subst heq
        rw [if_pos (by simp [hu, ha, hd])]
        exact h.collect hrem hold hnew ha
      · rw [if_neg]
        · exact h.skip hrem
        · intro htest
          apply hrem
          simp only [Bool.and_eq_true, Bool.not_eq_true', decide_eq_true_eq] at htest
          cases ha : old.alloc with
          | false =>
            have := hswept.not_alloc ha
            rw [this] at htest
            exact absurd htest.1.2 (by simp)
          | true =>
            have heq := hswept.kept ha hnot
            subst heq
            exact ⟨new, hold, htest.1.1, ha, htest.2⟩

end Sweep

section Correct

variable {s : LinkState}

def secOf (secs : List (Option LinkSection)) (i : ℕ) : Option LinkSection := (secs[i]?).join

/-- `0xFFFFFFFF` is no address of anything. -/
def DeadMarker (sym : ElfSym) : Prop := sym.value = 0xFFFFFFFF#32 ∧ sym.shndx = shnAbs

def Emptied (s : LinkState) (secs : List (Option LinkSection)) (i : ℕ) : Prop :=
  ∃ sec sec', s.sec i = some sec ∧ sec.alloc = true ∧ 0 < sec.dataOffset ∧
    secOf secs i = some sec' ∧ sec'.dataOffset = 0

/-- What `gc_sections` is for. -/
structure GcCorrect (s : LinkState) (secs : List (Option LinkSection)) (syms : List ElfSym) :
    Prop where
  kept : ∀ i sec, s.sec i = some sec → sec.alloc = true → 0 < sec.dataOffset →
    ∃ sec', secOf secs i = some sec' ∧ (Kept s i → sec' = sec) ∧ (¬Kept s i → sec'.dataOffset = 0)
  noDead : ∀ t sec, s.sec t = some sec → sec.alloc = true → Kept s t → ∀ r sr,
    secOf secs r = some sr → sr.shType = .relx → sr.shInfo = t → ∀ k ∈ sr.rels,
      0 < k → k < s.symtab.length →
      ¬(DeadMarker (syms.getD k default) ∧ Emptied s secs (s.sym k).shndx.toNat)
  dead : ∀ k, 0 < k → k < s.symtab.length → Emptied s secs (s.sym k).shndx.toNat →
    DeadMarker (syms.getD k default)
  demoted : ∀ k, 0 < k → k < s.symtab.length → (s.sym k).shndx = shnUndef →
    stBind (s.sym k).info = stbGlobal → stBind (syms.getD k default).info = stbWeak →
    ∀ r sr, secOf secs r = some sr → sr.shType = .relx → 0 < sr.dataOffset → k ∉ sr.rels

/-- The section numbers from `SHN_LORESERVE` on do no harm: what is kept is so on account of lower
numbers alone, and no relocation of a kept section names an absolute or common symbol whose number
is that of a section that is not kept. -/
structure ReservedSafe (s : LinkState) : Prop where
  below : ∀ i sec, s.sec i = some sec → sec.alloc = true → 0 < sec.dataOffset → Kept s i →
    KeptBelow s i
  refs : ∀ t sec, s.sec t = some sec → sec.alloc = true → Kept s t → ∀ r, AppliesTo s t r →
    ∀ k ∈ relsOf s r, 0 < k → k < s.symtab.length → ¬SectionNumber (s.sym k).shndx.toNat →
      ∀ dead, s.sec (s.sym k).shndx.toNat = some dead → dead.alloc = true → 0 < dead.dataOffset →
        Kept s (s.sym k).shndx.toNat

theorem reservedSafe_of_length (h : s.sections.length ≤ shnLoreserve.toNat) : ReservedSafe s where
  below _ _ _ _ _ hk := KeptBy.mono (fun _ hn _ => Nat.lt_of_lt_of_le hn h) hk
  refs _ _ _ _ _ _ _ _ _ _ _ hnum _ hdead _ _ :=
    absurd (sectionNumber_of_lt (Nat.lt_of_lt_of_le (lt_of_sec hdead) h)) hnum

section Final

variable {used : ℕ → Bool} {w : SweepState} {i k : ℕ}

theorem collected_iff (hw : w.Invariant s used (s.sections.length - 1)) :
    w.collected i = true ↔ Removed s used i := by
  rw [hw.collected]
  constructor
  · exact fun h => h.2
  · intro h
    obtain ⟨sec, hsec, _⟩ := id h
    have := lt_of_sec hsec
    exact ⟨by omega, h⟩

theorem emptied_iff (hw : w.Invariant s used (s.sections.length - 1)) :
    Emptied s w.sections i ↔ Removed s used i := by
  constructor
  · rintro ⟨sec, sec', hsec, ha, hd, hsec', hzero⟩
    by_contra hrem
    obtain ⟨new, hnew, hswept⟩ := hw.present i sec hsec
    have hnot : w.collected i = false := by
      simpa using fun hc => hrem ((collected_iff hw).mp hc)
    have heq := hswept.kept ha hnot
    have : some sec' = some new := hsec'.symm.trans hnew
    cases this
    rw [heq] at hzero
    omega
  · intro h
    obtain ⟨sec, hsec, _, ha, hd⟩ := id h
    obtain ⟨new, hnew, hswept⟩ := hw.present i sec hsec
    exact ⟨sec, new, hsec, ha, hd, hnew, hswept.emptied ((collected_iff hw).mpr h)⟩

def gcSymtab (s : LinkState) (w : SweepState) : List ElfSym :=
  if w.anyCollected then
    (s.symtab.mapIdx fun i sym =>
      if i = 0 then sym else markDead s.sections.length w.collected sym).mapIdx fun i sym =>
        if i = 0 then sym else demote (referenced w.sections i) sym
  else s.symtab

theorem gcSymtab_getD (h0 : 0 < k) (hk : k < s.symtab.length) :
    (gcSymtab s w).getD k default =
      if w.anyCollected then
        demote (referenced w.sections k) (markDead s.sections.length w.collected (s.sym k))
      else s.sym k := by
  have hne : k ≠ 0 := Nat.ne_of_gt h0
  unfold gcSymtab
  split_ifs
  · simp [hk, hne, LinkState.sym]
  · rfl

section

variable (hw : w.Invariant s used (s.sections.length - 1))
include hw

theorem gcSymtab_dead (h0 : 0 < k)
    (hk : k < s.symtab.length) (hrem : Removed s used (s.sym k).shndx.toNat) :
    DeadMarker ((gcSymtab s w).getD k default) := by
  have hcol := (collected_iff hw).mpr hrem
  have hlt : (s.sym k).shndx.toNat < s.sections.length := by
    obtain ⟨sec, hsec, _⟩ := hrem
    exact lt_of_sec hsec
  have hdead : markDead s.sections.length w.collected (s.sym k) =
      { s.sym k with value := 0xFFFFFFFF#32, shndx := shnAbs } := if_pos ⟨hlt, hcol⟩
  have hany := hw.any.mpr ⟨_, hcol⟩
  have hundef : shnAbs ≠ shnUndef := by decide
  rw [gcSymtab_getD h0 hk, hany, hdead, demote]
  exact ⟨rfl, rfl⟩

theorem gcSymtab_demoted (h0 : 0 < k)
    (hk : k < s.symtab.length) (hu : (s.sym k).shndx = shnUndef)
    (hg : stBind (s.sym k).info = stbGlobal)
    (hweak : stBind ((gcSymtab s w).getD k default).info = stbWeak) :
    referenced w.sections k = false := by
  have hne : stBind (s.sym k).info ≠ stbWeak := by
    rw [hg]
    decide
  have hlive : markDead s.sections.length w.collected (s.sym k) = s.sym k := by
    apply if_neg
    rintro ⟨_, hc⟩
    obtain ⟨sec, hsec, _⟩ := (collected_iff hw).mp hc
    have := pos_of_sec hsec
    rw [hu] at this
    exact Nat.lt_irrefl 0 this
  rw [gcSymtab_getD h0 hk, hlive] at hweak
  by_contra href
  have href' : referenced w.sections k = true := by simpa using href
  split_ifs at hweak
  · rw [href', demote, if_neg (by simp)] at hweak
    exact hne hweak
  · exact hne hweak

variable {r : ℕ} {sr : LinkSection}

theorem pos_of_secOf (hsr : secOf w.sections r = some sr) :
    0 < r := by
  rcases Nat.eq_zero_or_pos r with rfl | h0
  · have hnone : s.sec 0 = none := by simp [LinkState.sec, s.null]
    have : secOf w.sections 0 = none := hw.absent 0 hnone
    rw [this] at hsr
    cases hsr
  · exact h0

theorem not_mem_rels_of_referenced (href : referenced w.sections k = false)
    (hsr : secOf w.sections r = some sr) (htype : sr.shType = .relx) (hd : 0 < sr.dataOffset) :
    k ∉ sr.rels := by
  intro hk
  have h0 := pos_of_secOf hw hsr
  have hmem : some sr ∈ w.sections.drop 1 := by
    apply List.mem_of_getElem? (i := r - 1)
    rw [List.getElem?_drop, Nat.add_sub_cancel' h0]
    exact Option.join_eq_some_iff.mp hsr
  have := List.any_eq_false.mp href _ hmem
  simp [htype, Nat.ne_of_gt hd, hk] at this

end

variable (hused : ∀ i, used i = true ↔ KeptBelow s i)

include hused

theorem removed_iff : Removed s used i ↔
    ∃ sec, s.sec i = some sec ∧ ¬KeptBelow s i ∧ sec.alloc = true ∧ 0 < sec.dataOffset := by
  have hnot : used i = false ↔ ¬KeptBelow s i := by
    rw [← hused]
    simp
  simp only [Removed, hnot]

theorem roots_used (i : ℕ) (h : IsRoot s (· < shnLoreserve.toNat) i) : used i = true :=
  (hused i).mpr ⟨i, h, .refl⟩

section

variable (hw : w.Invariant s used (s.sections.length - 1))
include hw

theorem swept_of_kept {sec : LinkSection} (hsec : s.sec i = some sec) (ha : sec.alloc = true)
    (hd : 0 < sec.dataOffset) :
    ∃ sec', secOf w.sections i = some sec' ∧ (KeptBelow s i → sec' = sec) ∧
      (¬KeptBelow s i → sec'.dataOffset = 0) := by
  obtain ⟨new, hnew, hswept⟩ := hw.present i sec hsec
  refine ⟨new, hnew, ?_, ?_⟩
  · intro hkept
    apply hswept.kept ha
    by_contra hc
    obtain ⟨_, _, hu, _⟩ := (collected_iff hw).mp (by simpa using hc)
    rw [(hused i).mpr hkept] at hu
    cases hu
  · intro hnot
    apply hswept.emptied
    exact (collected_iff hw).mpr ((removed_iff hused).mpr ⟨sec, hsec, hnot, ha, hd⟩)

theorem not_emptied_of_reservedSafe
    (hres : ReservedSafe s) {t r : ℕ} {sec sr : LinkSection} (hsec : s.sec t = some sec)
    (ha : sec.alloc = true) (hkept : Kept s t) (hsr : secOf w.sections r = some sr)
    (htype : sr.shType = .relx) (hinfo : sr.shInfo = t) (hk : k ∈ sr.rels) (h0 : 0 < k)
    (hlt : k < s.symtab.length) : ¬Emptied s w.sections (s.sym k).shndx.toNat := by
  intro hempty
  obtain ⟨dead, hdead, hnot, hda, hdd⟩ := (removed_iff hused).mp ((emptied_iff hw).mp hempty)
  -- a dead section below the limit would be one that the kept section refers to
  apply hnot
  apply hres.below _ dead hdead hda hdd
  cases hold : s.sec r with
  | none =>
    have : secOf w.sections r = none := hw.absent r hold
    rw [hsr] at this
    cases this
  | some old =>
    obtain ⟨new, hnew, hswept⟩ := hw.present r old hold
    have : some sr = some new := hsr.symm.trans hnew
    cases this
    have hkold : k ∈ old.rels := by
      rcases hswept.rels with h | ⟨h, _⟩
      · rwa [← h]
      · rw [h] at hk
        cases hk
    have htype' := hswept.shType.symm.trans htype
    have hinfo' := hswept.shInfo.symm.trans hinfo
    by_cases hnum : SectionNumber (s.sym k).shndx.toNat
    · -- the number names a section, so the relocation leads there
      have hd : DefinedIn s SectionNumber k (s.sym k).shndx.toNat :=
        ⟨h0, hlt, rfl, hnum, pos_of_sec hdead, lt_of_sec hdead⟩
      obtain ⟨root, hroot, hpath⟩ := hkept
      exact ⟨root, hroot, hpath.tail ⟨sec, hsec, ha, r, old, hold, htype', hinfo', k, hkold, hd⟩⟩
    · apply hres.refs t sec hsec ha hkept r ⟨old, hold, htype', hinfo'⟩ k _ h0 hlt hnum dead hdead
        hda hdd
      simpa [relsOf, hold] using hkold

theorem gcCorrect_of_reservedSafe
    (hres : ReservedSafe s) : GcCorrect s w.sections (gcSymtab s w) where
  kept i sec hsec ha hd := by
    obtain ⟨new, hnew, hsame, hempty⟩ := swept_of_kept hused hw hsec ha hd
    exact ⟨new, hnew, fun hk => hsame (hres.below i sec hsec ha hd hk),
      fun hn => hempty fun hb => hn hb.kept⟩
  noDead t sec hsec ha hkept r sr hsr htype hinfo k hk h0 hlt hdead :=
    not_emptied_of_reservedSafe hused hw hres hsec ha hkept hsr htype hinfo hk h0 hlt hdead.2
  dead k h0 hlt hempty := gcSymtab_dead hw h0 hlt ((emptied_iff hw).mp hempty)
  demoted k h0 hlt hu hg hweak r sr hsr htype hd :=
    not_mem_rels_of_referenced hw (gcSymtab_demoted hw h0 hlt hu hg hweak) hsr htype hd

end

end Final

theorem gcSections_eq (s : LinkState) : ∃ used, (∀ i, used i = true ↔ KeptBelow s i) ∧
    gcSections s = some ((gcSweep s used).sections, gcSymtab s (gcSweep s used)) := by
  obtain ⟨used, hmark, hused⟩ := gcMark_total s
  refine ⟨used, hused, ?_⟩
  rw [gcSections, hmark, map_some, markRelocs_eq (roots_used hused)]
  dsimp only
  unfold gcSymtab
  split_ifs <;> rfl

theorem gcSections_correct_of_length (h : s.sections.length ≤ shnLoreserve.toNat) : ∃ secs syms,
    gcSections s = some (secs, syms) ∧ GcCorrect s secs syms := by
  obtain ⟨used, hused, heq⟩ := gcSections_eq s
  exact ⟨_, _, heq, gcCorrect_of_reservedSafe hused (gcSweep_invariant s used)
    (reservedSafe_of_length h)⟩

end Correct

end Tinycc
