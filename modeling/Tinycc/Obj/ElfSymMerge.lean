import Tinycc.Obj.ElfSymSound

/-!
# Visibility and binding over the calls of one name

A call on a defined symbol narrows the visibility of the entry. A call on a symbol that was only
referenced overwrites it, and the binding with it, so the references before it no longer count.
-/

namespace Tinycc
open Lib

variable {bss : BitVec 16} {dynsym : Bool} {name : SymName} {e : ElfSym} {c d : ElfSymArgs}
  {calls : List ElfSymArgs}

/-- How far a visibility constrains: default, protected, hidden, internal. -/
def visRank (v : BitVec 8) : ℕ :=
  if v = stvProtected then 1 else if v = stvHidden then 2 else if v = stvInternal then 3 else 0

def maxRank (calls : List ElfSymArgs) : ℕ :=
  calls.foldr (fun c n => max (visRank (stVisibility c.other)) n) 0

/-- The calls that the entry still shows: those from the first definition on, without one only
the last. -/
def counted : List ElfSymArgs → List ElfSymArgs
  | [] => []
  | [c] => [c]
  | c :: d :: calls => if c.shndx = shnUndef then counted (d :: calls) else c :: d :: calls

theorem stVisibility_cases (x : BitVec 8) : stVisibility x = stvDefault ∨
    stVisibility x = stvProtected ∨ stVisibility x = stvHidden ∨ stVisibility x = stvInternal := by
  revert x
  decide +kernel

theorem visRank_mergeVisibility (x y : BitVec 8) :
    visRank (mergeVisibility (stVisibility x) (stVisibility y)) =
      max (visRank (stVisibility x)) (visRank (stVisibility y)) := by
  rcases stVisibility_cases x with h | h | h | h <;>
    rcases stVisibility_cases y with h' | h' | h' | h' <;> rw [h, h'] <;> decide

theorem stVisibility_narrow (e : ElfSym) (c : ElfSymArgs) :
    stVisibility (e.narrow c).other =
      mergeVisibility (stVisibility e.other) (stVisibility c.other) := by
  have hmask : ∀ x : BitVec 8, x &&& ~~~(0x3 : BitVec 8) &&& 0x3 = 0 := by decide +kernel
  have hvis : ∀ x : BitVec 8, stVisibility x &&& 0x3 = stVisibility x := by decide +kernel
  obtain ⟨z, hz⟩ := exists_mergeVisibility e.other c.other
  rw [stVisibility, narrow_and, hmask, hz, hvis]
  exact BitVec.zero_or

theorem override_patch (h : override bss dynsym e c = .patch) : c.shndx ≠ shnUndef := by
  intro hu
  simp [override, hu] at h

theorem setExisting_of_defined (hd : e.shndx ≠ shnUndef) :
    (setExisting bss dynsym e c).1.shndx ≠ shnUndef ∧
      visRank (stVisibility (setExisting bss dynsym e c).1.other) =
        max (visRank (stVisibility e.other)) (visRank (stVisibility c.other)) := by
  by_cases hr : e.Repeats c
  · rw [setExisting, if_pos hr, hr.2.2.2.1, max_self]
    exact ⟨hd, rfl⟩
  · have hrank : visRank (stVisibility (e.narrow c).other) = _ :=
      (congrArg visRank (stVisibility_narrow e c)).trans (visRank_mergeVisibility _ _)
    simp only [setExisting, if_neg hr, if_pos hd]
    cases ho : override bss dynsym (e.narrow c) c with
    | ignore => exact ⟨hd, hrank⟩
    | patch => exact ⟨override_patch ho, hrank⟩
    | definedTwice => exact ⟨hd, hrank⟩

theorem setExisting_vis_of_undef (hu : e.shndx = shnUndef) :
    stVisibility (setExisting bss dynsym e c).1.other = stVisibility c.other := by
  by_cases hr : e.Repeats c
  · rw [setExisting, if_pos hr, hr.2.2.2.1]
  · rw [setExisting, if_neg hr, if_neg (not_not_intro hu)]
    rfl

def entryRun (bss : BitVec 16) (dynsym : Bool) (e : ElfSym) (calls : List ElfSymArgs) : ElfSym :=
  calls.foldl (fun e c => (setExisting bss dynsym e c).1) e

theorem entryRun_of_defined (hd : e.shndx ≠ shnUndef) (calls : List ElfSymArgs) :
    (entryRun bss dynsym e calls).shndx ≠ shnUndef ∧
      visRank (stVisibility (entryRun bss dynsym e calls).other) =
        max (visRank (stVisibility e.other)) (maxRank calls) := by
  induction calls generalizing e with
  | nil => exact ⟨hd, (Nat.max_zero _).symm⟩
  | cons c calls ih =>
    obtain ⟨hd', hrank⟩ := @setExisting_of_defined bss dynsym e c hd
    obtain ⟨hdef, hvis⟩ := ih hd'
    rw [hrank, max_assoc] at hvis
    exact ⟨hdef, hvis⟩

/-- What the entry of a name shows of the calls. -/
structure Shows (calls : List ElfSymArgs) (e : ElfSym) : Prop where
  rank : visRank (stVisibility e.other) = maxRank (counted calls)
  undefined : e.shndx = shnUndef ↔ ∀ c ∈ calls, c.shndx = shnUndef
  last : e.shndx = shnUndef → ∀ c ∈ calls.getLast?, e.info = c.info

theorem entryRun_shows (hsec : e.shndx = c.shndx) (hinfo : e.info = c.info)
    (hvis : stVisibility e.other = stVisibility c.other) (calls : List ElfSymArgs) :
    Shows (c :: calls) (entryRun bss dynsym e calls) := by
  induction calls generalizing c e with
  | nil =>
    refine ⟨?_, by simp [entryRun, hsec], ?_⟩
    · simp [entryRun, counted, maxRank, hvis]
    · simp [entryRun, hinfo]
  | cons d calls ih =>
    by_cases hu : c.shndx = shnUndef
    · -- the reference is forgotten
      have hu' := hsec.trans hu
      have hc := @setExisting_of_undef bss e d dynsym hu'
      have h := ih hc.1 hc.2.2.2 (setExisting_vis_of_undef hu')
      refine ⟨?_, ?_, ?_⟩
      · rw [counted, if_pos hu]
        exact h.rank
      · rw [List.forall_mem_cons, and_iff_right hu]
        exact h.undefined
      · exact h.last
    · obtain ⟨hdef, hrank⟩ := @entryRun_of_defined bss dynsym e (hsec ▸ hu) (d :: calls)
      refine ⟨?_, iff_of_false hdef fun h => hu (h c List.mem_cons_self), fun h => absurd h hdef⟩
      rw [counted, if_neg hu, hrank, hvis]
      rfl

theorem setElfSyms_entryRun {s : Symtab} (hs : s.WellFormed) (hk : Symtab.keptName name = name)
    (hr : s.Represents name (some e)) (hb : ∀ c ∈ calls, stBind c.info ≠ stbLocal) :
    (setElfSyms bss s name calls).1.Represents name (some (entryRun bss s.dynsym e calls)) := by
  induction calls generalizing s e with
  | nil => exact hr
  | cons c calls ih =>
    rw [List.forall_mem_cons] at hb
    obtain ⟨hwf, hdyn, hrep, _⟩ := @setElfSym_entry bss name c s _ hs hk hb.1 hr
    have h := ih hwf hrep hb.2
    rw [hdyn] at h
    exact h

theorem setElfSyms_shows {s : Symtab} (hs : s.WellFormed) (hk : Symtab.keptName name = name)
    (hnew : ∀ i, ¬s.IsEntry name i) (hcalls : calls ≠ [])
    (hb : ∀ c ∈ calls, stBind c.info ≠ stbLocal) :
    ∃ i, (∀ j, (setElfSyms bss s name calls).1.IsEntry name j ↔ j = i) ∧
      Shows calls ((setElfSyms bss s name calls).1.sym i) := by
  obtain ⟨c, calls, rfl⟩ := List.exists_cons_of_ne_nil hcalls
  rw [List.forall_mem_cons] at hb
  obtain ⟨hwf, _, hrep, _⟩ := @setElfSym_entry bss name c s none hs hk hb.1 hnew
  obtain ⟨i, hi, huniq⟩ := setElfSyms_entryRun hwf hk hrep hb.2
  refine ⟨i, huniq, ?_⟩
  have h := @entryRun_shows bss (setElfSym bss s name c).1.dynsym
    (entryAfter bss s.dynsym name c none).1 c rfl rfl rfl calls
  rw [← hi] at h
  exact h

/-- The entry has the most constraining visibility of all calls, and stays weak without a definition
only if all calls were, exactly if the calls it still shows agree with all calls. -/
theorem setElfSyms_merges_iff {s : Symtab} (hs : s.WellFormed) (hk : Symtab.keptName name = name)
    (hnew : ∀ i, ¬s.IsEntry name i) (hcalls : calls ≠ [])
    (hb : ∀ c ∈ calls, stBind c.info ≠ stbLocal) :
    (∃ i, (∀ j, (setElfSyms bss s name calls).1.IsEntry name j ↔ j = i) ∧
      visRank (stVisibility ((setElfSyms bss s name calls).1.sym i).other) = maxRank calls ∧
      (((setElfSyms bss s name calls).1.sym i).shndx = shnUndef →
        stBind ((setElfSyms bss s name calls).1.sym i).info = stbWeak → ∀ c ∈ calls, c.Weak)) ↔
    maxRank (counted calls) = maxRank calls ∧
      ((∀ c ∈ calls, c.shndx = shnUndef) →
        ∀ c ∈ calls.getLast?, c.Weak → ∀ d ∈ calls, d.Weak) := by
  obtain ⟨i, huniq, hsh⟩ := @setElfSyms_shows bss name calls s hs hk hnew hcalls hb
  constructor
  · rintro ⟨j, hj, hrank, hweak⟩
    obtain rfl := (huniq j).mp ((hj j).mpr rfl)
    refine ⟨hsh.rank.symm.trans hrank, fun hall c hc hcw => ?_⟩
    have hu := hsh.undefined.mpr hall
    exact hweak hu ((congrArg stBind (hsh.last hu c hc)).trans hcw)
  · rintro ⟨hrank, hweak⟩
    refine ⟨i, huniq, hsh.rank.trans hrank, fun hu hw => ?_⟩
    have hc := List.getLast?_eq_some_getLast hcalls
    exact hweak (hsh.undefined.mp hu) _ hc ((congrArg stBind (hsh.last hu _ hc)).symm.trans hw)

theorem not_isEntry_initSymtab (nb : ℕ) (name : SymName) (i : ℕ) :
    ¬(Symtab.initSymtab nb dynsym).IsEntry name i := by
  rintro ⟨hi, hb, _⟩
  have h0 : i = 0 := by simpa [Symtab.initSymtab] using hi
  subst h0
  exact hb (by decide : stBind 0 = stbLocal)

/-- A reference and a hidden definition. -/
theorem setElfSyms_merges_iff_hidden :
    ∃ i, (∀ j, (setElfSyms 3 (Symtab.initSymtab 4 false) [0x78#8]
        [⟨0, 0, 0x10, 0, 0⟩, ⟨8, 4, 0x11, 2, 1⟩]).1.IsEntry [0x78#8] j ↔ j = i) ∧
      visRank (stVisibility ((setElfSyms 3 (Symtab.initSymtab 4 false) [0x78#8]
        [⟨0, 0, 0x10, 0, 0⟩, ⟨8, 4, 0x11, 2, 1⟩]).1.sym i).other) = 2 := by
  obtain ⟨i, hi, hrank, _⟩ := (@setElfSyms_merges_iff 3 [0x78#8]
    [⟨0, 0, 0x10, 0, 0⟩, ⟨8, 4, 0x11, 2, 1⟩] (Symtab.initSymtab 4 false)
    (Symtab.initSymtab_wellFormed (by decide) false) rfl
    (not_isEntry_initSymtab 4 [0x78#8]) (by decide) (by decide)).mpr (by decide)
  exact ⟨i, hi, hrank⟩

/-- A hidden reference is forgotten at a default one, and a strong one at a weak one. -/
theorem setElfSyms_forgets :
    ∃ calls : List ElfSymArgs, (∀ c ∈ calls, stBind c.info ≠ stbLocal) ∧
      (setElfSyms 3 (Symtab.initSymtab 4 false) [0x78#8] calls).1.IsEntry [0x78#8] 1 ∧
      visRank (stVisibility ((setElfSyms 3 (Symtab.initSymtab 4 false) [0x78#8] calls).1.sym
        1).other) < maxRank calls ∧
      ((setElfSyms 3 (Symtab.initSymtab 4 false) [0x78#8] calls).1.sym 1).shndx = shnUndef ∧
      stBind ((setElfSyms 3 (Symtab.initSymtab 4 false) [0x78#8] calls).1.sym 1).info = stbWeak ∧
      ∃ c ∈ calls, ¬c.Weak :=
  ⟨[⟨0, 0, 0x10, 2, 0⟩, ⟨0, 0, 0x20, 0, 0⟩], by decide, ⟨by decide, by decide, by decide⟩,
    by decide, by decide, by decide, by decide⟩

end Tinycc
