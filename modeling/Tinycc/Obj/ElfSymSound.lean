import Tinycc.Obj.ElfSymTable

namespace Tinycc
open Lib Symtab List

variable {bss : BitVec 16} {name : SymName} {e e' : ElfSym} {c d : ElfSymArgs} {calls : List ElfSymArgs}

theorem stInfo_stBind_stType (info : BitVec 8) : stInfo (stBind info) (stType info) = info := by
  revert info
  decide +kernel

namespace ElfSymArgs

def Strong (c : ElfSymArgs) : Prop := stBind c.info = stbGlobal

def Weak (c : ElfSymArgs) : Prop := stBind c.info = stbWeak

def Defines (c : ElfSymArgs) : Prop := c.shndx ≠ shnUndef

def Hidden (c : ElfSymArgs) : Prop :=
  stVisibility c.other = stvHidden ∨ stVisibility c.other = stvInternal

/-- A definition in `COMMON` or `.bss` gives way to one with contents. -/
def Tentative (bss : BitVec 16) (c : ElfSymArgs) : Prop := c.shndx = shnCommon ∨ c.shndx = bss

/-- A strong definition in a section other than `COMMON` and `.bss`. -/
def StrongData (bss : BitVec 16) (c : ElfSymArgs) : Prop := c.Strong ∧ c.Defines ∧ ¬c.Tentative bss

def StrongTentative (bss : BitVec 16) (c : ElfSymArgs) : Prop := c.Strong ∧ c.Defines ∧ c.Tentative bss

instance : Decidable c.Strong := inferInstanceAs (Decidable (_ = _))
instance : Decidable c.Weak := inferInstanceAs (Decidable (_ = _))
instance : Decidable c.Defines := inferInstanceAs (Decidable (_ ≠ _))
instance : Decidable c.Hidden := inferInstanceAs (Decidable (_ ∨ _))
instance : Decidable (c.Tentative bss) := inferInstanceAs (Decidable (_ ∨ _))
instance : Decidable (c.StrongData bss) := inferInstanceAs (Decidable (_ ∧ _ ∧ ¬_))

theorem Weak.not_strong (h : c.Weak) : ¬c.Strong := by
  intro hs
  rw [Strong, h] at hs
  exact absurd hs (by decide)

end ElfSymArgs

/-- The entry says what a call said; its visibility may have been narrowed since. -/
def ElfSym.Carries (e : ElfSym) (c : ElfSymArgs) : Prop :=
  e.shndx = c.shndx ∧ e.value = c.value ∧ e.size = c.size ∧ e.info = c.info

theorem ElfSym.Repeats.carries (h : e.Repeats c) : e.Carries c :=
  ⟨h.2.2.2.2, h.1, h.2.1, h.2.2.1⟩

theorem ElfSym.Carries.narrow (h : e.Carries d) (c : ElfSymArgs) : (e.narrow c).Carries d := h

theorem patchEntry_carries (e : ElfSym) (c : ElfSymArgs) : (patchEntry e c).Carries c :=
  ⟨rfl, rfl, rfl, stInfo_stBind_stType c.info⟩

theorem setExisting_name (bss : BitVec 16) (dynsym : Bool) (e : ElfSym) (c : ElfSymArgs) :
    (setExisting bss dynsym e c).1.name = e.name := by
  unfold setExisting
  dsimp only
  split_ifs with hr hu
  · rfl
  · cases override bss dynsym (e.narrow c) c <;> rfl
  · rfl

theorem setExisting_of_undef {dynsym : Bool} (hu : e.shndx = shnUndef) :
    (setExisting bss dynsym e c).1.Carries c := by
  by_cases hr : e.Repeats c
  · rw [setExisting, if_pos hr]
    exact hr.carries
  · rw [setExisting, if_neg hr, if_neg (not_not_intro hu)]
    exact patchEntry_carries _ c

theorem setExisting_of_patch (hd : e.shndx ≠ shnUndef)
    (ho : override bss false (e.narrow c) c = .patch) :
    (setExisting bss false e c).1.Carries c := by
  by_cases hr : e.Repeats c
  · rw [setExisting, if_pos hr]
    exact hr.carries
  · simp only [setExisting, if_neg hr, if_pos hd, ho]
    exact patchEntry_carries _ c

theorem setExisting_of_keep (hd : e.shndx ≠ shnUndef)
    (ho : override bss false (e.narrow c) c ≠ .patch) (he : e.Carries d) :
    (setExisting bss false e c).1.Carries d := by
  by_cases hr : e.Repeats c
  · rw [setExisting, if_pos hr]
    exact he
  · simp only [setExisting, if_neg hr, if_pos hd]
    cases hov : override bss false (e.narrow c) c with
    | patch => exact absurd hov ho
    | ignore => exact he.narrow c
    | definedTwice => exact he.narrow c

theorem setExisting_reports (hd : e.shndx ≠ shnUndef)
    (ho : override bss false (e.narrow c) c = .definedTwice) (hr : ¬e.Repeats c) :
    (setExisting bss false e c).2 = true := by
  simp only [setExisting, if_neg hr, if_pos hd, ho]

theorem exists_mergeVisibility (x y : BitVec 8) :
    ∃ z, mergeVisibility (stVisibility x) (stVisibility y) = stVisibility z := by
  unfold mergeVisibility
  split_ifs
  exacts [⟨y, rfl⟩, ⟨x, rfl⟩, ⟨x, rfl⟩, ⟨y, rfl⟩]

theorem narrow_and (e : ElfSym) (c : ElfSymArgs) (mask : BitVec 8) :
    (e.narrow c).other &&& mask = e.other &&& ~~~(0x3 : BitVec 8) &&& mask |||
      mergeVisibility (stVisibility e.other) (stVisibility c.other) &&& mask := by
  ext i
  simp [ElfSym.narrow, Bool.and_or_distrib_right]

theorem narrow_asmSet (e : ElfSym) (c : ElfSymArgs) :
    (e.narrow c).other &&& stAsmSet = e.other &&& stAsmSet := by
  have hmask : ∀ x : BitVec 8, x &&& ~~~(0x3 : BitVec 8) &&& stAsmSet = x &&& stAsmSet := by
    decide +kernel
  have hvis : ∀ x : BitVec 8, stVisibility x &&& stAsmSet = 0 := by decide +kernel
  obtain ⟨z, hz⟩ := exists_mergeVisibility e.other c.other
  rw [narrow_and, hmask, hz, hvis]
  exact BitVec.or_zero

theorem setExisting_asmSet (he : e.other &&& stAsmSet = 0) (hc : c.other &&& stAsmSet = 0) :
    (setExisting bss false e c).1.other &&& stAsmSet = 0 := by
  have hn : (e.narrow c).other &&& stAsmSet = 0 := (narrow_asmSet e c).trans he
  unfold setExisting
  dsimp only
  split_ifs with hr hu
  · exact he
  · cases override bss false (e.narrow c) c <;> exact hn
  · exact hc

theorem override_of_not_defines (h : ¬c.Defines) : override bss false e c = .ignore := by
  have h' : c.shndx = shnUndef := Classical.not_not.mp h
  simp [override, h']

theorem override_of_weak (hc : c.Weak) (he : stBind e.info = stbGlobal ∨ stBind e.info = stbWeak) :
    override bss false e c ≠ .patch := by
  have hw : stBind c.info = stbWeak := hc
  have hne : stbWeak ≠ stbGlobal := by decide
  by_cases hu : c.shndx = shnUndef
  · simp [override, hu]
  · rcases he with he | he
    · simp [override, hu, hw, he, hne]
    · simp [override, hu, hw, he, hne]

theorem override_weak_entry (hc : c.Strong) (hd : c.Defines) (he : stBind e.info = stbWeak) :
    override bss false e c = .patch := by
  have hs : stBind c.info = stbGlobal := hc
  have hd' : c.shndx ≠ shnUndef := hd
  simp [override, hs, hd', he]

theorem override_strong (hc : c.Strong) (hd : c.Defines) (he : stBind e.info = stbGlobal)
    (ha : e.other &&& stAsmSet = 0) :
    override bss false e c =
      if c.Hidden then .ignore
      else if (e.shndx = shnCommon ∨ e.shndx = bss) ∧ c.shndx < shnLoreserve ∧ c.shndx ≠ bss then
        .patch
      else if c.Tentative bss then .ignore
      else .definedTwice := by
  have hs : stBind c.info = stbGlobal := hc
  have hd' : c.shndx ≠ shnUndef := hd
  have hne : stbGlobal ≠ stbWeak := by decide
  simp [override, hs, hd', he, hne, ha, ElfSymArgs.Hidden, ElfSymArgs.Tentative]
  rfl

section Resolution

/-- The call is a strong definition with contents that makes it into the entry: a strong `COMMON` or
`.bss` definition is replaced only by a visible one in an ordinary section. -/
def Takes (bss : BitVec 16) (before : List ElfSymArgs) (c : ElfSymArgs) : Prop :=
  c.StrongData bss ∧
    (¬c.Hidden ∧ c.shndx < shnLoreserve ∨ ∀ d ∈ before, ¬d.StrongTentative bss)

def Taken (bss : BitVec 16) (calls : List ElfSymArgs) : Prop :=
  ∃ before c after, calls = before ++ c :: after ∧ Takes bss before c

def FirstCall (P : ElfSymArgs → Prop) (calls : List ElfSymArgs) (c : ElfSymArgs) : Prop :=
  ∃ before after, calls = before ++ c :: after ∧ P c ∧ ∀ d ∈ before, ¬P d

/-- Where the entry of a name stands after some calls. -/
inductive Phase (bss : BitVec 16) (calls : List ElfSymArgs) : Option ElfSym → Prop
  | absent : calls = [] → Phase bss calls none
  | undefined {e : ElfSym} : calls ≠ [] → (∀ c ∈ calls, ¬c.Defines) → e.shndx = shnUndef →
      Phase bss calls (some e)
  | weak {e : ElfSym} {d : ElfSymArgs} : FirstCall ElfSymArgs.Defines calls d →
      (∀ c ∈ calls, c.Defines → c.Weak) → e.Carries d → Phase bss calls (some e)
  | tentative {e : ElfSym} {d : ElfSymArgs} :
      FirstCall (fun c => c.Strong ∧ c.Defines) calls d → d.Tentative bss → ¬Taken bss calls →
      e.Carries d → Phase bss calls (some e)
  | data {e : ElfSym} {d : ElfSymArgs} : d ∈ calls → d.StrongData bss → Taken bss calls →
      e.Carries d → Phase bss calls (some e)

/-- What a call makes of the entry of its name in the table. -/
def entryAfter (bss : BitVec 16) (dynsym : Bool) (name : SymName) (c : ElfSymArgs) :
    Option ElfSym → ElfSym × Bool
  | none => (⟨name, c.value, c.size, c.info, c.other, c.shndx⟩, false)
  | some e => setExisting bss dynsym e c

theorem taken_snoc : Taken bss (calls ++ [c]) ↔ Taken bss calls ∨ Takes bss calls c := by
  constructor
  · rintro ⟨before, d, after, heq, ht⟩
    cases after using reverseRecOn with
    | nil =>
      obtain ⟨rfl, h⟩ := append_inj' heq rfl
      cases h
      exact .inr ht
    | append_singleton after x =>
      have heq' : calls ++ [c] = (before ++ d :: after) ++ [x] := by simpa using heq
      obtain ⟨rfl, _⟩ := append_inj' heq' rfl
      exact .inl ⟨before, d, after, rfl, ht⟩
  · rintro (⟨before, d, after, rfl, ht⟩ | ht)
    · exact ⟨before, d, after ++ [c], by simp, ht⟩
    · exact ⟨calls, c, [], rfl, ht⟩

variable {P : ElfSymArgs → Prop}

theorem FirstCall.snoc (h : FirstCall P calls d) (c : ElfSymArgs) :
    FirstCall P (calls ++ [c]) d := by
  obtain ⟨before, after, rfl, hd, hb⟩ := h
  exact ⟨before, after ++ [c], by simp, hd, hb⟩

theorem FirstCall.last (hc : P c) (h : ∀ d ∈ calls, ¬P d) :
    FirstCall P (calls ++ [c]) c :=
  ⟨calls, [], rfl, hc, h⟩

theorem FirstCall.mem (h : FirstCall P calls d) : d ∈ calls ∧ P d := by
  obtain ⟨before, after, rfl, hd, _⟩ := h
  exact ⟨by simp, hd⟩

theorem Takes.strong {before : List ElfSymArgs} (h : Takes bss before c) : c.Strong ∧ c.Defines :=
  ⟨h.1.1, h.1.2.1⟩

theorem not_taken (h : ∀ d ∈ calls, ¬(d.Strong ∧ d.Defines)) : ¬Taken bss calls := by
  rintro ⟨before, d, after, rfl, ht⟩
  exact h d (by simp) ht.strong

theorem ElfSym.Carries.bind (he : e.Carries d) : stBind e.info = stBind d.info := by
  rw [he.2.2.2]

/-- The first strong definition settles the name, whatever was known of it. -/
theorem Phase.of_strong (hold : ∀ d ∈ calls, ¬(d.Strong ∧ d.Defines)) (hc : c.Strong)
    (hd : c.Defines) (he : e.Carries c) : Phase bss (calls ++ [c]) (some e) := by
  by_cases ht : c.Tentative bss
  · refine .tentative (FirstCall.last ⟨hc, hd⟩ hold) ht ?_ he
    rw [taken_snoc]
    rintro (h | h)
    · exact not_taken hold h
    · exact h.1.2.2 ht
  · refine .data (by simp) ⟨hc, hd, ht⟩ (taken_snoc.mpr (.inr ⟨⟨hc, hd, ht⟩, .inr ?_⟩)) he
    intro d hd' hst
    exact hold d hd' ⟨hst.1, hst.2.1⟩

theorem Phase.of_fresh (hold : ∀ d ∈ calls, ¬d.Defines) (hb : c.Strong ∨ c.Weak)
    (he : e.Carries c) : Phase bss (calls ++ [c]) (some e) := by
  by_cases hd : c.Defines
  · rcases hb with hs | hw
    · exact .of_strong (fun d hd' h => hold d hd' h.2) hs hd he
    · refine .weak (FirstCall.last hd hold) ?_ he
      intro d hd' hdef
      rcases mem_append.mp hd' with h | h
      · exact absurd hdef (hold d h)
      · rwa [mem_singleton.mp h]
  · refine .undefined (by simp) ?_ (he.1.trans (Classical.not_not.mp hd))
    intro d hd'
    rcases mem_append.mp hd' with h | h
    · exact hold d h
    · rwa [mem_singleton.mp h]

theorem Phase.weak_step (hf : FirstCall ElfSymArgs.Defines calls d)
    (hweak : ∀ c ∈ calls, c.Defines → c.Weak) (he : e.Carries d) (hb : c.Strong ∨ c.Weak) :
    Phase bss (calls ++ [c]) (some (setExisting bss false e c).1) := by
  have hdef : e.shndx ≠ shnUndef := he.1 ▸ hf.mem.2
  have hew : stBind e.info = stbWeak := he.bind.trans (hweak d hf.mem.1 hf.mem.2)
  by_cases hc : c.Strong ∧ c.Defines
  · -- a strong definition replaces the weak one
    apply Phase.of_strong _ hc.1 hc.2 (setExisting_of_patch hdef (override_weak_entry hc.1 hc.2 hew))
    intro x hx hs
    exact (hweak x hx hs.2).not_strong hs.1
  · have hcw : c.Defines → c.Weak := fun h => hb.resolve_left fun hs => hc ⟨hs, h⟩
    refine .weak (hf.snoc c) ?_ (setExisting_of_keep hdef ?_ he)
    · intro x hx hxd
      rcases mem_append.mp hx with h | h
      · exact hweak x h hxd
      · rw [mem_singleton.mp h] at hxd ⊢
        exact hcw hxd
    · by_cases hd : c.Defines
      · exact override_of_weak (hcw hd) (.inr hew)
      · rw [override_of_not_defines hd]
        decide

theorem override_of_not_strong (hb : c.Strong ∨ c.Weak) (hc : ¬(c.Strong ∧ c.Defines))
    (he : stBind e.info = stbGlobal) : override bss false e c ≠ .patch := by
  by_cases hd : c.Defines
  · exact override_of_weak (hb.resolve_left fun hs => hc ⟨hs, hd⟩) (.inl he)
  · rw [override_of_not_defines hd]
    decide

theorem Phase.tentative_step (hf : FirstCall (fun c => c.Strong ∧ c.Defines) calls d)
    (ht : d.Tentative bss) (hnt : ¬Taken bss calls) (he : e.Carries d) (hb : c.Strong ∨ c.Weak)
    (ha : e.other &&& stAsmSet = 0) :
    Phase bss (calls ++ [c]) (some (setExisting bss false e c).1) := by
  have hdef : e.shndx ≠ shnUndef := he.1 ▸ hf.mem.2.2
  have hes : stBind e.info = stbGlobal := he.bind.trans hf.mem.2.1
  have het : e.shndx = shnCommon ∨ e.shndx = bss := by rw [he.1]; exact ht
  have hna : (e.narrow c).other &&& stAsmSet = 0 := (narrow_asmSet e c).trans ha
  by_cases htk : Takes bss calls c
  · have hvis : ¬c.Hidden ∧ c.shndx < shnLoreserve :=
      htk.2.resolve_right fun h => h d hf.mem.1 ⟨hf.mem.2.1, hf.mem.2.2, ht⟩
    refine .data (by simp) htk.1 (taken_snoc.mpr (.inr htk)) (setExisting_of_patch hdef ?_)
    have hbss : c.shndx ≠ bss := fun h => htk.1.2.2 (.inr h)
    rw [override_strong (e := e.narrow c) htk.1.1 htk.1.2.1 hes hna, if_neg hvis.1,
      if_pos ⟨het, hvis.2, hbss⟩]
  · refine .tentative (hf.snoc c) ht ?_ (setExisting_of_keep hdef ?_ he)
    · rw [taken_snoc]
      exact not_or.mpr ⟨hnt, htk⟩
    · by_cases hc : c.Strong ∧ c.Defines
      · rw [override_strong (e := e.narrow c) hc.1 hc.2 hes hna]
        by_cases hh : c.Hidden
        · simp [hh]
        · have hsec : ¬(c.shndx < shnLoreserve ∧ c.shndx ≠ bss) := by
            rintro ⟨hlow, hbss⟩
            refine htk ⟨⟨hc.1, hc.2, ?_⟩, .inl ⟨hh, hlow⟩⟩
            rintro (h | h)
            · rw [h] at hlow
              exact absurd hlow (by decide)
            · exact hbss h
          rw [if_neg hh, if_neg fun h => hsec h.2]
          split_ifs <;> decide
      · exact override_of_not_strong hb hc hes

theorem override_data (hd : d.StrongData bss) (he : e.Carries d) (ha : e.other &&& stAsmSet = 0)
    (hc : c.Strong ∧ c.Defines) :
    override bss false e c =
      if c.Hidden then .ignore else if c.Tentative bss then .ignore else .definedTwice := by
  have hsec : ¬(e.shndx = shnCommon ∨ e.shndx = bss) := by rw [he.1]; exact hd.2.2
  simp only [override_strong hc.1 hc.2 (he.bind.trans hd.1) ha, hsec, false_and, if_false]

theorem Phase.data_step (hd : d ∈ calls) (hsd : d.StrongData bss) (htk : Taken bss calls)
    (he : e.Carries d) (hb : c.Strong ∨ c.Weak) (ha : e.other &&& stAsmSet = 0) :
    Phase bss (calls ++ [c]) (some (setExisting bss false e c).1) := by
  have hdef : e.shndx ≠ shnUndef := he.1 ▸ hsd.2.1
  have hna : (e.narrow c).other &&& stAsmSet = 0 := (narrow_asmSet e c).trans ha
  refine .data (mem_append_left _ hd) hsd (taken_snoc.mpr (.inl htk))
    (setExisting_of_keep hdef ?_ he)
  by_cases hc : c.Strong ∧ c.Defines
  · rw [override_data hsd (he.narrow c) hna hc]
    split_ifs <;> decide
  · exact override_of_not_strong hb hc (he.bind.trans hsd.1)

theorem Phase.step {o : Option ElfSym} (h : Phase bss calls o) (hb : c.Strong ∨ c.Weak)
    (ha : ∀ e ∈ o, e.other &&& stAsmSet = 0) :
    Phase bss (calls ++ [c]) (some (entryAfter bss false name c o).1) := by
  cases h with
  | absent h =>
    refine .of_fresh ?_ hb ⟨rfl, rfl, rfl, rfl⟩
    simp [h]
  | undefined _ hold hu => exact .of_fresh hold hb (setExisting_of_undef hu)
  | weak hf hweak he => exact .weak_step hf hweak he hb
  | tentative hf ht hnt he => exact .tentative_step hf ht hnt he hb (ha _ rfl)
  | data hd hsd htk he => exact .data_step hd hsd htk he hb (ha _ rfl)

end Resolution

section Run

variable {s : Symtab} {o : Option ElfSym}

theorem setExisting_bind {dynsym : Bool} (hc : stBind c.info ≠ stbLocal)
    (he : stBind e.info ≠ stbLocal) : stBind (setExisting bss dynsym e c).1.info ≠ stbLocal := by
  have hp : ∀ x : ElfSym, stBind (patchEntry x c).info ≠ stbLocal := by
    intro x
    rwa [(patchEntry_carries x c).bind]
  unfold setExisting
  dsimp only
  split_ifs with hr hu
  · exact he
  · cases override bss dynsym (e.narrow c) c with
    | ignore => exact he
    | patch => exact hp _
    | definedTwice => exact he
  · exact hp _

theorem setElfSym_of_new (hs : s.WellFormed) (hk : Symtab.keptName name = name)
    (hb : stBind c.info ≠ stbLocal) (hnew : ∀ i, ¬s.IsEntry name i) : ∃ hash,
    setElfSym bss s name c = (⟨s.syms ++ [⟨name, c.value, c.size, c.info, c.other, c.shndx⟩], hash,
      s.dynsym⟩, s.syms.length, false) ∧ (setElfSym bss s name c).1.WellFormed := by
  obtain ⟨hash, hput, hwf⟩ := putElfSym_spec hs ⟨name, c.value, c.size, c.info, c.other, c.shndx⟩
  simp only [hk] at hput hwf
  have hset : setElfSym bss s name c = (⟨s.syms ++ [⟨name, c.value, c.size, c.info, c.other,
      c.shndx⟩], hash, s.dynsym⟩, s.syms.length, false) := by
    rw [setElfSym, if_pos hb, if_pos (findElfSymWithHash_of_none hs hnew), stInfo_stBind_stType]
    exact congrArg (fun r : Symtab × ℕ => (r.1, r.2, false)) hput
  exact ⟨hash, hset, hset ▸ hwf⟩

theorem setElfSym_of_entry {i : ℕ} (hs : s.WellFormed) (hb : stBind c.info ≠ stbLocal)
    (hi : ∀ j, s.IsEntry name j ↔ j = i) :
    setElfSym bss s name c = (s.setSym i (setExisting bss s.dynsym (s.sym i) c).1, i,
      (setExisting bss s.dynsym (s.sym i) c).2) := by
  have hne : i ≠ 0 := Nat.ne_of_gt (((hi i).mpr rfl).pos hs)
  simp only [setElfSym, if_pos hb, findElfSymWithHash_of_unique hs hi, if_neg hne]

/-- On the table a call does what it does to the entry of its name. -/
theorem setElfSym_entry (hs : s.WellFormed) (hk : Symtab.keptName name = name)
    (hb : stBind c.info ≠ stbLocal) (hr : s.Represents name o) :
    (setElfSym bss s name c).1.WellFormed ∧ (setElfSym bss s name c).1.dynsym = s.dynsym ∧
    (setElfSym bss s name c).1.Represents name (some (entryAfter bss s.dynsym name c o).1) ∧
    (setElfSym bss s name c).2.2 = (entryAfter bss s.dynsym name c o).2 := by
  cases o with
  | none =>
    obtain ⟨hash, hset, hwf⟩ := @setElfSym_of_new bss name c s hs hk hb hr
    rw [hset] at hwf ⊢
    exact ⟨hwf, rfl,
      represents_append (e := (entryAfter bss s.dynsym name c none).1) hr hb hash, rfl⟩
  | some e =>
    obtain ⟨i, rfl, hi⟩ := hr
    have hie := (hi i).mpr rfl
    have hname : (setExisting bss s.dynsym (s.sym i) c).1.name = name :=
      (setExisting_name bss s.dynsym _ c).trans hie.2.2
    have hbind : stBind (setExisting bss s.dynsym (s.sym i) c).1.info ≠ stbLocal :=
      setExisting_bind hb hie.2.1
    rw [setElfSym_of_entry hs hb hi]
    exact ⟨setSym_wellFormed hs hie hname hbind, rfl,
      represents_setSym hi hname hbind, rfl⟩

theorem setElfSyms_snoc (s : Symtab) (calls : List ElfSymArgs) (c : ElfSymArgs) :
    setElfSyms bss s name (calls ++ [c]) =
      ((setElfSym bss (setElfSyms bss s name calls).1 name c).1,
        (setElfSyms bss s name calls).2 ++
          [(setElfSym bss (setElfSyms bss s name calls).1 name c).2.2]) := by
  induction calls generalizing s with
  | nil => rfl
  | cons d calls ih => simp only [cons_append, setElfSyms, ih]

/-- What a run of calls keeps: the table is sound and its entry of the name is in the phase of
the calls made so far. -/
structure Reached (bss : BitVec 16) (name : SymName) (calls : List ElfSymArgs) (s : Symtab)
    (o : Option ElfSym) : Prop where
  wellFormed : s.WellFormed
  static : s.dynsym = false
  represents : s.Represents name o
  phase : Phase bss calls o
  asmSet : ∀ e ∈ o, e.other &&& stAsmSet = 0

theorem Reached.step (h : Reached bss name calls s o) (hk : Symtab.keptName name = name)
    (hb : c.Strong ∨ c.Weak) (ha : c.other &&& stAsmSet = 0) :
    Reached bss name (calls ++ [c]) (setElfSym bss s name c).1
      (some (entryAfter bss false name c o).1) := by
  have hloc : stBind c.info ≠ stbLocal := by
    rcases hb with hb | hb
    · rw [hb]; decide
    · rw [hb]; decide
  obtain ⟨hwf, hst, hrep, _⟩ := setElfSym_entry h.wellFormed hk hloc h.represents
  rw [h.static] at hst hrep
  refine ⟨hwf, hst, hrep, h.phase.step hb h.asmSet, ?_⟩
  rintro e' ⟨⟩
  cases o with
  | none => exact ha
  | some e => exact setExisting_asmSet (h.asmSet e rfl) ha

theorem setElfSyms_reached (hs : s.WellFormed) (hstatic : s.dynsym = false)
    (hk : Symtab.keptName name = name) (hnew : ∀ i, ¬s.IsEntry name i)
    (hb : ∀ c ∈ calls, c.Strong ∨ c.Weak) (ha : ∀ c ∈ calls, c.other &&& stAsmSet = 0) :
    ∃ o, Reached bss name calls (setElfSyms bss s name calls).1 o := by
  induction calls using reverseRecOn with
  | nil => exact ⟨none, hs, hstatic, hnew, .absent rfl, by simp⟩
  | append_singleton calls c ih =>
    obtain ⟨o, ho⟩ := ih (fun d hd => hb d (mem_append_left _ hd))
      (fun d hd => ha d (mem_append_left _ hd))
    rw [setElfSyms_snoc]
    exact ⟨_, ho.step hk (hb c (by simp)) (ha c (by simp))⟩

/-- What the entry of a name says after all calls with that name. -/
structure SymResolved (bss : BitVec 16) (calls : List ElfSymArgs) (e : ElfSym) : Prop where
  undefined : e.shndx = shnUndef ↔ ∀ c ∈ calls, ¬c.Defines
  data : Taken bss calls → ∃ d ∈ calls, d.StrongData bss ∧ e.Carries d
  tentative : ¬Taken bss calls → (∃ c ∈ calls, c.Strong ∧ c.Defines) →
    ∃ d, FirstCall (fun c => c.Strong ∧ c.Defines) calls d ∧ d.Tentative bss ∧ e.Carries d
  weak : (∀ c ∈ calls, ¬(c.Strong ∧ c.Defines)) → (∃ c ∈ calls, c.Defines) →
    ∃ d, FirstCall ElfSymArgs.Defines calls d ∧ e.Carries d

theorem Phase.symResolved (h : Phase bss calls (some e)) : SymResolved bss calls e := by
  have hdef : ∀ {d}, d ∈ calls → d.Defines → e.Carries d →
      (e.shndx = shnUndef ↔ ∀ c ∈ calls, ¬c.Defines) := by
    intro d hd hdd he
    refine iff_of_false (he.1 ▸ hdd) fun h => h d hd hdd
  cases h with
  | undefined _ hold hu =>
    refine ⟨iff_of_true hu hold, ?_, ?_, ?_⟩
    · intro h
      exact absurd h (not_taken fun d hd hs => hold d hd hs.2)
    · rintro _ ⟨c, hc, hs⟩
      exact absurd hs.2 (hold c hc)
    · rintro _ ⟨c, hc, hd⟩
      exact absurd hd (hold c hc)
  | @weak _ d hf hweak he =>
    have hns : ∀ c ∈ calls, ¬(c.Strong ∧ c.Defines) :=
      fun c hc hs => (hweak c hc hs.2).not_strong hs.1
    refine ⟨hdef hf.mem.1 hf.mem.2 he, fun h => absurd h (not_taken hns), ?_,
      fun _ _ => ⟨d, hf, he⟩⟩
    rintro _ ⟨c, hc, hs⟩
    exact absurd hs (hns c hc)
  | @tentative _ d hf ht hnt he =>
    exact ⟨hdef hf.mem.1 hf.mem.2.2 he, fun h => absurd h hnt, fun _ _ => ⟨d, hf, ht, he⟩,
      fun h => absurd hf.mem.2 (h d hf.mem.1)⟩
  | @data _ d hd hsd htk he =>
    exact ⟨hdef hd hsd.2.1 he, fun _ => ⟨d, hd, hsd, he⟩, fun h => absurd htk h,
      fun h => absurd ⟨hsd.1, hsd.2.1⟩ (h d hd)⟩

/-- Once a strong definition with contents is in the entry, a further one that is visible is
reported. -/
theorem Phase.reports (h : Phase bss calls (some e)) (htk : Taken bss calls)
    (ha : e.other &&& stAsmSet = 0) (hc : c.StrongData bss) (hv : ¬c.Hidden) (hr : ¬e.Repeats c) :
    (setExisting bss false e c).2 = true := by
  obtain ⟨d, _, hsd, he⟩ := h.symResolved.data htk
  apply setExisting_reports (he.1 ▸ hsd.2.1) _ hr
  rw [override_data hsd (he.narrow c) ((narrow_asmSet e c).trans ha) ⟨hc.1, hc.2.1⟩, if_neg hv,
    if_neg hc.2.2]

theorem setElfSyms_report (s : Symtab) (before : List ElfSymArgs) (c : ElfSymArgs)
    (after : List ElfSymArgs) :
    (setElfSyms bss s name (before ++ c :: after)).2[before.length]? =
      some (setElfSym bss (setElfSyms bss s name before).1 name c).2.2 := by
  induction before generalizing s with
  | nil => rfl
  | cons d before ih => simpa [setElfSyms] using ih _

/-- One entry stays, resolved over all calls, and a second strong definition is reported. -/
theorem setElfSyms_resolves (hs : s.WellFormed) (hstatic : s.dynsym = false)
    (hk : Symtab.keptName name = name) (hnew : ∀ i, ¬s.IsEntry name i) (hcalls : calls ≠ [])
    (hb : ∀ c ∈ calls, c.Strong ∨ c.Weak) (ha : ∀ c ∈ calls, c.other &&& stAsmSet = 0) :
    (∃ i, (∀ j, (setElfSyms bss s name calls).1.IsEntry name j ↔ j = i) ∧
      SymResolved bss calls ((setElfSyms bss s name calls).1.sym i)) ∧
    ∀ before c after, calls = before ++ c :: after → Taken bss before → c.StrongData bss →
      ¬c.Hidden →
      (∃ i, (setElfSyms bss s name before).1.IsEntry name i ∧
        ((setElfSyms bss s name before).1.sym i).Repeats c) ∨
      (setElfSyms bss s name calls).2[before.length]? = some true := by
  constructor
  · obtain ⟨o, ho⟩ := @setElfSyms_reached bss name calls s hs hstatic hk hnew hb ha
    cases o with
    | none =>
      cases ho.phase with
      | absent h => exact absurd h hcalls
    | some e =>
      obtain ⟨i, hi, huniq⟩ := ho.represents
      exact ⟨i, huniq, hi ▸ ho.phase.symResolved⟩
  · rintro before c after rfl htk hsd hv
    obtain ⟨o, ho⟩ := @setElfSyms_reached bss name before s hs hstatic hk hnew
      (fun d hd => hb d (by simp [hd])) (fun d hd => ha d (by simp [hd]))
    have hloc : stBind c.info ≠ stbLocal := by
      rw [hsd.1]; decide
    cases o with
    | none =>
      cases ho.phase with
      | absent h =>
        obtain ⟨x, y, z, hx, _⟩ := htk
        rw [h] at hx
        exact absurd hx (by simp)
    | some e =>
      obtain ⟨i, hi, huniq⟩ := ho.represents
      by_cases hr : e.Repeats c
      · exact .inl ⟨i, (huniq i).mpr rfl, hi ▸ hr⟩
      · right
        rw [setElfSyms_report]
        obtain ⟨_, _, _, hrep⟩ := setElfSym_entry ho.wellFormed hk hloc ho.represents
        rw [hrep, ho.static]
        exact congrArg some (ho.phase.reports htk (ho.asmSet e rfl) hsd hv hr)

/-- A reference, a weak definition, a `COMMON` one and two with contents. -/
def sampleCalls : List ElfSymArgs :=
  [⟨0, 0, 0x10, 0, 0⟩, ⟨8, 4, 0x21, 0, 1⟩, ⟨4, 4, 0x11, 0, 0xfff2⟩, ⟨12, 4, 0x11, 0, 2⟩,
    ⟨0, 8, 0x11, 0, 1⟩]

theorem setElfSyms_resolves_sampleCalls :
    ∃ i, (∀ j, (setElfSyms 3 (Symtab.initSymtab 4 false) [0x78#8] sampleCalls).1.IsEntry
        [0x78#8] j ↔ j = i) ∧
      SymResolved 3 sampleCalls
        ((setElfSyms 3 (Symtab.initSymtab 4 false) [0x78#8] sampleCalls).1.sym i) := by
  refine (setElfSyms_resolves (initSymtab_wellFormed (by decide) false) rfl rfl ?_
    (by decide) (by decide) (by decide)).1
  rintro i ⟨hi, hb, _⟩
  have h0 : i = 0 := by simpa [Symtab.initSymtab] using hi
  subst h0
  exact hb rfl

/-- A hidden definition with contents is ignored after a `COMMON` one, and its contents are
lost. -/
theorem setElfSyms_hidden_after_common :
    ∃ calls : List ElfSymArgs, (∀ c ∈ calls, c.Strong ∧ c.other &&& stAsmSet = 0) ∧
      (∃ c ∈ calls, c.StrongData 3) ∧
      (setElfSyms 3 (Symtab.initSymtab 4 false) [0x78#8] calls).1.IsEntry [0x78#8] 1 ∧
      ∀ c ∈ calls, c.StrongData 3 →
        ((setElfSyms 3 (Symtab.initSymtab 4 false) [0x78#8] calls).1.sym 1).shndx ≠ c.shndx :=
  ⟨[⟨4, 4, 0x11, 0, 0xfff2⟩, ⟨0, 4, 0x11, 2, 1⟩], by decide, by decide,
    ⟨by decide, by decide, by decide⟩, by decide⟩

end Run

end Tinycc
