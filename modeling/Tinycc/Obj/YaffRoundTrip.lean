import Tinycc.Obj.YaffRead

namespace Tinycc
open Lib BitVec Function Nat

section Index

variable {dynsym : List ElfSym} {p : ElfSym → Bool} {j : ℕ}

variable {sym : ElfSym}

theorem not_exported_of_imported (h : symIsImported sym = true) :
    tccYaffSymIsExported sym = false := by
  have hu : sym.shndx = shnUndef := by simpa [symIsImported] using h
  simp [tccYaffSymIsExported, hu]

theorem defined_of_exported (h : tccYaffSymIsExported sym = true) :
    sym.shndx ≠ shnUndef := by
  intro hu
  simp [tccYaffSymIsExported, hu] at h

/-- The index under which a symbol of a table is written when only some are: one more than the
number of such symbols in front of it. -/
def writtenIndex (p : ElfSym → Bool) (dynsym : List ElfSym) (idx : ℕ) : ℕ :=
  ((dynsym.drop 1).take (idx - 1)).countP p + 1

structure IndexMaps.Invariant (dynsym : List ElfSym) (k : ℕ) (m : IndexMaps) : Prop where
  impCount : m.impCount = ((dynsym.drop 1).take k).countP symIsImported
  expCount : m.expCount = ((dynsym.drop 1).take k).countP tccYaffSymIsExported
  importedIdx : ∀ idx, 0 < idx → idx ≤ k → symIsImported (dynsym.getD idx default) = true →
    m.importedIdx idx = writtenIndex symIsImported dynsym idx
  exportedIdx : ∀ idx, 0 < idx → idx ≤ k → tccYaffSymIsExported (dynsym.getD idx default) = true →
    m.exportedIdx idx = writtenIndex tccYaffSymIsExported dynsym idx

theorem countP_take_succ (p : ElfSym → Bool) (hj : j < dynsym.length - 1) :
    ((dynsym.drop 1).take (j + 1)).countP p =
      ((dynsym.drop 1).take j).countP p + if p (dynsym.getD (j + 1) default) then 1 else 0 := by
  have hj' : j < (dynsym.drop 1).length := by simpa using hj
  have hget : (dynsym.drop 1)[j] = dynsym.getD (j + 1) default := by
    have : j + 1 < dynsym.length := by omega
    simp [this]
  rw [List.take_succ_eq_append_getElem hj', hget]
  simp

theorem map_extend {p : ElfSym → Bool} {k : ℕ} {f : ℕ → ℕ}
    (hf : ∀ idx, 0 < idx → idx ≤ k → p (dynsym.getD idx default) = true →
      f idx = writtenIndex p dynsym idx) {f' : ℕ → ℕ} (hold : ∀ idx, idx ≤ k → f' idx = f idx)
    (hnew : p (dynsym.getD (k + 1) default) = true → f' (k + 1) = writtenIndex p dynsym (k + 1)) :
    ∀ idx, 0 < idx → idx ≤ k + 1 → p (dynsym.getD idx default) = true →
      f' idx = writtenIndex p dynsym idx := by
  intro idx h0 hle hp
  rcases Nat.lt_or_ge k idx with hlt | hle'
  · have : idx = k + 1 := by omega
    subst this
    exact hnew hp
  · rw [hold idx hle']
    exact hf idx h0 hle' hp

theorem indexMaps_invariant (dynsym : List ElfSym) :
    (indexMaps dynsym).Invariant dynsym (dynsym.length - 1) := by
  apply forRange_induction (fun k (m : IndexMaps) => m.Invariant dynsym k)
  · exact ⟨by simp, by simp, fun idx h0 h => by omega, fun idx h0 h => by omega⟩
  · intro k m hk hm
    have himp := countP_take_succ symIsImported hk
    have hexp := countP_take_succ tccYaffSymIsExported hk
    have hkeep : ∀ (f : ℕ → ℕ) v idx, idx ≤ k → update f (k + 1) v idx = f idx :=
      fun f v idx h => update_of_ne (by omega) _ _
    by_cases hu : (dynsym.getD (k + 1) default).shndx = shnUndef
    · have hi : symIsImported (dynsym.getD (k + 1) default) = true := by simpa [symIsImported] using hu
      have hx := not_exported_of_imported hi
      rw [hi, if_pos rfl] at himp
      rw [hx] at hexp
      rw [if_pos hu]
      refine ⟨by rw [himp, hm.impCount], by rw [hexp, hm.expCount]; rfl, ?_, ?_⟩
      · apply map_extend hm.importedIdx (hkeep _ _)
        intro _
        rw [update_self, hm.impCount]
        rfl
      · exact map_extend hm.exportedIdx (fun _ _ => rfl) fun h => by rw [hx] at h; cases h
    · have hi : symIsImported (dynsym.getD (k + 1) default) = false := by
        simpa [symIsImported] using hu
      rw [if_neg hu]
      rw [hi] at himp
      cases hx : tccYaffSymIsExported (dynsym.getD (k + 1) default) with
      | true =>
        rw [hx, if_pos rfl] at hexp
        rw [if_pos rfl]
        refine ⟨by rw [himp, hm.impCount]; rfl, by rw [hexp, hm.expCount], ?_, ?_⟩
        · exact map_extend hm.importedIdx (fun _ _ => rfl) fun h => by rw [hi] at h; cases h
        · apply map_extend hm.exportedIdx (hkeep _ _)
          intro _
          rw [update_self, hm.expCount]
          rfl
      | false =>
        rw [hx] at hexp
        rw [if_neg (by simp)]
        refine ⟨by rw [himp, hm.impCount]; rfl, by rw [hexp, hm.expCount]; rfl, ?_, ?_⟩
        · exact map_extend hm.importedIdx (fun _ _ => rfl) fun h => by rw [hi] at h; cases h
        · exact map_extend hm.exportedIdx (fun _ _ => rfl) fun h => by rw [hx] at h; cases h

theorem getElem?_filter_countP {l : List ElfSym} (hj : j < l.length) (hp : p l[j] = true) :
    (l.filter p)[(l.take j).countP p]? = some l[j] := by
  have hsplit : l = l.take j ++ l[j] :: l.drop (j + 1) := by simp
  conv_lhs => rw [hsplit]
  rw [List.filter_append, List.filter_cons_of_pos hp, List.countP_eq_length_filter]
  simp

end Index

section Relocations

variable {s : YaffInput} {file : Bytes} {j : ℕ}

theorem YaffSymbolTableRelocationEntry.ofBytes_bytes (e : YaffSymbolTableRelocationEntry) :
    ofBytes e.bytes = e := by
  have hw : Written e.bytes 0 e.bytes := ⟨[], by simp⟩
  have hlo := hw.left.leNat_eq
  have hhi := hw.right.leNat_eq
  rw [length_leBytes, mod_eq_of_lt (by omega)] at hhi
  rw [mod_eq_of_lt (by omega)] at hlo
  have h₁ : (e.index ++ e.isExportedSymbol : BitVec 32).extractLsb' 0 1 = e.isExportedSymbol :=
    extractLsb'_append_low _ _
  have h₂ : (e.index ++ e.isExportedSymbol : BitVec 32).extractLsb' 1 31 = e.index :=
    extractLsb'_append_high _ _
  have h₃ : (e.symbolIndex ++ e.pltCall ++ e.functionPointer : BitVec 32).extractLsb' 0 1 =
      e.functionPointer := extractLsb'_append_low _ _
  have h₄ : (e.symbolIndex ++ e.pltCall ++ e.functionPointer : BitVec 32).extractLsb' 1 1 =
      e.pltCall := extractLsb'_append_middle _ _ _
  have h₅ : (e.symbolIndex ++ e.pltCall ++ e.functionPointer : BitVec 32).extractLsb' 2 30 =
      e.symbolIndex := extractLsb'_append_top _ _ _
  simp only [ofBytes, hlo, hhi, ofNat_toNat, setWidth_eq, h₁, h₂, h₃, h₄, h₅]

theorem relocationBytes_eq (s : YaffInput) : s.relocationBytes =
    (s.rels.filter DynRel.isGotSlot).flatMap fun rel =>
      (symbolTableRelocation s.dynsym s.rels s.gotAddr rel).bytes := by
  have key : ∀ (rels : List DynRel) (f : Bytes × ℕ), (rels.foldl (fun f rel =>
      if rel.isGotSlot then
        (f.1 ++ (symbolTableRelocation s.dynsym s.rels s.gotAddr rel).bytes, f.2 + 1)
      else f) f).1 = f.1 ++ (rels.filter DynRel.isGotSlot).flatMap fun rel =>
        (symbolTableRelocation s.dynsym s.rels s.gotAddr rel).bytes := by
    intro rels
    induction rels with
    | nil => simp
    | cons rel rels ih =>
      intro f
      cases hr : rel.isGotSlot with
      | true => simp [hr, ih]
      | false => simp [hr, ih]
  exact key s.rels ([], 0)

variable {o : ℕ}

theorem read_relocation (h : Written file o s.relocationBytes)
    (hj : j < (s.rels.filter DynRel.isGotSlot).length) :
    YaffSymbolTableRelocationEntry.ofBytes (bytesAt file (o + 8 * j) 8) =
      symbolTableRelocation s.dynsym s.rels s.gotAddr (s.rels.filter DynRel.isGotSlot)[j] := by
  have hlen : ∀ rel, (symbolTableRelocation s.dynsym s.rels s.gotAddr rel).bytes.length = 8 := by
    intro rel
    simp [YaffSymbolTableRelocationEntry.bytes]
  rw [relocationBytes_eq] at h
  have hb := (h.item hlen hj).bytesAt_eq
  rw [hlen] at hb
  rw [hb, YaffSymbolTableRelocationEntry.ofBytes_bytes]

def RecordAt (file : Bytes) (symbolsOffset lookupOffset i : ℕ) (record : Bytes) : Prop :=
  Written file (symbolsOffset + leNat (bytesAt file (lookupOffset + 2 * i) 2)) record

theorem recordAt_of_invariant {alignment amount nb lo i : ℕ} {signed : Bool}
    {entry : ElfSym → YaffSymbolEntry} {all : List ElfSym} {p : LookupPass}
    (hp : p.Invariant alignment amount nb signed entry all all) (ha : 0 < alignment)
    (herr : p.nbErrors = 0) (hrec : Written file o (symbolRecords alignment entry all).flatten)
    (hlook : Written file lo p.out) (hi : i < all.length) :
    RecordAt file o lo (i + 1) (symbolRecord alignment (entry all[i]) all[i].name) := by
  obtain ⟨hsize, _⟩ := hp.size ha herr
  have hi' : i + 1 < (symbolRecords alignment entry all).length := by
    rw [length_symbolRecords]
    omega
  have hend := record_end_le hi'
  have hlen : i + 1 < (recordOffsets (symbolRecords alignment entry all)).length := by
    rwa [length_recordOffsets]
  rw [hp.out] at hlook
  have hoff := hlook.array hlen
  rw [getElem_recordOffsets, mod_eq_of_lt (by omega)] at hoff
  have hget : (symbolRecords alignment entry all)[i + 1] =
      symbolRecord alignment (entry all[i]) all[i].name := by
    simp [symbolRecords]
  rw [RecordAt, hoff, ← hget]
  exact hrec.record hi'

theorem importLookup_invariant (ha : 0 < s.alignment) :
    s.importLookup.Invariant s.alignment (s.imports.length + 1) (s.imports.length + 2) s.charSigned
      importEntry s.imports s.imports :=
  writeSymbolsLookup_invariant ha (succ_pos _) _ _ rfl

theorem exists_writtenIndex {dynsym : List ElfSym} {p : ElfSym → Bool} {idx : ℕ} (h0 : 0 < idx)
    (hidx : idx < dynsym.length) (hp : p (dynsym.getD idx default) = true) :
    ∃ i, ∃ hi : i < ((dynsym.drop 1).filter p).length,
      ((dynsym.drop 1).filter p)[i] = dynsym.getD idx default ∧
        writtenIndex p dynsym idx = i + 1 := by
  have hj : idx - 1 < (dynsym.drop 1).length := by
    rw [List.length_drop]
    omega
  have hget : (dynsym.drop 1)[idx - 1] = dynsym.getD idx default := by
    have h1 : idx - 1 + 1 = idx := by omega
    simp [h1, hidx]
  have hsome := getElem?_filter_countP hj (p := p) (by rw [hget]; exact hp)
  obtain ⟨hi, hx⟩ := List.getElem?_eq_some_iff.mp hsome
  exact ⟨_, hi, hx.trans hget, rfl⟩

end Relocations

section RoundTrip

variable {s : YaffInput}

/-- The relocation written for a dynamic symbol names the record of that symbol. -/
structure NamesRecord (s : YaffInput) (img : YaffImage) (rel : DynRel)
    (e : YaffSymbolTableRelocationEntry) : Prop where
  exported : tccYaffSymIsExported (s.dynsym.getD rel.sym default) = true →
    e.isExportedSymbol = 1#1 ∧
    e.symbolIndex.toNat = writtenIndex tccYaffSymIsExported s.dynsym rel.sym ∧
    RecordAt img.file img.header.exportedSymbolsOffset img.header.exportedSymbolsLookupOffset
      e.symbolIndex.toNat (symbolRecord s.alignment
        (exportEntry s.sections (s.dynsym.getD rel.sym default))
        (s.dynsym.getD rel.sym default).name)
  imported : symIsImported (s.dynsym.getD rel.sym default) = true →
    e.isExportedSymbol = 0#1 ∧
    e.symbolIndex.toNat = writtenIndex symIsImported s.dynsym rel.sym ∧
    RecordAt img.file img.header.importedSymbolsOffset img.header.importedSymbolsLookupOffset
      e.symbolIndex.toNat (symbolRecord s.alignment
        (importEntry (s.dynsym.getD rel.sym default)) (s.dynsym.getD rel.sym default).name)

variable {rel : DynRel}

theorem symbolTableRelocation_symbol {b : Bool}
    (h : decide ((s.dynsym.getD rel.sym default).shndx ≠ shnUndef) = b) :
    (symbolTableRelocation s.dynsym s.rels s.gotAddr rel).isExportedSymbol = ofBool b ∧
    (symbolTableRelocation s.dynsym s.rels s.gotAddr rel).symbolIndex = BitVec.ofNat 30
      (if b then (indexMaps s.dynsym).exportedIdx rel.sym
        else (indexMaps s.dynsym).importedIdx rel.sym) := by
  subst h
  exact ⟨rfl, rfl⟩

theorem symbolTableRelocation_namesRecord {img : YaffImage} (h : img.Holds s) (ha : 0 < s.alignment)
    (himp : s.importLookup.nbErrors = 0) (hexp : s.exportLookup.nbErrors = 0) (h0 : 0 < rel.sym)
    (hrel : rel.sym < s.dynsym.length) :
    NamesRecord s img rel (symbolTableRelocation s.dynsym s.rels s.gotAddr rel) := by
  have hmaps := indexMaps_invariant s.dynsym
  constructor
  · intro hx
    obtain ⟨i, hi, hsym, hidx⟩ := exists_writtenIndex h0 hrel hx
    have hinv := exportLookup_invariant ha
    obtain ⟨hsize, hcount⟩ := hinv.size ha hexp
    obtain ⟨hflag, hfield⟩ := symbolTableRelocation_symbol
      (decide_eq_true (defined_of_exported hx))
    have hi' : i < s.exports.length := hi
    have hindex : (symbolTableRelocation s.dynsym s.rels s.gotAddr rel).symbolIndex.toNat =
        i + 1 := by
      rw [hfield, if_pos rfl, hmaps.exportedIdx _ h0 (by omega) hx, hidx, toNat_ofNat,
        mod_eq_of_lt (by omega)]
    refine ⟨hflag, hindex.trans hidx.symm, ?_⟩
    rw [hindex, ← hsym]
    exact recordAt_of_invariant hinv ha hexp h.exports h.exportLookup hi
  · intro hx
    obtain ⟨i, hi, hsym, hidx⟩ := exists_writtenIndex h0 hrel hx
    have hinv := importLookup_invariant ha
    obtain ⟨hsize, hcount⟩ := hinv.size ha himp
    obtain ⟨hflag, hfield⟩ := symbolTableRelocation_symbol
      (decide_eq_false (not_not.mpr (of_decide_eq_true hx)))
    have hi' : i < s.imports.length := hi
    have hindex : (symbolTableRelocation s.dynsym s.rels s.gotAddr rel).symbolIndex.toNat =
        i + 1 := by
      rw [hfield, if_neg Bool.false_ne_true, hmaps.importedIdx _ h0 (by omega) hx, hidx, toNat_ofNat,
        mod_eq_of_lt (by omega)]
    refine ⟨hflag, hindex.trans hidx.symm, ?_⟩
    rw [hindex, ← hsym]
    exact recordAt_of_invariant hinv ha himp h.imports h.importLookup hi

def YaffSymbolEntry.fields (e : YaffSymbolEntry) : BitVec 2 × BitVec 1 × ℕ :=
  (e.sec, e.weak, e.offset.toNat)

def exportFields (ss : YaffSections) (sym : ElfSym) : BitVec 2 × BitVec 1 × ℕ :=
  ((exportSection ss sym).bits, weakBit sym, (exportValue ss sym).toNat)

theorem exportEntry_fields {ss : YaffSections} {sym : ElfSym}
    (h : (exportValue ss sym).toNat < 536870912) :
    (exportEntry ss sym).fields = exportFields ss sym := by
  simp only [YaffSymbolEntry.fields, exportEntry, exportFields, toNat_setWidth]
  rw [mod_eq_of_lt (by omega)]

/-- The written tables are read back: every name finds the first exported symbol of that name,
and every relocation names the record of its symbol. -/
theorem tccOutputYaff_readBack (s : YaffInput) (ha : 0 < s.alignment)
    (hvalues : ∀ sym ∈ s.exports, (exportValue s.sections sym).toNat < 536870912)
    (hsize : (tccOutputYaff s).file.length < 4294967296) (herr : (tccOutputYaff s).nbErrors = 0) :
    (∃ lib, yaffLibReadExports (tccOutputYaff s).file (tccOutputYaff s).header = .ok lib ∧
      ∀ name : SymName,
        (lib.yaffLibFind (tccYaffHash s.charSigned name) name).map YaffSymbolEntry.fields =
          (s.exports.find? fun sym => sym.name = name).map (exportFields s.sections)) ∧
    ∀ j, ∀ hj : j < (s.rels.filter DynRel.isGotSlot).length,
      0 < (s.rels.filter DynRel.isGotSlot)[j].sym →
      (s.rels.filter DynRel.isGotSlot)[j].sym < s.dynsym.length →
      NamesRecord s (tccOutputYaff s) (s.rels.filter DynRel.isGotSlot)[j]
        (.ofBytes (bytesAt (tccOutputYaff s).file
          ((tccOutputYaff s).header.relocationsOffset + 8 * j) 8)) := by
  have hholds := tccOutputYaff_holds hsize
  rw [hholds.errors] at herr
  obtain ⟨himp, hexp⟩ := Nat.add_eq_zero_iff.mp herr
  constructor
  · refine ⟨s.lib, yaffLibReadExports_eq hholds ha hexp, ?_⟩
    intro name
    rw [yaffLibFind_lib ha hexp, Option.map_map]
    apply Option.map_congr
    intro sym hsym
    exact exportEntry_fields (hvalues sym (List.mem_of_find?_eq_some hsym))
  · intro j hj h0 hlt
    rw [read_relocation hholds.relocations hj]
    exact symbolTableRelocation_namesRecord hholds ha himp hexp h0 hlt

def sampleInput : YaffInput where
  charSigned := true
  alignment := 4
  sections := ⟨1, 2, 3, 4, 0x100⟩
  dynsym := [⟨[], 0, 0, 0, 0, 0⟩, ⟨[0x66#8], 0, 0, 0x12, 0, 0⟩, ⟨[0x67#8], 0x20, 4, 0x12, 0, 1⟩,
    ⟨[0x68#8], 0x140, 4, 0x21, 0, 2⟩]
  rels := [⟨0x200, 21, 3⟩, ⟨0x208, 22, 1⟩]
  gotAddr := 0x200
  prologue := List.replicate 12 0#8
  otherRelocations := []
  images := [1#8]
  names := by decide

theorem tccOutputYaff_readBack_sampleInput :
    ∃ lib, yaffLibReadExports (tccOutputYaff sampleInput).file (tccOutputYaff sampleInput).header =
        .ok lib ∧
      (lib.yaffLibFind (tccYaffHash true [0x68#8]) [0x68#8]).map YaffSymbolEntry.fields =
        some (1#2, 1#1, 0x40) := by
  obtain ⟨lib, hlib, hfind⟩ := (tccOutputYaff_readBack sampleInput (by decide) (by decide)
    (by decide +kernel) (by decide +kernel)).1
  exact ⟨lib, hlib, (hfind [0x68#8]).trans (by decide +kernel)⟩

end RoundTrip

end Tinycc
