import Tinycc.Obj.Yaff

namespace Tinycc
open Lib Function List Nat

section Records

variable {alignment : ℕ} {keep : ElfSym → Bool} {entry : ElfSym → YaffSymbolEntry}
  {syms : List ElfSym}

theorem le_tccYaffAlign (ha : 0 < alignment) (size : ℕ) : size ≤ tccYaffAlign alignment size := by
  have h : (size + alignment - 1) &&& (alignment - 1) ≤ alignment - 1 := and_le_right
  simp only [tccYaffAlign]
  omega

theorem length_symbolRecord (ha : 0 < alignment) (e : YaffSymbolEntry) (name : SymName) :
    (symbolRecord alignment e name).length = 4 + tccYaffAlign alignment (name.length + 1) := by
  have h := le_tccYaffAlign ha (name.length + 1)
  simp only [symbolRecord, length_append, length_cons, length_replicate,
    length_leBytes]
  omega

def symbolRecords (alignment : ℕ) (entry : ElfSym → YaffSymbolEntry) (syms : List ElfSym) :
    List Bytes :=
  nullRecord :: syms.map fun sym => symbolRecord alignment (entry sym) sym.name

theorem length_symbolRecords (alignment : ℕ) (entry : ElfSym → YaffSymbolEntry)
    (syms : List ElfSym) : (symbolRecords alignment entry syms).length = syms.length + 1 := by
  simp [symbolRecords]

theorem five_le_symbolRecords (ha : 0 < alignment) :
    ∀ r ∈ symbolRecords alignment entry syms, 5 ≤ r.length := by
  intro r hr
  rcases List.mem_cons.mp hr with rfl | hr
  · decide
  · obtain ⟨sym, _, rfl⟩ := List.mem_map.mp hr
    have hle := le_tccYaffAlign ha (sym.name.length + 1)
    rw [length_symbolRecord ha]
    omega

theorem writeSymbols_eq : writeSymbols alignment keep entry syms =
    ((symbolRecords alignment entry (syms.filter keep)).flatten, (syms.filter keep).length + 1) := by
  have key : ∀ (f : Bytes × ℕ), syms.foldl (fun f sym =>
      if keep sym then (f.1 ++ symbolRecord alignment (entry sym) sym.name, f.2 + 1) else f) f =
      (f.1 ++ ((syms.filter keep).map fun sym =>
        symbolRecord alignment (entry sym) sym.name).flatten, (syms.filter keep).length + f.2) := by
    induction syms with
    | nil => simp
    | cons sym syms ih =>
      intro f
      cases hk : keep sym with
      | true => simp [hk, ih, Nat.add_assoc, Nat.add_comm 1]
      | false => simp [hk, ih]
  exact key _

end Records

section Hash

variable {signed : Bool} {names : ℕ → SymName} {ht : YaffHashTable} {n : ℕ}

def yaffSlot (signed : Bool) (names : ℕ → SymName) (nb i : ℕ) : Option ℕ :=
  some ((tccYaffHash signed (names i)).toNat % nb)

structure YaffHashTable.Indexes (signed : Bool) (names : ℕ → SymName) (ht : YaffHashTable)
    (n : ℕ) : Prop where
  chains : ∀ h < ht.nbucket,
    Chain ht.chain (ht.bucket h) (bucketList (yaffSlot signed names ht.nbucket) n h)
  unused : ∀ i, n ≤ i → ht.chain i = 0

theorem YaffHashTable.Indexes.add (hx : ht.Indexes signed names n) (hn : 0 < n)
    (hc : n ≤ ht.nchain) (hb : 0 < ht.nbucket) :
    (tccAddHashEntry signed ht (names n) n).Indexes signed names (n + 1) := by
  have hslot : yaffSlot signed names ht.nbucket n =
      some ((tccYaffHash signed (names n)).toNat % ht.nbucket) := rfl
  have hlt : (tccYaffHash signed (names n)).toNat % ht.nbucket < ht.nbucket := mod_lt _ hb
  unfold tccAddHashEntry
  generalize (tccYaffHash signed (names n)).toNat % ht.nbucket = b at hslot hlt
  have hne : ∀ h, h ≠ b → yaffSlot signed names ht.nbucket n ≠ some h := by
    intro h hhb
    rw [hslot]
    simpa using hhb.symm
  have hold := hx.chains b hlt
  have hzero : ht.chain n = 0 := hx.unused n le_rfl
  by_cases h0 : ht.bucket b = 0
  · -- the first symbol of the bucket
    rw [if_pos h0]
    refine ⟨?_, fun i hi => hx.unused i (le_of_succ_le hi)⟩
    intro h hh
    by_cases hhb : h = b
    · subst hhb
      dsimp only
      rw [update_self, bucketList_succ_of_eq hn hslot, hold.nil_iff.mp h0]
      refine .cons (Nat.ne_of_gt hn) ?_
      rw [hzero]
      exact .nil
    · dsimp only
      rw [update_of_ne hhb, bucketList_succ_of_ne (hne h hhb)]
      exact hx.chains h hh
  · rw [if_neg h0]
    have hlen : (bucketList (yaffSlot signed names ht.nbucket) n b).length ≤ ht.nchain :=
      length_bucketList_le.trans hc
    obtain ⟨hmem, hch⟩ := hold.append h0 nodup_bucketList (Nat.ne_of_gt hn) notMem_bucketList hzero
      hlen
    have hidx := mem_bucketList.mp hmem
    refine ⟨?_, ?_⟩
    · intro h hh
      by_cases hhb : h = b
      · subst hhb
        rw [bucketList_succ_of_eq hn hslot]
        exact hch
      · rw [bucketList_succ_of_ne (hne h hhb)]
        apply (hx.chains h hh).update_of_notMem
        intro hin
        have heq := hidx.2.2.symm.trans (mem_bucketList.mp hin).2.2
        exact hhb (by simpa using heq.symm)
    · intro i hi
      dsimp only
      rw [update_of_ne (by omega)]
      exact hx.unused i (by omega)

theorem tccAllocateHashTable_indexes (signed : Bool) (names : ℕ → SymName) (nb count : ℕ) :
    (tccAddHashEntry signed (tccAllocateHashTable nb count) [] 0).Indexes signed names 1 := by
  have hzero : tccAddHashEntry signed (tccAllocateHashTable nb count) [] 0 =
      tccAllocateHashTable nb count := by
    simp [tccAddHashEntry, tccAllocateHashTable]
  rw [hzero]
  refine ⟨?_, fun _ _ => rfl⟩
  intro h _
  exact .nil

@[simp] theorem tccAddHashEntry_nbucket (ht : YaffHashTable) (name : SymName) (i : ℕ) :
    (tccAddHashEntry signed ht name i).nbucket = ht.nbucket := by
  unfold tccAddHashEntry
  dsimp only
  split_ifs <;> rfl

@[simp] theorem tccAddHashEntry_nchain (ht : YaffHashTable) (name : SymName) (i : ℕ) :
    (tccAddHashEntry signed ht name i).nchain = ht.nchain := by
  unfold tccAddHashEntry
  dsimp only
  split_ifs <;> rfl

end Hash

section Lookup

variable {alignment amount nb : ℕ} {signed : Bool} {keep : ElfSym → Bool}
  {entry : ElfSym → YaffSymbolEntry}

def nameOf (syms : List ElfSym) (i : ℕ) : SymName := (syms.getD (i - 1) default).name

theorem lookupLoop_filter (syms : List ElfSym) (p : LookupPass) :
    lookupLoop alignment signed keep amount syms p =
      lookupLoop alignment signed (fun _ => true) amount (syms.filter keep) p := by
  induction syms generalizing p with
  | nil => rfl
  | cons sym syms ih =>
    cases hk : keep sym with
    | false => simp [lookupLoop, hk, ih]
    | true => simp [lookupLoop, hk, ih]

structure LookupPass.Invariant (alignment amount nb : ℕ) (signed : Bool)
    (entry : ElfSym → YaffSymbolEntry) (all done : List ElfSym) (p : LookupPass) : Prop where
  i : p.i = done.length + 1
  currentOffset : p.currentOffset = (symbolRecords alignment entry done).flatten.length
  out : p.out = (recordOffsets (symbolRecords alignment entry done)).flatMap (leBytes 2)
  nbucket : p.hashtable.nbucket = nb
  nchain : p.hashtable.nchain = amount
  hash : p.hashtable.Indexes signed (nameOf all) (done.length + 1)
  errors : p.nbErrors = 0 → p.currentOffset ≤ 0xFFFF

variable {all : List ElfSym} {p : LookupPass}

theorem LookupPass.Invariant.loop (ha : 0 < alignment) (hnb : 0 < nb) (todo done : List ElfSym)
    (hall : all = done ++ todo) (hamount : all.length + 1 = amount)
    (hp : p.Invariant alignment amount nb signed entry all done) :
    (lookupLoop alignment signed (fun _ => true) amount todo p).Invariant alignment amount nb signed
      entry all all := by
  induction todo generalizing done p with
  | nil =>
    have hdone : all = done := by simpa using hall
    subst hdone
    exact hp
  | cons sym todo ih =>
    have hlen : all.length = done.length + (todo.length + 1) := by rw [hall]; simp
    have hlt : ¬amount ≤ p.i := by rw [hp.i]; omega
    have hname : nameOf all p.i = sym.name := by
      simp [nameOf, hp.i, hall]
    have hoff : p.currentOffset + 4 + tccYaffAlign alignment (sym.name.length + 1) =
        (symbolRecords alignment entry (done ++ [sym])).flatten.length := by
      rw [hp.currentOffset, Nat.add_assoc, ← length_symbolRecord ha (entry sym) sym.name]
      simp [symbolRecords, Nat.add_assoc]
    simp only [lookupLoop, if_true, if_neg hlt]
    apply ih (done ++ [sym]) (by simp [hall])
    refine ⟨by simp [hp.i], hoff, ?_, by simp [hp.nbucket], by simp [hp.nchain], ?_, ?_⟩
    · have hrs : symbolRecords alignment entry (done ++ [sym]) =
          symbolRecords alignment entry done ++ [symbolRecord alignment (entry sym) sym.name] := by
        simp [symbolRecords]
      rw [hrs, recordOffsets_append, flatMap_append, ← hp.out, hp.currentOffset]
      simp
    · have hadd := hp.hash.add (succ_pos _) (by rw [hp.nchain]; omega) (by rw [hp.nbucket]; exact hnb)
      rw [← hp.i, hname] at hadd
      rw [length_append, length_singleton, ← hp.i]
      exact hadd
    · intro he
      by_contra hgt
      rw [if_pos (Nat.lt_of_not_le hgt)] at he
      exact absurd he (succ_ne_zero _)

theorem writeSymbolsLookup_invariant (ha : 0 < alignment) (hnb : 0 < nb)
    (entry : ElfSym → YaffSymbolEntry) (syms : List ElfSym)
    (hamount : (syms.filter keep).length + 1 = amount) :
    (writeSymbolsLookup alignment signed keep amount (tccAllocateHashTable nb amount)
      syms).Invariant alignment amount nb signed entry (syms.filter keep) (syms.filter keep) := by
  rw [writeSymbolsLookup, lookupLoop_filter]
  apply LookupPass.Invariant.loop ha hnb _ [] (by simp) hamount
  have hrec : symbolRecords alignment entry [] = [nullRecord] := rfl
  refine ⟨rfl, rfl, ?_, by simp [tccAllocateHashTable], by simp [tccAllocateHashTable],
    tccAllocateHashTable_indexes signed _ nb amount, fun _ => (by decide : 8 ≤ 0xFFFF)⟩
  simp [hrec, recordOffsets]

theorem LookupPass.Invariant.size (hp : p.Invariant alignment amount nb signed entry all all)
    (ha : 0 < alignment) (herr : p.nbErrors = 0) :
    (symbolRecords alignment entry all).flatten.length ≤ 0xFFFF ∧
      5 * (all.length + 1) ≤ (symbolRecords alignment entry all).flatten.length := by
  constructor
  · rw [← hp.currentOffset]
    exact hp.errors herr
  · rw [← length_symbolRecords alignment entry all]
    exact mul_length_le_flatten (five_le_symbolRecords ha)

end Lookup

section Image

namespace YaffInput

variable (s : YaffInput)

def imports : List ElfSym := (s.dynsym.drop 1).filter symIsImported

def exports : List ElfSym := (s.dynsym.drop 1).filter tccYaffSymIsExported

def importRecords : List Bytes := symbolRecords s.alignment importEntry s.imports

def exportRecords : List Bytes := symbolRecords s.alignment (exportEntry s.sections) s.exports

def importLookup : LookupPass :=
  writeSymbolsLookup s.alignment s.charSigned symIsImported (s.imports.length + 1)
    (tccAllocateHashTable (s.imports.length + 2) (s.imports.length + 1)) (s.dynsym.drop 1)

def exportLookup : LookupPass :=
  writeSymbolsLookup s.alignment s.charSigned tccYaffSymIsExported (s.exports.length + 1)
    (tccAllocateHashTable (s.exports.length + 2) (s.exports.length + 1)) (s.dynsym.drop 1)

def relocationBytes : Bytes :=
  (tccYaffWriteSymbolTableRelocations s.dynsym s.rels s.gotAddr).1

/-- The file before the imported symbols, and before each of the tables that follow. -/
def beforeImports : Bytes := s.prologue ++ s.relocationBytes ++ s.otherRelocations

def beforeExports : Bytes := s.beforeImports ++ s.importRecords.flatten

def beforeImportLookup : Bytes := s.beforeExports ++ s.exportRecords.flatten

def beforeExportLookup : Bytes := s.beforeImportLookup ++ s.importLookup.out

def beforeImportHash : Bytes := alignFile s.alignment (s.beforeExportLookup ++ s.exportLookup.out)

def beforeExportHash : Bytes :=
  alignFile s.alignment (s.beforeImportHash ++ tccWriteHashTable s.importLookup.hashtable)

end YaffInput

variable {s : YaffInput}

theorem prefix_alignFile (alignment : ℕ) (f : Bytes) : f <+: alignFile alignment f := by
  unfold alignFile
  split_ifs
  · exact prefix_append _ _
  · exact prefix_refl f

theorem ftell_of_lt {f : Bytes} (h : f.length < 4294967296) : ftell f = f.length :=
  mod_eq_of_lt h

/-- Where the tables stand in the finished file. -/
structure YaffImage.Holds (img : YaffImage) (s : YaffInput) : Prop where
  exportedAmount : img.header.exportedSymbolsAmount = s.exports.length + 1
  relocations : Written img.file img.header.relocationsOffset s.relocationBytes
  imports : Written img.file img.header.importedSymbolsOffset s.importRecords.flatten
  exports : Written img.file img.header.exportedSymbolsOffset s.exportRecords.flatten
  exports_end : img.header.importedSymbolsLookupOffset =
    img.header.exportedSymbolsOffset + s.exportRecords.flatten.length
  importLookup : Written img.file img.header.importedSymbolsLookupOffset s.importLookup.out
  exportLookup : Written img.file img.header.exportedSymbolsLookupOffset s.exportLookup.out
  exportHash : Written img.file img.header.exportedSymbolsHashTableOffset
    (tccWriteHashTable s.exportLookup.hashtable)
  errors : img.nbErrors = s.importLookup.nbErrors + s.exportLookup.nbErrors

theorem tccOutputYaff_eq (s : YaffInput) : tccOutputYaff s =
    { file := s.beforeExportHash ++ tccWriteHashTable s.exportLookup.hashtable ++ s.images
      header :=
        { alignment := s.alignment
          symbolTableRelocationsAmount :=
            (tccYaffWriteSymbolTableRelocations s.dynsym s.rels s.gotAddr).2
          exportedSymbolsAmount := s.exports.length + 1
          importedSymbolsAmount := s.imports.length + 1
          relocationsOffset := ftell s.prologue
          importedSymbolsOffset := ftell s.beforeImports
          exportedSymbolsOffset := ftell s.beforeExports
          importedSymbolsLookupOffset := ftell s.beforeImportLookup
          exportedSymbolsLookupOffset := ftell s.beforeExportLookup
          importedSymbolsHashTableOffset := ftell s.beforeImportHash
          exportedSymbolsHashTableOffset := ftell s.beforeExportHash }
      nbErrors := s.importLookup.nbErrors + s.exportLookup.nbErrors } := by
  have himp : tccYaffWriteImportedSymbols s.alignment (s.dynsym.drop 1) =
      (s.importRecords.flatten, s.imports.length + 1) := writeSymbols_eq
  have hexp : tccYaffWriteExportedSymbols s.sections s.alignment (s.dynsym.drop 1) =
      (s.exportRecords.flatten, s.exports.length + 1) := writeSymbols_eq
  simp only [tccOutputYaff, himp, hexp]
  rfl

theorem written_of_prefix {before piece file : Bytes} (h : before ++ piece <+: file)
    (hsize : file.length < 4294967296) : Written file (ftell before) piece := by
  have hle := h.length_le
  rw [length_append] at hle
  rw [ftell_of_lt (by omega)]
  obtain ⟨rest, rfl⟩ := h
  rw [append_assoc]
  exact written_append before piece rest

theorem tccOutputYaff_holds (hsize : (tccOutputYaff s).file.length < 4294967296) :
    (tccOutputYaff s).Holds s := by
  rw [tccOutputYaff_eq] at hsize ⊢
  -- The file at each stage is a beginning of the file at the next.
  have h₆ : s.beforeExportHash ++ tccWriteHashTable s.exportLookup.hashtable <+:
      s.beforeExportHash ++ tccWriteHashTable s.exportLookup.hashtable ++ s.images :=
    prefix_append _ _
  have h₅ : s.beforeImportHash <+: _ :=
    (prefix_append _ _).trans ((prefix_alignFile s.alignment _).trans
      ((prefix_append s.beforeExportHash _).trans h₆))
  have h₄ : s.beforeExportLookup ++ s.exportLookup.out <+: _ := (prefix_alignFile _ _).trans h₅
  have h₃ : s.beforeImportLookup ++ s.importLookup.out <+: _ := (prefix_append _ _).trans h₄
  have h₂ : s.beforeExports ++ s.exportRecords.flatten <+: _ := (prefix_append _ _).trans h₃
  have h₁ : s.beforeImports ++ s.importRecords.flatten <+: _ := (prefix_append _ _).trans h₂
  have h₀ : s.prologue ++ s.relocationBytes <+: _ :=
    (prefix_append _ s.otherRelocations).trans ((prefix_append _ _).trans h₁)
  refine ⟨rfl, written_of_prefix h₀ hsize, written_of_prefix h₁ hsize, written_of_prefix h₂ hsize,
    ?_, written_of_prefix h₃ hsize, written_of_prefix h₄ hsize, written_of_prefix h₆ hsize, rfl⟩
  have hle := h₂.length_le
  dsimp only at hsize
  have hend : s.beforeImportLookup.length =
      s.beforeExports.length + s.exportRecords.flatten.length := length_append
  rw [length_append] at hle
  change ftell s.beforeImportLookup = ftell s.beforeExports + _
  rw [ftell_of_lt (by omega), ftell_of_lt (by omega), hend]

end Image

end Tinycc
