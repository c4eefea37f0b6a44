import Tinycc.Lib.ByteFormat
import Tinycc.Obj.ElfSym

namespace Tinycc
open Lib Function

inductive YaffSectionCode
  | code
  | data
  | init
  | unknown
  | bss
  | rodata
  deriving DecidableEq, Repr

def YaffSectionCode.bits (c : YaffSectionCode) : BitVec 2 := BitVec.ofNat 2 c.ctorIdx

structure YaffSymbolEntry where
  sec : BitVec 2
  weak : BitVec 1
  offset : BitVec 29
  deriving DecidableEq, Repr

def YaffSymbolEntry.word (e : YaffSymbolEntry) : BitVec 32 := e.offset ++ e.weak ++ e.sec

def YaffSymbolEntry.ofWord (w : BitVec 32) : YaffSymbolEntry :=
  ⟨w.extractLsb' 0 2, w.extractLsb' 2 1, w.extractLsb' 3 29⟩

structure YaffSymbolTableRelocationEntry where
  isExportedSymbol : BitVec 1
  index : BitVec 31
  functionPointer : BitVec 1
  pltCall : BitVec 1
  symbolIndex : BitVec 30
  deriving DecidableEq, Repr

def YaffSymbolTableRelocationEntry.bytes (e : YaffSymbolTableRelocationEntry) : Bytes :=
  leBytes 4 (e.index ++ e.isExportedSymbol).toNat ++
    leBytes 4 (e.symbolIndex ++ e.pltCall ++ e.functionPointer).toNat

def YaffSymbolTableRelocationEntry.ofBytes (b : Bytes) : YaffSymbolTableRelocationEntry :=
  let lo := BitVec.ofNat 32 (leNat (bytesAt b 0 4))
  let hi := BitVec.ofNat 32 (leNat (bytesAt b 4 4))
  ⟨lo.extractLsb' 0 1, lo.extractLsb' 1 31, hi.extractLsb' 0 1, hi.extractLsb' 1 1,
    hi.extractLsb' 2 30⟩

structure YaffHeader where
  alignment : ℕ
  symbolTableRelocationsAmount : ℕ
  exportedSymbolsAmount : ℕ
  importedSymbolsAmount : ℕ
  relocationsOffset : ℕ
  importedSymbolsOffset : ℕ
  exportedSymbolsOffset : ℕ
  importedSymbolsLookupOffset : ℕ
  exportedSymbolsLookupOffset : ℕ
  importedSymbolsHashTableOffset : ℕ
  exportedSymbolsHashTableOffset : ℕ
  deriving DecidableEq, Repr

def tccYaffAlign (alignment size : ℕ) : ℕ :=
  let x := size + alignment - 1
  -- x & ~(alignment - 1)
  x - (x &&& (alignment - 1))

structure YaffHashTable where
  nbucket : ℕ
  nchain : ℕ
  bucket : ℕ → ℕ
  chain : ℕ → ℕ

/-- A `char` in an addition of 32 bits; the host decides whether it has a sign. -/
def charValue (signed : Bool) (c : BitVec 8) : BitVec 32 :=
  if signed then c.signExtend 32 else c.zeroExtend 32

def tccYaffHash (signed : Bool) (name : SymName) : BitVec 32 :=
  name.foldl (fun h c =>
    let h := (h <<< 4) + charValue signed c
    let g := h &&& 0xf0000000#32
    if g ≠ 0#32 then (h ^^^ (g >>> 24)) &&& ~~~g else h) 0#32

def tccAllocateHashTable (numberOfBuckets count : ℕ) : YaffHashTable :=
  ⟨numberOfBuckets, count, fun _ => 0, fun _ => 0⟩

def tccAddHashEntry (signed : Bool) (ht : YaffHashTable) (name : SymName) (i : ℕ) :
    YaffHashTable :=
  let b := (tccYaffHash signed name).toNat % ht.nbucket
  if ht.bucket b = 0 then { ht with bucket := update ht.bucket b i }
  else
    let idx := chainEnd ht.chain ht.nchain (ht.bucket b)
    { ht with chain := update ht.chain idx i }

def tccWriteHashTable (ht : YaffHashTable) : Bytes :=
  leBytes 4 ht.nbucket ++ leBytes 4 ht.nchain ++
    ((List.range ht.nbucket).map ht.bucket).flatMap (leBytes 4) ++
    ((List.range ht.nchain).map ht.chain).flatMap (leBytes 4)

section Symbols

def tccYaffSymIsExported (sym : ElfSym) : Bool :=
  if sym.shndx = shnUndef then false
  else if stBind sym.info ≠ stbGlobal ∧ stBind sym.info ≠ stbWeak then false
  else if stVisibility sym.other ≠ stvDefault ∧ stVisibility sym.other ≠ stvProtected then false
  else true

def symIsImported (sym : ElfSym) : Bool := sym.shndx = shnUndef

/-- The sections that the writer tells apart, by number, and where `.rodata` is linked. -/
structure YaffSections where
  text : ℕ
  data : ℕ
  rodata : ℕ
  bss : ℕ
  rodataAddr : BitVec 32

def sttObject : BitVec 8 := 1

def sttFunc : BitVec 8 := 2

variable (ss : YaffSections) (alignment : ℕ)

def exportSection (sym : ElfSym) : YaffSectionCode :=
  let n := sym.shndx.toNat
  if n = ss.text then .code
  else if n = ss.data ∨ n = ss.rodata ∨ n = ss.bss then .data
  else .code

def tccYaffDataRegionOffset (address : BitVec 32) : BitVec 32 := address - ss.rodataAddr

def exportValue (sym : ElfSym) : BitVec 32 :=
  if exportSection ss sym = .data then tccYaffDataRegionOffset ss sym.value
  else if stType sym.info ≠ sttObject then sym.value ||| 1#32
  else sym.value

def weakBit (sym : ElfSym) : BitVec 1 := if stBind sym.info = stbWeak then 1#1 else 0#1

def exportEntry (sym : ElfSym) : YaffSymbolEntry :=
  ⟨(exportSection ss sym).bits, weakBit sym, (exportValue ss sym).setWidth 29⟩

def importEntry (sym : ElfSym) : YaffSymbolEntry := ⟨0#2, weakBit sym, sym.value.setWidth 29⟩

def nullRecord : Bytes := leBytes 4 0 ++ [0#8, 0#8, 0#8, 0#8]

def symbolRecord (entry : YaffSymbolEntry) (name : SymName) : Bytes :=
  let nameLen := name.length + 1
  leBytes 4 entry.word.toNat ++
    (name ++ 0#8 :: List.replicate (tccYaffAlign alignment nameLen - nameLen) 0#8)

/-- The loop of `tcc_yaff_write_imported_symbols` and of `tcc_yaff_write_exported_symbols`: the
bytes written and the number of records. -/
def writeSymbols (keep : ElfSym → Bool) (entry : ElfSym → YaffSymbolEntry) (syms : List ElfSym) :
    Bytes × ℕ :=
  syms.foldl (fun f sym =>
    if keep sym then (f.1 ++ symbolRecord alignment (entry sym) sym.name, f.2 + 1) else f)
    (nullRecord, 1)

def tccYaffWriteImportedSymbols (syms : List ElfSym) : Bytes × ℕ :=
  writeSymbols alignment symIsImported importEntry syms

def tccYaffWriteExportedSymbols (syms : List ElfSym) : Bytes × ℕ :=
  writeSymbols alignment tccYaffSymIsExported (exportEntry ss) syms

structure LookupPass where
  i : ℕ
  currentOffset : ℕ
  hashtable : YaffHashTable
  out : Bytes
  nbErrors : ℕ

def lookupLoop (signed : Bool) (keep : ElfSym → Bool) (amount : ℕ) :
    List ElfSym → LookupPass → LookupPass
  | [], p => p
  | sym :: syms, p =>
    if keep sym then
      if amount ≤ p.i then p
      else
        let currentOffset := p.currentOffset + 4 + tccYaffAlign alignment (sym.name.length + 1)
        lookupLoop signed keep amount syms
          { i := p.i + 1
            currentOffset := currentOffset
            hashtable := tccAddHashEntry signed p.hashtable sym.name p.i
            out := p.out ++ leBytes 2 p.currentOffset
            nbErrors := if 0xFFFF < currentOffset then p.nbErrors + 1 else p.nbErrors }
    else lookupLoop signed keep amount syms p

def writeSymbolsLookup (signed : Bool) (keep : ElfSym → Bool) (amount : ℕ) (ht : YaffHashTable)
    (syms : List ElfSym) : LookupPass :=
  lookupLoop alignment signed keep amount syms
    { i := 1
      currentOffset := 8
      hashtable := tccAddHashEntry signed ht [] 0
      out := leBytes 2 0
      nbErrors := 0 }

end Symbols

def rArmGlobDat : ℕ := 21
def rArmJumpSlot : ℕ := 22
def rArmGot32 : ℕ := 26

/-- A relocation of a section that is linked to the dynamic symbols. -/
structure DynRel where
  offset : BitVec 32
  type : ℕ
  sym : ℕ
  deriving DecidableEq, Repr

structure IndexMaps where
  impCount : ℕ
  expCount : ℕ
  importedIdx : ℕ → ℕ
  exportedIdx : ℕ → ℕ

variable (dynsym : List ElfSym)

def indexMaps : IndexMaps :=
  forRange (dynsym.length - 1) (fun m k =>
    let idx := k + 1
    let ds := dynsym.getD idx default
    if ds.shndx = shnUndef then
      { m with
        impCount := m.impCount + 1
        importedIdx := update m.importedIdx idx (m.impCount + 1) }
    else if tccYaffSymIsExported ds then
      { m with
        expCount := m.expCount + 1
        exportedIdx := update m.exportedIdx idx (m.expCount + 1) }
    else m)
    ⟨0, 0, fun _ => 0, fun _ => 0⟩

def hasJumpSlot (rels : List DynRel) (idx : ℕ) : Bool :=
  idx < dynsym.length ∧ rels.any fun r => r.type = rArmJumpSlot ∧ r.sym = idx

def DynRel.isGotSlot (r : DynRel) : Bool :=
  r.type = rArmGlobDat ∨ r.type = rArmJumpSlot ∨ r.type = rArmGot32

def symbolTableRelocation (rels : List DynRel) (gotAddr : BitVec 32)
    (rel : DynRel) : YaffSymbolTableRelocationEntry :=
  let maps := indexMaps dynsym
  let sym := dynsym.getD rel.sym default
  let isExported : Bool := sym.shndx ≠ shnUndef
  let isFunctionPointer : Bool := rel.type = rArmGlobDat ∧
    (stType sym.info = sttFunc ∨ !isExported ∧ hasJumpSlot dynsym rels rel.sym)
  { isExportedSymbol := BitVec.ofBool isExported
    index := ((rel.offset - gotAddr) / 8#32).setWidth 31
    functionPointer := BitVec.ofBool isFunctionPointer
    pltCall := BitVec.ofBool (rel.type = rArmJumpSlot)
    symbolIndex := BitVec.ofNat 30
      (if isExported then maps.exportedIdx rel.sym else maps.importedIdx rel.sym) }

def tccYaffWriteSymbolTableRelocations (rels : List DynRel)
    (gotAddr : BitVec 32) : Bytes × ℕ :=
  rels.foldl (fun f rel =>
    if rel.isGotSlot then
      (f.1 ++ (symbolTableRelocation dynsym rels gotAddr rel).bytes, f.2 + 1)
    else f) ([], 0)

/-- What `tcc_output_yaff` reads for the symbol tables, and the bytes it writes before and after
them. -/
structure YaffInput where
  charSigned : Bool
  alignment : ℕ
  sections : YaffSections
  dynsym : List ElfSym
  rels : List DynRel
  gotAddr : BitVec 32
  /-- header, name, architecture and libraries -/
  prologue : Bytes
  /-- local and data relocations -/
  otherRelocations : Bytes
  /-- code and data -/
  images : Bytes
  names : ∀ sym ∈ dynsym, 0#8 ∉ sym.name

structure YaffImage where
  file : Bytes
  header : YaffHeader
  nbErrors : ℕ

def ftell (f : Bytes) : ℕ := f.length % 4294967296

def alignFile (alignment : ℕ) (f : Bytes) : Bytes :=
  if ftell f % alignment ≠ 0 then f ++ List.replicate (alignment - ftell f % alignment) 0#8 else f

/-- The part of `tcc_output_yaff` that writes relocations, symbols, lookup tables and hashes. -/
def tccOutputYaff (s : YaffInput) : YaffImage :=
  let syms := s.dynsym.drop 1
  let rels := tccYaffWriteSymbolTableRelocations s.dynsym s.rels s.gotAddr
  let f₁ := s.prologue ++ rels.1 ++ s.otherRelocations
  let imported := tccYaffWriteImportedSymbols s.alignment syms
  let f₂ := f₁ ++ imported.1
  let exported := tccYaffWriteExportedSymbols s.sections s.alignment syms
  let f₃ := f₂ ++ exported.1
  let importedLookup := writeSymbolsLookup s.alignment s.charSigned symIsImported imported.2
    (tccAllocateHashTable (imported.2 + 1) imported.2) syms
  let f₄ := f₃ ++ importedLookup.out
  let exportedLookup := writeSymbolsLookup s.alignment s.charSigned tccYaffSymIsExported exported.2
    (tccAllocateHashTable (exported.2 + 1) exported.2) syms
  let f₅ := alignFile s.alignment (f₄ ++ exportedLookup.out)
  let f₆ := alignFile s.alignment (f₅ ++ tccWriteHashTable importedLookup.hashtable)
  let f₇ := f₆ ++ tccWriteHashTable exportedLookup.hashtable
  { file := f₇ ++ s.images
    header :=
      { alignment := s.alignment
        symbolTableRelocationsAmount := rels.2
        exportedSymbolsAmount := exported.2
        importedSymbolsAmount := imported.2
        relocationsOffset := ftell s.prologue
        importedSymbolsOffset := ftell f₁
        exportedSymbolsOffset := ftell f₂
        importedSymbolsLookupOffset := ftell f₃
        exportedSymbolsLookupOffset := ftell f₄
        importedSymbolsHashTableOffset := ftell f₅
        exportedSymbolsHashTableOffset := ftell f₆ }
    nbErrors := importedLookup.nbErrors + exportedLookup.nbErrors }

structure YaffLib where
  nsyms : ℕ
  /-- the name/value region with a zero byte behind it -/
  region : Bytes
  lookup : List ℕ
  nbucket : ℕ
  nchain : ℕ
  bucket : List ℕ
  chain : List ℕ

def yaffLibReadExports (file : Bytes) (header : YaffHeader) : Except String YaffLib := do
  if 0xFFFF < header.exportedSymbolsAmount then throw "corrupt YAFF export count"
  let nsyms := header.exportedSymbolsAmount
  if header.importedSymbolsLookupOffset < header.exportedSymbolsOffset then
    throw "corrupt YAFF export region bounds"
  let regionSize := header.importedSymbolsLookupOffset - header.exportedSymbolsOffset
  if 0x100000 < regionSize then throw "corrupt YAFF export region size"
  let region := bytesAt file header.exportedSymbolsOffset regionSize
  if region.length ≠ regionSize then throw "short read of YAFF export region"
  let lookupBytes := bytesAt file header.exportedSymbolsLookupOffset (2 * nsyms)
  if lookupBytes.length ≠ 2 * nsyms then throw "short read of YAFF export lookup"
  let lookup := leArray 2 lookupBytes nsyms
  if lookup.any fun o => regionSize < o + 4 then throw "corrupt YAFF export lookup entry"
  let hdr2 := bytesAt file header.exportedSymbolsHashTableOffset 8
  if hdr2.length ≠ 8 then throw "short read of YAFF hash header"
  let nbucket := leNat (bytesAt hdr2 0 4)
  let nchain := leNat (bytesAt hdr2 4 4)
  if nbucket = 0 ∨ 0x100000 < nbucket ∨ nchain < nsyms ∨ 0x100000 < nchain then
    throw "corrupt YAFF hash table header"
  let hashBytes := bytesAt file (header.exportedSymbolsHashTableOffset + 8) (4 * (nbucket + nchain))
  if hashBytes.length ≠ 4 * (nbucket + nchain) then throw "short read of YAFF hash table"
  let hash := leArray 4 hashBytes (nbucket + nchain)
  return ⟨nsyms, region ++ [0#8], lookup, nbucket, nchain, hash.take nbucket, hash.drop nbucket⟩

def yaffVersion : ℕ := 5

def YaffHeader.ofBytes (b : Bytes) : YaffHeader :=
  let field := fun offset => leNat (bytesAt b offset 4)
  { alignment := leNat (bytesAt b 30 1)
    symbolTableRelocationsAmount := field 36
    exportedSymbolsAmount := field 52
    importedSymbolsAmount := field 56
    relocationsOffset := field 80
    importedSymbolsOffset := field 84
    exportedSymbolsOffset := field 88
    importedSymbolsLookupOffset := field 96
    exportedSymbolsLookupOffset := field 100
    importedSymbolsHashTableOffset := field 104
    exportedSymbolsHashTableOffset := field 108 }

/-- The library that `tcc_load_yaff` registers, for a file that is not shorter than its header. -/
def tccLoadYaff (filename : String) (file : Bytes) : Except String (Option YaffLib) := do
  if bytesAt file 0 4 ≠ cName "YAFF" then throw "not a valid YAFF file"
  let version := leNat (bytesAt file 7 1)
  if version ≠ yaffVersion then
    throw ("'" ++ filename ++ "': YAFF version " ++ version.repr ++ ", this toolchain writes " ++
      yaffVersion.repr ++ "; rebuild it")
  let header := YaffHeader.ofBytes file
  if 0 < header.exportedSymbolsAmount then
    let lib ← yaffLibReadExports file header
    return some lib
  return none

namespace YaffLib

variable (lib : YaffLib)

def entryAt (i : ℕ) : YaffSymbolEntry :=
  .ofWord (BitVec.ofNat 32 (leNat (bytesAt lib.region (lib.lookup.getD i 0) 4)))

def nameAt (i : ℕ) : SymName := cstr (lib.region.drop (lib.lookup.getD i 0 + 4))

def findFrom (name : SymName) : ℕ → ℕ → Option YaffSymbolEntry
  | 0, _ => none
  | fuel + 1, i =>
    if i = 0 then none
    else if lib.nsyms ≤ i then none
    else if lib.nameAt i = name then some (lib.entryAt i)
    else findFrom name fuel (lib.chain.getD i 0)

/-- `yaff_lib_find`; a chain without a cycle visits each symbol at most once. -/
def yaffLibFind (h : BitVec 32) (name : SymName) : Option YaffSymbolEntry :=
  lib.findFrom name (lib.nsyms + 1) (lib.bucket.getD (h.toNat % lib.nbucket) 0)

end YaffLib

end Tinycc
