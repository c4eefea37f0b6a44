import Tinycc.Lib.ChainedHash
import Tinycc.Lib.Loop

namespace Tinycc
open Lib Function

def shnUndef : BitVec 16 := 0
def shnLoreserve : BitVec 16 := 0xff00
def shnAbs : BitVec 16 := 0xfff1
def shnCommon : BitVec 16 := 0xfff2

def stbLocal : BitVec 8 := 0
def stbGlobal : BitVec 8 := 1
def stbWeak : BitVec 8 := 2

def stvDefault : BitVec 8 := 0
def stvInternal : BitVec 8 := 1
def stvHidden : BitVec 8 := 2
def stvProtected : BitVec 8 := 3

def stAsmSet : BitVec 8 := 0x04

def stBind (info : BitVec 8) : BitVec 8 := info >>> 4

def stType (info : BitVec 8) : BitVec 8 := info &&& 0xf

def stInfo (bind type : BitVec 8) : BitVec 8 := (bind <<< 4) + (type &&& 0xf)

def stVisibility (other : BitVec 8) : BitVec 8 := other &&& 0x3

abbrev SymName := List (BitVec 8)

def cName (s : String) : SymName := s.toList.map fun c => BitVec.ofNat 8 c.toNat

/-- An entry of a symbol table, with its name in place of the offset of the name. -/
structure ElfSym where
  name : SymName
  value : BitVec 32
  size : BitVec 32
  info : BitVec 8
  other : BitVec 8
  shndx : BitVec 16
  deriving DecidableEq, Repr, Inhabited

def elfHash (name : SymName) : BitVec 32 :=
  name.foldl (fun h c =>
    let h := (h <<< 4) + c.zeroExtend 32
    let g := h &&& 0xf0000000#32
    let h := if g ≠ 0#32 then h ^^^ (g >>> 24) else h
    h &&& ~~~g) 0#32

/-- The hash section of a symbol table: `base[0]`, the buckets, the chain and the cached hash
values, and the number of hashed symbols. -/
structure SymHash where
  nbuckets : ℕ
  bucket : ℕ → ℕ
  chain : ℕ → ℕ
  hashVal : ℕ → BitVec 32
  nbHashedSyms : ℕ

structure Symtab where
  syms : List ElfSym
  hash : SymHash
  dynsym : Bool

namespace SymHash

def insert (hs : SymHash) (symIndex : ℕ) (sym : ElfSym) : SymHash :=
  if stBind sym.info ≠ stbLocal then
    let fullHash := elfHash sym.name
    let h := fullHash.toNat % hs.nbuckets
    { hs with
      bucket := update hs.bucket h symIndex
      chain := update hs.chain symIndex (hs.bucket h)
      hashVal := update hs.hashVal symIndex fullHash }
  else
    { hs with
      chain := update hs.chain symIndex 0
      hashVal := update hs.hashVal symIndex 0#32 }

end SymHash

namespace Symtab

variable (s : Symtab)

def sym (i : ℕ) : ElfSym := s.syms.getD i default

def rebuildHash (nbBuckets : ℕ) : SymHash :=
  forRange (s.syms.length - 1) (fun hs i => hs.insert (i + 1) (s.sym (i + 1)))
    ⟨nbBuckets, fun _ => 0, fun _ => 0, fun _ => 0#32, s.hash.nbHashedSyms⟩

/-- `init_symtab`: the null symbol and empty buckets. -/
def initSymtab (nbBuckets : ℕ) (dynsym : Bool) : Symtab :=
  ⟨[⟨[], 0, 0, 0, 0, shnUndef⟩], ⟨nbBuckets, fun _ => 0, fun _ => 0, fun _ => 0#32, 0⟩, dynsym⟩

def keptName (name : SymName) : SymName :=
  -- a control character or a continuation byte in front drops the name
  match name with
  | [] => []
  | first :: _ =>
    if first < 0x20#8 ∨ (0x7e#8 < first ∧ first < 0xc2#8) ∨ 0xf4#8 < first then [] else name

def putElfSym (sym : ElfSym) : Symtab × ℕ :=
  let sym := { sym with name := keptName sym.name }
  let symIndex := s.syms.length
  let s : Symtab := { s with syms := s.syms ++ [sym] }
  if stBind sym.info ≠ stbLocal then
    let hs : SymHash :=
      { s.hash.insert symIndex sym with nbHashedSyms := s.hash.nbHashedSyms + 1 }
    if 2 * hs.nbuckets < hs.nbHashedSyms then
      ({ s with hash := { s.rebuildHash (2 * hs.nbuckets) with nbHashedSyms := hs.nbHashedSyms } },
        symIndex)
    else ({ s with hash := hs }, symIndex)
  else
    ({ s with hash := { s.hash with chain := update s.hash.chain symIndex 0 } }, symIndex)

def findElfSymWithHash (name : SymName) (fullHash : BitVec 32) : ℕ :=
  chainFind s.hash.chain (fun i => s.hash.hashVal i = fullHash ∧ name = (s.sym i).name)
    (s.syms.length + 1) (s.hash.bucket (fullHash.toNat % s.hash.nbuckets))

def findElfSym (name : SymName) : ℕ :=
  if s.syms.length ≤ 1 then 0 else s.findElfSymWithHash name (elfHash name)

def putElfSyms (calls : List ElfSym) : Symtab := calls.foldl (fun s e => (s.putElfSym e).1) s

def setSym (i : ℕ) (e : ElfSym) : Symtab := { s with syms := s.syms.set i e }

end Symtab

/-- The arguments of a call of `set_elf_sym` but for the name. -/
structure ElfSymArgs where
  value : BitVec 32
  size : BitVec 32
  info : BitVec 8
  other : BitVec 8
  shndx : BitVec 16
  deriving DecidableEq, Repr

def mergeVisibility (esymVis symVis : BitVec 8) : BitVec 8 :=
  if esymVis = stvDefault then symVis
  else if symVis = stvDefault then esymVis
  else if esymVis < symVis then esymVis else symVis

/-- The entry with the most constraining of its visibility and that of a call. -/
def ElfSym.narrow (e : ElfSym) (c : ElfSymArgs) : ElfSym :=
  { e with
    other := (e.other &&& ~~~(0x3 : BitVec 8)) |||
      mergeVisibility (stVisibility e.other) (stVisibility c.other) }

def ElfSym.Repeats (e : ElfSym) (c : ElfSymArgs) : Prop :=
  e.value = c.value ∧ e.size = c.size ∧ e.info = c.info ∧ e.other = c.other ∧ e.shndx = c.shndx

instance (e : ElfSym) (c : ElfSymArgs) : Decidable (e.Repeats c) :=
  inferInstanceAs (Decidable (_ ∧ _ ∧ _ ∧ _ ∧ _))

/-- What a call does to a defined entry. -/
inductive Override
  | ignore
  | patch
  | definedTwice
  deriving DecidableEq, Repr

def override (bss : BitVec 16) (dynsym : Bool) (esym : ElfSym) (c : ElfSymArgs) : Override :=
  let symBind := stBind c.info
  let symVis := stVisibility c.other
  let esymBind := stBind esym.info
  if c.shndx = shnUndef then .ignore
  else if symBind = stbGlobal ∧ esymBind = stbWeak then .patch
  else if symBind = stbWeak ∧ esymBind = stbGlobal then .ignore
  else if symBind = stbWeak ∧ esymBind = stbWeak then .ignore
  -- hidden symbols are ignored before the sections are compared
  else if symVis = stvHidden ∨ symVis = stvInternal then .ignore
  else if (esym.shndx = shnCommon ∨ esym.shndx = bss) ∧ c.shndx < shnLoreserve ∧ c.shndx ≠ bss then
    .patch
  else if c.shndx = shnCommon ∨ c.shndx = bss then .ignore
  else if dynsym then .ignore
  else if esym.other &&& stAsmSet ≠ 0 then .patch
  else .definedTwice

def patchEntry (e : ElfSym) (c : ElfSymArgs) : ElfSym :=
  { e with
    info := stInfo (stBind c.info) (stType c.info)
    shndx := c.shndx
    value := c.value
    size := c.size }

/-- The part of `set_elf_sym` for an entry that was found: the entry after the call, and whether
`defined twice` was reported. -/
def setExisting (bss : BitVec 16) (dynsym : Bool) (esym : ElfSym) (c : ElfSymArgs) : ElfSym × Bool :=
  if esym.Repeats c then (esym, false)
  else if esym.shndx ≠ shnUndef then
    let esym := esym.narrow c
    match override bss dynsym esym c with
    | .ignore => (esym, false)
    | .patch => (patchEntry esym c, false)
    | .definedTwice => (esym, true)
  else (patchEntry { esym with other := c.other } c, false)

/-- `set_elf_sym`: the table, the index of the symbol and whether `defined twice` was reported. -/
def setElfSym (bss : BitVec 16) (s : Symtab) (name : SymName) (c : ElfSymArgs) : Symtab × ℕ × Bool :=
  let define :=
    let r := s.putElfSym ⟨name, c.value, c.size, stInfo (stBind c.info) (stType c.info), c.other,
      c.shndx⟩
    (r.1, r.2, false)
  if stBind c.info ≠ stbLocal then
    let symIndex := s.findElfSymWithHash name (elfHash name)
    if symIndex = 0 then define
    else
      let r := setExisting bss s.dynsym (s.sym symIndex) c
      (s.setSym symIndex r.1, symIndex, r.2)
  else define

def setElfSyms (bss : BitVec 16) (s : Symtab) (name : SymName) : List ElfSymArgs → Symtab × List Bool
  | [] => (s, [])
  | c :: cs =>
    let r := setElfSym bss s name c
    let rest := setElfSyms bss r.1 name cs
    (rest.1, r.2.2 :: rest.2)

end Tinycc
