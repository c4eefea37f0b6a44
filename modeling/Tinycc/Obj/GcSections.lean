import Tinycc.Lib.Marking
import Tinycc.Obj.ElfSym

namespace Tinycc
open Lib Function

/-- The types that `gc_sections` tells apart. -/
inductive ShType
  | symtab
  | strtab
  | hash
  | dynsym
  | gnuHash
  | gnuVersym
  | gnuVerneed
  | gnuVerdef
  | relx
  | dynamic
  | note
  | other (n : ℕ)
  deriving DecidableEq, Repr

structure LinkSection where
  name : SymName
  shType : ShType
  /-- `SHF_ALLOC` -/
  alloc : Bool
  dataOffset : ℕ
  shSize : ℕ
  shInfo : ℕ
  /-- the symbols that the relocations of a `SHT_RELX` section name -/
  rels : List ℕ
  reloc : Option ℕ
  deriving DecidableEq, Repr

structure LinkState where
  sections : List (Option LinkSection)
  symtab : List ElfSym
  /-- `ld_section_should_keep`, with a linker script -/
  ldKeep : Option (SymName → Bool)
  doDebug : Bool
  elfEntryname : Option SymName
  rdynamic : Bool
  staticLink : Bool
  outputExe : Bool
  dynsymFind : SymName → Bool
  textSection : ℕ
  dataSection : ℕ
  rodataSection : ℕ
  bssSection : ℕ
  /-- Section 0 is `NULL`. -/
  null : sections[0]? = some none
  /-- `section_reloc` makes them with the flags of the static symbol table. -/
  relocs : ∀ (i : ℕ) (sec : LinkSection) (r : ℕ), sections[i]? = some (some sec) →
    sec.reloc = some r → ∃ sr, sections[r]? = some (some sr) ∧ sr.shType = .relx ∧
      sr.alloc = false ∧ sr.shInfo = i

namespace LinkState

variable (s : LinkState)

def sec (i : ℕ) : Option LinkSection := (s.sections[i]?).join

def sym (i : ℕ) : ElfSym := s.symtab.getD i default

end LinkState

section Roots

def gcRoots : List SymName :=
  [".init", ".fini", ".init_array", ".fini_array", ".preinit_array", ".ctors", ".dtors", ".got",
    ".got.plt", ".plt", ".interp", ".eh_frame", ".eh_frame_hdr", ".ARM.attributes",
    ".ARM.exidx"].map cName

def gcRootSectionName (name : SymName) : Bool :=
  if name.head? ≠ some 0x2e#8 then false
  else if (name.drop 1).head? ∉ (cName "ifpcdgeA").map some then false
  else gcRoots.any fun root => (root.drop 1).head? = (name.drop 1).head? ∧ name = root

def keptType : ShType → Bool
  | .other _ => false
  | _ => true

def findDots : SymName → Option ℕ
  | 0x2e#8 :: 0x2e#8 :: _ => some 0
  | _ :: rest => (findDots rest).map (· + 1)
  | [] => none

def originalName (name : SymName) : SymName :=
  match findDots name with
  | some cut => if cut < 256 then name.take cut else name
  | none => name

variable (s : LinkState)

def rootSection (sec : LinkSection) : Bool :=
  keptType sec.shType || gcRootSectionName sec.name ||
    (match s.ldKeep with
      | some keep => keep (originalName sec.name)
      | none => false) ||
    (s.doDebug && sec.name.take 6 = cName ".debug") || !sec.alloc

def elfSymIsModuleLocal (sym : ElfSym) : Bool :=
  sym.shndx ≠ shnUndef ∧
    (stVisibility sym.other = stvHidden ∨ stVisibility sym.other = stvInternal)

def keepsSection (sym : ElfSym) : Bool :=
  if s.elfEntryname = some sym.name then true
  else if sym.name ∈ ["_start", "main", "_main", "__start"].map cName then true
  else if s.rdynamic ∧ stBind sym.info ≠ stbLocal ∧ !elfSymIsModuleLocal sym then true
  else !s.staticLink && decide (stBind sym.info ≠ stbLocal) && !elfSymIsModuleLocal sym &&
    (!s.outputExe || s.dynsymFind sym.name)

def rootSymbol (sym : ElfSym) : Bool :=
  if sym.shndx = shnUndef ∨ shnLoreserve ≤ sym.shndx then false
  else if s.sections.length ≤ sym.shndx.toNat then false
  else keepsSection s sym

def rootMarks : ℕ → Bool :=
  let used : ℕ → Bool := forRange (s.sections.length - 1) (fun used k =>
    if (s.sec (k + 1)).any (rootSection s) then update used (k + 1) true else used)
    (fun _ => false)
  forRange (s.symtab.length - 1) (fun used k =>
    if rootSymbol s (s.sym (k + 1)) then update used (s.sym (k + 1)).shndx.toNat true else used)
    used

end Roots

section Mark

variable (s : LinkState)

structure RelChains where
  head : ℕ → ℕ
  next : ℕ → ℕ

def relChains : RelChains :=
  forDown (s.sections.length - 1) (fun c k =>
    let i := k + 1
    match s.sec i with
    | some sr =>
      if sr.shType ≠ .relx ∨ s.sections.length ≤ sr.shInfo then c
      else
        { head := update c.head sr.shInfo i
          next := update c.next i (c.head sr.shInfo) }
    | none => c) ⟨fun _ => 0, fun _ => 0⟩

/-- The section that a relocation leads to. -/
def relTarget (symIndex : ℕ) : Option ℕ :=
  if symIndex = 0 ∨ s.symtab.length ≤ symIndex then none
  else
    let shndx := (s.sym symIndex).shndx
    if shndx = shnUndef ∨ shnLoreserve ≤ shndx ∨ s.sections.length ≤ shndx.toNat then none
    else some shndx.toNat

def relsOf (r : ℕ) : List ℕ :=
  match s.sec r with
  | some sr => sr.rels
  | none => []

def gcMarkStep (c : RelChains) (m : MarkState) : MarkState :=
  match m.work with
  | [] => m
  | t :: rest =>
    let m := { m with work := rest }
    match s.sec t with
    | some sec =>
      if !sec.alloc then m
      else
        (chainVisit c.next s.sections.length (c.head t)).foldl (fun m r =>
          (relsOf s r).foldl (fun m symIndex =>
            match relTarget s symIndex with
            | some shndx => m.mark shndx
            | none => m) m) m
    | none => m

def gcMark : Option (ℕ → Bool) :=
  let used := rootMarks s
  let work := forRange (s.sections.length - 1) (fun work k =>
    if used (k + 1) then (k + 1) :: work else work) []
  (whileLoop MarkState.pending (gcMarkStep s (relChains s)) (s.sections.length + 1)
    ⟨used, work⟩).map MarkState.used

def markRelocs (used : ℕ → Bool) : ℕ → Bool :=
  forRange (s.sections.length - 1) (fun used k =>
    match s.sec (k + 1) with
    | some sec =>
      match sec.reloc with
      | some r => if used (k + 1) then update used r true else used
      | none => used
    | none => used) used

end Mark

section Sweep

variable (s : LinkState)

def LinkSection.release (sec : LinkSection) : LinkSection :=
  { sec with dataOffset := 0, shSize := 0, rels := [] }

def setSec (secs : List (Option LinkSection)) (i : ℕ) (f : LinkSection → LinkSection) :
    List (Option LinkSection) :=
  secs.modify i (Option.map f)

structure SweepState where
  sections : List (Option LinkSection)
  collected : ℕ → Bool
  anyCollected : Bool

def SweepState.sec (w : SweepState) (i : ℕ) : Option LinkSection := (w.sections[i]?).join

def sweepSection (i : ℕ) (sec : LinkSection) (secs : List (Option LinkSection)) :
    List (Option LinkSection) :=
  let isOutput := i = s.textSection ∨ i = s.dataSection ∨ i = s.rodataSection ∨ i = s.bssSection
  let secs := setSec secs i fun sec =>
    { sec.release with alloc := if isOutput then sec.alloc else false }
  match sec.reloc with
  | some r => setSec secs r LinkSection.release
  | none => secs

def gcSweep (used : ℕ → Bool) : SweepState :=
  forRange (s.sections.length - 1) (fun w k =>
    let i := k + 1
    match w.sec i with
    | some sec =>
      if !used i && sec.alloc && decide (0 < sec.dataOffset) then
        ⟨sweepSection s i sec w.sections, update w.collected i true, true⟩
      else w
    | none => w) ⟨s.sections, fun _ => false, false⟩

def markDead (nb : ℕ) (collected : ℕ → Bool) (sym : ElfSym) : ElfSym :=
  if sym.shndx.toNat < nb ∧ collected sym.shndx.toNat then
    { sym with value := 0xFFFFFFFF#32, shndx := shnAbs }
  else sym

def referenced (secs : List (Option LinkSection)) (symIndex : ℕ) : Bool :=
  (secs.drop 1).any fun
    | some sr => sr.shType = .relx ∧ sr.dataOffset ≠ 0 ∧ symIndex ∈ sr.rels
    | none => false

def demote (isReferenced : Bool) (sym : ElfSym) : ElfSym :=
  if sym.shndx = shnUndef ∧ !isReferenced ∧ stBind sym.info = stbGlobal then
    { sym with info := stInfo stbWeak (stType sym.info) }
  else sym

/-- `gc_sections`: the sections and the symbols after it. -/
def gcSections : Option (List (Option LinkSection) × List ElfSym) :=
  (gcMark s).map fun used =>
    let w := gcSweep s (markRelocs s used)
    if w.anyCollected then
      let syms := s.symtab.mapIdx fun i sym =>
        if i = 0 then sym else markDead s.sections.length w.collected sym
      let syms := syms.mapIdx fun i sym =>
        if i = 0 then sym else demote (referenced w.sections i) sym
      (w.sections, syms)
    else (w.sections, s.symtab)

end Sweep

end Tinycc
