import Mathlib.Data.List.Find
import Tinycc.Obj.YaffSound

namespace Tinycc
open Lib List Nat

section Read

variable {s : YaffInput}

namespace YaffInput

def lib (s : YaffInput) : YaffLib where
  nsyms := s.exports.length + 1
  region := s.exportRecords.flatten ++ [0#8]
  lookup := (recordOffsets s.exportRecords).map (· % 256 ^ 2)
  nbucket := s.exports.length + 2
  nchain := s.exports.length + 1
  bucket := ((List.range (s.exports.length + 2)).map s.exportLookup.hashtable.bucket).map
    (· % 256 ^ 4)
  chain := ((List.range (s.exports.length + 1)).map s.exportLookup.hashtable.chain).map
    (· % 256 ^ 4)

end YaffInput

theorem length_exportRecords (s : YaffInput) : s.exportRecords.length = s.exports.length + 1 := by
  simp [YaffInput.exportRecords, symbolRecords]

theorem exportLookup_invariant (ha : 0 < s.alignment) :
    s.exportLookup.Invariant s.alignment (s.exports.length + 1) (s.exports.length + 2) s.charSigned
      (exportEntry s.sections) s.exports s.exports :=
  writeSymbolsLookup_invariant ha (succ_pos _) _ _ rfl

theorem export_size (ha : 0 < s.alignment) (herr : s.exportLookup.nbErrors = 0) :
    s.exportRecords.flatten.length ≤ 0xFFFF ∧
      5 * (s.exports.length + 1) ≤ s.exportRecords.flatten.length := by
  exact (exportLookup_invariant ha).size ha herr

theorem tccWriteHashTable_eq (ht : YaffHashTable) : tccWriteHashTable ht =
    (leBytes 4 ht.nbucket ++ leBytes 4 ht.nchain) ++
      ((List.range ht.nbucket).map ht.bucket ++ (List.range ht.nchain).map ht.chain).flatMap
        (leBytes 4) := by
  rw [tccWriteHashTable, flatMap_append]
  simp only [append_assoc]

theorem read_hashTable {file : Bytes} {o : ℕ} {ht : YaffHashTable}
    (h : Written file o (tccWriteHashTable ht)) :
    bytesAt file o 8 = leBytes 4 ht.nbucket ++ leBytes 4 ht.nchain ∧
    bytesAt file (o + 8) (4 * (ht.nbucket + ht.nchain)) =
      ((List.range ht.nbucket).map ht.bucket ++ (List.range ht.nchain).map ht.chain).flatMap
        (leBytes 4) := by
  rw [tccWriteHashTable_eq] at h
  have hl := h.left.bytesAt_eq
  have hr := h.right.bytesAt_eq
  simp only [length_append, length_leBytes, length_flatMap_leBytes, length_map,
    length_range] at hl hr
  exact ⟨hl, hr⟩

theorem read_counts (a b : ℕ) :
    leNat (bytesAt (leBytes 4 a ++ leBytes 4 b) 0 4) = a % 256 ^ 4 ∧
    leNat (bytesAt (leBytes 4 a ++ leBytes 4 b) 4 4) = b % 256 ^ 4 := by
  have h : Written (leBytes 4 a ++ leBytes 4 b) 0 (leBytes 4 a ++ leBytes 4 b) := ⟨[], by simp⟩
  have hr := h.right.leNat_eq
  exact ⟨h.left.leNat_eq, hr⟩

variable {img : YaffImage}

theorem read_hashWords (h : img.Holds s) (ha : 0 < s.alignment) :
    (bytesAt img.file (img.header.exportedSymbolsHashTableOffset + 8)
      (4 * (s.exports.length + 2 + (s.exports.length + 1)))).length =
      4 * (s.exports.length + 2 + (s.exports.length + 1)) ∧
    leArray 4 (bytesAt img.file (img.header.exportedSymbolsHashTableOffset + 8)
      (4 * (s.exports.length + 2 + (s.exports.length + 1))))
      (s.exports.length + 2 + (s.exports.length + 1)) = s.lib.bucket ++ s.lib.chain := by
  have hinv := exportLookup_invariant ha
  have hwords := (read_hashTable h.exportHash).2
  rw [hinv.nbucket, hinv.nchain] at hwords
  have hlen : ((List.range (s.exports.length + 2)).map s.exportLookup.hashtable.bucket ++
      (List.range (s.exports.length + 1)).map s.exportLookup.hashtable.chain).length =
      s.exports.length + 2 + (s.exports.length + 1) := by simp
  rw [hwords, length_flatMap_leBytes, hlen]
  refine ⟨rfl, ?_⟩
  have harr := leArray_flatMap 4 ((List.range (s.exports.length + 2)).map
    s.exportLookup.hashtable.bucket ++
    (List.range (s.exports.length + 1)).map s.exportLookup.hashtable.chain)
  rw [hlen, map_append] at harr
  exact harr

theorem yaffLibReadExports_eq (h : img.Holds s) (ha : 0 < s.alignment)
    (herr : s.exportLookup.nbErrors = 0) :
    yaffLibReadExports img.file img.header = .ok s.lib := by
  have hinv := exportLookup_invariant ha
  obtain ⟨hsize, hcount⟩ := export_size ha herr
  have hregion := h.exports.bytesAt_eq
  have hsub : img.header.importedSymbolsLookupOffset - img.header.exportedSymbolsOffset =
      s.exportRecords.flatten.length := by rw [h.exports_end]; omega
  have hbound : ¬img.header.importedSymbolsLookupOffset < img.header.exportedSymbolsOffset := by
    rw [h.exports_end]; omega
  have hamount : ¬0xFFFF < s.exports.length + 1 := by omega
  have hmax : ¬0x100000 < s.exportRecords.flatten.length := by omega
  have hlen : (recordOffsets s.exportRecords).length = s.exports.length + 1 := by
    rw [length_recordOffsets, length_exportRecords]
  have hlook : bytesAt img.file img.header.exportedSymbolsLookupOffset
      (2 * (s.exports.length + 1)) = (recordOffsets s.exportRecords).flatMap (leBytes 2) := by
    have hb := h.exportLookup.bytesAt_eq
    rw [hinv.out, length_flatMap_leBytes] at hb
    rw [← hlen]
    exact hb
  have harray : leArray 2 ((recordOffsets s.exportRecords).flatMap (leBytes 2))
      (s.exports.length + 1) = s.lib.lookup := by
    rw [← hlen, leArray_flatMap]
    rfl
  -- every record has room for its entry and an empty name
  have hin : s.lib.lookup.any (fun o => decide (s.exportRecords.flatten.length < o + 4)) = false := by
    rw [any_eq_false]
    intro o ho
    obtain ⟨o', ho', rfl⟩ := List.mem_map.mp ho
    obtain ⟨i, hi, rfl⟩ := List.mem_map.mp ho'
    have hend := record_end_le (List.mem_range.mp hi)
    have hfive := five_le_symbolRecords ha _ (getElem_mem (List.mem_range.mp hi))
    simp only [decide_eq_true_eq]
    omega
  have hhdr := (read_hashTable h.exportHash).1
  rw [hinv.nbucket, hinv.nchain] at hhdr
  obtain ⟨hl₃, hwords⟩ := read_hashWords h ha
  obtain ⟨hnb, hnc⟩ := read_counts (s.exports.length + 2) (s.exports.length + 1)
  rw [mod_eq_of_lt (by omega)] at hnb hnc
  have hok : ¬(s.exports.length + 2 = 0 ∨ 0x100000 < s.exports.length + 2 ∨
      s.exports.length + 1 < s.exports.length + 1 ∨ 0x100000 < s.exports.length + 1) := by omega
  have hl₁ : ((recordOffsets s.exportRecords).flatMap (leBytes 2)).length =
      2 * (s.exports.length + 1) := by rw [length_flatMap_leBytes, hlen]
  have hl₂ : (leBytes 4 (s.exports.length + 2) ++ leBytes 4 (s.exports.length + 1)).length = 8 := by
    simp
  have hbucket : s.lib.bucket.length = s.exports.length + 2 := by simp [YaffInput.lib]
  unfold yaffLibReadExports
  simp only [h.exportedAmount, hsub, hregion, hlook, if_neg hamount, if_neg hbound, if_neg hmax,
    harray, hin, hhdr, hnb, hnc, if_neg hok, hl₁, hl₂, hl₃, hwords, ne_eq,
    not_true_eq_false, if_false, Bool.false_eq_true]
  rw [take_left' hbucket, drop_left' hbucket]
  rfl

end Read

section Find

variable {s : YaffInput} {i : ℕ}

theorem YaffSymbolEntry.ofWord_word (e : YaffSymbolEntry) : ofWord e.word = e := by
  have hsec : e.word.extractLsb' 0 2 = e.sec := extractLsb'_append_low _ _
  have hweak : e.word.extractLsb' 2 1 = e.weak := extractLsb'_append_middle _ _ _
  have hoffset : e.word.extractLsb' 3 29 = e.offset := extractLsb'_append_top _ _ _
  rw [ofWord, hsec, hweak, hoffset]

theorem getElem_exportRecords (hi : i < s.exports.length)
    (hi' : i + 1 < s.exportRecords.length) : s.exportRecords[i + 1] =
      symbolRecord s.alignment (exportEntry s.sections s.exports[i]) s.exports[i].name := by
  simp [YaffInput.exportRecords, symbolRecords]

section

variable (hsize : s.exportRecords.flatten.length ≤ 0xFFFF)
include hsize

theorem lib_record (hi : i < s.exports.length) :
    Written s.lib.region (s.lib.lookup.getD (i + 1) 0)
      (symbolRecord s.alignment (exportEntry s.sections s.exports[i]) s.exports[i].name) := by
  have hi' : i + 1 < s.exportRecords.length := by
    rw [length_exportRecords]
    omega
  have hle := record_end_le hi'
  have hoff : s.lib.lookup.getD (i + 1) 0 = (s.exportRecords.take (i + 1)).flatten.length := by
    have hlt : (s.exportRecords.take (i + 1)).flatten.length < 256 ^ 2 := by omega
    have hlen : i + 1 < (recordOffsets s.exportRecords).length := by
      rwa [length_recordOffsets]
    simp only [YaffInput.lib, List.getD_eq_getElem?_getD, List.getElem?_map,
      List.getElem?_eq_getElem hlen, getElem_recordOffsets, Option.map_some, Option.getD_some]
    exact mod_eq_of_lt hlt
  have hw : Written s.lib.region 0 s.exportRecords.flatten := ⟨[0#8], rfl⟩
  have hrec := hw.record hi'
  rw [Nat.zero_add, getElem_exportRecords hi hi'] at hrec
  rw [hoff]
  exact hrec

theorem lib_entryAt (hi : i < s.exports.length) :
    s.lib.entryAt (i + 1) = exportEntry s.sections s.exports[i] := by
  have hw := (lib_record hsize hi).left.leNat_eq
  rw [YaffLib.entryAt, hw, mod_eq_of_lt (by omega), BitVec.ofNat_toNat, BitVec.setWidth_eq,
    YaffSymbolEntry.ofWord_word]

theorem lib_nameAt (hi : i < s.exports.length) :
    s.lib.nameAt (i + 1) = s.exports[i].name := by
  have hmem : s.exports[i] ∈ s.dynsym :=
    mem_of_mem_drop (mem_of_mem_filter (getElem_mem hi))
  have hw := (lib_record hsize hi).right
  exact hw.cstr_eq (s.names _ hmem)

end

variable {l : List ℕ}

theorem findFrom_eq {lib : YaffLib} {name : SymName} (h : Chain (fun i => lib.chain.getD i 0) i l)
    (hl : ∀ x ∈ l, x < lib.nsyms) {fuel : ℕ} (hf : l.length < fuel) :
    lib.findFrom name fuel i = (l.find? fun x => lib.nameAt x = name).map lib.entryAt := by
  induction h generalizing fuel with
  | nil =>
    cases fuel with
    | zero => rfl
    | succ fuel => simp [YaffLib.findFrom]
  | @cons i l hi _ ih =>
    cases fuel with
    | zero => exact absurd hf (Nat.not_lt_zero _)
    | succ fuel =>
      have hlt : ¬lib.nsyms ≤ i := Nat.not_le_of_lt (hl i mem_cons_self)
      have ih' := ih (fun x hx => hl x (mem_cons_of_mem _ hx)) (lt_of_succ_lt_succ hf)
      by_cases hn : lib.nameAt i = name
      · simp [YaffLib.findFrom, hi, hlt, hn]
      · simpa [YaffLib.findFrom, hi, hlt, hn] using ih'

theorem lib_chain (hsize : s.exports.length + 1 < 4294967296) {h : ℕ}
    (hh : h < s.exports.length + 2)
    (hc : Chain s.exportLookup.hashtable.chain (s.exportLookup.hashtable.bucket h) l)
    (hl : ∀ x ∈ l, x < s.exports.length + 1) :
    Chain (fun i => s.lib.chain.getD i 0) (s.lib.bucket.getD h 0) l := by
  -- every link of the written chain is a small number, so it comes back unchanged
  have hmod : ∀ x, x = 0 ∨ x ∈ l → x % 256 ^ 4 = x := by
    rintro x (rfl | hx)
    · rfl
    · exact mod_eq_of_lt (by have := hl x hx; omega)
  have hb : s.lib.bucket.getD h 0 = s.exportLookup.hashtable.bucket h := by
    simp only [YaffInput.lib, List.getD_eq_getElem?_getD, List.getElem?_map,
      List.getElem?_range hh, Option.map_some, Option.getD_some]
    exact hmod _ hc.head_mem
  rw [hb]
  apply hc.congr
  intro x hx
  simp only [YaffInput.lib, List.getD_eq_getElem?_getD, List.getElem?_map,
    List.getElem?_range (hl x hx), Option.map_some, Option.getD_some]
  exact hmod _ (hc.next_mem x hx)

theorem find_bucketList {signed : Bool} {nb : ℕ} (syms : List ElfSym) (name : SymName) :
    (bucketList (yaffSlot signed (nameOf syms) nb) (syms.length + 1)
      ((tccYaffHash signed name).toNat % nb)).find? (fun x => nameOf syms x = name) =
    ((List.range syms.length).find? fun j => nameOf syms (j + 1) = name).map (· + 1) := by
  rw [bucketList, List.find?_filter, range_succ_eq_map, List.find?_cons_of_neg (by simp),
    List.find?_map]
  congr 2
  funext j
  by_cases hn : nameOf syms (j + 1) = name
  · simp [yaffSlot, hn]
  · simp [hn]

theorem find_exports (syms : List ElfSym) (name : SymName) :
    syms.find? (fun sym => sym.name = name) =
      ((List.range syms.length).find? fun j => nameOf syms (j + 1) = name).map
        fun j => syms.getD j default := by
  have hmap : syms = (List.range syms.length).map fun j => syms.getD j default := by
    apply ext_getElem
    · simp
    · intro i h₁ h₂
      simp [h₁]
  conv_lhs => rw [hmap]
  rw [List.find?_map]
  rfl

theorem yaffLibFind_lib (ha : 0 < s.alignment) (herr : s.exportLookup.nbErrors = 0)
    (name : SymName) : s.lib.yaffLibFind (tccYaffHash s.charSigned name) name =
      (s.exports.find? fun sym => sym.name = name).map (exportEntry s.sections) := by
  have hinv := exportLookup_invariant ha
  obtain ⟨hsize, hcount⟩ := export_size ha herr
  have hb : (tccYaffHash s.charSigned name).toNat % (s.exports.length + 2) < s.exports.length + 2 :=
    mod_lt _ (succ_pos _)
  have hlt : ∀ x ∈ bucketList (yaffSlot s.charSigned (nameOf s.exports) (s.exports.length + 2))
      (s.exports.length + 1) ((tccYaffHash s.charSigned name).toNat % (s.exports.length + 2)),
      0 < x ∧ x < s.exports.length + 1 := by
    intro x hx
    exact ⟨(mem_bucketList.mp hx).2.1, (mem_bucketList.mp hx).1⟩
  have hchain := hinv.hash.chains
  rw [hinv.nbucket] at hchain
  have hwalk : s.lib.yaffLibFind (tccYaffHash s.charSigned name) name = _ :=
    findFrom_eq (lib_chain (by omega) hb (hchain _ hb) fun x hx => (hlt x hx).2)
      (fun x hx => (hlt x hx).2) (lt_succ_of_le length_bucketList_le)
  -- names and entries of the reader are those of the exported symbols
  have hname : ∀ x ∈ bucketList (yaffSlot s.charSigned (nameOf s.exports) (s.exports.length + 2))
      (s.exports.length + 1) ((tccYaffHash s.charSigned name).toNat % (s.exports.length + 2)),
      decide (s.lib.nameAt x = name) = decide (nameOf s.exports x = name) := by
    intro x hx
    obtain ⟨j, rfl⟩ : ∃ j, x = j + 1 := ⟨x - 1, by have := (hlt x hx).1; omega⟩
    have hj : j < s.exports.length := by have := (hlt _ hx).2; omega
    rw [lib_nameAt hsize hj]
    simp [nameOf, hj]
  rw [hwalk, List.find?_congr hname, find_bucketList, find_exports, Option.map_map, Option.map_map]
  apply Option.map_congr
  intro j hj
  have hj' : j < s.exports.length := List.mem_range.mp (List.mem_of_find?_eq_some hj)
  simp only [Function.comp_apply, lib_entryAt hsize hj']
  simp [hj']

end Find

end Tinycc
