import Tinycc.Obj.ElfSym

namespace Tinycc
open Lib Function List Nat

section Hash

variable {hs : SymHash} {f g : ℕ → ElfSym} {n i h nb : ℕ}

def hashSlot (nb : ℕ) (f : ℕ → ElfSym) (i : ℕ) : Option ℕ :=
  if stBind (f i).info ≠ stbLocal then some ((elfHash (f i).name).toNat % nb) else none

/-- The hash knows the symbols below `n`, the last one first in each bucket. -/
structure SymHash.Indexes (hs : SymHash) (f : ℕ → ElfSym) (n : ℕ) : Prop where
  pos : 0 < hs.nbuckets
  chains : ∀ h < hs.nbuckets,
    Chain hs.chain (hs.bucket h) (bucketList (hashSlot hs.nbuckets f) n h).reverse
  cached : ∀ i < n, 0 < i → stBind (f i).info ≠ stbLocal → hs.hashVal i = elfHash (f i).name

theorem SymHash.Indexes.congr (hx : hs.Indexes f n)
    (heq : ∀ i < n, (g i).name = (f i).name ∧
      (stBind (g i).info ≠ stbLocal ↔ stBind (f i).info ≠ stbLocal)) :
    hs.Indexes g n where
  pos := hx.pos
  chains h hh := by
    have hslot : ∀ i < n, 0 < i → hashSlot hs.nbuckets g i = hashSlot hs.nbuckets f i := by
      intro i hi _
      simp only [hashSlot, (heq i hi).1, (heq i hi).2]
    rw [bucketList_congr hslot]
    exact hx.chains h hh
  cached i hi h0 hb := by
    rw [(heq i hi).1]
    exact hx.cached i hi h0 ((heq i hi).2.mp hb)

theorem SymHash.empty_indexes (hnb : 0 < nb) (f : ℕ → ElfSym) (c : ℕ) :
    (SymHash.mk nb (fun _ => 0) (fun _ => 0) (fun _ => 0#32) c).Indexes f 1 where
  pos := hnb
  chains h _ := by rw [bucketList_one]; exact .nil
  cached i hi h0 := by omega

theorem SymHash.Indexes.skip (hx : hs.Indexes f n) (hl : stBind (f n).info = stbLocal)
    (v : ℕ → BitVec 32) (hv : ∀ i < n, v i = hs.hashVal i) :
    ({ hs with chain := update hs.chain n 0, hashVal := v } : SymHash).Indexes f (n + 1)
    where
  pos := hx.pos
  chains h hh := by
    have hne : hashSlot hs.nbuckets f n ≠ some h := by simp [hashSlot, hl]
    rw [bucketList_succ_of_ne hne]
    exact (hx.chains h hh).update_of_notMem (by simpa using notMem_bucketList) 0
  cached i hi h0 hb := by
    have hin : i ≠ n := fun e => hb (e ▸ hl)
    change v i = _
    rw [hv i (by omega)]
    exact hx.cached i (by omega) h0 hb

theorem SymHash.Indexes.insert (hx : hs.Indexes f n) (hn : 0 < n) :
    (hs.insert n (f n)).Indexes f (n + 1) := by
  by_cases hl : stBind (f n).info ≠ stbLocal
  · have hslot : hashSlot hs.nbuckets f n = some ((elfHash (f n).name).toNat % hs.nbuckets) := by
      simp [hashSlot, hl]
    rw [SymHash.insert, if_pos hl]
    refine ⟨hx.pos, ?_, ?_⟩
    · intro h hh
      have hfresh : n ∉ (bucketList (hashSlot hs.nbuckets f) n h).reverse := by
        simpa using notMem_bucketList
      -- Only the bucket of the new symbol changes.
      by_cases hb : h = (elfHash (f n).name).toNat % hs.nbuckets
      · subst hb
        dsimp only at hh ⊢
        rw [update_self, bucketList_succ_of_eq hn hslot, reverse_append]
        exact (hx.chains _ hh).push (Nat.ne_of_gt hn) hfresh
      · have hne : hashSlot hs.nbuckets f n ≠ some h := by
          rw [hslot]
          simpa using Ne.symm hb
        dsimp only at hh ⊢
        rw [update_of_ne hb, bucketList_succ_of_ne hne]
        exact (hx.chains h hh).update_of_notMem hfresh _
    · intro i hi h0 hbi
      dsimp only
      by_cases hin : i = n
      · rw [hin, update_self]
      · rw [update_of_ne hin]
        exact hx.cached i (by omega) h0 hbi
  · have hl' : stBind (f n).info = stbLocal := by simpa using hl
    rw [SymHash.insert, if_neg hl]
    exact hx.skip hl' _ fun i hi => update_of_ne (by omega) _ _

end Hash

namespace Symtab

variable {s : Symtab} {name : SymName} {i j : ℕ} {e : ElfSym}

/-- The null symbol comes first and is local, and the hash knows all symbols. -/
structure WellFormed (s : Symtab) : Prop where
  nonempty : 0 < s.syms.length
  null : stBind (s.sym 0).info = stbLocal
  indexes : s.hash.Indexes s.sym s.syms.length

def IsEntry (s : Symtab) (name : SymName) (i : ℕ) : Prop :=
  i < s.syms.length ∧ stBind (s.sym i).info ≠ stbLocal ∧ (s.sym i).name = name

theorem IsEntry.pos (hs : s.WellFormed) (h : s.IsEntry name i) : 0 < i := by
  rcases Nat.eq_zero_or_pos i with rfl | hi
  · exact absurd hs.null h.2.1
  · exact hi

theorem initSymtab_wellFormed {nb : ℕ} (hnb : 0 < nb) (dynsym : Bool) :
    (initSymtab nb dynsym).WellFormed :=
  ⟨Nat.one_pos, (by decide : stBind 0 = stbLocal), SymHash.empty_indexes hnb _ 0⟩

theorem rebuildHash_indexes (hpos : 0 < s.syms.length) {nb : ℕ} (hnb : 0 < nb) :
    (s.rebuildHash nb).Indexes s.sym s.syms.length := by
  have key : (s.rebuildHash nb).Indexes s.sym (s.syms.length - 1 + 1) := by
    apply forRange_induction (fun k (hs : SymHash) => hs.Indexes s.sym (k + 1))
    · exact SymHash.empty_indexes hnb s.sym s.hash.nbHashedSyms
    · intro i hs _ hx
      exact hx.insert (succ_pos i)
  rwa [Nat.sub_add_cancel hpos] at key

theorem findElfSymWithHash_eq (hs : s.WellFormed) (name : SymName) : ∃ l : List ℕ,
    l.Pairwise (· > ·) ∧
    (∀ i, i ∈ l ∧ s.hash.hashVal i = elfHash name ∧ name = (s.sym i).name ↔ s.IsEntry name i) ∧
    s.findElfSymWithHash name (elfHash name) =
      (l.find? fun i => s.hash.hashVal i = elfHash name ∧ name = (s.sym i).name).getD 0 := by
  have hb : (elfHash name).toNat % s.hash.nbuckets < s.hash.nbuckets :=
    mod_lt _ hs.indexes.pos
  refine ⟨_, bucketList_reverse_descending, ?_, chainFind_eq (hs.indexes.chains _ hb) ?_⟩
  · intro i
    rw [mem_reverse, mem_bucketList]
    constructor
    · rintro ⟨⟨hi, h0, hslot⟩, _, hname⟩
      refine ⟨hi, ?_, hname.symm⟩
      intro hl
      simp [hashSlot, hl] at hslot
    · intro h
      have hc := hs.indexes.cached i h.1 (h.pos hs) h.2.1
      rw [h.2.2] at hc
      refine ⟨⟨h.1, h.pos hs, ?_⟩, hc, h.2.2.symm⟩
      rw [hashSlot, if_pos h.2.1, h.2.2]
  · rw [length_reverse]
    exact lt_succ_of_le length_bucketList_le

theorem findElfSymWithHash_spec (hs : s.WellFormed) (name : SymName) :
    (s.findElfSymWithHash name (elfHash name) = 0 ∧ ∀ i, ¬s.IsEntry name i) ∨
    (s.IsEntry name (s.findElfSymWithHash name (elfHash name)) ∧
      ∀ j, s.IsEntry name j → j ≤ s.findElfSymWithHash name (elfHash name)) := by
  obtain ⟨l, hdesc, hl, hfind⟩ := findElfSymWithHash_eq hs name
  rw [hfind]
  cases hj : l.find? fun i => s.hash.hashVal i = elfHash name ∧ name = (s.sym i).name with
  | none =>
    refine .inl ⟨rfl, fun i hi => ?_⟩
    obtain ⟨hi, hp⟩ := (hl i).mpr hi
    exact List.find?_eq_none.mp hj i hi (decide_eq_true hp)
  | some i =>
    have hp := List.find?_some hj
    refine .inr ⟨(hl i).mp ⟨List.mem_of_find?_eq_some hj, of_decide_eq_true hp⟩, fun k hk => ?_⟩
    obtain ⟨hkl, hpk⟩ := (hl k).mpr hk
    exact le_of_find?_descending hdesc hj hkl (decide_eq_true hpk)

theorem findElfSymWithHash_of_none (hs : s.WellFormed) (h : ∀ i, ¬s.IsEntry name i) :
    s.findElfSymWithHash name (elfHash name) = 0 := by
  rcases findElfSymWithHash_spec hs name with hz | hf
  · exact hz.1
  · exact absurd hf.1 (h _)

theorem findElfSymWithHash_of_unique (hs : s.WellFormed) (h : ∀ j, s.IsEntry name j ↔ j = i) :
    s.findElfSymWithHash name (elfHash name) = i := by
  rcases findElfSymWithHash_spec hs name with hz | hf
  · exact absurd ((h i).mpr rfl) (hz.2 i)
  · exact (h _).mp hf.1

theorem sym_append_lt (hi : i < s.syms.length) (hash : SymHash) (e : ElfSym) :
    (Symtab.mk (s.syms ++ [e]) hash s.dynsym).sym i = s.sym i := by
  simp [sym, List.getElem?_append_left hi]

theorem sym_append_self (hash : SymHash) (e : ElfSym) :
    (Symtab.mk (s.syms ++ [e]) hash s.dynsym).sym s.syms.length = e := by
  simp [sym]

theorem sym_setSym_self (hi : i < s.syms.length) (e : ElfSym) : (s.setSym i e).sym i = e := by
  simp [setSym, sym, hi]

theorem sym_setSym_ne (hj : j ≠ i) (e : ElfSym) : (s.setSym i e).sym j = s.sym j := by
  simp [setSym, sym, List.getElem?_set_ne (Ne.symm hj)]

/-- The table after `put_elf_sym` is the old one with the symbol behind it, and its hash knows
it. -/
theorem putElfSym_spec (hs : s.WellFormed) (e : ElfSym) : ∃ hash : SymHash,
    s.putElfSym e =
      (⟨s.syms ++ [{ e with name := keptName e.name }], hash, s.dynsym⟩, s.syms.length) ∧
    (⟨s.syms ++ [{ e with name := keptName e.name }], hash, s.dynsym⟩ : Symtab).WellFormed := by
  rw [putElfSym]
  generalize { e with name := keptName e.name } = e
  have hlen : (s.syms ++ [e]).length = s.syms.length + 1 := by simp
  have hwf : ∀ hash : SymHash, hash.Indexes (Symtab.mk (s.syms ++ [e]) s.hash s.dynsym).sym
      (s.syms.length + 1) → (⟨s.syms ++ [e], hash, s.dynsym⟩ : Symtab).WellFormed := by
    intro hash hx
    refine ⟨by simp, ?_, ?_⟩
    · rw [sym_append_lt hs.nonempty]
      exact hs.null
    · rw [hlen]
      exact hx
  have hold : s.hash.Indexes (Symtab.mk (s.syms ++ [e]) s.hash s.dynsym).sym s.syms.length := by
    apply hs.indexes.congr
    intro i hi
    rw [sym_append_lt hi]
    exact ⟨rfl, Iff.rfl⟩
  have hself := sym_append_self (s := s) s.hash e
  by_cases hb : stBind e.info ≠ stbLocal
  · have hins := hold.insert hs.nonempty
    rw [hself] at hins
    rw [if_pos hb]
    -- A table that has grown past twice its buckets is hashed anew.
    by_cases hgrow : 2 * (s.hash.insert s.syms.length e).nbuckets < s.hash.nbHashedSyms + 1
    · rw [if_pos hgrow]
      refine ⟨_, rfl, hwf _ ?_⟩
      have hpos : 0 < 2 * (s.hash.insert s.syms.length e).nbuckets :=
        Nat.mul_pos (by decide) hins.pos
      have hx := rebuildHash_indexes (s := ⟨s.syms ++ [e], s.hash, s.dynsym⟩) (by simp) hpos
      rw [hlen] at hx
      exact ⟨hx.pos, hx.chains, hx.cached⟩
    · rw [if_neg hgrow]
      exact ⟨_, rfl, hwf _ ⟨hins.pos, hins.chains, hins.cached⟩⟩
  · rw [if_neg hb]
    have hl : stBind ((Symtab.mk (s.syms ++ [e]) s.hash s.dynsym).sym s.syms.length).info =
        stbLocal := by
      rw [hself]
      simpa using hb
    exact ⟨_, rfl, hwf _ (hold.skip hl s.hash.hashVal fun _ _ => rfl)⟩

theorem putElfSyms_spec (hs : s.WellFormed) (calls : List ElfSym) :
    (s.putElfSyms calls).WellFormed ∧ (s.putElfSyms calls).syms =
      s.syms ++ calls.map fun e => { e with name := keptName e.name } := by
  induction calls generalizing s with
  | nil => exact ⟨hs, (append_nil _).symm⟩
  | cons e calls ih =>
    obtain ⟨hash, hput, hwf⟩ := putElfSym_spec hs e
    obtain ⟨hall, hsyms⟩ := ih hwf
    have hstep : s.putElfSyms (e :: calls) = (s.putElfSym e).1.putElfSyms calls := rfl
    rw [hstep, hput]
    refine ⟨hall, hsyms.trans ?_⟩
    simp

/-- The calls of `put_elf_sym` up to the last with a name, which is kept. -/
def LastCall (calls : List ElfSym) (name : SymName) (before : List ElfSym) : Prop :=
  ∃ c after, calls = before ++ c :: after ∧ stBind c.info ≠ stbLocal ∧ keptName c.name = name ∧
    ∀ d ∈ after, stBind d.info ≠ stbLocal → keptName d.name ≠ name

section Calls

variable {calls : List ElfSym} {nb : ℕ} {dynsym : Bool}

theorem sym_putElfSyms (hnb : 0 < nb) {c : ElfSym} (hc : calls[i]? = some c) :
    ((initSymtab nb dynsym).putElfSyms calls).sym (i + 1) = { c with name := keptName c.name } := by
  have h := (putElfSyms_spec (initSymtab_wellFormed hnb dynsym) calls).2
  rw [sym, h]
  simp [initSymtab, hc]

theorem isEntry_putElfSyms (hnb : 0 < nb) :
    ((initSymtab nb dynsym).putElfSyms calls).IsEntry name i ↔
      ∃ k c, i = k + 1 ∧ calls[k]? = some c ∧ stBind c.info ≠ stbLocal ∧ keptName c.name = name := by
  obtain ⟨hwf, hsyms⟩ := putElfSyms_spec (initSymtab_wellFormed hnb dynsym) calls
  constructor
  · intro h
    obtain ⟨k, rfl⟩ := exists_eq_succ_of_ne_zero (Nat.ne_of_gt (h.pos hwf))
    have hk : k < calls.length := by
      have := h.1
      rw [hsyms] at this
      simpa [initSymtab, Nat.add_comm] using this
    have hsym := @sym_putElfSyms k calls nb dynsym hnb _ (List.getElem?_eq_getElem hk)
    rw [IsEntry, hsym] at h
    exact ⟨k, _, rfl, List.getElem?_eq_getElem hk, h.2⟩
  · rintro ⟨k, c, rfl, hc, hb, hname⟩
    have hk := (List.getElem?_eq_some_iff.mp hc).1
    rw [IsEntry, sym_putElfSyms hnb hc, hsyms]
    refine ⟨?_, hb, hname⟩
    simpa [initSymtab, Nat.add_comm] using hk

/-- After any calls of `put_elf_sym` the symbols are those of the calls, the chain of each bucket
ends, and a search finds the last symbol of a name. -/
theorem putElfSyms_lookup (hnb : 0 < nb) (hs : s = (initSymtab nb dynsym).putElfSyms calls) :
    (∀ i c, calls[i]? = some c → s.sym (i + 1) = { c with name := keptName c.name } ∧
      (stBind c.info ≠ stbLocal → s.hash.hashVal (i + 1) = elfHash (keptName c.name))) ∧
    (∀ h < s.hash.nbuckets, ∃ l, Chain s.hash.chain (s.hash.bucket h) l ∧ l.Nodup) ∧
    ∀ name,
      (s.findElfSym name = 0 ∧ ∀ c ∈ calls, stBind c.info ≠ stbLocal → keptName c.name ≠ name) ∨
      ∃ before, LastCall calls name before ∧ s.findElfSym name = before.length + 1 := by
  have hwf : s.WellFormed := hs ▸ (putElfSyms_spec (initSymtab_wellFormed hnb dynsym) calls).1
  have hsym : ∀ i c, calls[i]? = some c → s.sym (i + 1) = { c with name := keptName c.name } :=
    fun i c hc => hs ▸ sym_putElfSyms hnb hc
  have hentry : ∀ name i, s.IsEntry name i ↔ _ := fun name i => hs ▸ isEntry_putElfSyms hnb
  refine ⟨fun i c hc => ⟨hsym i c hc, fun hb => ?_⟩, fun h hh => ?_, fun name => ?_⟩
  · have hi := (hentry (keptName c.name) (i + 1)).mpr ⟨i, c, rfl, hc, hb, rfl⟩
    have hcached := hwf.indexes.cached (i + 1) hi.1 (succ_pos i) hi.2.1
    rwa [hsym i c hc] at hcached
  · exact ⟨_, hwf.indexes.chains h hh, bucketList_reverse_descending.imp Nat.ne_of_gt⟩
  · have hfind : s.findElfSym name = s.findElfSymWithHash name (elfHash name) := by
      rw [findElfSym]
      split
      · next hle =>
        -- a table of the null symbol alone has no entry to find
        refine (findElfSymWithHash_of_none hwf fun i hi => ?_).symm
        have := hi.1
        have := hi.pos hwf
        omega
      · rfl
    rw [hfind]
    rcases findElfSymWithHash_spec hwf name with ⟨hz, hnone⟩ | ⟨hi, hlast⟩
    · refine .inl ⟨hz, fun c hc hb hname => ?_⟩
      obtain ⟨k, hk⟩ := mem_iff_getElem?.mp hc
      exact hnone (k + 1) ((hentry name (k + 1)).mpr ⟨k, c, rfl, hk, hb, hname⟩)
    · obtain ⟨k, c, hk, hc, hb, hname⟩ := (hentry name _).mp hi
      obtain ⟨hlt, rfl⟩ := List.getElem?_eq_some_iff.mp hc
      refine .inr ⟨calls.take k, ⟨calls[k], calls.drop (k + 1), by simp, hb, hname, ?_⟩, ?_⟩
      · intro d hd hbd hnd
        obtain ⟨m, hm⟩ := mem_iff_getElem?.mp hd
        rw [List.getElem?_drop] at hm
        have := hlast _ ((hentry name _).mpr ⟨k + 1 + m, d, rfl, hm, hbd, hnd⟩)
        omega
      · rw [hk, length_take, Nat.min_eq_left hlt.le]

theorem putElfSyms_lookup_oneBucket :
    ∃ before, LastCall [⟨[0x61], 0, 0, 0x10, 0, 1⟩, ⟨[0x61], 4, 0, 0x20, 0, 1⟩] [0x61] before ∧
      ((initSymtab 1 false).putElfSyms
        [⟨[0x61], 0, 0, 0x10, 0, 1⟩, ⟨[0x61], 4, 0, 0x20, 0, 1⟩]).findElfSym [0x61] =
        before.length + 1 :=
  ((putElfSyms_lookup Nat.one_pos rfl).2.2 [0x61]).resolve_left (by decide)

/-- A name that starts with a control character is not kept, and the symbol not found. -/
theorem putElfSyms_controlName :
    ∃ c : ElfSym, stBind c.info ≠ stbLocal ∧
      ((initSymtab 1 false).putElfSyms [c]).findElfSym c.name = 0 :=
  ⟨⟨[0x01, 0x61], 0, 0, 0x10, 0, 1⟩, by decide, by decide⟩

end Calls

theorem setSym_wellFormed (hs : s.WellFormed) (hi : s.IsEntry name i) (hname : e.name = name)
    (hb : stBind e.info ≠ stbLocal) : (s.setSym i e).WellFormed := by
  refine ⟨by simpa [setSym] using hs.nonempty, ?_, ?_⟩
  · rw [sym_setSym_ne (Nat.ne_of_lt (hi.pos hs))]
    exact hs.null
  · have hx : s.hash.Indexes (s.setSym i e).sym s.syms.length := by
      apply hs.indexes.congr
      intro j _
      by_cases hji : j = i
      · rw [hji, sym_setSym_self hi.1, hi.2.2, hname]
        exact ⟨rfl, iff_of_true hb hi.2.1⟩
      · rw [sym_setSym_ne hji]
        exact ⟨rfl, Iff.rfl⟩
    simpa [setSym] using hx

/-- The entry of a name, if there is one, is unique. -/
def Represents (s : Symtab) (name : SymName) : Option ElfSym → Prop
  | none => ∀ i, ¬s.IsEntry name i
  | some e => ∃ i, s.sym i = e ∧ ∀ j, s.IsEntry name j ↔ j = i

theorem represents_append (hnone : ∀ i, ¬s.IsEntry e.name i) (hb : stBind e.info ≠ stbLocal)
    (hash : SymHash) :
    (⟨s.syms ++ [e], hash, s.dynsym⟩ : Symtab).Represents e.name (some e) := by
  refine ⟨s.syms.length, sym_append_self hash e, ?_⟩
  intro j
  constructor
  · rintro ⟨hj, hbj, hnj⟩
    by_contra hne
    have hlt : j < s.syms.length := by
      simp only [length_append, length_singleton] at hj
      omega
    rw [sym_append_lt hlt] at hbj hnj
    exact hnone j ⟨hlt, hbj, hnj⟩
  · rintro rfl
    rw [IsEntry, sym_append_self]
    exact ⟨by simp, hb, rfl⟩

theorem represents_setSym (hi : ∀ j, s.IsEntry name j ↔ j = i) (hname : e.name = name)
    (hb : stBind e.info ≠ stbLocal) : (s.setSym i e).Represents name (some e) := by
  have hlt : i < s.syms.length := ((hi i).mpr rfl).1
  refine ⟨i, sym_setSym_self hlt e, ?_⟩
  intro j
  by_cases hji : j = i
  · subst hji
    rw [IsEntry, sym_setSym_self hlt]
    exact iff_of_true ⟨by simpa [setSym] using hlt, hb, hname⟩ rfl
  · rw [← hi j, IsEntry, IsEntry, sym_setSym_ne hji]
    simp [setSym]

end Symtab

end Tinycc
