import Tinycc.Arm.HotVeneer
import Tinycc.Lib.FirstSeen
import Tinycc.Obj.ElfSymSound

namespace Tinycc
open Lib Function List Nat

section Model

inductive SymBind
  | loc | glob | weak
  deriving DecidableEq, Repr

/-- The relocations that the passes over the text tell apart. -/
inductive HotRelType
  | thmPc22 | thmJump24 | thmJump19 | thmJump6 | thmPc12 | thmPc8 | thmAluPrel110 | movtPrel
  | movwPrelNc | rel32 | prel31 | yasosHotVeneer
  | other (n : ℕ)
  deriving DecidableEq, Repr

structure HotSym where
  name : SymName
  bind : SymBind
  shndx : ℕ
  value : BitVec 32

structure HotRel where
  offset : BitVec 32
  type : HotRelType
  sym : ℕ
  deriving DecidableEq, Repr

/-- What the passes only read: the number of the text section, the start of the block and
`hot_text_flash_names`. -/
structure HotEnv where
  textShnum : ℕ
  hotStart : ℕ
  flashName : SymName → Bool

/-- What `snprintf` makes of a name with `%d` at its end. -/
def numberedName (base : String) (n : ℕ) : SymName := cName (base ++ n.repr)

def hotVeneerName : ℕ → SymName := numberedName "__tcc_hot_veneer_"

structure HotState where
  rels : List HotRel
  syms : List HotSym
  textSize : ℕ
  hotEnd : ℕ
  /-- the relocations that are reported to reach across the block -/
  errors : List HotRel := []

inductive HotSide
  | block | rest
  deriving DecidableEq, Repr

def HotSide.code : HotSide → BitVec 8
  | block => 1#8
  | rest => 2#8

def hotTextPcRelative : HotRelType → Bool
  | .thmJump19 | .thmJump6 | .thmPc12 | .thmPc8 | .thmAluPrel110 | .movtPrel | .movwPrelNc | .rel32
  | .prel31 => true
  | _ => false

def HotRelType.isBranch (t : HotRelType) : Bool := t = .thmPc22 || t = .thmJump24

variable (env : HotEnv)

def hotInBlock (hotEnd : ℕ) (a : BitVec 32) : Bool := env.hotStart ≤ a.toNat && a.toNat < hotEnd

def hotTextBranchSide (hotEnd : ℕ) (sym : HotSym) (src : BitVec 32) : Option HotSide :=
  let srcHot := hotInBlock env hotEnd src
  let inText := sym.shndx = env.textShnum
  if sym.shndx = 0 ∧ sym.bind = .weak then none
  else if ¬inText then if srcHot then some .block else none
  else if srcHot = hotInBlock env hotEnd (sym.value &&& ~~~1#32) then none
  else if srcHot = false ∧ env.flashName sym.name then none
  else if srcHot then some .block else some .rest

def hotCrosses (hotEnd nbSyms : ℕ) (syms : List HotSym) (rel : HotRel) : Option (ℕ × HotSide) :=
  if rel.type.isBranch = false ∨ rel.sym = 0 ∨ nbSyms ≤ rel.sym then none
  else
    match syms[rel.sym]? with
    | none => none
    | some sym => (hotTextBranchSide env hotEnd sym rel.offset).map (rel.sym, ·)

/-- The loop of `arm_hot_text_veneer_bytes`: what was seen and the number of veneers. -/
def hotCountLoop (hotEnd : ℕ) (syms : List HotSym) :
    (ℕ → BitVec 8) × ℕ → List HotRel → (ℕ → BitVec 8) × ℕ
  | acc, [] => acc
  | (seen, n), rel :: rels =>
    match hotCrosses env hotEnd syms.length syms rel with
    | none => hotCountLoop hotEnd syms (seen, n) rels
    | some (sym, side) =>
      if seen sym &&& side.code = 0#8 then
        hotCountLoop hotEnd syms (update seen sym (seen sym ||| side.code), n + 1) rels
      else hotCountLoop hotEnd syms (seen, n) rels

/-- `arm_hot_text_veneer_bytes`; a text without a relocation section has no relocations. -/
def armHotTextVeneerBytes (s : HotState) : ℕ :=
  if s.hotEnd = 0 then 0
  else (hotCountLoop env s.hotEnd s.syms (fun _ => 0#8, 0) s.rels).2 * hotVeneerSize

/-- `set_elf_sym` for a hidden global symbol: a definition that is there stays, a weak or an
undefined one is replaced. -/
def hotSetElfSym (syms : List HotSym) (value : BitVec 32) (shndx : ℕ) (name : SymName) :
    ℕ × List HotSym :=
  match syms.findIdx? fun s => s.bind ≠ .loc ∧ s.name = name with
  | none => (syms.length, syms ++ [⟨name, .glob, shndx, value⟩])
  | some i =>
    (i, syms.modify i fun s =>
      if s.shndx ≠ 0 ∧ s.bind ≠ .weak then s
      else { s with bind := .glob, shndx := shndx, value := value })

/-- The state of a pass: `veneer_of`, the veneers' own relocations, which come after the others, and
the number of veneers. -/
structure VeneerState where
  veneerOf : ℕ → ℕ
  newRels : List HotRel
  syms : List HotSym
  textSize : ℕ
  nVeneers : ℕ
  errors : List HotRel

def hotNewVeneer (st : VeneerState) (sym : ℕ) : VeneerState :=
  let off := st.textSize + st.textSize % 2
  let added := hotSetElfSym st.syms (BitVec.ofNat 32 off ||| 1#32) env.textShnum
    (hotVeneerName st.nVeneers)
  { st with
    veneerOf := update st.veneerOf sym added.1
    newRels := st.newRels ++ [⟨BitVec.ofNat 32 off, .yasosHotVeneer, sym⟩]
    syms := added.2
    textSize := off + hotVeneerSize
    nVeneers := st.nVeneers + 1 }

def hotReachesAcross (hotEnd : ℕ) (sym : HotSym) (rel : HotRel) : Bool :=
  hotTextPcRelative rel.type && sym.shndx ≠ 0 &&
    hotInBlock env hotEnd rel.offset ≠
      (sym.shndx = env.textShnum && hotInBlock env hotEnd (sym.value &&& ~~~1#32))

def hotVeneerRel (side : HotSide) (blockEnd nbSyms : ℕ) (st : VeneerState) (rel : HotRel) :
    HotRel × VeneerState :=
  if rel.sym = 0 ∨ nbSyms ≤ rel.sym then (rel, st)
  else
    match st.syms[rel.sym]? with
    | none => (rel, st)
    | some sym =>
      if rel.type.isBranch = false then
        if side = .block ∧ hotReachesAcross env blockEnd sym rel then
          (rel, { st with errors := st.errors ++ [rel] })
        else (rel, st)
      else if hotTextBranchSide env blockEnd sym rel.offset ≠ some side then (rel, st)
      else
        let st := if st.veneerOf rel.sym = 0 then hotNewVeneer env st rel.sym else st
        ({ rel with sym := st.veneerOf rel.sym }, st)

def hotVeneerPass (side : HotSide) (blockEnd nbSyms : ℕ) :
    VeneerState → List HotRel → List HotRel × VeneerState
  | st, [] => ([], st)
  | st, rel :: rels =>
    let one := hotVeneerRel env side blockEnd nbSyms st rel
    let rest := hotVeneerPass side blockEnd nbSyms one.2 rels
    (one.1 :: rest.1, rest.2)

def armAddHotTextVeneers (s : HotState) : HotState :=
  if s.hotEnd = 0 then s
  else
    let pass1 := hotVeneerPass env .block s.hotEnd s.syms.length
      ⟨fun _ => 0, [], s.syms, s.textSize, 0, s.errors⟩ s.rels
    let pass2 := hotVeneerPass env .rest s.hotEnd s.syms.length
      { pass1.2 with veneerOf := fun _ => 0 } pass1.1
    { rels := pass2.1 ++ pass2.2.newRels
      syms := pass2.2.syms
      textSize := pass2.2.textSize
      hotEnd := pass1.2.textSize
      errors := pass2.2.errors }

end Model

theorem decode_cName {s : String} (hs : ∀ c ∈ s.toList, c.toNat < 256) :
    (cName s).map (fun b => Char.ofNat b.toNat) = s.toList := by
  rw [cName, map_map]
  refine (map_congr_left fun c hc => ?_).trans (map_id _)
  rw [comp_apply, BitVec.toNat_ofNat, mod_eq_of_lt (hs c hc), Char.ofNat_toNat]
  rfl

theorem numberedName_injective {base : String} (hbase : ∀ c ∈ base.toList, c.toNat < 256) :
    Injective (numberedName base) := by
  have hascii : ∀ n : ℕ, ∀ c ∈ (base ++ n.repr).toList, c.toNat < 256 := by
    intro n c hc
    rw [String.toList_append, toList_repr, mem_append] at hc
    rcases hc with hc | hc
    · exact hbase c hc
    · have hd := isDigit_of_mem_toDigits (by decide) (by decide) hc
      rw [Char.isDigit, Bool.and_eq_true, decide_eq_true_eq, decide_eq_true_eq] at hd
      exact lt_of_le_of_lt hd.2 (by decide)
  intro m n h
  have hlist : (base ++ m.repr).toList = (base ++ n.repr).toList := by
    rw [← decode_cName (hascii m), ← decode_cName (hascii n)]
    exact congrArg _ h
  rw [String.toList_append, String.toList_append, toList_repr, toList_repr] at hlist
  have hdigits := congrArg (ofDigitChars 10 · 0) (append_cancel_left hlist)
  simpa only [ofDigitChars_ten_toDigits] using hdigits

theorem length_le_numberedName (base : String) (n : ℕ) :
    base.toList.length ≤ (numberedName base n).length := by
  rw [numberedName, cName, length_map, String.toList_append, length_append]
  exact le_add_right _ _

theorem hotVeneerName_injective : Injective hotVeneerName :=
  numberedName_injective (by simp)

section Invariant

variable (env : HotEnv) (s : HotState)

def veneerOffset (i : ℕ) : ℕ := s.textSize + s.textSize % 2 + hotVeneerSize * i

def veneerSym (i : ℕ) : HotSym :=
  ⟨hotVeneerName i, .glob, env.textShnum, BitVec.ofNat 32 (veneerOffset s i) ||| 1#32⟩

def veneerRel (i : ℕ) (p : ℕ × HotSide) : HotRel :=
  ⟨BitVec.ofNat 32 (veneerOffset s i), .yasosHotVeneer, p.1⟩

/-- The veneers for `D` have been added, in this order, and `veneer_of` knows those of a side. -/
structure Built (side : HotSide) (D : List (ℕ × HotSide)) (st : VeneerState) : Prop where
  syms : st.syms = s.syms ++ (List.range D.length).map (veneerSym env s)
  newRels : st.newRels = D.mapIdx (veneerRel s)
  textSize : st.textSize =
    s.textSize + (if D = [] then 0 else s.textSize % 2) + hotVeneerSize * D.length
  nVeneers : st.nVeneers = D.length
  veneerOf : ∀ sym, st.veneerOf sym =
    if (sym, side) ∈ D then s.syms.length + D.idxOf (sym, side) else 0

variable {env s} {side : HotSide} {D : List (ℕ × HotSide)} {st : VeneerState}

theorem Built.offset (h : Built env s side D st) :
    st.textSize + st.textSize % 2 = veneerOffset s D.length := by
  rw [h.textSize]
  unfold veneerOffset hotVeneerSize
  split
  · next hD =>
    omega
  · omega

theorem Built.withErrors (h : Built env s side D st) (errors : List HotRel) :
    Built env s side D { st with errors := errors } :=
  ⟨h.syms, h.newRels, h.textSize, h.nVeneers, h.veneerOf⟩

def HotState.crosses (env : HotEnv) (s : HotState) (rel : HotRel) : Option (ℕ × HotSide) :=
  hotCrosses env s.hotEnd s.syms.length s.syms rel

/-- The pair that a relocation offers in the pass of a side. -/
def HotState.offered (env : HotEnv) (s : HotState) (side : HotSide) (rel : HotRel) :
    List (ℕ × HotSide) :=
  (s.crosses env rel).toList.filter fun p => p.2 = side

def HotState.redirect (env : HotEnv) (s : HotState) (D : List (ℕ × HotSide)) (side : HotSide)
    (rel : HotRel) : HotRel :=
  match s.offered env side rel with
  | [] => rel
  | p :: _ => { rel with sym := s.syms.length + D.idxOf p }

variable {rel : HotRel}

theorem crosses_of_index (h : rel.sym = 0 ∨ s.syms.length ≤ rel.sym) : s.crosses env rel = none :=
  if_pos (Or.inr h)

theorem crosses_of_not_branch (h : rel.type.isBranch = false) : s.crosses env rel = none :=
  if_pos (Or.inl h)

theorem crosses_of_branch {sym : HotSym} (htype : rel.type.isBranch = true) (h0 : rel.sym ≠ 0)
    (hsym : s.syms[rel.sym]? = some sym) :
    s.crosses env rel =
      (hotTextBranchSide env s.hotEnd sym rel.offset).map (rel.sym, ·) := by
  have hlt : rel.sym < s.syms.length := (List.getElem?_eq_some_iff.mp hsym).1
  unfold HotState.crosses hotCrosses
  rw [if_neg, hsym]
  rintro (hbranch | hzero | hle)
  · rw [htype] at hbranch
    cases hbranch
  · exact h0 hzero
  · omega

theorem redirect_of_offered_nil (h : s.offered env side rel = []) :
    s.redirect env D side rel = rel := by
  unfold HotState.redirect
  rw [h]

theorem hotSetElfSym_veneer (syms : List HotSym) (mk : ℕ → HotSym) (n : ℕ) {name : SymName}
    (hold : ∀ e ∈ syms, e.name ≠ name) (hmade : ∀ i < n, (mk i).name ≠ name) (v : BitVec 32)
    (sec : ℕ) : hotSetElfSym (syms ++ (List.range n).map mk) v sec name =
      (syms.length + n, syms ++ (List.range n).map mk ++ [⟨name, .glob, sec, v⟩]) := by
  unfold hotSetElfSym
  rw [List.findIdx?_eq_none_iff.mpr, length_append, length_map, length_range]
  intro e he
  rw [decide_eq_false_iff_not]
  rintro ⟨-, hname⟩
  rcases List.mem_append.mp he with he | he
  · exact hold e he hname
  · obtain ⟨i, hi, rfl⟩ := List.mem_map.mp he
    exact hmade i (List.mem_range.mp hi) hname

def HotSym.of (e : ElfSym) : HotSym where
  name := e.name
  bind := if stBind e.info = stbLocal then .loc else if stBind e.info = stbWeak then .weak else .glob
  shndx := e.shndx.toNat
  value := e.value

theorem HotSym.of_bind_ne_loc {e : ElfSym} :
    (HotSym.of e).bind ≠ .loc ↔ stBind e.info ≠ stbLocal := by
  unfold HotSym.of
  dsimp only
  split_ifs with h h'
  · simp [h]
  · simp [h]
  · simp [h]

theorem HotSym.of_new {c : ElfSymArgs} {name : SymName} (hc : c.Strong) :
    HotSym.of ⟨name, c.value, c.size, c.info, c.other, c.shndx⟩ =
      ⟨name, .glob, c.shndx.toNat, c.value⟩ := by
  have hs : stBind c.info = stbGlobal := hc
  have h1 : stbGlobal ≠ stbLocal := by decide
  have h2 : stbGlobal ≠ stbWeak := by decide
  simp only [HotSym.of, hs, if_neg h1, if_neg h2]

theorem HotSym.of_setExisting {bss : BitVec 16} {dynsym : Bool} {e : ElfSym} {c : ElfSymArgs}
    (hc : c.Strong) (hh : c.Hidden) (hd : c.Defines) :
    HotSym.of (setExisting bss dynsym e c).1 =
      if (HotSym.of e).shndx ≠ 0 ∧ (HotSym.of e).bind ≠ .weak then HotSym.of e
      else { HotSym.of e with bind := .glob, shndx := c.shndx.toNat, value := c.value } := by
  have hs : stBind c.info = stbGlobal := hc
  have hd' : c.shndx ≠ shnUndef := hd
  have hgl : stbGlobal ≠ stbLocal := by decide
  have hgw : stbGlobal ≠ stbWeak := by decide
  have hlw : stbLocal ≠ stbWeak := by decide
  have hundef : ∀ n : BitVec 16, n.toNat = 0 ↔ n = shnUndef := fun n => by
    rw [← BitVec.toNat_inj]
    rfl
  have hweak : (HotSym.of e).bind = .weak ↔ stBind e.info = stbWeak := by
    simp only [HotSym.of]
    split_ifs with h1 h2
    · simp [h1, hlw]
    · simp [h2]
    · simp [h2]
  have hpatch : ∀ x : ElfSym, x.name = e.name → HotSym.of (patchEntry x c) =
      { HotSym.of e with bind := .glob, shndx := c.shndx.toNat, value := c.value } := by
    intro x hx
    have hinfo : (patchEntry x c).info = c.info := stInfo_stBind_stType c.info
    have hname : (patchEntry x c).name = e.name := hx
    simp only [HotSym.of, hinfo, hname, hs, if_neg hgl, if_neg hgw]
    rfl
  unfold setExisting
  by_cases hr : e.Repeats c
  · have hei : stBind e.info = stbGlobal := by rw [hr.2.2.1, hs]
    have hes : e.shndx ≠ shnUndef := by rw [hr.2.2.2.2]; exact hd
    rw [if_pos hr, if_pos]
    exact ⟨fun h => hes ((hundef _).mp h), fun h => hgw (hei.symm.trans (hweak.mp h))⟩
  · rw [if_neg hr]
    by_cases hu : e.shndx = shnUndef
    · rw [if_neg (not_not.mpr hu), if_neg fun h => h.1 ((hundef _).mpr hu)]
      exact hpatch _ rfl
    · rw [if_pos hu]
      by_cases hw : stBind e.info = stbWeak
      · have ho : override bss dynsym (e.narrow c) c = .patch := by
          have hw' : stBind (e.narrow c).info = stbWeak := hw
          simp [override, hd', hs, hw']
        simp only [ho]
        rw [if_neg fun h => h.2 (hweak.mpr hw)]
        exact hpatch _ rfl
      · have ho : override bss dynsym (e.narrow c) c = .ignore := by
          have hw' : stBind (e.narrow c).info ≠ stbWeak := hw
          simp [override, hd', hs, hw', hgw, show stVisibility c.other = stvHidden ∨
            stVisibility c.other = stvInternal from hh]
        simp only [ho]
        rw [if_pos ⟨fun h => hu ((hundef _).mp h), fun h => hw (hweak.mp h)⟩]
        rfl

/-- On the symbols that the passes see, `hotSetElfSym` is `set_elf_sym` of a hidden definition. -/
theorem hotSetElfSym_eq_setElfSym {bss : BitVec 16} {t : Symtab} {name : SymName} {c : ElfSymArgs}
    {o : Option ElfSym} (ht : t.WellFormed) (hk : Symtab.keptName name = name)
    (hr : t.Represents name o) (hc : c.Strong) (hh : c.Hidden) (hd : c.Defines) :
    hotSetElfSym (t.syms.map HotSym.of) c.value c.shndx.toNat name =
      ((setElfSym bss t name c).2.1, (setElfSym bss t name c).1.syms.map HotSym.of) := by
  have hb : stBind c.info ≠ stbLocal := by
    rw [show stBind c.info = stbGlobal from hc]
    decide
  have hget : ∀ i (hi : i < t.syms.length), t.sym i = t.syms[i] := fun i hi =>
    List.getD_eq_getElem _ _ hi
  have hentry : ∀ i (hi : i < t.syms.length),
      ((HotSym.of t.syms[i]).bind ≠ .loc ∧ (HotSym.of t.syms[i]).name = name) ↔
        t.IsEntry name i := by
    intro i hi
    rw [HotSym.of_bind_ne_loc, Symtab.IsEntry, hget i hi]
    exact ⟨fun h => ⟨hi, h⟩, fun h => h.2⟩
  unfold hotSetElfSym
  cases o with
  | none =>
    obtain ⟨hash, hset, -⟩ := @setElfSym_of_new bss name c t ht hk hb hr
    rw [hset, List.findIdx?_eq_none_iff.mpr]
    · rw [length_map, map_append, map_singleton, HotSym.of_new hc]
    · intro e he
      obtain ⟨x, hx, rfl⟩ := List.mem_map.mp he
      obtain ⟨i, hi, rfl⟩ := List.mem_iff_getElem.mp hx
      rw [decide_eq_false_iff_not, hentry i hi]
      exact hr i
  | some e =>
    obtain ⟨i, rfl, hi⟩ := hr
    have hie := (hi i).mpr rfl
    have hfind : (t.syms.map HotSym.of).findIdx?
        (fun e => decide (e.bind ≠ .loc ∧ e.name = name)) = some i := by
      refine List.findIdx?_eq_some_iff_getElem.mpr ⟨by rw [length_map]; exact hie.1, ?_, ?_⟩
      · rw [decide_eq_true_iff, List.getElem_map]
        exact (hentry i hie.1).mpr hie
      · intro j hj
        rw [decide_eq_true_iff, List.getElem_map]
        exact fun h => hj.ne ((hi j).mp ((hentry j (hj.trans hie.1)).mp h))
    have hsym : (t.syms.map HotSym.of)[i]? = some (HotSym.of (t.sym i)) := by
      rw [List.getElem?_map, hget i hie.1, List.getElem?_eq_getElem]
      rfl
    rw [setElfSym_of_entry ht hb hi, hfind]
    simp only [Symtab.setSym, List.map_set, HotSym.of_setExisting hc hh hd,
      List.modify_eq_set_getElem?, hsym]
    rfl

section

variable (h : Built env s side D st) (hfresh : ∀ sym ∈ s.syms, ∀ n, sym.name ≠ hotVeneerName n)
include h hfresh

theorem Built.new {sym : ℕ}
    (hnew : (sym, side) ∉ D) : Built env s side (D ++ [(sym, side)]) (hotNewVeneer env st sym) := by
  have hset := hotSetElfSym_veneer s.syms (veneerSym env s) D.length
    (fun e he => hfresh e he D.length) (fun i hi heq => hi.ne (hotVeneerName_injective heq))
  rw [← h.syms, ← h.nVeneers] at hset
  constructor
  · unfold hotNewVeneer
    dsimp only
    rw [hset, h.offset, length_append, length_singleton, range_succ,
      map_append, ← append_assoc, ← h.syms, h.nVeneers]
    rfl
  · unfold hotNewVeneer
    rw [h.offset, mapIdx_concat, ← h.newRels]
    rfl
  · unfold hotNewVeneer
    dsimp only
    rw [h.offset, if_neg (by simp), length_append, length_singleton, mul_add]
    unfold veneerOffset
    omega
  · rw [length_append, ← h.nVeneers]
    rfl
  · unfold hotNewVeneer
    dsimp only
    rw [hset, h.nVeneers]
    exact update_idxOf_concat (Prod.mk_left_injective side) h.veneerOf hnew

theorem Built.insert {sym : ℕ} (hsym : sym < s.syms.length) :
    Built env s side (insertNew D (sym, side))
      (if st.veneerOf sym = 0 then hotNewVeneer env st sym else st) := by
  have hof := h.veneerOf sym
  by_cases hmem : (sym, side) ∈ D
  · rw [if_pos hmem] at hof
    rw [if_neg (by omega), insertNew_of_mem hmem]
    exact h
  · rw [if_neg hmem] at hof
    rw [if_pos hof, insertNew_of_not_mem hmem]
    exact h.new hfresh hmem

theorem hotVeneerRel_spec (rel : HotRel) :
    Built env s side (firstSeen D (s.offered env side rel))
        (hotVeneerRel env side s.hotEnd s.syms.length st rel).2 ∧
      (hotVeneerRel env side s.hotEnd s.syms.length st rel).1 =
        s.redirect env (firstSeen D (s.offered env side rel)) side rel := by
  -- a relocation that offers nothing is left as it is
  have hskip : s.offered env side rel = [] →
      Built env s side (firstSeen D (s.offered env side rel)) st ∧
        rel = s.redirect env (firstSeen D (s.offered env side rel)) side rel := by
    intro hnil
    rw [redirect_of_offered_nil hnil, hnil]
    exact ⟨h, rfl⟩
  unfold hotVeneerRel
  by_cases hindex : rel.sym = 0 ∨ s.syms.length ≤ rel.sym
  · rw [if_pos hindex]
    exact hskip (by rw [HotState.offered, crosses_of_index hindex]; rfl)
  · rw [if_neg hindex]
    push Not at hindex
    obtain ⟨h0, hlt⟩ := hindex
    have hsym : s.syms[rel.sym]? = some s.syms[rel.sym] := List.getElem?_eq_getElem hlt
    have hget : st.syms[rel.sym]? = some s.syms[rel.sym] := by
      rw [h.syms, List.getElem?_append_left hlt, hsym]
    rw [hget]
    dsimp only
    cases htype : rel.type.isBranch with
    | false =>
      have hnil : s.offered env side rel = [] := by
        rw [HotState.offered, crosses_of_not_branch htype]
        rfl
      rw [if_pos rfl]
      split
      · exact ⟨(hskip hnil).1.withErrors _, (hskip hnil).2⟩
      · exact hskip hnil
    | true =>
      have hcrosses : s.crosses env rel =
          (hotTextBranchSide env s.hotEnd s.syms[rel.sym] rel.offset).map (rel.sym, ·) :=
        crosses_of_branch htype h0 hsym
      by_cases hside : hotTextBranchSide env s.hotEnd s.syms[rel.sym] rel.offset = some side
      · rw [if_neg (not_not.mpr hside)]
        rw [hside] at hcrosses
        have hoffered : s.offered env side rel = [(rel.sym, side)] := by
          rw [HotState.offered, hcrosses]
          simp
        have hbuilt := h.insert hfresh hlt
        have hmem : (rel.sym, side) ∈ insertNew D (rel.sym, side) :=
          mem_insertNew.mpr (Or.inr rfl)
        rw [HotState.redirect, hoffered]
        refine ⟨hbuilt, ?_⟩
        rw [hbuilt.veneerOf, if_pos hmem]
        rfl
      · rw [if_pos hside]
        apply hskip
        rw [HotState.offered, hcrosses]
        cases hb : hotTextBranchSide env s.hotEnd s.syms[rel.sym] rel.offset with
        | none => rfl
        | some side' =>
          rw [hb] at hside
          simpa using hside

theorem hotVeneerPass_spec (rels : List HotRel) :
    Built env s side (firstSeen D (rels.flatMap (s.offered env side)))
        (hotVeneerPass env side s.hotEnd s.syms.length st rels).2 ∧
      (hotVeneerPass env side s.hotEnd s.syms.length st rels).1 =
        rels.map (s.redirect env (firstSeen D (rels.flatMap (s.offered env side))) side) := by
  induction rels generalizing D st with
  | nil => exact ⟨h, rfl⟩
  | cons rel rels ih =>
    obtain ⟨hone, hrel⟩ := hotVeneerRel_spec h hfresh rel
    obtain ⟨hrest, hrels⟩ := ih hone
    have happend : firstSeen D ((rel :: rels).flatMap (s.offered env side)) =
        firstSeen (firstSeen D (s.offered env side rel)) (rels.flatMap (s.offered env side)) := by
      exact foldl_append
    rw [happend]
    refine ⟨hrest, ?_⟩
    unfold hotVeneerPass
    dsimp only
    rw [hrel]
    congr 1
    unfold HotState.redirect
    cases hoffered : s.offered env side rel with
    | nil => rfl
    | cons p ps =>
      have hmem : p ∈ firstSeen D (p :: ps) := mem_firstSeen.mpr (Or.inr mem_cons_self)
      dsimp only
      rw [idxOf_firstSeen hmem]

end

end Invariant

section Count

variable {env : HotEnv} {s : HotState}

theorem seen_update (x : BitVec 8) (side side' : HotSide) :
    (x ||| side.code) &&& side'.code ≠ 0#8 ↔ x &&& side'.code ≠ 0#8 ∨ side = side' := by
  revert x
  cases side <;> cases side' <;> decide

/-- `seen` marks the pairs that have been offered, and `n` is their number. -/
structure Counted (D : List (ℕ × HotSide)) (seen : ℕ → BitVec 8) (n : ℕ) : Prop where
  seen : ∀ sym side, seen sym &&& side.code ≠ 0#8 ↔ (sym, side) ∈ D
  count : n = D.length

theorem hotCountLoop_spec {D : List (ℕ × HotSide)} {seen : ℕ → BitVec 8} {n : ℕ}
    (h : Counted D seen n) (rels : List HotRel) :
    (hotCountLoop env s.hotEnd s.syms (seen, n) rels).2 =
      (firstSeen D (rels.filterMap (s.crosses env))).length := by
  induction rels generalizing D seen n with
  | nil => exact h.count
  | cons rel rels ih =>
    rw [hotCountLoop, filterMap_cons]
    unfold HotState.crosses at ih ⊢
    cases hotCrosses env s.hotEnd s.syms.length s.syms rel with
    | none => exact ih h
    | some p =>
      obtain ⟨sym, side⟩ := p
      dsimp only
      rw [firstSeen_cons]
      by_cases hseen : seen sym &&& side.code = 0#8
      · rw [if_pos hseen]
        have hnew : (sym, side) ∉ D := fun hmem => (h.seen sym side).mpr hmem hseen
        rw [insertNew_of_not_mem hnew]
        apply ih
        constructor
        · intro sym' side'
          rw [mem_append, mem_singleton, Prod.mk.injEq, update_apply]
          by_cases heq : sym' = sym
          · subst heq
            rw [if_pos rfl, seen_update, h.seen]
            tauto
          · rw [if_neg heq, h.seen]
            tauto
        · rw [length_append, ← h.count]
          rfl
      · rw [if_neg hseen, insertNew_of_mem ((h.seen sym side).mp hseen)]
        exact ih h

end Count

section Plan

variable {env : HotEnv} {s : HotState} {side : HotSide}
  {p : ℕ × HotSide} {rel : HotRel}

theorem crosses_of_hotEnd_zero (h : s.hotEnd = 0) (rel : HotRel) : s.crosses env rel = none := by
  have hblock : ∀ a, hotInBlock env 0 a = false := by
    intro a
    unfold hotInBlock
    simp
  have hside : ∀ sym src, hotTextBranchSide env 0 sym src = none := by
    intro sym src
    unfold hotTextBranchSide
    simp [hblock]
  unfold HotState.crosses hotCrosses
  rw [h]
  simp only [hside]
  split
  · rfl
  · split <;> rfl

theorem offered_eq (side : HotSide) (h : s.crosses env rel = some p) :
    s.offered env side rel = if p.2 = side then [p] else [] := by
  rw [HotState.offered, h]
  simp only [Option.toList_some, filter_cons, filter_nil, decide_eq_true_eq]

theorem offered_of_none (h : s.crosses env rel = none) : s.offered env side rel = [] := by
  rw [HotState.offered, h]
  rfl

theorem mem_offered : p ∈ s.offered env side rel ↔ s.crosses env rel = some p ∧ p.2 = side := by
  unfold HotState.offered
  rw [mem_filter, Option.mem_toList, decide_eq_true_eq]

/-- The branches of the block that have been redirected are left alone by the second pass. -/
theorem offered_redirect (D : List (ℕ × HotSide)) (rel : HotRel) :
    s.offered env .rest (s.redirect env D .block rel) = s.offered env .rest rel := by
  cases hcrosses : s.crosses env rel with
  | none => rw [redirect_of_offered_nil (offered_of_none hcrosses)]
  | some p =>
    by_cases hside : p.2 = .block
    · have hblock := offered_eq .block hcrosses
      rw [if_pos hside] at hblock
      rw [offered_eq .rest hcrosses, hside]
      apply offered_of_none
      unfold HotState.redirect
      rw [hblock]
      exact crosses_of_index (Or.inr (le_add_right _ _))
    · rw [redirect_of_offered_nil]
      rw [offered_eq .block hcrosses, if_neg hside]

theorem redirect_redirect {D₁ D₂ : List (ℕ × HotSide)}
    (hidx : ∀ p, s.crosses env rel = some p → p.2 = .block → D₁.idxOf p = D₂.idxOf p) :
    s.redirect env D₂ .rest (s.redirect env D₁ .block rel) =
      match s.crosses env rel with
      | none => rel
      | some p => { rel with sym := s.syms.length + D₂.idxOf p } := by
  have hsecond : s.offered env .rest (s.redirect env D₁ .block rel) = s.offered env .rest rel :=
    offered_redirect D₁ rel
  cases hcrosses : s.crosses env rel with
  | none =>
    rw [redirect_of_offered_nil (offered_of_none hcrosses),
      redirect_of_offered_nil (offered_of_none hcrosses)]
  | some p =>
    by_cases hside : p.2 = .block
    · rw [offered_eq .rest hcrosses, hside] at hsecond
      rw [redirect_of_offered_nil hsecond]
      unfold HotState.redirect
      rw [offered_eq .block hcrosses, if_pos hside]
      dsimp only
      rw [hidx p hcrosses hside]
    · have hrest : p.2 = .rest := by
        cases h : p.2 with
        | block => exact absurd h hside
        | rest => rfl
      have hfirst : s.redirect env D₁ .block rel = rel :=
        redirect_of_offered_nil (by rw [offered_eq .block hcrosses, if_neg hside])
      rw [hfirst]
      unfold HotState.redirect
      rw [offered_eq .rest hcrosses, if_pos hrest]

theorem built_nil (env : HotEnv) (s : HotState) (side : HotSide) :
    Built env s side [] ⟨fun _ => 0, [], s.syms, s.textSize, 0, s.errors⟩ where
  syms := by simp
  newRels := rfl
  textSize := by simp
  nVeneers := rfl
  veneerOf := fun _ => rfl

/-- The second pass starts from the veneers of the first, none of which is on its side. -/
theorem Built.other {D : List (ℕ × HotSide)} {st : VeneerState} (h : Built env s .block D st)
    (hD : ∀ p ∈ D, p.2 = .block) : Built env s .rest D { st with veneerOf := fun _ => 0 } where
  syms := h.syms
  newRels := h.newRels
  textSize := h.textSize
  nVeneers := h.nVeneers
  veneerOf := by
    intro sym
    rw [if_neg]
    intro hmem
    cases hD _ hmem

/-- The two scans make the same decisions. Each pair of a callee and a side with a branch that
crosses gets one veneer, and these branches alone go through them. The veneers of the block come
first, and the block is extended by them. -/
theorem armAddHotTextVeneers_spec (env : HotEnv) (s : HotState)
    (hfresh : ∀ sym ∈ s.syms, ∀ n, sym.name ≠ hotVeneerName n) :
    ∃ pairs : List (ℕ × HotSide), pairs.Nodup ∧
      (∀ p, p ∈ pairs ↔ ∃ rel ∈ s.rels, s.crosses env rel = some p) ∧
      armHotTextVeneerBytes env s = hotVeneerSize * pairs.length ∧
      (armAddHotTextVeneers env s).textSize =
        s.textSize + (if pairs = [] then 0 else s.textSize % 2) + hotVeneerSize * pairs.length ∧
      (armAddHotTextVeneers env s).syms =
        s.syms ++ (List.range pairs.length).map (veneerSym env s) ∧
      (armAddHotTextVeneers env s).rels =
        (s.rels.map fun rel =>
          match s.crosses env rel with
          | none => rel
          | some p => { rel with sym := s.syms.length + pairs.idxOf p }) ++
        pairs.mapIdx (veneerRel s) ∧
      ∃ block ≤ pairs.length,
        (∀ i p, pairs[i]? = some p → (p.2 = .block ↔ i < block)) ∧
        (s.hotEnd ≠ 0 → (armAddHotTextVeneers env s).hotEnd =
          s.textSize + (if block = 0 then 0 else s.textSize % 2) + hotVeneerSize * block) := by
  unfold armHotTextVeneerBytes armAddHotTextVeneers
  by_cases hend : s.hotEnd = 0
  · rw [if_pos hend, if_pos hend]
    refine ⟨[], nodup_nil, ?_, rfl, by simp, by simp, ?_, 0, le_refl 0, nofun,
      fun h => absurd hend h⟩
    · intro p
      simp [crosses_of_hotEnd_zero hend]
    · simp [crosses_of_hotEnd_zero hend]
  · rw [if_neg hend, if_neg hend]
    dsimp only
    obtain ⟨hbuilt₁, hrels₁⟩ := hotVeneerPass_spec (built_nil env s .block) hfresh s.rels
    have hblock : ∀ p ∈ firstSeen [] (s.rels.flatMap (s.offered env .block)), p.2 = .block := by
      intro p hp
      rcases mem_firstSeen.mp hp with hp | hp
      · cases hp
      · obtain ⟨rel, -, hrel⟩ := List.mem_flatMap.mp hp
        exact (mem_offered.mp hrel).2
    obtain ⟨hbuilt₂, hrels₂⟩ := hotVeneerPass_spec (hbuilt₁.other hblock) hfresh
      (hotVeneerPass env .block s.hotEnd s.syms.length
        ⟨fun _ => 0, [], s.syms, s.textSize, 0, s.errors⟩ s.rels).1
    rw [hrels₁, flatMap_map] at hbuilt₂ hrels₂
    simp only [offered_redirect] at hbuilt₂ hrels₂
    rw [hrels₁]
    generalize hD₁ : firstSeen [] (s.rels.flatMap (s.offered env .block)) = D₁ at *
    generalize hD₂ : firstSeen D₁ (s.rels.flatMap (s.offered env .rest)) = D₂ at *
    have hmem : ∀ p, p ∈ D₂ ↔ ∃ rel ∈ s.rels, s.crosses env rel = some p := by
      intro p
      rw [← hD₂, mem_firstSeen, ← hD₁, mem_firstSeen]
      simp only [mem_flatMap, mem_offered, not_mem_nil, false_or]
      constructor
      · rintro (⟨rel, hrel, hp, -⟩ | ⟨rel, hrel, hp, -⟩) <;> exact ⟨rel, hrel, hp⟩
      · rintro ⟨rel, hrel, hp⟩
        cases hside : p.2 with
        | block => exact Or.inl ⟨rel, hrel, hp, rfl⟩
        | rest => exact Or.inr ⟨rel, hrel, hp, rfl⟩
    have hnodup : D₂.Nodup := by
      rw [← hD₂, ← hD₁]
      exact nodup_firstSeen (nodup_firstSeen nodup_nil)
    -- what the second pass adds is on its side
    obtain ⟨T, hT⟩ : D₁ <+: D₂ := hD₂ ▸ prefix_firstSeen _ _
    have hrest : ∀ p ∈ T, p.2 = .rest := by
      intro p hp
      have hnew : p ∉ D₁ := fun h => (disjoint_of_nodup_append (hT ▸ hnodup)) h hp
      have hp₂ : p ∈ D₂ := hT ▸ mem_append_right D₁ hp
      rw [← hD₂, mem_firstSeen] at hp₂
      obtain ⟨rel, -, hrel⟩ := List.mem_flatMap.mp (hp₂.resolve_left hnew)
      exact (mem_offered.mp hrel).2
    refine ⟨D₂, hnodup, hmem, ?_, hbuilt₂.textSize, hbuilt₂.syms, ?_, D₁.length, ?_, ?_, ?_⟩
    · have hcounted : Counted [] (fun _ => 0#8) 0 := ⟨fun _ _ => by simp, rfl⟩
      rw [hotCountLoop_spec hcounted, mul_comm]
      congr 1
      apply List.Perm.length_eq
      rw [perm_ext_iff_of_nodup (nodup_firstSeen nodup_nil) hnodup]
      intro p
      rw [hmem, mem_firstSeen]
      simp
    · rw [hrels₂, hbuilt₂.newRels, map_map]
      congr 1
      apply map_congr_left
      intro rel hrel
      apply redirect_redirect
      -- the second pass keeps the places of the first
      intro p hp hside
      rw [← hD₂, idxOf_firstSeen]
      rw [← hD₁]
      exact mem_firstSeen.mpr (Or.inr (List.mem_flatMap.mpr ⟨rel, hrel, mem_offered.mpr ⟨hp, hside⟩⟩))
    · rw [← hT, length_append]
      exact le_add_right _ _
    · intro i p hp
      rw [← hT] at hp
      by_cases hi : i < D₁.length
      · rw [List.getElem?_append_left hi] at hp
        exact iff_of_true (hblock p (List.mem_of_getElem? hp)) hi
      · rw [List.getElem?_append_right (Nat.le_of_not_lt hi)] at hp
        rw [hrest p (List.mem_of_getElem? hp)]
        exact iff_of_false nofun hi
    · intro _
      rw [hbuilt₁.textSize]
      simp only [List.length_eq_zero_iff]

def hotEnvExample : HotEnv := ⟨1, 16, fun _ => false⟩

/-- A branch at 4 to the start of a block at 16, one back out of it, in a text of 33 bytes. -/
def hotStateExample : HotState where
  rels := [⟨4#32, .thmPc22, 1⟩, ⟨20#32, .thmPc22, 2⟩]
  syms := [⟨[], .loc, 0, 0#32⟩, ⟨cName "hot", .glob, 1, 17#32⟩, ⟨cName "cold", .glob, 1, 1#32⟩]
  textSize := 33
  hotEnd := 32

theorem armAddHotTextVeneers_spec_example :
    ∃ pairs : List (ℕ × HotSide),
      (∀ p, p ∈ pairs ↔
        ∃ rel ∈ hotStateExample.rels, hotStateExample.crosses hotEnvExample rel = some p) ∧
      armHotTextVeneerBytes hotEnvExample hotStateExample = hotVeneerSize * pairs.length := by
  have hfresh : ∀ sym ∈ hotStateExample.syms, ∀ n, sym.name ≠ hotVeneerName n := by
    have hshort : ∀ sym ∈ hotStateExample.syms, sym.name.length ≤ 4 := by decide
    intro sym hsym n hname
    have hle := hshort sym hsym
    rw [hname] at hle
    exact absurd ((length_le_numberedName "__tcc_hot_veneer_" n).trans hle) (by decide)
  obtain ⟨pairs, -, hmem, hbytes, -⟩ :=
    armAddHotTextVeneers_spec hotEnvExample hotStateExample hfresh
  exact ⟨pairs, hmem, hbytes⟩

/-- The padding is not in the count. -/
theorem armHotTextVeneerBytes_lt_growth :
    armHotTextVeneerBytes hotEnvExample hotStateExample = 40 ∧
      (armAddHotTextVeneers hotEnvExample hotStateExample).textSize =
        hotStateExample.textSize + 41 := by
  decide

end Plan

end Tinycc
