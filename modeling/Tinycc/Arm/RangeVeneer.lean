import Tinycc.Arm.HotVeneerPlan

namespace Tinycc
open Lib Function List

section Model

/-- What `arm_add_range_veneers` only reads: the flags of the sections and their memory regions. -/
structure RangeEnv where
  nbSections : ℕ
  isCode : ℕ → Bool
  region : ℕ → Option ℕ
  origin : ℕ → ℕ

def rangeVeneerName : ℕ → SymName := numberedName "__tcc_veneer_"

theorem rangeVeneerName_injective : Injective rangeVeneerName :=
  numberedName_injective (by simp)

/-- What it changes: the bytes and the relocations of the sections and the symbols. -/
structure RangeState where
  data : ℕ → List (BitVec 8)
  rels : ℕ → List HotRel
  syms : List HotSym
  nVeneers : ℕ

def RangeEnv.symRegion (env : RangeEnv) (sym : HotSym) : Option ℕ :=
  if sym.shndx = 0 ∨ shnLoreserve.toNat ≤ sym.shndx ∨ env.nbSections ≤ sym.shndx then none
  else env.region sym.shndx

def RangeEnv.near (env : RangeEnv) (src dst : ℕ) : Bool :=
  dst = src || ((env.origin dst : ℤ) - env.origin src < 0x800000 &&
    -0x800000 < (env.origin dst : ℤ) - env.origin src)

def RangeEnv.far (env : RangeEnv) (src nbSyms : ℕ) (syms : List HotSym) (rel : HotRel) :
    Bool :=
  rel.type.isBranch && rel.sym ≠ 0 && (rel.sym < nbSyms : Bool) &&
    match syms[rel.sym]?.bind env.symRegion with
    | none => false
    | some dst => !env.near src dst

/-- `ldr.w pc, [pc, #0]` and the place of the address -/
def rangeVeneerCode : List (BitVec 8) := [0xdf, 0xf8, 0x00, 0xf0, 0, 0, 0, 0]

def wordPad (n : ℕ) : ℕ := (4 - n % 4) % 4

structure RangePass where
  veneerOf : ℕ → ℕ
  newRels : List HotRel
  syms : List HotSym
  data : List (BitVec 8)
  nVeneers : ℕ

variable (env : RangeEnv) (sec : ℕ)

def rangeNewVeneer (p : RangePass) (callee : ℕ) : RangePass :=
  let off := p.data.length + wordPad p.data.length
  let added := hotSetElfSym p.syms (BitVec.ofNat 32 off ||| 1#32) sec (rangeVeneerName p.nVeneers)
  { veneerOf := update p.veneerOf callee added.1
    -- `R_ARM_ABS32`
    newRels := p.newRels ++ [⟨BitVec.ofNat 32 (off + 4), .other 2, callee⟩]
    syms := added.2
    data := p.data ++ List.replicate (wordPad p.data.length) 0 ++ rangeVeneerCode
    nVeneers := p.nVeneers + 1 }

def rangeVeneerRel (src nbSyms : ℕ) (p : RangePass) (rel : HotRel) : HotRel × RangePass :=
  if env.far src nbSyms p.syms rel then
    let p := if p.veneerOf rel.sym = 0 then rangeNewVeneer sec p rel.sym else p
    ({ rel with sym := p.veneerOf rel.sym }, p)
  else (rel, p)

def rangeVeneerPass (src nbSyms : ℕ) : RangePass → List HotRel → List HotRel × RangePass
  | p, [] => ([], p)
  | p, rel :: rels =>
    let one := rangeVeneerRel env sec src nbSyms p rel
    let rest := rangeVeneerPass src nbSyms one.2 rels
    (one.1 :: rest.1, rest.2)

def rangeVeneerSection (s : RangeState) (sec : ℕ) : RangeState :=
  match if env.isCode sec then env.region sec else none with
  | none => s
  | some src =>
    let r := rangeVeneerPass env sec src s.syms.length
      ⟨fun _ => 0, [], s.syms, s.data sec, s.nVeneers⟩ (s.rels sec)
    { data := update s.data sec r.2.data
      rels := update s.rels sec (r.1 ++ r.2.newRels)
      syms := r.2.syms
      nVeneers := r.2.nVeneers }

/-- `arm_add_range_veneers`; `relSecs` are the sections that have relocations, in the order of
their relocation sections. -/
def armAddRangeVeneers (relSecs : List ℕ) (s : RangeState) : RangeState :=
  relSecs.foldl (rangeVeneerSection env) s

end Model

section Section

variable (env : RangeEnv) (sec : ℕ) (s : RangeState)

def RangeState.veneerOffset (i : ℕ) : ℕ :=
  (s.data sec).length + wordPad (s.data sec).length + 8 * i

def RangeState.veneerSym (i : ℕ) : HotSym :=
  ⟨rangeVeneerName (s.nVeneers + i), .glob, sec, BitVec.ofNat 32 (s.veneerOffset sec i) ||| 1#32⟩

def RangeState.veneerRel (i callee : ℕ) : HotRel :=
  ⟨BitVec.ofNat 32 (s.veneerOffset sec i + 4), .other 2, callee⟩

/-- The veneers for `D` have been appended, in this order. -/
structure RangeBuilt (D : List ℕ) (p : RangePass) : Prop where
  syms : p.syms = s.syms ++ (List.range D.length).map (s.veneerSym sec)
  newRels : p.newRels = D.mapIdx (s.veneerRel sec)
  size : p.data.length = (s.data sec).length +
    (if D = [] then 0 else wordPad (s.data sec).length) + 8 * D.length
  code : ∀ i < D.length, (p.data.drop (s.veneerOffset sec i)).take 8 = rangeVeneerCode
  kept : s.data sec <+: p.data
  nVeneers : p.nVeneers = s.nVeneers + D.length
  veneerOf : ∀ c, p.veneerOf c = if c ∈ D then s.syms.length + D.idxOf c else 0

variable {env sec s} {D : List ℕ} {p : RangePass} {c : ℕ}

theorem RangeBuilt.offset (h : RangeBuilt sec s D p) :
    p.data.length + wordPad p.data.length = s.veneerOffset sec D.length := by
  rw [h.size]
  unfold RangeState.veneerOffset wordPad
  split
  · next hD =>
    rw [hD]
    rfl
  · omega

theorem RangeBuilt.new (h : RangeBuilt sec s D p)
    (hfresh : ∀ sym ∈ s.syms, ∀ n, s.nVeneers ≤ n → sym.name ≠ rangeVeneerName n) (hnew : c ∉ D) :
    RangeBuilt sec s (D ++ [c]) (rangeNewVeneer sec p c) := by
  have hset := hotSetElfSym_veneer s.syms (s.veneerSym sec) D.length
    (fun e he => hfresh e he _ (Nat.le_add_right _ _))
    (fun i hi heq => hi.ne (Nat.add_left_cancel (rangeVeneerName_injective heq)))
  rw [← h.syms, ← h.nVeneers] at hset
  have hdata : (p.data ++ List.replicate (wordPad p.data.length) 0).length =
      s.veneerOffset sec D.length := by
    rw [length_append, length_replicate, h.offset]
  constructor
  · unfold rangeNewVeneer
    dsimp only
    rw [hset, h.offset, length_append, length_singleton, range_succ,
      map_append, ← append_assoc, ← h.syms, h.nVeneers]
    rfl
  · unfold rangeNewVeneer
    rw [h.offset, mapIdx_concat, ← h.newRels]
    rfl
  · unfold rangeNewVeneer
    rw [length_append, hdata, if_neg (by simp), length_append]
    exact Nat.add_assoc ..
  · intro i hi
    unfold rangeNewVeneer
    rw [length_append] at hi
    rcases Nat.lt_succ_iff_lt_or_eq.mp hi with hi | rfl
    · -- an earlier veneer lies in the old bytes
      have hle : s.veneerOffset sec i + 8 ≤ p.data.length := by
        have hne : D ≠ [] := by
          rintro rfl
          exact absurd hi (Nat.not_lt_zero i)
        rw [h.size, if_neg hne]
        unfold RangeState.veneerOffset
        omega
      rw [append_assoc, drop_append_of_le_length (by omega),
        take_append_of_le_length (by rw [length_drop]; omega)]
      exact h.code i hi
    · rw [← hdata, drop_left]
      rfl
  · unfold rangeNewVeneer
    rw [append_assoc]
    exact h.kept.trans (prefix_append _ _)
  · rw [length_append, ← Nat.add_assoc, ← h.nVeneers]
    rfl
  · unfold rangeNewVeneer
    dsimp only
    rw [hset]
    exact update_idxOf_concat injective_id h.veneerOf hnew

variable (env s) in
def RangeState.farCallees (src : ℕ) (rels : List HotRel) : List ℕ :=
  (rels.filter (env.far src s.syms.length s.syms)).map (·.sym)

variable (env s) in
def RangeState.redirect (src : ℕ) (D : List ℕ) (rel : HotRel) : HotRel :=
  if env.far src s.syms.length s.syms rel then { rel with sym := s.syms.length + D.idxOf rel.sym }
  else rel

theorem RangeBuilt.far_eq (h : RangeBuilt sec s D p) (src : ℕ) (rel : HotRel) :
    env.far src s.syms.length p.syms rel = env.far src s.syms.length s.syms rel := by
  unfold RangeEnv.far
  by_cases hlt : rel.sym < s.syms.length
  · rw [h.syms, List.getElem?_append_left hlt]
  · simp [hlt]

theorem rangeVeneerPass_spec (h : RangeBuilt sec s D p)
   
    (hfresh : ∀ sym ∈ s.syms, ∀ n, s.nVeneers ≤ n → sym.name ≠ rangeVeneerName n) (src : ℕ)
    (rels : List HotRel) :
    RangeBuilt sec s (firstSeen D (s.farCallees env src rels))
        (rangeVeneerPass env sec src s.syms.length p rels).2 ∧
      (rangeVeneerPass env sec src s.syms.length p rels).1 =
        rels.map (s.redirect env src (firstSeen D (s.farCallees env src rels))) := by
  induction rels generalizing D p with
  | nil => exact ⟨h, rfl⟩
  | cons rel rels ih =>
    unfold rangeVeneerPass rangeVeneerRel
    rw [h.far_eq]
    cases hfar : env.far src s.syms.length s.syms rel with
    | false =>
      have hcallees : s.farCallees env src (rel :: rels) = s.farCallees env src rels := by
        simp [RangeState.farCallees, hfar]
      obtain ⟨hbuilt, hrels⟩ := ih h
      rw [hcallees]
      refine ⟨hbuilt, ?_⟩
      simp [hrels, RangeState.redirect, hfar]
    | true =>
      have hcallees : s.farCallees env src (rel :: rels) =
          rel.sym :: s.farCallees env src rels := by
        simp [RangeState.farCallees, hfar]
      have hlt : rel.sym < s.syms.length := by
        simp only [RangeEnv.far, Bool.and_eq_true, decide_eq_true_eq] at hfar
        exact hfar.1.2
      have hone : RangeBuilt sec s (insertNew D rel.sym)
          (if p.veneerOf rel.sym = 0 then rangeNewVeneer sec p rel.sym else p) := by
        have hof := h.veneerOf rel.sym
        by_cases hmem : rel.sym ∈ D
        · rw [if_pos hmem] at hof
          rw [if_neg (by omega), insertNew_of_mem hmem]
          exact h
        · rw [if_neg hmem] at hof
          rw [if_pos hof, insertNew_of_not_mem hmem]
          exact h.new hfresh hmem
      have hmem : rel.sym ∈ insertNew D rel.sym := mem_insertNew.mpr (.inr rfl)
      obtain ⟨hbuilt, hrels⟩ := ih hone
      rw [hcallees, firstSeen_cons, map_cons]
      refine ⟨hbuilt, ?_⟩
      simp only [if_true]
      rw [hrels, hone.veneerOf, if_pos hmem]
      conv_rhs => rw [RangeState.redirect, if_pos hfar, idxOf_firstSeen hmem]

/-- The veneers of a section: one for each callee of a branch that needs one, word aligned and with
the callee's address, and the branches lead to them. -/
structure RangeVeneers (env : RangeEnv) (s s' : RangeState) (sec src first : ℕ)
    (D : List ℕ) (base : ℕ) : Prop where
  nodup : D.Nodup
  callees : ∀ c, c ∈ D ↔ ∃ rel ∈ s.rels sec, env.far src s.syms.length s.syms rel = true ∧
    rel.sym = c
  aligned : base % 4 = 0
  syms : ∀ i < D.length, ∃ name, s'.syms[first + i]? =
    some ⟨name, .glob, sec, BitVec.ofNat 32 (base + 8 * i) ||| 1#32⟩
  code : ∀ i < D.length, base + 8 * i + 8 ≤ (s'.data sec).length ∧
    ((s'.data sec).drop (base + 8 * i)).take 8 = rangeVeneerCode
  rels : s'.rels sec =
    ((s.rels sec).map fun rel => if env.far src s.syms.length s.syms rel then
      { rel with sym := first + D.idxOf rel.sym } else rel) ++
    D.mapIdx fun i c => ⟨BitVec.ofNat 32 (base + 8 * i + 4), .other 2, c⟩

end Section

section Link

variable {env : RangeEnv} {s t : RangeState} {sec src : ℕ}

theorem rangeBuilt_nil (sec : ℕ) (s : RangeState) :
    RangeBuilt sec s [] ⟨fun _ => 0, [], s.syms, s.data sec, s.nVeneers⟩ where
  syms := by simp
  newRels := rfl
  size := by simp
  code := nofun
  kept := prefix_rfl
  nVeneers := rfl
  veneerOf := fun _ => rfl

def RangeState.FreshNames (s : RangeState) : Prop :=
  ∀ sym ∈ s.syms, ∀ n, s.nVeneers ≤ n → sym.name ≠ rangeVeneerName n

/-- A later state of the link: symbols and bytes have been appended. -/
structure RangeState.Extends (s t : RangeState) : Prop where
  syms : s.syms <+: t.syms
  data : ∀ sec, s.data sec <+: t.data sec

theorem RangeState.Extends.far_eq (h : s.Extends t) {rel : HotRel}
    (hrel : rel.sym < s.syms.length) (src : ℕ) :
    env.far src t.syms.length t.syms rel = env.far src s.syms.length s.syms rel := by
  obtain ⟨new, hnew⟩ := h.syms
  unfold RangeEnv.far
  rw [← hnew, List.getElem?_append_left hrel]
  simp [hrel, show rel.sym < s.syms.length + new.length by omega]

theorem RangeVeneers.mono {s' t' : RangeState} {first base : ℕ} {D : List ℕ}
    (h : RangeVeneers env t s' sec src first D base) (hst : s.Extends t)
    (hvalid : ∀ rel ∈ s.rels sec, rel.sym < s.syms.length) (ht : t.rels sec = s.rels sec)
    (hext : s'.syms <+: t'.syms) (hdata : t'.data sec = s'.data sec)
    (hrels : t'.rels sec = s'.rels sec) :
    RangeVeneers env s t' sec src first D base where
  nodup := h.nodup
  callees := by
    intro c
    rw [h.callees, ht]
    refine exists_congr fun rel => and_congr_right fun hrel => ?_
    rw [hst.far_eq (hvalid rel hrel)]
  aligned := h.aligned
  syms := by
    intro i hi
    obtain ⟨name, hname⟩ := h.syms i hi
    obtain ⟨new, hnew⟩ := hext
    refine ⟨name, ?_⟩
    rw [← hnew, List.getElem?_append_left (List.getElem?_eq_some_iff.mp hname).1]
    exact hname
  code := by
    rw [hdata]
    exact h.code
  rels := by
    rw [hrels, h.rels, ht]
    congr 1
    refine map_congr_left fun rel hrel => ?_
    rw [hst.far_eq (hvalid rel hrel)]

theorem rangeVeneerSection_spec
    (hfresh : s.FreshNames) (sec : ℕ) :
    s.Extends (rangeVeneerSection env s sec) ∧ (rangeVeneerSection env s sec).FreshNames ∧
      (∀ x, x ≠ sec → (rangeVeneerSection env s sec).data x = s.data x ∧
        (rangeVeneerSection env s sec).rels x = s.rels x) ∧
      ∀ src, env.isCode sec = true → env.region sec = some src → ∃ D base,
        RangeVeneers env s (rangeVeneerSection env s sec) sec src s.syms.length D base := by
  unfold rangeVeneerSection
  split
  · next hnone =>
    refine ⟨⟨prefix_rfl, fun _ => prefix_rfl⟩, hfresh, fun _ _ => ⟨rfl, rfl⟩, ?_⟩
    intro src hcode hregion
    rw [if_pos hcode, hregion] at hnone
    cases hnone
  · next src hsrc =>
    obtain ⟨hb, hrels⟩ := rangeVeneerPass_spec (rangeBuilt_nil sec s) hfresh src
      (s.rels sec)
    dsimp only
    refine ⟨⟨hb.syms ▸ prefix_append _ _, fun x => ?_⟩, ?_, fun x hx => ?_, ?_⟩
    · by_cases hx : x = sec
      · subst hx
        dsimp only
        rw [update_self]
        exact hb.kept
      · dsimp only
        rw [update_of_ne hx]
    · intro sym hsym n hn hname
      dsimp only at hsym hn
      rw [hb.nVeneers] at hn
      rw [hb.syms] at hsym
      rcases List.mem_append.mp hsym with hsym | hsym
      · exact hfresh sym hsym n (by omega) hname
      · obtain ⟨i, hi, rfl⟩ := List.mem_map.mp hsym
        have := rangeVeneerName_injective hname
        have := List.mem_range.mp hi
        omega
    · rw [update_of_ne hx, update_of_ne hx]
      exact ⟨rfl, rfl⟩
    · intro src' hcode hregion
      rw [if_pos hcode, hregion, Option.some.injEq] at hsrc
      subst hsrc
      refine ⟨firstSeen [] (s.farCallees env src' (s.rels sec)), s.veneerOffset sec 0,
        nodup_firstSeen nodup_nil, ?_, ?_, ?_, ?_, ?_⟩
      · intro c
        rw [mem_firstSeen, RangeState.farCallees]
        simp only [not_mem_nil, false_or, mem_map, mem_filter, and_assoc]
      · unfold RangeState.veneerOffset wordPad
        omega
      · intro i hi
        refine ⟨rangeVeneerName (s.nVeneers + i), ?_⟩
        rw [hb.syms, List.getElem?_append_right (Nat.le_add_right _ _), Nat.add_sub_cancel_left,
          List.getElem?_map, List.getElem?_range hi]
        rfl
      · intro i hi
        dsimp only
        rw [update_self]
        refine ⟨?_, hb.code i hi⟩
        have hne : firstSeen [] (s.farCallees env src' (s.rels sec)) ≠ [] := by
          intro hnil
          rw [hnil] at hi
          exact absurd hi (Nat.not_lt_zero i)
        rw [hb.size, if_neg hne]
        unfold RangeState.veneerOffset
        omega
      · dsimp only
        rw [update_self, hrels, hb.newRels]
        rfl

theorem armAddRangeVeneers_spec
    (hvalid : ∀ sec, ∀ rel ∈ s.rels sec, rel.sym < s.syms.length) (relSecs : List ℕ) :
    ∀ {t : RangeState}, s.Extends t → t.FreshNames → relSecs.Nodup →
      (∀ sec ∈ relSecs, t.rels sec = s.rels sec) →
      t.Extends (armAddRangeVeneers env relSecs t) ∧
      (∀ x, x ∉ relSecs → (armAddRangeVeneers env relSecs t).data x = t.data x ∧
        (armAddRangeVeneers env relSecs t).rels x = t.rels x) ∧
      ∀ sec ∈ relSecs, ∀ src, env.isCode sec = true → env.region sec = some src →
        ∃ first D base,
          RangeVeneers env s (armAddRangeVeneers env relSecs t) sec src first D base := by
  -- each pass over a section starts from what the ones before left behind
  induction relSecs with
  | nil =>
    intro t _ _ _ _
    exact ⟨⟨prefix_rfl, fun _ => prefix_rfl⟩, fun _ _ => ⟨rfl, rfl⟩, nofun⟩
  | cons sec relSecs ih =>
    intro t hst hfresh hnodup hrels
    obtain ⟨hnot, hnodup⟩ := List.nodup_cons.mp hnodup
    obtain ⟨hext, hfresh1, hother, hven⟩ := rangeVeneerSection_spec hfresh sec
    have hst1 : s.Extends (rangeVeneerSection env t sec) :=
      ⟨hst.syms.trans hext.syms, fun x => (hst.data x).trans (hext.data x)⟩
    have hne : ∀ x ∈ relSecs, x ≠ sec := fun x hx he => hnot (he ▸ hx)
    obtain ⟨hext2, hother2, hven2⟩ := ih hst1 hfresh1 hnodup fun x hx =>
      (hother x (hne x hx)).2.trans (hrels x (mem_cons_of_mem _ hx))
    refine ⟨⟨hext.syms.trans hext2.syms, fun x => (hext.data x).trans (hext2.data x)⟩, ?_, ?_⟩
    · intro x hx
      rw [mem_cons, not_or] at hx
      exact ⟨(hother2 x hx.2).1.trans (hother x hx.1).1,
        (hother2 x hx.2).2.trans (hother x hx.1).2⟩
    · intro x hx src hcode hregion
      rcases List.mem_cons.mp hx with rfl | hx
      · obtain ⟨D, base, hv⟩ := hven src hcode hregion
        exact ⟨_, D, base, hv.mono hst (hvalid x) (hrels x mem_cons_self) hext2.syms
          (hother2 x hnot).1 (hother2 x hnot).2⟩
      · exact hven2 x hx src hcode hregion

end Link

/-- The displacements that `BL` and `B.W` reach. -/
def branchInRange (source target : ℤ) : Prop :=
  -0x1000000 ≤ target - (source + 4) ∧ target - (source + 4) ≤ 0xfffffe

def RangeEnv.Layout (env : RangeEnv) (length : ℕ → ℕ) (s : RangeState) (addr : ℕ → ℕ) : Prop :=
  ∀ sec r, env.region sec = some r → env.origin r ≤ addr sec ∧
    addr sec + (s.data sec).length ≤ env.origin r + length r

def HotSym.address (sym : HotSym) (addr : ℕ → ℕ) : ℕ :=
  addr sym.shndx + (sym.value &&& ~~~1#32).toNat

/-- A branch in a section to a function in a section with a region. -/
structure RangeBranch (env : RangeEnv) (s : RangeState) (sec : ℕ) (rel : HotRel)
    (sym : HotSym) : Prop where
  mem : rel ∈ s.rels sec
  branch : rel.type.isBranch = true
  inside : rel.offset.toNat + 4 ≤ (s.data sec).length
  nonzero : rel.sym ≠ 0
  callee : s.syms[rel.sym]? = some sym
  region : (env.symRegion sym).isSome = true
  value : (sym.value &&& ~~~1#32).toNat < (s.data sym.shndx).length

theorem toNat_thumb_value {off : ℕ} (h4 : off % 4 = 0) (hlt : off < 2 ^ 32) :
    ((BitVec.ofNat 32 off ||| 1#32) &&& ~~~1#32).toNat = off := by
  have hbit : (BitVec.ofNat 32 off).getLsbD 0 = false := by
    rw [← BitVec.testBit_toNat, Nat.testBit_zero, BitVec.toNat_ofNat, decide_eq_false_iff_not]
    omega
  have hzero : BitVec.ofNat 32 off &&& 1#32 = 0#32 := by
    have h := mt (@and_twoPow_ne_zero_iff 32 (BitVec.ofNat 32 off) 0 (by decide)).mp
      (by rw [hbit]; decide)
    exact not_not.mp h
  rw [← BitVec.add_eq_or_of_and_eq_zero _ _ hzero, (thumb_bit hbit).1, BitVec.toNat_ofNat,
    Nat.mod_eq_of_lt hlt]

/-- Every section gets one veneer for each callee that needs one. If regions taken for close lie
within 16 MB, each branch reaches its target in every layout. -/
theorem armAddRangeVeneers_correct (env : RangeEnv) (relSecs : List ℕ) (s : RangeState)
    (length : ℕ → ℕ) (hnodup : relSecs.Nodup)
    (hfresh : s.FreshNames) (hvalid : ∀ sec, ∀ rel ∈ s.rels sec, rel.sym < s.syms.length)
    (hspace : ∀ r, env.origin r + length r ≤ 2 ^ 32)
    (hwindow : ∀ r r', env.near r r' = true → env.origin r' + length r' ≤
      env.origin r + 0x1000000) :
    ∀ sec ∈ relSecs, ∀ src, env.isCode sec = true → env.region sec = some src →
      ∃ first D base,
        RangeVeneers env s (armAddRangeVeneers env relSecs s) sec src first D base ∧
        ∀ addr, env.Layout length (armAddRangeVeneers env relSecs s) addr →
          ∀ rel sym, RangeBranch env s sec rel sym →
            ∃ target, (armAddRangeVeneers env relSecs s).syms[
                if env.far src s.syms.length s.syms rel then first + D.idxOf rel.sym
                else rel.sym]? = some target ∧
              branchInRange (addr sec + rel.offset.toNat) (target.address addr) := by
  obtain ⟨hext, _, hven⟩ := armAddRangeVeneers_spec hvalid relSecs
    ⟨prefix_rfl, fun _ => prefix_rfl⟩ hfresh hnodup fun _ _ => rfl
  intro sec hsec src hcode hregion
  obtain ⟨first, D, base, hv⟩ := hven sec hsec src hcode hregion
  refine ⟨first, D, base, hv, ?_⟩
  intro addr hlay rel sym hb
  have hsize := (hext.data sec).length_le
  obtain ⟨hlo, hhi⟩ := hlay sec src hregion
  have hself := hwindow src src (by simp [RangeEnv.near])
  have hin := hb.inside
  by_cases hfar : env.far src s.syms.length s.syms rel = true
  · -- through the veneer, which lies in the same section
    have hmem : rel.sym ∈ D := (hv.callees _).mpr ⟨rel, hb.mem, hfar, rfl⟩
    have hidx := List.idxOf_lt_length_iff.mpr hmem
    obtain ⟨name, hname⟩ := hv.syms _ hidx
    obtain ⟨hend, _⟩ := hv.code _ hidx
    have halign := hv.aligned
    have hsp := hspace src
    rw [if_pos hfar]
    refine ⟨_, hname, ?_⟩
    unfold HotSym.address branchInRange
    rw [toNat_thumb_value (by omega) (by omega)]
    dsimp only
    omega
  · rw [if_neg hfar]
    obtain ⟨new, hnew⟩ := hext.syms
    have hlt := (List.getElem?_eq_some_iff.mp hb.callee).1
    refine ⟨sym, by rw [← hnew, List.getElem?_append_left hlt]; exact hb.callee, ?_⟩
    obtain ⟨dst, hdst⟩ := Option.isSome_iff_exists.mp hb.region
    have hnear : env.near src dst = true := by
      by_contra hno
      have hno' : env.near src dst = false := by simpa using hno
      refine hfar ?_
      unfold RangeEnv.far
      rw [hb.callee, Option.bind_some, hdst]
      simp [hb.branch, hb.nonzero, hlt, hno']
    have hnear' : env.near dst src = true := by
      simp only [RangeEnv.near, Bool.or_eq_true, Bool.and_eq_true, decide_eq_true_eq] at hnear ⊢
      rcases hnear with rfl | ⟨h1, h2⟩
      · exact .inl rfl
      · exact .inr ⟨by omega, by omega⟩
    have hdreg : env.region sym.shndx = some dst := by
      unfold RangeEnv.symRegion at hdst
      split at hdst
      · cases hdst
      · exact hdst
    obtain ⟨hdlo, hdhi⟩ := hlay sym.shndx dst hdreg
    have hdsize := (hext.data sym.shndx).length_le
    have hval := hb.value
    have hw1 := hwindow src dst hnear
    have hw2 := hwindow dst src hnear'
    unfold HotSym.address branchInRange
    omega

/-- Code in RAM that calls a function in flash, 256 MB away. -/
def ramCallsFlash : RangeEnv :=
  { nbSections := 3, isCode := fun _ => true, region := fun sec => some sec
    origin := fun r => if r = 1 then 0x20000000 else if r = 2 then 0x10000000 else 0 }

def oneCall : RangeState :=
  { data := fun _ => [0, 0xf0, 0, 0xf8]
    rels := fun sec => if sec = 1 then [⟨0#32, .thmPc22, 1⟩] else []
    syms := [⟨[], .loc, 0, 0#32⟩, ⟨[0x66#8], .glob, 2, 1#32⟩]
    nVeneers := 0 }

theorem armAddRangeVeneers_correct_ramCallsFlash :
    ∃ first D base,
      RangeVeneers ramCallsFlash oneCall (armAddRangeVeneers ramCallsFlash [1] oneCall) 1 1 first D
        base ∧ D = [1] := by
  have hvalid : ∀ sec, ∀ rel ∈ oneCall.rels sec, rel.sym < oneCall.syms.length := by
    intro sec rel hrel
    by_cases h : sec = 1
    · subst h
      rw [List.mem_singleton.mp hrel]
      decide
    · have hnil : oneCall.rels sec = [] := if_neg h
      rw [hnil] at hrel
      cases hrel
  have hnames : oneCall.FreshNames := by
    have hshort : ∀ sym ∈ oneCall.syms, sym.name.length ≤ 1 := by decide
    intro sym hsym n _ hname
    have hle := hshort sym hsym
    rw [hname] at hle
    exact absurd ((length_le_numberedName "__tcc_veneer_" n).trans hle) (by decide)
  have hspace : ∀ r, ramCallsFlash.origin r + 0x400000 ≤ 2 ^ 32 := by
    intro r
    simp only [ramCallsFlash]
    split
    · decide
    · split
      · decide
      · decide
  have hwindow : ∀ r r', ramCallsFlash.near r r' = true →
      ramCallsFlash.origin r' + 0x400000 ≤ ramCallsFlash.origin r + 0x1000000 := by
    intro r r' h
    simp only [RangeEnv.near, Bool.or_eq_true, Bool.and_eq_true, decide_eq_true_eq] at h
    rcases h with rfl | ⟨h1, _⟩
    · omega
    · omega
  obtain ⟨first, D, base, hv, _⟩ := armAddRangeVeneers_correct ramCallsFlash [1] oneCall
    (fun _ => 0x400000) (by decide) hnames hvalid hspace
    hwindow 1 (by decide) 1 rfl rfl
  refine ⟨first, D, base, hv, ?_⟩
  have hmem : ∀ c, c ∈ D ↔ c = 1 := by
    intro c
    rw [hv.callees c]
    constructor
    · rintro ⟨rel, hrel, _, rfl⟩
      rw [List.mem_singleton.mp hrel]
    · rintro rfl
      exact ⟨⟨0#32, .thmPc22, 1⟩, List.mem_singleton.mpr rfl, rfl, rfl⟩
  exact List.perm_singleton.mp ((perm_ext_iff_of_nodup hv.nodup (nodup_singleton 1)).mpr
    fun c => by rw [hmem, mem_singleton])

def oneRegion : RangeEnv :=
  { nbSections := 3, isCode := fun _ => true, region := fun _ => some 0, origin := fun _ => 0 }

def callFixed : RangeState :=
  { oneCall with syms := [⟨[], .loc, 0, 0#32⟩, ⟨[0x66#8], .glob, 0xfff1, 0x10000001#32⟩] }

/-- Branches inside a region and to absolute addresses stay direct, however far they go. -/
theorem oneRegion_branch_out_of_range :
    (armAddRangeVeneers oneRegion [1] oneCall).rels 1 = oneCall.rels 1 ∧
      oneRegion.Layout (fun _ => 0x2000000) (armAddRangeVeneers oneRegion [1] oneCall)
        (fun sec => if sec = 1 then 0 else 0x1800000) ∧
      ¬ branchInRange 0 0x1800000 ∧
      (armAddRangeVeneers ramCallsFlash [1] callFixed).rels 1 = callFixed.rels 1 ∧
      ¬ branchInRange 0x20000000 0x10000000 := by
  refine ⟨rfl, ?_, ?_, rfl, ?_⟩
  · intro sec r _
    have hlen : ((armAddRangeVeneers oneRegion [1] oneCall).data sec).length = 4 := by
      by_cases h : sec = 1
      · subst h
        rfl
      · have hsec : (armAddRangeVeneers oneRegion [1] oneCall).data sec = oneCall.data sec :=
          update_of_ne h _ _
        rw [hsec]
        rfl
    rw [hlen]
    refine ⟨Nat.zero_le _, ?_⟩
    have h0 : oneRegion.origin r = 0 := rfl
    rw [h0]
    dsimp only
    split
    · decide
    · decide
  · unfold branchInRange
    omega
  · unfold branchInRange
    omega

end Tinycc
