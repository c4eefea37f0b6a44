import Tinycc.Obj.GcSections

namespace Tinycc
open Lib Function Finset Nat
open Relation (ReflTransGen)

section Spec

variable (s : LinkState)

/-- The symbol `k` is defined in the section `i`, where `num` says which numbers are taken for those
of sections. -/
structure DefinedIn (num : ℕ → Prop) (k i : ℕ) : Prop where
  sym_pos : 0 < k
  sym_lt : k < s.symtab.length
  shndx : (s.sym k).shndx.toNat = i
  num : num i
  pos : 0 < i
  lt : i < s.sections.length

/-- What is kept in any case: a root section, or the section of a root symbol. -/
def IsRoot (num : ℕ → Prop) (i : ℕ) : Prop :=
  (∃ sec, s.sec i = some sec ∧ rootSection s sec = true) ∨
    ∃ k, DefinedIn s num k i ∧ keepsSection s (s.sym k) = true

/-- A relocation of an allocated section leads to the section that defines its symbol. -/
def RefersTo (num : ℕ → Prop) (t u : ℕ) : Prop :=
  ∃ sec, s.sec t = some sec ∧ sec.alloc = true ∧ ∃ r sr, s.sec r = some sr ∧
    sr.shType = .relx ∧ sr.shInfo = t ∧ ∃ k ∈ sr.rels, DefinedIn s num k u

/-- Root, or reachable from a root. -/
def KeptBy (num : ℕ → Prop) (i : ℕ) : Prop :=
  ∃ r, IsRoot s num r ∧ ReflTransGen (RefersTo s num) r i

def SectionNumber (n : ℕ) : Prop := n ≠ shnAbs.toNat ∧ n ≠ shnCommon.toNat

def Kept : ℕ → Prop := KeptBy s SectionNumber

/-- Kept on account of symbols with numbers below `SHN_LORESERVE` alone. -/
def KeptBelow : ℕ → Prop := KeptBy s (· < shnLoreserve.toNat)

end Spec

variable {s : LinkState}

theorem toNat_pos_iff {n : BitVec 16} : 0 < n.toNat ↔ n ≠ shnUndef := by
  rw [Nat.pos_iff_ne_zero, Ne, Ne, ← BitVec.toNat_inj]
  rfl

theorem relTarget_eq_some {k u : ℕ} :
    relTarget s k = some u ↔ DefinedIn s (· < shnLoreserve.toNat) k u := by
  unfold relTarget
  dsimp only
  split_ifs with h₁ h₂
  · simp only [false_iff]
    rintro ⟨h0, hlt, _⟩
    omega
  · simp only [false_iff]
    rintro ⟨_, _, rfl, hnum, hpos, hlt⟩
    rw [BitVec.le_def] at h₂
    exact h₂.elim (toNat_pos_iff.mp hpos) (by omega)
  · rw [BitVec.le_def] at h₂
    obtain ⟨hundef, hrest⟩ := not_or.mp h₂
    rw [Option.some.injEq]
    constructor
    · rintro rfl
      exact ⟨by omega, by omega, rfl, by omega, toNat_pos_iff.mpr hundef, by omega⟩
    · exact DefinedIn.shndx

theorem rootSymbol_iff {k : ℕ} (h0 : 0 < k) (hk : k < s.symtab.length) :
    rootSymbol s (s.sym k) = true ↔
      DefinedIn s (· < shnLoreserve.toNat) k (s.sym k).shndx.toNat ∧
        keepsSection s (s.sym k) = true := by
  unfold rootSymbol
  split_ifs with h₁ h₂
  · simp only [false_iff]
    rintro ⟨⟨_, _, _, hnum, hpos, _⟩, _⟩
    rw [BitVec.le_def] at h₁
    exact h₁.elim (toNat_pos_iff.mp hpos) (by omega)
  · simp only [false_iff]
    rintro ⟨⟨_, _, _, _, _, hlt⟩, _⟩
    omega
  · rw [BitVec.le_def] at h₁
    obtain ⟨hundef, hres⟩ := not_or.mp h₁
    exact (and_iff_right ⟨h0, hk, rfl, by omega, toNat_pos_iff.mpr hundef, by omega⟩).symm

theorem KeptBy.mono {num num' : ℕ → Prop} (h : ∀ n < s.sections.length, num n → num' n) {i : ℕ}
    (hk : KeptBy s num i) : KeptBy s num' i := by
  have hdef : ∀ {k u}, DefinedIn s num k u → DefinedIn s num' k u :=
    fun d => { d with num := h _ d.lt d.num }
  obtain ⟨r, hroot, hpath⟩ := hk
  refine ⟨r, hroot.imp_right ?_, ReflTransGen.mono ?_ _ _ hpath⟩
  · rintro ⟨k, hd, hkeep⟩
    exact ⟨k, hdef hd, hkeep⟩
  · rintro t u ⟨sec, hsec, ha, r, sr, hsr, htype, hinfo, k, hk, hd⟩
    exact ⟨sec, hsec, ha, r, sr, hsr, htype, hinfo, k, hk, hdef hd⟩

theorem sectionNumber_of_lt {n : ℕ} (h : n < shnLoreserve.toNat) : SectionNumber n := by
  have hlt : n < 0xff00 := h
  exact ⟨Nat.ne_of_lt (hlt.trans (by decide)), Nat.ne_of_lt (hlt.trans (by decide))⟩

theorem KeptBelow.kept {i : ℕ} (h : KeptBelow s i) : Kept s i :=
  KeptBy.mono (fun _ _ => sectionNumber_of_lt) h

section Marks

variable {i t u : ℕ}

theorem forRange_marks {n : ℕ} {c : ℕ → Bool} {f : ℕ → ℕ} {used : ℕ → Bool} :
    forRange n (fun (used : ℕ → Bool) k => if c k then update used (f k) true else used)
        used i = true ↔
      used i = true ∨ ∃ k < n, c k = true ∧ f k = i := by
  induction n with
  | zero => simp
  | succ n ih =>
    rw [forRange_succ]
    have hsplit : (∃ k < n + 1, c k = true ∧ f k = i) ↔
        (∃ k < n, c k = true ∧ f k = i) ∨ c n = true ∧ f n = i := by
      constructor
      · rintro ⟨k, hk, h⟩
        rcases Nat.lt_succ_iff_lt_or_eq.mp hk with hk | rfl
        · exact .inl ⟨k, hk, h⟩
        · exact .inr h
      · rintro (⟨k, hk, h⟩ | h)
        · exact ⟨k, lt_succ_of_lt hk, h⟩
        · exact ⟨n, lt_succ_self n, h⟩
    rw [hsplit, ← or_assoc, ← ih]
    cases hc : c n with
    | false => simp
    | true =>
      by_cases hf : i = f n
      · subst hf
        simp
      · simp [update_of_ne hf, Ne.symm hf]

variable {sec : LinkSection}

theorem lt_of_sec (h : s.sec i = some sec) : i < s.sections.length := by
  by_contra hn
  have : s.sections[i]? = none := List.getElem?_eq_none (Nat.le_of_not_lt hn)
  simp [LinkState.sec, this] at h

theorem pos_of_sec (h : s.sec i = some sec) : 0 < i := by
  rcases Nat.eq_zero_or_pos i with rfl | h0
  · simp [LinkState.sec, s.null] at h
  · exact h0

theorem rootMarks_iff : rootMarks s i = true ↔ IsRoot s (· < shnLoreserve.toNat) i := by
  rw [rootMarks, forRange_marks, forRange_marks]
  constructor
  · rintro ((h | ⟨k, _, hc, rfl⟩) | ⟨k, hk, hc, rfl⟩)
    · cases h
    · obtain ⟨sec, hsec, hroot⟩ := Option.any_eq_true _ _ |>.mp hc
      exact .inl ⟨sec, hsec, hroot⟩
    · exact .inr ⟨k + 1, (rootSymbol_iff (succ_pos k) (by omega)).mp hc⟩
  · rintro (⟨sec, hsec, hroot⟩ | ⟨k, hd, hkeep⟩)
    · have hlt := lt_of_sec hsec
      have h0 := pos_of_sec hsec
      refine .inl (.inr ⟨i - 1, by omega, ?_, by omega⟩)
      rw [Nat.sub_add_cancel h0, hsec]
      simpa using hroot
    · obtain ⟨h0, hk, rfl, _⟩ := id hd
      refine .inr ⟨k - 1, by omega, ?_, ?_⟩
      · rw [Nat.sub_add_cancel h0]
        exact (rootSymbol_iff h0 hk).mpr ⟨hd, hkeep⟩
      · rw [Nat.sub_add_cancel h0]

theorem IsRoot.bounds {num : ℕ → Prop} (h : IsRoot s num i) : 0 < i ∧ i < s.sections.length := by
  rcases h with ⟨sec, hsec, _⟩ | ⟨k, hd, _⟩
  · exact ⟨pos_of_sec hsec, lt_of_sec hsec⟩
  · exact ⟨hd.pos, hd.lt⟩

end Marks

section Chains

variable {s : LinkState} {t u r : ℕ}

def AppliesTo (s : LinkState) (t r : ℕ) : Prop :=
  ∃ sr, s.sec r = some sr ∧ sr.shType = .relx ∧ sr.shInfo = t

def AppliesAbove (s : LinkState) (t k : ℕ) (l : List ℕ) : Prop :=
  l.Nodup ∧ ∀ r, r ∈ l ↔ k < r ∧ AppliesTo s t r

variable {k : ℕ} {l : List ℕ}

theorem AppliesAbove.skip (h : AppliesAbove s t (k + 1) l) (hnot : ¬AppliesTo s t (k + 1)) :
    AppliesAbove s t k l := by
  refine ⟨h.1, fun r => ?_⟩
  rw [h.2]
  constructor
  · rintro ⟨hk, hr⟩
    exact ⟨by omega, hr⟩
  · rintro ⟨hk, hr⟩
    have hne : r ≠ k + 1 := fun e => hnot (e ▸ hr)
    exact ⟨by omega, hr⟩

theorem AppliesAbove.notMem (h : AppliesAbove s t (k + 1) l) : k + 1 ∉ l :=
  fun hk => absurd ((h.2 _).mp hk).1 (Nat.lt_irrefl _)

theorem AppliesAbove.push (h : AppliesAbove s t (k + 1) l) (hk : AppliesTo s t (k + 1)) :
    AppliesAbove s t k ((k + 1) :: l) := by
  refine ⟨List.nodup_cons.mpr ⟨h.notMem, h.1⟩, fun r => ?_⟩
  rw [List.mem_cons, h.2]
  constructor
  · rintro (rfl | ⟨hr, hr'⟩)
    · exact ⟨lt_succ_self k, hk⟩
    · exact ⟨by omega, hr'⟩
  · rintro ⟨hr, hr'⟩
    rcases Nat.eq_or_lt_of_le hr with hr | hr
    · exact .inl hr.symm
    · exact .inr ⟨hr, hr'⟩

def RelChains.Holds (s : LinkState) (k : ℕ) (c : RelChains) : Prop :=
  ∀ t < s.sections.length, ∃ l : List ℕ, Chain c.next (c.head t) l ∧ AppliesAbove s t k l

theorem relChains_holds (s : LinkState) : (relChains s).Holds s 0 := by
  apply forDown_induction (fun k (c : RelChains) => c.Holds s k)
  · intro k c _ hc t ht
    obtain ⟨l, hch, hl⟩ := hc t ht
    dsimp only
    cases hsec : s.sec (k + 1) with
    | none =>
      refine ⟨l, hch, hl.skip ?_⟩
      rintro ⟨sr, hsr, _⟩
      rw [hsec] at hsr
      cases hsr
    | some sr =>
      have happ : ∀ {t}, AppliesTo s t (k + 1) ↔ sr.shType = .relx ∧ sr.shInfo = t := by
        simp [AppliesTo, hsec]
      dsimp only
      split_ifs with hno
      · refine ⟨l, hch, hl.skip ?_⟩
        rw [happ]
        rintro ⟨htype, rfl⟩
        exact hno.elim (fun h => h htype) (Nat.not_le_of_lt ht)
      · obtain ⟨htype, _⟩ := not_or.mp hno
        by_cases hinfo : t = sr.shInfo
        · -- the new section comes first in the chain of its target
          refine ⟨(k + 1) :: l, ?_, hl.push (happ.mpr ⟨not_not.mp htype, hinfo.symm⟩)⟩
          dsimp only
          rw [hinfo, update_self, ← hinfo]
          exact hch.push (succ_ne_zero k) hl.notMem
        · refine ⟨l, ?_, hl.skip fun h => hinfo (happ.mp h).2.symm⟩
          dsimp only
          rw [update_of_ne hinfo]
          exact hch.update_of_notMem hl.notMem _
  · intro t _
    refine ⟨[], .nil, List.nodup_nil, fun r => ?_⟩
    constructor
    · intro h
      cases h
    · rintro ⟨h, sr, hsr, _⟩
      have := lt_of_sec hsr
      omega

def gcSuccs (s : LinkState) (t : ℕ) : List ℕ :=
  if (s.sec t).any LinkSection.alloc then
    (chainVisit (relChains s).next s.sections.length ((relChains s).head t)).flatMap fun r =>
      (relsOf s r).filterMap (relTarget s)
  else []

theorem mem_gcSuccs : u ∈ gcSuccs s t ↔ RefersTo s (· < shnLoreserve.toNat) t u := by
  unfold gcSuccs
  cases hsec : s.sec t with
  | none =>
    simp only [Option.any_none, Bool.false_eq_true, if_false, List.not_mem_nil, false_iff]
    rintro ⟨sec, h, _⟩
    rw [hsec] at h
    cases h
  | some sec =>
    have ht := lt_of_sec hsec
    obtain ⟨l, hch, hnd, hl⟩ := relChains_holds s t ht
    have hlen : l.length ≤ s.sections.length := by
      have hsub : l ⊆ List.range s.sections.length := by
        intro r hr
        obtain ⟨_, sr, hsr, _⟩ := (hl r).mp hr
        exact List.mem_range.mpr (lt_of_sec hsr)
      simpa using (hnd.subperm hsub).length_le
    rw [chainVisit_eq hch hlen]
    cases ha : sec.alloc with
    | false =>
      simp only [Option.any_some, ha, Bool.false_eq_true, if_false, List.not_mem_nil, false_iff]
      rintro ⟨sec', h, ha', _⟩
      rw [hsec] at h
      cases h
      rw [ha] at ha'
      cases ha'
    | true =>
      simp only [Option.any_some, ha, if_true, List.mem_flatMap, List.mem_filterMap]
      constructor
      · rintro ⟨r, hr, k, hk, htarget⟩
        obtain ⟨_, sr, hsr, htype, hinfo⟩ := (hl r).mp hr
        have hk' : k ∈ sr.rels := by simpa [relsOf, hsr] using hk
        exact ⟨sec, hsec, ha, r, sr, hsr, htype, hinfo, k, hk', relTarget_eq_some.mp htarget⟩
      · rintro ⟨_, _, _, r, sr, hsr, htype, hinfo, k, hk, hd⟩
        refine ⟨r, (hl r).mpr ⟨pos_of_sec hsr, sr, hsr, htype, hinfo⟩, k, ?_,
          relTarget_eq_some.mpr hd⟩
        simpa [relsOf, hsr] using hk

theorem gcMarkStep_eq (m : MarkState) : gcMarkStep s (relChains s) m = m.step (gcSuccs s) := by
  unfold gcMarkStep MarkState.step
  cases hw : m.work with
  | nil => rfl
  | cons t rest =>
    dsimp only
    unfold gcSuccs
    cases hsec : s.sec t with
    | none => rfl
    | some sec =>
      cases ha : sec.alloc with
      | false => simp [ha, MarkState.markAll]
      | true =>
        simp only [Option.any_some, ha, if_true, MarkState.markAll, List.foldl_flatMap,
          List.foldl_filterMap, Bool.not_true, Bool.false_eq_true, if_false]
        congr 1
        funext m r
        congr 1
        funext m k
        cases relTarget s k <;> rfl

end Chains

section Mark

variable {s : LinkState} {i : ℕ}

theorem forRange_cons {n : ℕ} {p : ℕ → Bool} {f : ℕ → ℕ} :
    forRange n (fun (work : List ℕ) k => if p k then f k :: work else work) [] =
      (((List.range n).filter p).map f).reverse := by
  induction n with
  | zero => rfl
  | succ n ih =>
    rw [forRange_succ, ih, List.range_succ]
    cases hp : p n with
    | true => simp [hp]
    | false => simp [hp]

def gcWork (s : LinkState) : List ℕ :=
  forRange (s.sections.length - 1)
    (fun work k => if rootMarks s (k + 1) then (k + 1) :: work else work) []

theorem mem_gcWork : i ∈ gcWork s ↔ rootMarks s i = true := by
  rw [gcWork, forRange_cons, List.mem_reverse, List.mem_map]
  constructor
  · rintro ⟨k, hk, rfl⟩
    exact (List.mem_filter.mp hk).2
  · intro h
    have hb := (rootMarks_iff.mp h).bounds
    refine ⟨i - 1, List.mem_filter.mpr ⟨List.mem_range.mpr (by omega), ?_⟩, by omega⟩
    rwa [Nat.sub_add_cancel hb.1]

theorem nodup_gcWork (s : LinkState) : (gcWork s).Nodup := by
  rw [gcWork, forRange_cons, List.nodup_reverse]
  exact (List.nodup_range.filter _).map fun _ _ h => Nat.add_right_cancel h

theorem gcMark_measure (s : LinkState) :
    (⟨rootMarks s, gcWork s⟩ : MarkState).measure s.sections.length ≤ s.sections.length := by
  have hsub : (gcWork s).toFinset ⊆
      (range s.sections.length).filter fun i => ¬rootMarks s i = false := by
    intro i hi
    have hroot := mem_gcWork.mp (List.mem_toFinset.mp hi)
    have hb := (rootMarks_iff.mp hroot).bounds
    simp [hroot, hb.2]
  have hcard := card_le_card hsub
  rw [List.toFinset_card_of_nodup (nodup_gcWork s)] at hcard
  have hsum := card_filter_add_card_filter_not (s := range s.sections.length)
    (fun i => rootMarks s i = false)
  rw [card_range] at hsum
  simp only [MarkState.measure]
  omega

theorem gcMark_total (s : LinkState) :
    ∃ used, gcMark s = some used ∧ ∀ i, used i = true ↔ KeptBelow s i := by
  have hinv : (⟨rootMarks s, gcWork s⟩ : MarkState).Invariant
      (IsRoot s (· < shnLoreserve.toNat)) (gcSuccs s) := by
    refine ⟨?_, ?_, ?_, ?_⟩
    · intro i hi
      exact ⟨i, rootMarks_iff.mp hi, .refl⟩
    · intro r hr
      exact rootMarks_iff.mpr hr
    · intro t ht
      exact .inl (mem_gcWork.mpr ht)
    · intro t ht
      exact mem_gcWork.mp ht
  have hsuccs : ∀ t, ∀ u ∈ gcSuccs s t, u < s.sections.length := by
    intro t u hu
    obtain ⟨_, _, _, _, _, _, _, _, _, _, hd⟩ := mem_gcSuccs.mp hu
    exact hd.lt
  obtain ⟨m, hm, hused⟩ := MarkState.mark_total hsuccs hinv
    (lt_succ_of_le (gcMark_measure s))
  have hstep : gcMarkStep s (relChains s) = MarkState.step (gcSuccs s) := funext gcMarkStep_eq
  have hedge : (fun t u => u ∈ gcSuccs s t) = RefersTo s (· < shnLoreserve.toNat) := by
    funext t u
    exact propext mem_gcSuccs
  refine ⟨m.used, ?_, ?_⟩
  · rw [gcMark, hstep]
    exact congrArg (Option.map MarkState.used) hm
  · intro i
    rw [hused, hedge, KeptBelow, KeptBy]

end Mark

end Tinycc
