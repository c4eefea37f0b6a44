import Mathlib.Data.List.Infix

namespace Tinycc
open List

/-- A section name or a pattern, without its final zero. -/
abbrev LdName := List (BitVec 8)

def star : BitVec 8 := 0x2A#8
def question : BitVec 8 := 0x3F#8

def Glob : LdName → LdName → Prop
  | [], s => s = []
  | c :: p, s =>
    if c = star then ∃ u, u <:+ s ∧ Glob p u
    else ∃ a u, s = a :: u ∧ (c = question ∨ c = a) ∧ Glob p u

/-- The inner loop of a `*`: the rest of the pattern is tried at every character left. -/
def anySuffix (f : LdName → Bool) : LdName → Bool
  | [] => false
  | a :: s => f (a :: s) || anySuffix f s

def ldSectionMatchesPattern : LdName → LdName → Bool
  | s, [] => s.isEmpty
  | [], c :: p => (c :: p).all (· = star)
  | a :: s, c :: p =>
    if c = star then p.isEmpty || anySuffix (ldSectionMatchesPattern · p) (a :: s)
    else if c = question then ldSectionMatchesPattern s p
    else if c = a then ldSectionMatchesPattern s p
    else false

structure LDSectionPattern where
  pattern : LdName

def LDSectionPattern.prefixLen (pat : LDSectionPattern) : ℕ :=
  (pat.pattern.takeWhile fun c => c ≠ star ∧ c ≠ question).length

def ldPatternMatches (name : LdName) (pat : LDSectionPattern) : Bool :=
  (range pat.prefixLen).all (fun k => name[k]? = pat.pattern[k]?) &&
    ldSectionMatchesPattern name pat.pattern

structure LDOutputSection where
  name : LdName
  patterns : List LDSectionPattern

/-- The output section and the pattern's index, which for the exact name is after all patterns. -/
def ldFindOutputSection (name : LdName) : List LDOutputSection → Option (ℕ × ℕ)
  | [] => none
  | os :: rest =>
    match os.patterns.findIdx? (ldPatternMatches name) with
    | some j => some (0, j)
    | none =>
      if name = os.name then some (0, os.patterns.length)
      else (ldFindOutputSection name rest).map fun r => (r.1 + 1, r.2)

section Matching

variable {f : LdName → Bool} {c : BitVec 8} {p s name : LdName}

theorem anySuffix_iff : anySuffix f s = true ↔ ∃ u, u <:+ s ∧ u ≠ [] ∧ f u = true := by
  induction s with
  | nil => simp [anySuffix]
  | cons a s ih => simp [anySuffix, ih, suffix_cons_iff, or_and_right, exists_or]

theorem glob_nil_iff : Glob p [] ↔ ∀ c ∈ p, c = star := by
  induction p with
  | nil => simp [Glob]
  | cons c p ih =>
    rw [Glob]
    split <;> simp [*]

theorem glob_of_glob_nil (hp : p ≠ []) (h : Glob p []) (s : LdName) : Glob p s := by
  obtain ⟨c, p, rfl⟩ := exists_cons_of_ne_nil hp
  have hstar := glob_nil_iff.mp h
  rw [Glob, if_pos (hstar c mem_cons_self)]
  exact ⟨[], nil_suffix, glob_nil_iff.mpr fun d hd => hstar d (mem_cons_of_mem c hd)⟩

theorem ldSectionMatchesPattern_iff : ldSectionMatchesPattern s p = true ↔ Glob p s := by
  induction p generalizing s with
  | nil => simp [ldSectionMatchesPattern, Glob]
  | cons c p ih =>
    cases s with
    | nil => simp [ldSectionMatchesPattern, glob_nil_iff]
    | cons a s =>
      rw [ldSectionMatchesPattern, Glob]
      by_cases hc : c = star
      · rw [if_pos hc, if_pos hc, Bool.or_eq_true, List.isEmpty_iff, anySuffix_iff]
        constructor
        · rintro (rfl | ⟨u, hu, _, hm⟩)
          · exact ⟨[], nil_suffix, rfl⟩
          · exact ⟨u, hu, ih.mp hm⟩
        · rintro ⟨u, hu, hg⟩
          by_cases hp : p = []
          · exact .inl hp
          · by_cases hnil : u = []
            · exact .inr ⟨a :: s, suffix_rfl, cons_ne_nil a s,
                ih.mpr (glob_of_glob_nil hp (hnil ▸ hg) _)⟩
            · exact .inr ⟨u, hu, hnil, ih.mpr hg⟩
      · rw [if_neg hc, if_neg hc]
        by_cases hq : c = question <;> by_cases ha : c = a <;> simp [hq, ha, ih]

theorem Glob.head_eq (h : Glob p s) {k : ℕ}
    (hk : k < (p.takeWhile fun c => c ≠ star ∧ c ≠ question).length) : s[k]? = p[k]? := by
  induction p generalizing s k with
  | nil => simp at hk
  | cons c p ih =>
    rw [takeWhile_cons] at hk
    split at hk
    · next hlit =>
      simp only [decide_eq_true_eq] at hlit
      rw [Glob, if_neg hlit.1] at h
      obtain ⟨a, u, rfl, hca, hu⟩ := h
      cases k with
      | zero => simp [hca.resolve_left hlit.2]
      | succ k => simpa using ih hu (by simpa using hk)
    · simp at hk

theorem ldPatternMatches_iff {pat : LDSectionPattern} :
    ldPatternMatches name pat = true ↔ Glob pat.pattern name := by
  rw [ldPatternMatches, Bool.and_eq_true, ldSectionMatchesPattern_iff]
  refine and_iff_right_of_imp fun h => all_eq_true.mpr fun k hk => ?_
  rw [mem_range, LDSectionPattern.prefixLen] at hk
  simpa using h.head_eq hk

end Matching

def LDOutputSection.Accepts (os : LDOutputSection) (name : LdName) : Prop :=
  (∃ pat ∈ os.patterns, Glob pat.pattern name) ∨ name = os.name

def LDOutputSection.PlacedAt (os : LDOutputSection) (name : LdName) (j : ℕ) : Prop :=
  (∀ pat ∈ os.patterns.take j, ¬Glob pat.pattern name) ∧
    match os.patterns[j]? with
    | some pat => Glob pat.pattern name
    | none => name = os.name ∧ j = os.patterns.length

/-- The matcher decides the language of the pattern, and the search ends at the first output section
that takes the name. -/
theorem ldFindOutputSection_spec (ld : List LDOutputSection) (name : LdName) :
    (∀ pat, ldPatternMatches name pat = true ↔ Glob pat.pattern name) ∧
    (ldFindOutputSection name ld = none → ∀ os ∈ ld, ¬os.Accepts name) ∧
    ∀ i j, ldFindOutputSection name ld = some (i, j) →
      ∃ before os after, ld = before ++ os :: after ∧ before.length = i ∧
        (∀ o ∈ before, ¬o.Accepts name) ∧ os.PlacedAt name j := by
  refine ⟨fun pat => ldPatternMatches_iff, ?_⟩
  induction ld with
  | nil => simp [ldFindOutputSection]
  | cons os rest ih =>
    rw [ldFindOutputSection]
    split
    · next j hj =>
      obtain ⟨hlt, hmatch, hfirst⟩ := findIdx?_eq_some_iff_getElem.mp hj
      refine ⟨by simp, fun i j' h => ?_⟩
      cases h
      refine ⟨[], os, rest, rfl, rfl, by simp, fun pat hpat hg => ?_, ?_⟩
      · obtain ⟨k, hk, rfl⟩ := mem_take_iff_getElem.mp hpat
        exact hfirst k (by omega) (ldPatternMatches_iff.mpr hg)
      · rw [getElem?_eq_getElem hlt]
        exact ldPatternMatches_iff.mp hmatch
    · next hj =>
      have hnone : ∀ pat ∈ os.patterns, ¬Glob pat.pattern name := fun pat hpat hg =>
        Bool.false_ne_true ((findIdx?_eq_none_iff.mp hj pat hpat).symm.trans
          (ldPatternMatches_iff.mpr hg))
      split
      · next hname =>
        refine ⟨by simp, fun i j' h => ?_⟩
        cases h
        exact ⟨[], os, rest, rfl, rfl, by simp, fun pat hpat => hnone pat (mem_of_mem_take hpat),
          by simp [hname]⟩
      · next hname =>
        have hos : ¬os.Accepts name := by
          rintro (⟨pat, hpat, hg⟩ | h)
          · exact hnone pat hpat hg
          · exact hname h
        refine ⟨fun h => ?_, fun i j h => ?_⟩
        · simpa [hos] using ih.1 (Option.map_eq_none_iff.mp h)
        · obtain ⟨r, hr, hij⟩ := Option.map_eq_some_iff.mp h
          cases hij
          obtain ⟨before, o, after, rfl, hlen, hbefore, hplaced⟩ := ih.2 r.1 r.2 hr
          exact ⟨os :: before, o, after, rfl, by simp [hlen], by simpa [hos] using hbefore, hplaced⟩

end Tinycc
