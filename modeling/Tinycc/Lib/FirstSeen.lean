import Mathlib.Data.List.Nodup
import Mathlib.Logic.Function.Basic

namespace Tinycc.Lib
open List

variable {α : Type} [DecidableEq α]

def insertNew (l : List α) (a : α) : List α := if a ∈ l then l else l ++ [a]

def firstSeen (l as : List α) : List α := as.foldl insertNew l

section Insert

variable {l : List α} {a b : α}

theorem insertNew_of_mem (h : a ∈ l) : insertNew l a = l := if_pos h

theorem insertNew_of_not_mem (h : a ∉ l) : insertNew l a = l ++ [a] := if_neg h

theorem mem_insertNew : b ∈ insertNew l a ↔ b ∈ l ∨ b = a := by
  by_cases h : a ∈ l
  · rw [insertNew_of_mem h]
    constructor
    · exact Or.inl
    · rintro (hb | rfl)
      · exact hb
      · exact h
  · rw [insertNew_of_not_mem h, mem_append, mem_singleton]

theorem nodup_insertNew (h : l.Nodup) : (insertNew l a).Nodup := by
  by_cases ha : a ∈ l
  · rwa [insertNew_of_mem ha]
  · rw [insertNew_of_not_mem ha]
    apply List.Nodup.append h (nodup_singleton a)
    intro x hx hxa
    rw [List.mem_singleton.mp hxa] at hx
    exact ha hx

end Insert

section Run

variable {l as : List α} {a : α}

theorem firstSeen_cons (l as : List α) (a : α) :
    firstSeen l (a :: as) = firstSeen (insertNew l a) as := rfl

theorem mem_firstSeen : a ∈ firstSeen l as ↔ a ∈ l ∨ a ∈ as := by
  induction as generalizing l with
  | nil => simp [firstSeen]
  | cons b as ih =>
    rw [firstSeen_cons, ih, mem_insertNew, mem_cons, or_assoc]

theorem nodup_firstSeen (h : l.Nodup) : (firstSeen l as).Nodup := by
  induction as generalizing l with
  | nil => exact h
  | cons b as ih => exact ih (nodup_insertNew h)

theorem prefix_firstSeen (l as : List α) : l <+: firstSeen l as := by
  induction as generalizing l with
  | nil => exact prefix_rfl
  | cons b as ih =>
    refine List.IsPrefix.trans ?_ (ih (insertNew l b))
    by_cases h : b ∈ l
    · exact (insertNew_of_mem h).symm ▸ prefix_rfl
    · rw [insertNew_of_not_mem h]
      exact prefix_append l [b]

theorem idxOf_firstSeen [BEq α] [LawfulBEq α] (h : a ∈ l) :
    (firstSeen l as).idxOf a = l.idxOf a := by
  obtain ⟨t, ht⟩ := prefix_firstSeen l as
  rw [← ht, idxOf_append_of_mem h]

end Run

omit [DecidableEq α] in
theorem update_idxOf_concat [BEq α] [LawfulBEq α] {ι : Type} [DecidableEq ι] {key : ι → α}
    (hkey : Function.Injective key) {of : ι → ℕ} {base : ℕ} {l : List α}
    (h : ∀ x, of x = if key x ∈ l then base + l.idxOf (key x) else 0) {x : ι} (hx : key x ∉ l)
    (y : ι) : Function.update of x (base + l.length) y =
      if key y ∈ l ++ [key x] then base + (l ++ [key x]).idxOf (key y) else 0 := by
  rw [Function.update_apply]
  by_cases heq : y = x
  · subst heq
    rw [if_pos rfl, if_pos (by simp), idxOf_append_of_notMem hx, idxOf_cons_self, Nat.add_zero]
  · rw [if_neg heq, h]
    by_cases hmem : key y ∈ l
    · rw [if_pos hmem, if_pos (mem_append_left _ hmem), idxOf_append_of_mem hmem]
    · rw [if_neg hmem, if_neg]
      rw [mem_append, mem_singleton, not_or]
      exact ⟨hmem, fun h => heq (hkey h)⟩

end Tinycc.Lib
