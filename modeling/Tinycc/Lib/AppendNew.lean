import Mathlib.Data.List.Nodup

namespace Tinycc.Lib

variable {α : Type*} [DecidableEq α] {l xs : List α} {a x : α}

def appendNew (l : List α) (x : α) : List α := if x ∈ l then l else l ++ [x]

@[simp] theorem mem_appendNew : a ∈ appendNew l x ↔ a ∈ l ∨ a = x := by
  unfold appendNew
  split
  · next h =>
    constructor
    · exact .inl
    · rintro (h' | rfl)
      · exact h'
      · exact h
  · simp

theorem nodup_appendNew (h : l.Nodup) : (appendNew l x).Nodup := by
  unfold appendNew
  split
  · exact h
  · next hx => exact List.nodup_append.mpr ⟨h, List.nodup_singleton x, by aesop⟩

theorem length_appendNew_le : (appendNew l x).length ≤ l.length + 1 := by
  unfold appendNew
  split <;> simp

theorem mem_foldl_appendNew : ∀ {l : List α}, a ∈ xs.foldl appendNew l ↔ a ∈ l ∨ a ∈ xs := by
  induction xs with
  | nil => simp
  | cons x xs ih =>
    intro l
    rw [List.foldl_cons, ih, mem_appendNew, List.mem_cons, or_assoc]

theorem nodup_foldl_appendNew : ∀ {l : List α}, l.Nodup → (xs.foldl appendNew l).Nodup := by
  induction xs with
  | nil => exact fun h => h
  | cons x xs ih => exact fun h => ih (nodup_appendNew h)

theorem length_foldl_appendNew_le :
    ∀ {l : List α}, (xs.foldl appendNew l).length ≤ l.length + xs.length := by
  induction xs with
  | nil => simp
  | cons x xs ih =>
    intro l
    have h1 := ih (l := appendNew l x)
    have h2 := length_appendNew_le (l := l) (x := x)
    simp only [List.foldl_cons, List.length_cons]
    omega

end Tinycc.Lib
