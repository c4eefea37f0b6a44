import Mathlib.Data.Nat.Notation
import Mathlib.Logic.Function.Basic
import Mathlib.Tactic.SplitIfs

namespace Tinycc.Lib
open Function

variable {α β : Type*}

structure MemoEntry (α β : Type*) where
  key : α
  value : β
  valid : Bool

abbrev MemoCache (α β : Type*) := ℕ → MemoEntry α β

variable [DecidableEq α] {hash : α → ℕ} {f : α → β} {cache : MemoCache α β}

def memoCall (hash : α → ℕ) (f : α → β) (cache : MemoCache α β) (k : α) : β × MemoCache α β :=
  if (cache (hash k)).valid = true ∧ (cache (hash k)).key = k then ((cache (hash k)).value, cache)
  else (f k, update cache (hash k) ⟨k, f k, true⟩)

def memoRun (hash : α → ℕ) (f : α → β) (cache : MemoCache α β) (ks : List α) : MemoCache α β :=
  ks.foldl (fun cache k => (memoCall hash f cache k).2) cache

def MemoCache.Sound (f : α → β) (cache : MemoCache α β) : Prop :=
  ∀ i, (cache i).valid = true → (cache i).value = f (cache i).key

omit [DecidableEq α] in
theorem MemoCache.sound_of_invalid (h : ∀ i, (cache i).valid = false) : cache.Sound f := by
  intro i hv
  rw [h i] at hv
  cases hv

theorem memoCall_fst (h : cache.Sound f) (k : α) : (memoCall hash f cache k).1 = f k := by
  unfold memoCall
  split_ifs with hit
  · exact (h _ hit.1).trans (congrArg f hit.2)
  · rfl

theorem memoCall_sound (h : cache.Sound f) (k : α) : (memoCall hash f cache k).2.Sound f := by
  unfold memoCall
  split_ifs with hit
  · exact h
  · intro i hv
    dsimp only at hv ⊢
    by_cases hi : i = hash k
    · rw [hi, update_self]
    · rw [update_of_ne hi] at hv ⊢
      exact h i hv

theorem memoRun_sound (h : cache.Sound f) (ks : List α) : (memoRun hash f cache ks).Sound f := by
  induction ks generalizing cache with
  | nil => exact h
  | cons k ks ih => exact ih (memoCall_sound h k)

end Tinycc.Lib
