import Mathlib.Data.Finset.Card

namespace Tinycc.Lib
open Function Finset

structure Move (V : Type*) where
  dst : V
  src : V

variable {V A : Type*} [DecidableEq V]

def execMove (σ : V → A) (m : Move V) : V → A := update σ m.dst (σ m.src)

structure CopyInv (dst src₀ src : ℕ → V) (all P : Finset ℕ) (T : Set V) (σ₀ σ : V → A) : Prop where
  subset : P ⊆ all
  pending : ∀ i ∈ P, σ (src i) = σ₀ (src₀ i)
  done : ∀ i ∈ all, i ∉ P → σ (dst i) = σ₀ (src₀ i)
  frame : ∀ v, (∀ i ∈ all, v ≠ dst i) → v ∉ T → σ v = σ₀ v

def CopyReady (dst src : ℕ → V) (P : Finset ℕ) (i : ℕ) : Prop :=
  ∀ j ∈ P, j ≠ i → src j ≠ dst i

section Step

variable {dst src₀ src : ℕ → V} {all P : Finset ℕ} {T : Set V} {σ₀ σ : V → A} {i : ℕ}

omit [DecidableEq V] in
theorem CopyInv.init (dst src : ℕ → V) (all : Finset ℕ) (T : Set V) (σ : V → A) :
    CopyInv dst src src all all T σ σ where
  subset := Finset.Subset.refl all
  pending _ _ := rfl
  done _ hi hn := absurd hi hn
  frame _ _ _ := rfl

theorem CopyInv.emit (I : CopyInv dst src₀ src all P T σ₀ σ) (hinj : Set.InjOn dst all)
    (hi : i ∈ P) (hready : CopyReady dst src P i) :
    CopyInv dst src₀ src all (P.erase i) T σ₀ (execMove σ ⟨dst i, src i⟩) where
  subset := (erase_subset i P).trans I.subset
  pending j hj := by
    obtain ⟨hji, hj⟩ := Finset.mem_erase.mp hj
    rw [execMove, update_of_ne (hready j hj hji)]
    exact I.pending j hj
  done j hj hn := by
    by_cases hji : j = i
    · rw [hji, execMove, update_self]
      exact I.pending i hi
    · have hne : dst j ≠ dst i := fun e => hji (hinj hj (I.subset hi) e)
      rw [execMove, update_of_ne hne]
      exact I.done j hj fun h => hn (Finset.mem_erase.mpr ⟨hji, h⟩)
  frame v hv hT := by
    rw [execMove, update_of_ne (hv i (I.subset hi))]
    exact I.frame v hv hT

theorem CopyInv.save (I : CopyInv dst src₀ src all P T σ₀ σ) (hi : i ∈ P) {t : V}
    (hdst : ∀ j ∈ all, dst j ≠ t) (hsrc : ∀ j ∈ P, src j ≠ t) :
    CopyInv dst src₀ (update src i t) all P (insert t T) σ₀
      (execMove σ ⟨t, src i⟩) where
  subset := I.subset
  pending j hj := by
    by_cases hji : j = i
    · rw [hji, update_self, execMove, update_self]
      exact I.pending i hi
    · rw [update_of_ne hji, execMove, update_of_ne (hsrc j hj)]
      exact I.pending j hj
  done j hj hn := by
    rw [execMove, update_of_ne (hdst j hj)]
    exact I.done j hj hn
  frame v hv hT := by
    rw [Set.mem_insert_iff, not_or] at hT
    rw [execMove, update_of_ne hT.1]
    exact I.frame v hv hT.2

/-- When no copy is ready the sources are the destinations in another order, so each pending source
is read by one copy only. -/
theorem blocked_sources (hinj : Set.InjOn dst P) (hblocked : ∀ i ∈ P, ¬ CopyReady dst src P i) :
    Set.InjOn src P ∧ P.image src = P.image dst := by
  have hsub : P.image dst ⊆ P.image src := by
    intro v hv
    obtain ⟨i, hi, rfl⟩ := Finset.mem_image.mp hv
    have hb := hblocked i hi
    simp only [CopyReady, not_forall, not_not] at hb
    obtain ⟨j, hj, _, hji⟩ := hb
    exact Finset.mem_image.mpr ⟨j, hj, hji⟩
  have hcard : (P.image dst).card = P.card := card_image_of_injOn hinj
  have heq := eq_of_subset_of_card_le hsub (by rw [hcard]; exact card_image_le)
  refine ⟨?_, heq.symm⟩
  apply Finset.card_image_iff.mp
  rw [← heq, hcard]

theorem exists_ready_of_save (hinj : Set.InjOn dst P)
    (hblocked : ∀ i ∈ P, ¬ CopyReady dst src P i) (hi : i ∈ P) {t : V}
    (hdst : ∀ j ∈ P, dst j ≠ t) : ∃ k ∈ P, CopyReady dst (update src i t) P k := by
  obtain ⟨hsrc, himg⟩ := blocked_sources hinj hblocked
  have hmem : src i ∈ P.image dst := himg ▸ mem_image_of_mem src hi
  obtain ⟨k, hk, hki⟩ := Finset.mem_image.mp hmem
  refine ⟨k, hk, fun j hj _ => ?_⟩
  by_cases hji : j = i
  · rw [hji, update_self]
    exact (hdst k hk).symm
  · rw [update_of_ne hji, hki]
    exact fun e => hji (hsrc hj hi e)

end Step

end Tinycc.Lib
