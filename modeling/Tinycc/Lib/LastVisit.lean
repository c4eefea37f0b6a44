import Tinycc.Lib.Flowgraph

namespace Tinycc.Lib
open Relation Flowgraph Relation.ReflTransGen

variable {S V β : Type*} {R : S → S → Prop} {pc : S → V} {E : V → V → Prop} {d : V} {s₀ s t u : S}

def Since (R : S → S → Prop) (pc : S → V) (d : V) : S → S → Prop :=
  ReflTransGen fun a b => R a b ∧ pc b ≠ d

structure LastVisit (R : S → S → Prop) (pc : S → V) (s₀ : S) (d : V) (u s : S) : Prop where
  reaches : ReflTransGen R s₀ u
  pc_eq : pc u = d
  since : Since R pc d u s

theorem LastVisit.step (h : LastVisit R pc s₀ d u s) (hs : pc s ≠ d) :
    ∃ v, R u v ∧ pc v ≠ d ∧ Since R pc d v s := by
  rcases cases_head h.since with heq | ⟨v, hv, hvs⟩
  · exact absurd (heq ▸ h.pc_eq) hs
  · exact ⟨v, hv.1, hv.2, hvs⟩

theorem Since.eq_of_written_at (f : S → β) (h : Since R pc d t s) (ht : pc t ≠ d)
    (hf : ∀ a b, R a b → pc a ≠ d → f b = f a) : f s = f t := by
  have key : f s = f t ∧ pc s ≠ d := by
    induction h with
    | refl => exact ⟨rfl, ht⟩
    | tail _ hstep ih => exact ⟨(hf _ _ hstep.1 ih.2).trans ih.1, hstep.2⟩
  exact key.1

section Graph

variable (hE : ∀ a b, R a b → E (pc a) (pc b))

include hE

theorem lastVisit_or_avoids (h : ReflTransGen R s₀ s) (d : V) :
    (∃ u, LastVisit R pc s₀ d u s) ∨ (pc s₀ ≠ d ∧ Avoids E d (pc s₀) (pc s)) := by
  induction h with
  | refl =>
    by_cases hd : pc s₀ = d
    · exact .inl ⟨s₀, refl, hd, refl⟩
    · exact .inr ⟨hd, refl⟩
  | @tail a b ha hab ih =>
    by_cases hd : pc b = d
    · exact .inl ⟨b, tail ha hab, hd, refl⟩
    · rcases ih with ⟨u, hu⟩ | ⟨hne, hav⟩
      · exact .inl ⟨u, hu.reaches, hu.pc_eq, tail hu.since ⟨hab, hd⟩⟩
      · exact .inr ⟨hne, tail hav ⟨hE _ _ hab, hd⟩⟩

/-- Before it comes to a vertex a run has been at each of the vertex's dominators. -/
theorem exists_lastVisit (h : ReflTransGen R s₀ s) (hd : Dominates E (pc s₀) d (pc s)) :
    ∃ u, LastVisit R pc s₀ d u s := by
  rcases lastVisit_or_avoids hE h d with hu | hav
  · exact hu
  · exact absurd hd (not_dominates_iff.mpr hav)

end Graph

end Tinycc.Lib
