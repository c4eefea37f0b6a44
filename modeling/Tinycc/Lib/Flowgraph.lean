import Mathlib.Data.Finset.Card

namespace Tinycc.Lib.Flowgraph
open Relation Finset ReflTransGen

variable {V : Type*} {E : V → V → Prop} {r a b c d p : V}

/-- The vertices of a path from the first vertex to the second, both included. -/
inductive IsPath (E : V → V → Prop) : V → V → List V → Prop
  | nil (r : V) : IsPath E r r [r]
  | cons {r s b : V} {l : List V} : E r s → IsPath E s b l → IsPath E r b (r :: l)

def Reachable (E : V → V → Prop) (r b : V) : Prop := ReflTransGen E r b

/-- `a` is on every path from the entry `r` to `b`. -/
def Dominates (E : V → V → Prop) (r a b : V) : Prop := ∀ l, IsPath E r b l → a ∈ l

def StrictlyDominates (E : V → V → Prop) (r a b : V) : Prop := Dominates E r a b ∧ a ≠ b

/-- The strict dominator that every other strict dominator dominates. -/
def IsIdom (E : V → V → Prop) (r d b : V) : Prop :=
  StrictlyDominates E r d b ∧ ∀ a, StrictlyDominates E r a b → Dominates E r a d

def Avoids (E : V → V → Prop) (a x y : V) : Prop := ReflTransGen (fun u v => E u v ∧ v ≠ a) x y

variable {x : V} {l : List V}

theorem Avoids.reachable {y : V} (h : Avoids E a x y) : Reachable E x y := by
  induction h with
  | refl => exact ReflTransGen.refl
  | tail _ he ih => exact ReflTransGen.tail ih he.1

theorem IsPath.avoids (h : IsPath E r b l) (ha : a ∉ l) : r ≠ a ∧ Avoids E a r b := by
  induction h with
  | nil r => exact ⟨fun e => ha (by simp [e]), ReflTransGen.refl⟩
  | cons he _ ih =>
    obtain ⟨hs, hp⟩ := ih (fun hm => ha (List.mem_cons_of_mem _ hm))
    exact ⟨fun e => ha (by simp [e]), ReflTransGen.head ⟨he, hs⟩ hp⟩

theorem Avoids.isPath (h : Avoids E a r b) (hr : r ≠ a) : ∃ l, IsPath E r b l ∧ a ∉ l := by
  induction h using head_induction_on with
  | refl => exact ⟨[b], .nil b, by simpa using hr.symm⟩
  | head he _ ih =>
    obtain ⟨l, hl, hal⟩ := ih he.2
    exact ⟨_ :: l, .cons he.1 hl, by simp [hal, hr.symm]⟩

theorem not_dominates_iff : ¬ Dominates E r a b ↔ r ≠ a ∧ Avoids E a r b := by
  constructor
  · intro h
    simp only [Dominates, not_forall] at h
    obtain ⟨l, hl, hal⟩ := h
    exact hl.avoids hal
  · rintro ⟨hr, h⟩ hd
    obtain ⟨l, hl, hal⟩ := h.isPath hr
    exact hal (hd l hl)

theorem dominates_refl (E : V → V → Prop) (r a : V) : Dominates E r a a := by
  intro l hl
  induction hl with
  | nil => simp
  | cons _ _ ih => exact List.mem_cons_of_mem _ ih

theorem dominates_root (E : V → V → Prop) (r b : V) : Dominates E r r b := by
  intro l hl
  cases hl <;> simp

theorem IsPath.avoids_of_mem (h : IsPath E x c l) (ha : a ∉ l) (hb : b ∈ l) :
    x ≠ a ∧ Avoids E a x b := by
  induction h with
  | nil x =>
    rw [List.mem_singleton] at hb
    exact ⟨fun e => ha (by simp [e]), hb ▸ ReflTransGen.refl⟩
  | @cons x s c l he _ ih =>
    have hx : x ≠ a := fun e => ha (by simp [e])
    rcases List.mem_cons.mp hb with rfl | hb
    · exact ⟨hx, ReflTransGen.refl⟩
    · obtain ⟨hs, hp⟩ := ih (fun hm => ha (List.mem_cons_of_mem _ hm)) hb
      exact ⟨hx, ReflTransGen.head ⟨he, hs⟩ hp⟩

theorem Dominates.trans (hab : Dominates E r a b) (hbc : Dominates E r b c) :
    Dominates E r a c := by
  by_contra hac
  obtain ⟨hr, hp⟩ := not_dominates_iff.mp hac
  obtain ⟨l, hl, hal⟩ := hp.isPath hr
  exact not_dominates_iff.mpr (hl.avoids_of_mem hal (hbc l hl)) hab

theorem Reachable.isPath (h : Reachable E r b) : ∃ l, IsPath E r b l := by
  induction h using head_induction_on with
  | refl => exact ⟨[b], .nil b⟩
  | head he _ ih =>
    obtain ⟨l, hl⟩ := ih
    exact ⟨_ :: l, .cons he hl⟩

theorem IsPath.reachable_of_mem (h : IsPath E r c l) (hb : b ∈ l) :
    Reachable E r b := by
  induction h with
  | nil r => rw [List.mem_singleton] at hb; exact hb ▸ ReflTransGen.refl
  | cons he _ ih =>
    rcases List.mem_cons.mp hb with rfl | hb
    · exact ReflTransGen.refl
    · exact ReflTransGen.head he (ih hb)

theorem Dominates.reachable (hab : Dominates E r a b) (hb : Reachable E r b) :
    Reachable E r a := by
  obtain ⟨l, hl⟩ := hb.isPath
  exact hl.reachable_of_mem (hab l hl)

theorem IsPath.first_of_two (h : IsPath E x b l) (hne : a ≠ b) :
    (x ≠ a ∧ Avoids E a x b) ∨ (x ≠ b ∧ Avoids E b x a) := by
  induction h with
  | nil x => exact .inl ⟨hne.symm, ReflTransGen.refl⟩
  | @cons x s b l he _ ih =>
    by_cases hxa : x = a
    · exact .inr ⟨hxa ▸ hne, hxa ▸ ReflTransGen.refl⟩
    · by_cases hxb : x = b
      · exact .inl ⟨hxa, hxb ▸ ReflTransGen.refl⟩
      · rcases ih hne with ⟨hs, hp⟩ | ⟨hs, hp⟩
        · exact .inl ⟨hxa, ReflTransGen.head ⟨he, hs⟩ hp⟩
        · exact .inr ⟨hxb, ReflTransGen.head ⟨he, hs⟩ hp⟩

theorem Dominates.antisymm (hab : Dominates E r a b) (hba : Dominates E r b a)
    (hb : Reachable E r b) : a = b := by
  by_contra hne
  obtain ⟨l, hl⟩ := hb.isPath
  rcases hl.first_of_two hne with h | h
  · exact not_dominates_iff.mpr h hab
  · exact not_dominates_iff.mpr h hba

theorem StrictlyDominates.pred (h : StrictlyDominates E r a b) (he : E p b) :
    Dominates E r a p := by
  by_contra hp
  obtain ⟨hr, hav⟩ := not_dominates_iff.mp hp
  exact not_dominates_iff.mpr ⟨hr, ReflTransGen.tail hav ⟨he, h.2.symm⟩⟩ h.1

theorem dominates_of_preds (hb : b ≠ r)
    (h : ∀ p, E p b → Reachable E r p → Dominates E r a p) : Dominates E r a b := by
  by_contra hd
  obtain ⟨hr, hav⟩ := not_dominates_iff.mp hd
  rcases cases_tail hav with he | ⟨p, hp, he, _⟩
  · exact hb he
  · exact not_dominates_iff.mpr ⟨hr, hp⟩ (h p he (Avoids.reachable hp))

theorem exists_pred_not_dominates (hb : b ≠ r) (h : Reachable E r b) :
    ∃ p, E p b ∧ Reachable E r p ∧ ¬ Dominates E r b p := by
  have key : ∀ c, Reachable E r c →
      (∃ p, E p b ∧ Reachable E r p ∧ ¬ Dominates E r b p) ∨ ¬ Dominates E r b c := by
    intro c hc
    induction hc with
    | refl => exact .inr (not_dominates_iff.mpr ⟨hb.symm, ReflTransGen.refl⟩)
    | @tail c d hc he ih =>
      rcases ih with ih | ih
      · exact .inl ih
      · by_cases hd : d = b
        · exact .inl ⟨c, hd ▸ he, hc, ih⟩
        · obtain ⟨hr, hav⟩ := not_dominates_iff.mp ih
          exact .inr (not_dominates_iff.mpr ⟨hr, ReflTransGen.tail hav ⟨he, hd⟩⟩)
  exact (key b h).resolve_right fun hd => hd (dominates_refl E r b)

theorem IsIdom.unique (hb : Reachable E r b) (h : IsIdom E r c b) (h' : IsIdom E r d b) :
    c = d :=
  (h'.2 c h.1).antisymm (h.2 d h'.1) (h'.1.1.reachable hb)

theorem IsIdom.dominates_iff (h : IsIdom E r d b) :
    Dominates E r a b ↔ a = b ∨ Dominates E r a d := by
  constructor
  · intro hab
    by_cases e : a = b
    · exact .inl e
    · exact .inr (h.2 a ⟨hab, e⟩)
  · rintro (rfl | had)
    · exact dominates_refl E r a
    · exact had.trans h.1.1

section Rank

open Classical in
noncomputable def domRank (E : V → V → Prop) (r : V) (vs : Finset V) (b : V) : ℕ :=
  (vs.filter fun a => StrictlyDominates E r a b).card

variable {vs : Finset V}

theorem domRank_lt_card (hb : b ∈ vs) : domRank E r vs b < vs.card := by
  classical
  refine card_lt_card ((ssubset_iff_of_subset (filter_subset _ _)).mpr ?_)
  exact ⟨b, hb, fun h => (Finset.mem_filter.mp h).2.2 rfl⟩

theorem StrictlyDominates.domRank_lt (h : StrictlyDominates E r d b) (hb : Reachable E r b)
    (hd : d ∈ vs) : domRank E r vs d < domRank E r vs b := by
  classical
  refine card_lt_card ((ssubset_iff_of_subset ?_).mpr ⟨d, ?_, ?_⟩)
  · intro a ha
    obtain ⟨hav, had⟩ := Finset.mem_filter.mp ha
    refine Finset.mem_filter.mpr ⟨hav, had.1.trans h.1, ?_⟩
    rintro rfl
    exact h.2 (h.1.antisymm had.1 hb)
  · exact Finset.mem_filter.mpr ⟨hd, h⟩
  · exact fun hm => (Finset.mem_filter.mp hm).2.2 rfl

end Rank

end Tinycc.Lib.Flowgraph
