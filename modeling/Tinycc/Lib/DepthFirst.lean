import Tinycc.Lib.Flowgraph
import Mathlib.Order.Bounds.Basic

namespace Tinycc.Lib
open Relation Flowgraph ReflTransGen

variable {n u v w x y z s a : ℕ} {E : ℕ → ℕ → Prop} {parent : ℕ → ℕ}

inductive Ancestor (parent : ℕ → ℕ) (u : ℕ) : ℕ → Prop
  | refl : Ancestor parent u u
  | step {v : ℕ} : 0 < v → Ancestor parent u (parent v) → Ancestor parent u v

/-- A graph on `0, …, n - 1` numbered in the order of a depth-first search from `0`. -/
structure DfsTree (n : ℕ) (E : ℕ → ℕ → Prop) (parent : ℕ → ℕ) : Prop where
  parent_lt : ∀ v, 0 < v → v < n → parent v < v
  parent_edge : ∀ v, 0 < v → v < n → E (parent v) v
  edge_lt : ∀ u v, E u v → u < n ∧ v < n
  /-- The descendants of a vertex have consecutive numbers. -/
  interval : ∀ u y x, x < n → Ancestor parent u x → u ≤ y → y ≤ x → Ancestor parent u y
  /-- An edge to a later vertex goes to a descendant. -/
  forward : ∀ u v, E u v → u < v → Ancestor parent u v

theorem Ancestor.trans (h : Ancestor parent u v) (h' : Ancestor parent v w) :
    Ancestor parent u w := by
  induction h' with
  | refl => exact h
  | step h0 _ ih => exact .step h0 ih

namespace DfsTree

variable (T : DfsTree n E parent)
include T

theorem ancestor_le (h : Ancestor parent u v) (hv : v < n) : u ≤ v := by
  induction h with
  | refl => exact le_rfl
  | @step v h0 _ ih =>
    have := T.parent_lt v h0 hv
    omega

theorem ancestor_zero (hv : v < n) : Ancestor parent 0 v := by
  induction v using Nat.strong_induction_on with
  | _ v ih =>
    rcases Nat.eq_zero_or_pos v with rfl | h0
    · exact .refl
    · have := T.parent_lt v h0 hv
      exact .step h0 (ih _ this (by omega))

theorem ancestor_of_le (hu : Ancestor parent u w) (hv : Ancestor parent v w) (hw : w < n)
    (h : u ≤ v) : Ancestor parent u v :=
  T.interval u v w hw hu h (T.ancestor_le hv hw)

theorem tree_path (h : Ancestor parent u v) (hv : v < n) :
    ReflTransGen (fun x y => E x y ∧ u < y ∧ y ≤ v) u v := by
  induction h with
  | refl => exact ReflTransGen.refl
  | @step v h0 h ih =>
    have hlt := T.parent_lt v h0 hv
    have hle := T.ancestor_le h (by omega)
    refine ReflTransGen.tail (ReflTransGen.mono ?_ _ _ (ih (by omega)))
      ⟨T.parent_edge v h0 hv, by omega, le_rfl⟩
    rintro x y ⟨he, h1, h2⟩
    exact ⟨he, h1, by omega⟩

theorem ancestor_of_path_ge (h : ReflTransGen (fun x y => E x y ∧ u ≤ y) u v) :
    Ancestor parent u v := by
  induction h with
  | refl => exact .refl
  | @tail x y _ he ih =>
    obtain ⟨hxn, hyn⟩ := T.edge_lt x y he.1
    rcases Nat.lt_or_ge x y with hlt | hge
    · exact ih.trans (T.forward x y he.1 hlt)
    · exact T.interval u y x hxn ih he.2 hge

end DfsTree

/-- `x` reaches `w`, all vertices before `w` being numbered above `w`. -/
def HighPath (E : ℕ → ℕ → Prop) (w x : ℕ) : Prop := ReflTransGen (fun u v => w < u ∧ E u v) x w

theorem HighPath.le (h : HighPath E w x) : w ≤ x := by
  rcases cases_head h with rfl | ⟨_, hc, _⟩
  · exact le_rfl
  · exact hc.1.le

theorem HighPath.path_ge (h : HighPath E w x) (hu : u ≤ w) :
    ReflTransGen (fun a b => E a b ∧ u ≤ b) x w := by
  induction h using head_induction_on with
  | refl => exact ReflTransGen.refl
  | head hab hb ih => exact ReflTransGen.head ⟨hab.2, hu.trans (HighPath.le hb)⟩ ih

theorem HighPath.mono_edge (h : HighPath E u x) (hw : w < u) :
    ReflTransGen (fun a b => w < a ∧ E a b) x u := by
  induction h using head_induction_on with
  | refl => exact ReflTransGen.refl
  | head hab _ ih => exact ReflTransGen.head ⟨hw.trans hab.1, hab.2⟩ ih

/-- `v` has an edge into such a path. -/
def SemiCandidate (E : ℕ → ℕ → Prop) (w v : ℕ) : Prop := ∃ x, E v x ∧ HighPath E w x

/-- The semidominator: the least vertex with a path to `w` through higher vertices only. -/
def IsSemidominator (E : ℕ → ℕ → Prop) (w s : ℕ) : Prop := IsLeast {v | SemiCandidate E w v} s

theorem exists_last_below (h0 : 0 < a) (h : Avoids E a 0 v) :
    v < a ∨ ∃ x y, Avoids E a 0 x ∧ x < a ∧ E x y ∧ a < y ∧
      ReflTransGen (fun u v => E u v ∧ a < u) y v ∧ a < v := by
  induction h with
  | refl => exact .inl h0
  | @tail v z hv he ih =>
    rcases lt_trichotomy z a with hlt | rfl | hgt
    · exact .inl hlt
    · exact absurd rfl he.2
    · refine .inr ?_
      rcases ih with hlt | ⟨x, y, hx, hxa, hxy, hay, hp, hav⟩
      · exact ⟨v, z, hv, hlt, he.1, hgt, ReflTransGen.refl, hgt⟩
      · exact ⟨x, y, hx, hxa, hxy, hay, hp.tail ⟨he.1, hav⟩, hgt⟩

namespace DfsTree

variable (T : DfsTree n E parent)
include T

theorem semiCandidate_parent (h0 : 0 < w) (hw : w < n) : SemiCandidate E w (parent w) :=
  ⟨w, T.parent_edge w h0 hw, ReflTransGen.refl⟩

theorem semidominator_lt (hs : IsSemidominator E w s) (h0 : 0 < w) (hw : w < n) : s < w :=
  lt_of_le_of_lt (hs.2 (T.semiCandidate_parent h0 hw)) (T.parent_lt w h0 hw)

theorem exists_ancestor_highPath {m : ℕ} (hmv : m < v)
    (h : ReflTransGen (fun x y => E x y ∧ m < x) x v) :
    ∃ u, Ancestor parent u v ∧ m < u ∧ HighPath E u x := by
  induction h using head_induction_on with
  | refl => exact ⟨v, .refl, hmv, ReflTransGen.refl⟩
  | @head x y he _ ih =>
    obtain ⟨u, hu, hmu, hp⟩ := ih
    by_cases hxv : Ancestor parent x v
    · exact ⟨x, hxv, he.2, ReflTransGen.refl⟩
    · rcases lt_trichotomy x u with hlt | rfl | hgt
      · -- the whole path from `x` to `u` is above `x`, so `x` would be an ancestor of `v`
        have hy : x ≤ y := hlt.le.trans hp.le
        have hxu := T.ancestor_of_path_ge (ReflTransGen.head ⟨he.1, hy⟩ (hp.path_ge hlt.le))
        exact absurd (hxu.trans hu) hxv
      · exact absurd hu hxv
      · exact ⟨u, hu, hmu, ReflTransGen.head ⟨hgt, he.1⟩ hp⟩

theorem tree_path_from (h : Ancestor parent u v) (hv : v < n) (hw : w < u) :
    ReflTransGen (fun x y => w < x ∧ E x y) u v := by
  induction h with
  | refl => exact ReflTransGen.refl
  | @step v h0 h ih =>
    have hlt := T.parent_lt v h0 hv
    have hle := T.ancestor_le h (by omega)
    exact ReflTransGen.tail (ih (by omega)) ⟨by omega, T.parent_edge v h0 hv⟩

/-- The semidominator of `w` from those of the vertices after `w`, as the pred sweep finds it. -/
theorem isSemidominator_of {sd : ℕ → ℕ} (h0 : 0 < w) (hw : w < n)
    (hsd : ∀ u, w < u → u < n → IsSemidominator E u (sd u))
    (hlo : ∀ v, E v w → v < w → s ≤ v)
    (hhi : ∀ v u, E v w → Ancestor parent u v → w < u → s ≤ sd u)
    (hmem : (E s w ∧ s < w) ∨ ∃ v u, E v w ∧ Ancestor parent u v ∧ w < u ∧ s = sd u) :
    IsSemidominator E w s := by
  have hsw : s < w :=
    lt_of_le_of_lt (hlo _ (T.parent_edge w h0 hw) (T.parent_lt w h0 hw)) (T.parent_lt w h0 hw)
  constructor
  · rcases hmem with ⟨he, _⟩ | ⟨v, u, he, hanc, hwu, rfl⟩
    · exact ⟨w, he, ReflTransGen.refl⟩
    · have hvn := (T.edge_lt v w he).1
      have huv := T.ancestor_le hanc hvn
      obtain ⟨x, hx, hp⟩ := (hsd u hwu (by omega)).1
      have hup := T.tree_path_from hanc hvn hwu
      exact ⟨x, hx, ((hp.mono_edge hwu).trans hup).tail ⟨by omega, he⟩⟩
  · rintro v₀ ⟨x, hx, hp⟩
    rcases cases_tail hp with rfl | ⟨v, hxv, hwv, hvw⟩
    · rcases Nat.lt_or_ge v₀ w with hlt | hge
      · exact hlo v₀ hx hlt
      · omega
    · have hpath : ReflTransGen (fun a b => E a b ∧ w < a) x v := by
        refine ReflTransGen.mono ?_ _ _ hxv
        exact fun a b h => ⟨h.2, h.1⟩
      obtain ⟨u, hanc, hwu, hpu⟩ := T.exists_ancestor_highPath hwv hpath
      have hun : u < n := lt_of_le_of_lt (T.ancestor_le hanc (T.edge_lt v w hvw).1)
        (T.edge_lt v w hvw).1
      exact (hhi v u hvw hanc hwu).trans ((hsd u hwu hun).2 ⟨x, hx, hpu⟩)

theorem ancestor_of_dominates (h : Dominates E 0 a v) (hv : v < n) : Ancestor parent a v := by
  by_contra hna
  refine not_dominates_iff.mpr ⟨?_, ?_⟩ h
  · rintro rfl
    exact hna (T.ancestor_zero hv)
  · have hanc := T.ancestor_zero hv
    clear h
    induction hanc with
    | refl => exact ReflTransGen.refl
    | @step v h0 _ ih =>
      have hlt := T.parent_lt v h0 hv
      refine ReflTransGen.tail (ih (by omega) fun h => hna (.step h0 h))
        ⟨T.parent_edge v h0 hv, ?_⟩
      rintro rfl
      exact hna .refl

theorem strictlyDominates_le_semidominator (hs : IsSemidominator E w s) (hw : w < n)
    (h : StrictlyDominates E 0 a w) : a ≤ s := by
  by_contra hsa
  have haw := T.ancestor_le (T.ancestor_of_dominates h.1 hw) hw
  have hne := h.2
  obtain ⟨x, hx, hp⟩ := hs.1
  refine not_dominates_iff.mpr ⟨by omega, ?_⟩ h.1
  have h1 : Avoids E a 0 s := by
    refine ReflTransGen.mono ?_ _ _ (T.tree_path (T.ancestor_zero (by omega)) (by omega))
    exact fun _ _ h => ⟨h.1, by omega⟩
  have h2 : Avoids E a x w := by
    refine ReflTransGen.mono ?_ _ _ (hp.path_ge le_rfl)
    exact fun _ _ h => ⟨h.1, by omega⟩
  have hxw := hp.le
  exact (h1.tail ⟨hx, by omega⟩).trans h2

theorem dominates_of_le_semidominator (hs : IsSemidominator E w s) (h0 : 0 < w) (hw : w < n)
    (ha : Dominates E 0 a (parent w)) (has : a ≤ s) : Dominates E 0 a w := by
  by_contra hd
  obtain ⟨hr, hav⟩ := not_dominates_iff.mp hd
  have hsw := T.semidominator_lt hs h0 hw
  rcases exists_last_below (Nat.pos_of_ne_zero hr.symm) hav with hlt |
    ⟨x, y, hx, hxa, hxy, hay, hp, haw⟩
  · omega
  obtain ⟨u, hanc, hau, hpu⟩ := T.exists_ancestor_highPath haw hp
  cases hanc with
  | refl =>
    have := hs.2 ⟨y, hxy, hpu⟩
    omega
  | step _ hanc =>
    -- the same detour reaches the parent without meeting `a`
    have hpn : parent w < n := (T.parent_lt w h0 hw).trans hw
    refine not_dominates_iff.mpr ⟨hr, ?_⟩ ha
    have h1 : Avoids E a y u := by
      refine ReflTransGen.mono ?_ _ _ (hpu.path_ge le_rfl)
      exact fun _ _ h => ⟨h.1, by omega⟩
    have h2 : Avoids E a u (parent w) := by
      refine ReflTransGen.mono ?_ _ _ (T.tree_path hanc hpn)
      exact fun _ _ h => ⟨h.1, by omega⟩
    exact ((hx.tail ⟨hxy, by omega⟩).trans h1).trans h2

/-- The nearest dominator of the parent up to the semidominator is the immediate dominator. -/
theorem isIdom_of_semidominator (hs : IsSemidominator E w s) (h0 : 0 < w) (hw : w < n)
    (ha : Dominates E 0 a (parent w)) (has : a ≤ s)
    (hmax : ∀ d, StrictlyDominates E 0 d w → Dominates E 0 d a) : IsIdom E 0 a w := by
  have hsw := T.semidominator_lt hs h0 hw
  exact ⟨⟨T.dominates_of_le_semidominator hs h0 hw ha has, by omega⟩, hmax⟩

end DfsTree

end Tinycc.Lib
