import Mathlib.Logic.Function.Iterate
import Mathlib.Tactic.Common

namespace Tinycc.Lib
open Function

/-- A deterministic machine: the state after this one, or the result of the run. -/
abbrev Machine (S R : Type*) := S → S ⊕ R

namespace Machine

variable {S R O : Type*} (m : Machine S R) {s t : S} {r : R} {i j : ℕ}

def next : S ⊕ R → S ⊕ R := Sum.elim m Sum.inr

def after (n : ℕ) (s : S) : S ⊕ R := m.next^[n] (.inl s)

def Reaches (s t : S) : Prop := ∃ n, m.after n s = .inl t

def Halts (s : S) (r : R) : Prop := ∃ n, m.after n s = .inr r

def Shows (obs : S → O) (s : S) (o : O) : Prop := ∃ t, m.Reaches s t ∧ obs t = o

theorem after_zero (s : S) : m.after 0 s = .inl s := rfl

theorem after_succ (n : ℕ) (s : S) : m.after (n + 1) s = m.next^[n] (m s) := rfl

variable {m}

theorem after_succ_of_inl (h : m s = .inl t) (n : ℕ) : m.after (n + 1) s = m.after n t := by
  rw [after_succ, h]
  rfl

theorem iterate_next_inr (n : ℕ) (r : R) : m.next^[n] (.inr r) = .inr r :=
  iterate_fixed rfl n

theorem after_succ_of_inr (h : m s = .inr r) (n : ℕ) : m.after (n + 1) s = .inr r := by
  rw [after_succ, h, iterate_next_inr]

theorem after_add_of_inl (h : m.after i s = .inl t) (j : ℕ) : m.after (i + j) s = m.after j t := by
  rw [after, Nat.add_comm, iterate_add_apply, show m.next^[i] (.inl s) = .inl t from h]
  rfl

theorem after_add_of_inr (h : m.after i s = .inr r) (j : ℕ) : m.after (i + j) s = .inr r := by
  rw [after, Nat.add_comm, iterate_add_apply, show m.next^[i] (.inl s) = .inr r from h,
    iterate_next_inr]

theorem after_eq_inr_of_le (h : m.after i s = .inr r) (hij : i ≤ j) : m.after j s = .inr r := by
  obtain ⟨k, rfl⟩ := Nat.exists_eq_add_of_le hij
  exact after_add_of_inr h k

theorem Halts.unique {r' : R} (h : m.Halts s r) (h' : m.Halts s r') : r = r' := by
  obtain ⟨i, hi⟩ := h
  obtain ⟨j, hj⟩ := h'
  have h1 := after_eq_inr_of_le hi (Nat.le_max_left i j)
  have h2 := after_eq_inr_of_le hj (Nat.le_max_right i j)
  exact Sum.inr.inj (h1.symm.trans h2)

theorem Reaches.refl (s : S) : m.Reaches s s := ⟨0, rfl⟩

theorem Reaches.trans {u : S} (h : m.Reaches s t) (h' : m.Reaches t u) : m.Reaches s u := by
  obtain ⟨i, hi⟩ := h
  obtain ⟨j, hj⟩ := h'
  exact ⟨i + j, (after_add_of_inl hi j).trans hj⟩

theorem Reaches.halts (h : m.Reaches s t) (h' : m.Halts t r) : m.Halts s r := by
  obtain ⟨i, hi⟩ := h
  obtain ⟨j, hj⟩ := h'
  exact ⟨i + j, (after_add_of_inl hi j).trans hj⟩

def Runs (m : Machine S R) (P : S → Prop) (k : ℕ) (s t : S) : Prop :=
  m.after k s = .inl t ∧ ∀ j < k, ∀ u, m.after j s = .inl u → P u

namespace Runs

variable {P Q : S → Prop} {u : S}

theorem refl (s : S) : m.Runs P 0 s s := ⟨rfl, fun _ h => absurd h (Nat.not_lt_zero _)⟩

theorem one (h : m s = .inl t) (hs : P s) : m.Runs P 1 s t := by
  refine ⟨h, fun j hj u hu => ?_⟩
  obtain rfl : j = 0 := by omega
  exact Sum.inl.inj hu ▸ hs

theorem trans (h : m.Runs P i s t) (h' : m.Runs P j t u) : m.Runs P (i + j) s u := by
  refine ⟨(after_add_of_inl h.1 j).trans h'.1, fun l hl v hv => ?_⟩
  rcases Nat.lt_or_ge l i with hlt | hge
  · exact h.2 l hlt v hv
  · obtain ⟨d, rfl⟩ := Nat.exists_eq_add_of_le hge
    exact h'.2 d (by omega) v ((after_add_of_inl h.1 d).symm.trans hv)

theorem mono (h : m.Runs P i s t) (hPQ : ∀ u, P u → Q u) : m.Runs Q i s t :=
  ⟨h.1, fun j hj u hu => hPQ u (h.2 j hj u hu)⟩

end Runs

theorem Reaches.of_inl (h : m s = .inl t) : m.Reaches s t := ⟨1, h⟩

theorem Halts.of_inr (h : m s = .inr r) : m.Halts s r := ⟨1, h⟩

theorem Reaches.induction {P : S → Prop} (hs : P s) (hstep : ∀ u v, P u → m u = .inl v → P v)
    (h : m.Reaches s t) : P t := by
  obtain ⟨n, hn⟩ := h
  induction n generalizing s with
  | zero => exact Sum.inl.inj hn ▸ hs
  | succ n ih =>
    cases hm : m s with
    | inl u => exact ih (hstep s u hs hm) ((after_succ_of_inl hm n).symm.trans hn)
    | inr r => exact absurd ((after_succ_of_inr hm n).symm.trans hn) (by simp)

end Machine

variable {S T R O : Type*}

/-- The second machine does in one or more steps what the first does in one, and shows nothing new
on the way. -/
structure Simulation (m₁ : Machine S R) (m₂ : Machine T R) (o₁ : S → O) (o₂ : T → O)
    (rel : S → T → Prop) : Prop where
  obs {s : S} {t : T} : rel s t → o₁ s = o₂ t
  step {s s' : S} {t : T} : rel s t → m₁ s = .inl s' →
    ∃ k t', 0 < k ∧ m₂.Runs (fun u => o₂ u = o₁ s ∨ o₂ u = o₁ s') k t t' ∧ rel s' t'
  halt {s : S} {t : T} {r : R} : rel s t → m₁ s = .inr r →
    ∃ k t', m₂.Runs (fun u => o₂ u = o₁ s) k t t' ∧ m₂ t' = .inr r ∧ o₂ t' = o₁ s

/-- The runs from two states have the same results and show the same. -/
def SameBehaviour (m₁ : Machine S R) (m₂ : Machine T R) (o₁ : S → O) (o₂ : T → O) (s : S) (t : T) :
    Prop :=
  (∀ r, m₁.Halts s r ↔ m₂.Halts t r) ∧ ∀ o, m₁.Shows o₁ s o ↔ m₂.Shows o₂ t o

namespace Simulation

variable {m₁ : Machine S R} {m₂ : Machine T R} {o₁ : S → O} {o₂ : T → O} {rel : S → T → Prop}
  (sim : Simulation m₁ m₂ o₁ o₂ rel)
include sim

theorem reaches {s s' : S} {t : T} (hrel : rel s t) (h : m₁.Reaches s s') :
    ∃ t', m₂.Reaches t t' ∧ rel s' t' := by
  refine Machine.Reaches.induction (P := fun s' => ∃ t', m₂.Reaches t t' ∧ rel s' t')
    ⟨t, .refl t, hrel⟩ ?_ h
  rintro u v ⟨tu, htu, hu⟩ huv
  obtain ⟨k, tv, _, hk, hv⟩ := sim.step hu huv
  exact ⟨tv, htu.trans ⟨k, hk.1⟩, hv⟩

theorem halts_of_halts {s : S} {t : T} {r : R} (hrel : rel s t) (h : m₁.Halts s r) :
    m₂.Halts t r := by
  obtain ⟨n, hn⟩ := h
  induction n generalizing s t with
  | zero => exact absurd hn (by simp [Machine.after_zero])
  | succ n ih =>
    cases hm : m₁ s with
    | inl s' =>
      obtain ⟨k, t', _, hk, hrel'⟩ := sim.step hrel hm
      exact Machine.Reaches.halts ⟨k, hk.1⟩
        (ih hrel' ((Machine.after_succ_of_inl hm n).symm.trans hn))
    | inr r' =>
      obtain rfl := Sum.inr.inj ((Machine.after_succ_of_inr hm n).symm.trans hn)
      obtain ⟨k, t', hk, ht', _⟩ := sim.halt hrel hm
      exact Machine.Reaches.halts ⟨k, hk.1⟩ (.of_inr ht')

theorem halts_iff {s : S} {t : T} {r : R} (hrel : rel s t) : m₁.Halts s r ↔ m₂.Halts t r := by
  refine ⟨sim.halts_of_halts hrel, ?_⟩
  rintro ⟨n, hn⟩
  -- the second machine needs at least one step for each of the first, so the first ends as well
  induction n using Nat.strongRecOn generalizing s t with
  | _ n ih =>
    cases hm : m₁ s with
    | inl s' =>
      obtain ⟨k, t', hpos, ⟨hk, _⟩, hrel'⟩ := sim.step hrel hm
      have hkn : k ≤ n := by
        by_contra hlt
        have := Machine.after_eq_inr_of_le hn (Nat.le_of_lt (Nat.lt_of_not_le hlt))
        rw [hk] at this
        cases this
      obtain ⟨l, rfl⟩ := Nat.exists_eq_add_of_le hkn
      rw [Machine.after_add_of_inl hk] at hn
      exact (Machine.Reaches.of_inl hm).halts (ih l (by omega) hrel' hn)
    | inr r' =>
      obtain ⟨k, t', hk, ht', _⟩ := sim.halt hrel hm
      rw [Machine.Halts.unique ⟨n, hn⟩ (Machine.Reaches.halts ⟨k, hk.1⟩ (.of_inr ht'))]
      exact .of_inr hm

theorem shows_iff {s : S} {t : T} {o : O} (hrel : rel s t) :
    m₁.Shows o₁ s o ↔ m₂.Shows o₂ t o := by
  constructor
  · rintro ⟨s', hs', rfl⟩
    obtain ⟨t', ht', hrel'⟩ := sim.reaches hrel hs'
    exact ⟨t', ht', (sim.obs hrel').symm⟩
  rintro ⟨u, ⟨n, hn⟩, rfl⟩
  induction n using Nat.strongRecOn generalizing s t with
  | _ n ih =>
    cases hm : m₁ s with
    | inl s' =>
      obtain ⟨k, t', hpos, ⟨hk, hbetween⟩, hrel'⟩ := sim.step hrel hm
      rcases Nat.lt_or_ge n k with hlt | hge
      · rcases hbetween n hlt u hn with h | h
        · exact ⟨s, .refl s, h.symm⟩
        · exact ⟨s', .of_inl hm, h.symm⟩
      · obtain ⟨l, rfl⟩ := Nat.exists_eq_add_of_le hge
        rw [Machine.after_add_of_inl hk] at hn
        obtain ⟨v, hv, hov⟩ := ih l (by omega) hrel' hn
        exact ⟨v, (Machine.Reaches.of_inl hm).trans hv, hov⟩
    | inr r =>
      obtain ⟨k, t', ⟨hk, hbetween⟩, ht', hot'⟩ := sim.halt hrel hm
      refine ⟨s, .refl s, ?_⟩
      rcases Nat.lt_or_ge n k with hlt | hge
      · exact (hbetween n hlt u hn).symm
      · obtain ⟨l, rfl⟩ := Nat.exists_eq_add_of_le hge
        rw [Machine.after_add_of_inl hk] at hn
        cases l with
        | zero => exact Sum.inl.inj hn ▸ hot'.symm
        | succ l => exact absurd ((Machine.after_succ_of_inr ht' l).symm.trans hn) (by simp)

theorem sameBehaviour {s : S} {t : T} (hrel : rel s t) : SameBehaviour m₁ m₂ o₁ o₂ s t :=
  ⟨fun _ => sim.halts_iff hrel, fun _ => sim.shows_iff hrel⟩

end Simulation

end Tinycc.Lib
