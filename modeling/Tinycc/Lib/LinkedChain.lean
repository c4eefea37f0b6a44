import Mathlib.Data.Int.Notation
import Mathlib.Data.Nat.Notation
import Mathlib.Logic.Basic

namespace Tinycc.Lib
open List

/-- The list `c` is what a walk along the links `next` from `t` visits, up to the end mark `-1`. A
cell without a link is no part of a chain. -/
def Linked (next : ℕ → Option ℤ) : ℤ → List ℕ → Prop
  | t, [] => t = -1
  | t, i :: c => t = i ∧ ∃ u, next i = some u ∧ Linked next u c

variable {next next' : ℕ → Option ℤ} {t u : ℤ} {c d : List ℕ} {i j : ℕ}

theorem Linked.congr (h : Linked next t c) (heq : ∀ j ∈ c, next' j = next j) :
    Linked next' t c := by
  induction c generalizing t with
  | nil => exact h
  | cons i c ih =>
    obtain ⟨rfl, u, hu, hc⟩ := h
    exact ⟨rfl, u, (heq i (by simp)).trans hu, ih hc fun j hj => heq j (mem_cons_of_mem i hj)⟩

theorem Linked.unique (hc : Linked next t c) (hd : Linked next t d) : c = d := by
  induction c generalizing t d with
  | nil =>
    cases d with
    | nil => rfl
    | cons j d =>
      have hend : t = -1 := hc
      have := hd.1
      omega
  | cons i c ih =>
    obtain ⟨rfl, u, hu, hc⟩ := hc
    cases d with
    | nil =>
      have hend : (i : ℤ) = -1 := hd
      omega
    | cons j d =>
      obtain ⟨hij, v, hv, hd⟩ := hd
      obtain rfl : i = j := by omega
      obtain rfl : u = v := Option.some.inj (hu.symm.trans hv)
      rw [ih hc hd]

theorem Linked.suffix (h : Linked next t (c ++ i :: d)) : Linked next i (i :: d) := by
  induction c generalizing t with
  | nil =>
    obtain ⟨rfl, hd⟩ := h
    exact ⟨rfl, hd⟩
  | cons j c ih =>
    obtain ⟨_, _, _, h⟩ := h
    exact ih h

theorem Linked.append (h : Linked next t (c ++ [i])) (hc : ∀ j ∈ c, next' j = next j)
    (hi : next' i = some u) (hd : Linked next' u d) : Linked next' t (c ++ i :: d) := by
  induction c generalizing t with
  | nil =>
    obtain ⟨rfl, _⟩ := h
    exact ⟨rfl, u, hi, hd⟩
  | cons j c ih =>
    obtain ⟨rfl, v, hv, h⟩ := h
    exact ⟨rfl, v, (hc j (by simp)).trans hv, ih h fun k hk => hc k (mem_cons_of_mem j hk)⟩

theorem Linked.next_mem (h : Linked next t c) (hi : i ∈ c) :
    (∃ j ∈ c, next i = some (j : ℤ)) ∨ next i = some (-1) ∧ ∃ b, c = b ++ [i] := by
  induction c generalizing t with
  | nil => cases hi
  | cons k c ih =>
    obtain ⟨rfl, u, hu, hc⟩ := h
    rcases List.mem_cons.mp hi with rfl | hi
    · cases c with
      | nil =>
        have hend : u = -1 := hc
        exact .inr ⟨by rw [hu, hend], [], rfl⟩
      | cons j c => exact .inl ⟨j, by simp, by rw [hu, hc.1]⟩
    · rcases ih hc hi with ⟨j, hj, hij⟩ | ⟨hend, b, rfl⟩
      · exact .inl ⟨j, mem_cons_of_mem k hj, hij⟩
      · exact .inr ⟨hend, k :: b, rfl⟩

theorem not_linked_of_closed (S : ℕ → Prop) (hS : ∀ i, S i → ∃ j, S j ∧ next i = some (j : ℤ))
    (hi : S i) : ¬ Linked next i c := by
  intro h
  induction c generalizing i with
  | nil =>
    have hend : (i : ℤ) = -1 := h
    omega
  | cons k c ih =>
    obtain ⟨hik, u, hu, hc⟩ := h
    obtain rfl : i = k := by omega
    obtain ⟨j, hj, hij⟩ := hS i hi
    obtain rfl : u = j := Option.some.inj (hu.symm.trans hij)
    exact ih hj hc

theorem Linked.common_end (hc : Linked next t c) (hd : Linked next u d) (hic : i ∈ c)
    (hid : i ∈ d) : ∃ j, (∃ p, c = p ++ [j]) ∧ ∃ q, d = q ++ [j] := by
  obtain ⟨p, b, rfl⟩ := append_of_mem hic
  obtain ⟨q, b', rfl⟩ := append_of_mem hid
  obtain rfl : b = b' := cons_inj_right i |>.mp (hc.suffix.unique hd.suffix)
  have hlast := dropLast_concat_getLast (cons_ne_nil i b)
  refine ⟨(i :: b).getLast (cons_ne_nil i b), ⟨p ++ (i :: b).dropLast, ?_⟩, q ++ (i :: b).dropLast, ?_⟩
  · rw [append_assoc, hlast]
  · rw [append_assoc, hlast]

end Tinycc.Lib
