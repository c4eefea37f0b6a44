import Mathlib.Data.Finset.Card
import Tinycc.Lib.Loop

namespace Tinycc.Lib
open Function Finset

open Relation (ReflTransGen)

/-- The marks of a mark phase and the marked objects whose references are still to be followed. -/
structure MarkState where
  used : ℕ → Bool
  work : List ℕ

namespace MarkState

variable {s : MarkState} {succs : ℕ → List ℕ} {n i : ℕ} {xs : List ℕ}

def mark (s : MarkState) (x : ℕ) : MarkState :=
  if s.used x then s else ⟨update s.used x true, x :: s.work⟩

def markAll (s : MarkState) (xs : List ℕ) : MarkState := xs.foldl mark s

def step (succs : ℕ → List ℕ) (s : MarkState) : MarkState :=
  match s.work with
  | [] => s
  | t :: rest => markAll { s with work := rest } (succs t)

theorem mark_used : (s.mark i).used = update s.used i true := by
  unfold mark
  split
  · next h => rw [← h, update_eq_self]
  · rfl

theorem markAll_used : (s.markAll xs).used i = true ↔ s.used i = true ∨ i ∈ xs := by
  induction xs generalizing s with
  | nil => simp [markAll]
  | cons x xs ih =>
    have hstep : s.markAll (x :: xs) = (s.mark x).markAll xs := rfl
    rw [hstep, ih, mark_used]
    by_cases hx : i = x
    · simp [hx]
    · simp [hx]

theorem mem_work_mark : i ∈ (s.mark n).work ↔ i ∈ s.work ∨ i = n ∧ s.used n = false := by
  unfold mark
  split
  · next h => simp [h]
  · next h =>
    have h' : s.used n = false := by simpa using h
    simp [h', or_comm]

theorem mem_work_markAll : i ∈ (s.markAll xs).work ↔ i ∈ s.work ∨ i ∈ xs ∧ s.used i = false := by
  induction xs generalizing s with
  | nil => simp [markAll]
  | cons x xs ih =>
    have hstep : s.markAll (x :: xs) = (s.mark x).markAll xs := rfl
    rw [hstep, ih, mem_work_mark, mark_used]
    by_cases hx : i = x
    · subst hx
      simp
    · simp [hx]

/-- Marking the marks away: what is left to mark and what is left to follow. -/
def measure (n : ℕ) (s : MarkState) : ℕ :=
  ((range n).filter fun i => s.used i = false).card + s.work.length

theorem measure_mark (hi : i < n) : (s.mark i).measure n = s.measure n := by
  unfold mark
  split
  · rfl
  · next h =>
    have h' : s.used i = false := by simpa using h
    have herase : (range n).filter (fun j => update s.used i true j = false) =
        ((range n).filter fun j => s.used j = false).erase i := by
      ext j
      by_cases hj : j = i
      · simp [hj]
      · simp [hj]
    have hmem : i ∈ (range n).filter fun j => s.used j = false := by simp [hi, h']
    have hpos := Finset.card_pos.mpr ⟨i, hmem⟩
    simp only [measure, herase, card_erase_of_mem hmem, List.length_cons]
    omega

theorem measure_markAll (hxs : ∀ x ∈ xs, x < n) : (s.markAll xs).measure n = s.measure n := by
  induction xs generalizing s with
  | nil => rfl
  | cons x xs ih =>
    have hstep : s.markAll (x :: xs) = (s.mark x).markAll xs := rfl
    rw [hstep, ih fun y hy => hxs y (List.mem_cons_of_mem _ hy),
      measure_mark (hxs x List.mem_cons_self)]

structure Invariant (roots : ℕ → Prop) (succs : ℕ → List ℕ) (s : MarkState) : Prop where
  reached : ∀ i, s.used i = true → ∃ r, roots r ∧ ReflTransGen (fun t u => u ∈ succs t) r i
  rooted : ∀ r, roots r → s.used r = true
  closed : ∀ t, s.used t = true → t ∈ s.work ∨ ∀ u ∈ succs t, s.used u = true
  work : ∀ t ∈ s.work, s.used t = true

variable {roots : ℕ → Prop}

theorem Invariant.step (h : s.Invariant roots succs) (hw : s.work ≠ []) :
    (s.step succs).Invariant roots succs := by
  obtain ⟨t, rest, hwork⟩ := List.exists_cons_of_ne_nil hw
  have hstep : s.step succs = markAll { s with work := rest } (succs t) := by
    simp [MarkState.step, hwork]
  have ht : s.used t = true := h.work t (by simp [hwork])
  rw [hstep]
  refine ⟨?_, ?_, ?_, ?_⟩
  · intro i hi
    rcases markAll_used.mp hi with hi | hi
    · exact h.reached i hi
    · obtain ⟨r, hr, hpath⟩ := h.reached t ht
      exact ⟨r, hr, hpath.tail hi⟩
  · intro r hr
    exact markAll_used.mpr (.inl (h.rooted r hr))
  · intro u hu
    by_cases hold : s.used u = true
    · rcases h.closed u hold with hin | hall
      · rw [hwork] at hin
        rcases List.mem_cons.mp hin with rfl | hin
        · exact .inr fun v hv => markAll_used.mpr (.inr hv)
        · exact .inl (mem_work_markAll.mpr (.inl hin))
      · exact .inr fun v hv => markAll_used.mpr (.inl (hall v hv))
    · have hnew : u ∈ succs t := (markAll_used.mp hu).resolve_left hold
      exact .inl (mem_work_markAll.mpr (.inr ⟨hnew, by simpa using hold⟩))
  · intro u hu
    rcases mem_work_markAll.mp hu with hin | hin
    · exact markAll_used.mpr (.inl (h.work u (by rw [hwork]; exact List.mem_cons_of_mem _ hin)))
    · exact markAll_used.mpr (.inr hin.1)

def pending (s : MarkState) : Bool := !s.work.isEmpty

theorem measure_step (hsuccs : ∀ t, ∀ u ∈ succs t, u < n) (hw : s.work ≠ []) :
    (s.step succs).measure n < s.measure n := by
  obtain ⟨x, rest, hwork⟩ := List.exists_cons_of_ne_nil hw
  have hstep : s.step succs = markAll { s with work := rest } (succs x) := by
    simp [MarkState.step, hwork]
  rw [hstep, measure_markAll (hsuccs x)]
  simp [measure, hwork]

theorem mark_total (hsuccs : ∀ t, ∀ u ∈ succs t, u < n) (h : s.Invariant roots succs)
    {fuel : ℕ} (hf : s.measure n < fuel) :
    ∃ t, whileLoop pending (step succs) fuel s = some t ∧
      ∀ i, t.used i = true ↔ ∃ r, roots r ∧ ReflTransGen (fun t u => u ∈ succs t) r i := by
  obtain ⟨t, ht, hI, hc⟩ := @whileLoop_total _ pending (step succs)
    (fun s => s.Invariant roots succs) (measure n)
    (by
      intro s hs hne
      have hw : s.work ≠ [] := by simpa [pending] using hne
      exact ⟨hs.step hw, measure_step hsuccs hw⟩) fuel s h hf
  have hnil : t.work = [] := by simpa [pending] using hc
  refine ⟨t, ht, fun i => ⟨hI.reached i, ?_⟩⟩
  rintro ⟨r, hr, hpath⟩
  induction hpath with
  | refl => exact hI.rooted r hr
  | tail _ hu ih =>
    rcases hI.closed _ ih with hin | hall
    · rw [hnil] at hin
      cases hin
    · exact hall _ hu

end MarkState

end Tinycc.Lib
