import Mathlib.Data.List.Range

namespace Tinycc.Lib
open List

variable {σ : Type*}

/-- A `while` loop cut off after a number of tests; the result is `none` when the condition still
held at the cut. -/
def whileLoop (cond : σ → Bool) (body : σ → σ) : ℕ → σ → Option σ
  | 0, _ => none
  | n + 1, s => if cond s then whileLoop cond body n (body s) else some s

def whileLoopM (cond : σ → Bool) (body : σ → Option σ) : ℕ → σ → Option σ
  | 0, _ => none
  | n + 1, s => if cond s then (body s).bind (whileLoopM cond body n) else some s

theorem whileLoopM_total {cond : σ → Bool} {body : σ → Option σ} (I : σ → Prop) (m : σ → ℕ)
    (step : ∀ s, I s → cond s = true → ∃ t, body s = some t ∧ I t ∧ m t < m s) :
    ∀ n s, I s → m s < n → ∃ t, whileLoopM cond body n s = some t ∧ I t ∧ cond t = false := by
  intro n
  induction n with
  | zero => intro s _ hm; omega
  | succ n ih =>
    intro s hs hm
    by_cases hc : cond s = true
    · obtain ⟨s', hb, hI, hlt⟩ := step s hs hc
      obtain ⟨t, ht, hIt⟩ := ih s' hI (by omega)
      exact ⟨t, by simp [whileLoopM, hc, hb, ht], hIt⟩
    · have hc' : cond s = false := by simpa using hc
      exact ⟨s, by simp [whileLoopM, hc'], hs, hc'⟩

theorem whileLoopM_some (cond : σ → Bool) (body : σ → σ) (n : ℕ) (s : σ) :
    whileLoopM cond (fun s => some (body s)) n s = whileLoop cond body n s := by
  induction n generalizing s with
  | zero => rfl
  | succ n ih => simp only [whileLoopM, whileLoop, Option.bind_some, ih]

/-- Total correctness: an invariant with a decreasing measure. -/
theorem whileLoop_total {cond : σ → Bool} {body : σ → σ} (I : σ → Prop) (m : σ → ℕ)
    (step : ∀ s, I s → cond s = true → I (body s) ∧ m (body s) < m s) (n : ℕ) (s : σ) (hs : I s)
    (hm : m s < n) : ∃ t, whileLoop cond body n s = some t ∧ I t ∧ cond t = false := by
  rw [← whileLoopM_some]
  exact whileLoopM_total I m (fun s hs hc => ⟨_, rfl, step s hs hc⟩) n s hs hm

def forRange (n : ℕ) (body : σ → ℕ → σ) (s : σ) : σ := (List.range n).foldl body s

@[simp] theorem forRange_zero (body : σ → ℕ → σ) (s : σ) : forRange 0 body s = s := rfl

theorem forRange_succ (n : ℕ) (body : σ → ℕ → σ) (s : σ) :
    forRange (n + 1) body s = body (forRange n body s) n := by
  simp [forRange, range_succ]

def forDown (n : ℕ) (body : σ → ℕ → σ) (s : σ) : σ := (List.range n).reverse.foldl body s

/-- A loop whose body commutes with `f` computes the image of the other loop's result. -/
theorem whileLoop_map {τ : Type*} {cond : σ → Bool} {body : σ → σ} {cond' : τ → Bool}
    {body' : τ → τ} (f : σ → τ) (hcond : ∀ s, cond' (f s) = cond s)
    (hbody : ∀ s, cond s = true → body' (f s) = f (body s)) :
    ∀ n s, whileLoop cond' body' n (f s) = (whileLoop cond body n s).map f := by
  intro n
  induction n with
  | zero => intro s; rfl
  | succ n ih =>
    intro s
    by_cases hc : cond s = true
    · simp [whileLoop, hcond, hc, hbody s hc, ih]
    · simp [whileLoop, hcond, hc]

theorem foldlM_total {α : Type*} {body : σ → α → Option σ} (P : List α → σ → Prop) (l : List α)
    (step : ∀ done a t, a ∈ l → P done t → ∃ t', body t a = some t' ∧ P (done ++ [a]) t') {s : σ}
    (h0 : P [] s) : ∃ t, l.foldlM body s = some t ∧ P l t := by
  have key : ∀ l' done s, (∀ a ∈ l', a ∈ l) → P done s →
      ∃ t, l'.foldlM body s = some t ∧ P (done ++ l') t := by
    intro l'
    induction l' with
    | nil => intro done s _ h; exact ⟨s, rfl, by simpa using h⟩
    | cons a l' ih =>
      intro done s hsub h
      obtain ⟨s', hs', h'⟩ := step done a s (hsub a (by simp)) h
      obtain ⟨t, ht, hP⟩ := ih (done ++ [a]) s' (fun b hb => hsub b (by simp [hb])) h'
      exact ⟨t, by simp [hs', ht], by simpa using hP⟩
  simpa using key l [] s (fun _ h => h) h0

theorem foldl_induction {α : Type*} {body : σ → α → σ} (P : List α → σ → Prop) (l : List α)
    (step : ∀ done a t, a ∈ l → P done t → P (done ++ [a]) (body t a)) {s : σ} (h0 : P [] s) :
    P l (l.foldl body s) := by
  obtain ⟨t, ht, hP⟩ := foldlM_total P l (fun done a t ha h => ⟨_, rfl, step done a t ha h⟩) h0
  obtain rfl : l.foldl body s = t := Option.some.inj ((List.foldlM_pure ..).symm.trans ht)
  exact hP

def forRangeM (n : ℕ) (body : σ → ℕ → Option σ) (s : σ) : Option σ := (List.range n).foldlM body s

variable {body : σ → ℕ → Option σ}

theorem forRangeM_total (P : ℕ → σ → Prop) {s : σ} (n : ℕ)
    (h0 : P 0 s) (step : ∀ i t, i < n → P i t → ∃ t', body t i = some t' ∧ P (i + 1) t') :
    ∃ t, forRangeM n body s = some t ∧ P n t := by
  have key : ∀ k, k ≤ n → ∃ t, forRangeM k body s = some t ∧ P k t := by
    intro k
    induction k with
    | zero => intro _; exact ⟨s, rfl, h0⟩
    | succ k ih =>
      intro hk
      obtain ⟨t, ht, hP⟩ := ih (by omega)
      obtain ⟨t', ht', hP'⟩ := step k t (by omega) hP
      refine ⟨t', ?_, hP'⟩
      unfold forRangeM at ht ⊢
      rw [range_succ, foldlM_append, ht]
      simpa using ht'
  exact key n le_rfl

theorem forRangeM_keeps {P : σ → Prop}
    (step : ∀ t i t', P t → body t i = some t' → P t') (n : ℕ) {s t : σ} (h0 : P s)
    (h : forRangeM n body s = some t) : P t := by
  unfold forRangeM at h
  generalize List.range n = l at h
  induction l generalizing s with
  | nil =>
    cases h
    exact h0
  | cons a l ih =>
    obtain ⟨s', hs', ht⟩ := Option.bind_eq_some_iff.mp h
    exact ih (step s a s' h0 hs') ht

def forDownM (n : ℕ) (body : σ → ℕ → Option σ) (s : σ) : Option σ :=
  (List.range n).reverse.foldlM body s

theorem forDownM_total (P : ℕ → σ → Prop) (n : ℕ)
    (step : ∀ i t, i < n → P (i + 1) t → ∃ t', body t i = some t' ∧ P i t') :
    ∀ s, P n s → ∃ t, forDownM n body s = some t ∧ P 0 t := by
  induction n with
  | zero => intro s h; exact ⟨s, rfl, h⟩
  | succ n ih =>
    intro s h
    obtain ⟨s', hs', h'⟩ := step n s (by omega) h
    obtain ⟨t, ht, hP⟩ := ih (fun i t hi => step i t (by omega)) s' h'
    refine ⟨t, ?_, hP⟩
    unfold forDownM at ht ⊢
    rw [range_succ, reverse_append, reverse_singleton]
    simpa [hs'] using ht

theorem forRange_induction {body : σ → ℕ → σ} (P : ℕ → σ → Prop) {s : σ} (n : ℕ)
    (h0 : P 0 s) (step : ∀ i t, i < n → P i t → P (i + 1) (body t i)) :
    P n (forRange n body s) := by
  obtain ⟨t, ht, hP⟩ := forRangeM_total P n h0 fun i t hi h => ⟨_, rfl, step i t hi h⟩
  obtain rfl : forRange n body s = t := Option.some.inj ((List.foldlM_pure ..).symm.trans ht)
  exact hP

theorem forDown_induction {body : σ → ℕ → σ} (P : ℕ → σ → Prop) (n : ℕ)
    (step : ∀ i t, i < n → P (i + 1) t → P i (body t i)) (s : σ) (h : P n s) :
    P 0 (forDown n body s) := by
  obtain ⟨t, ht, hP⟩ := forDownM_total P n (fun i t hi h => ⟨_, rfl, step i t hi h⟩) s h
  obtain rfl : forDown n body s = t := Option.some.inj ((List.foldlM_pure ..).symm.trans ht)
  exact hP

theorem update_eq_some {α β : Type*} [DecidableEq α] {f : α → Option β} {a k : α} {b o : β}
    (h : Function.update f a (some b) k = some o) : (k = a ∧ b = o) ∨ (k ≠ a ∧ f k = some o) := by
  by_cases hk : k = a
  · subst hk
    rw [Function.update_self] at h
    exact .inl ⟨rfl, Option.some.inj h⟩
  · rw [Function.update_of_ne hk] at h
    exact .inr ⟨hk, h⟩

end Tinycc.Lib
