import Mathlib.Data.Finset.Max
import Mathlib.Data.List.GetD
import Tinycc.Lib.Loop

/-!
# Scheduling a parallel move by sweeps

Moves with distinct destinations are to be carried out one after the other, as if all at once.  A
sweep emits every move whose destination no other pending move reads.  When a sweep emits nothing,
the source of the first pending move is parked, and the move reads the place `mark` from then on.
-/

namespace Tinycc.Lib
open Function Finset

variable {V : Type*} [DecidableEq V]

inductive SweepEvent (V : Type*)
  | emit (i : ℕ) (src : Option V) (parked : Bool)
  | park (i : ℕ) (src : V)

structure SweepState (V : Type*) where
  pending : Finset ℕ
  src : ℕ → Option V
  parked : Finset ℕ
  remaining : ℕ
  events : List (SweepEvent V)

variable (dst : ℕ → V) (mark : Option V) (n : ℕ)

def sweepBlocked (s : SweepState V) (i : ℕ) : Bool :=
  (List.range n).any fun j =>
    decide (j ∈ s.pending) && decide (j ≠ i) && decide (s.src j = some (dst i))

def sweepStep (a : SweepState V × Bool) (i : ℕ) : SweepState V × Bool :=
  if i ∉ a.1.pending ∨ sweepBlocked dst n a.1 i then a
  else
    ({ a.1 with
        pending := a.1.pending.erase i
        remaining := a.1.remaining - 1
        events := a.1.events ++ [.emit i (a.1.src i) (decide (i ∈ a.1.parked))] }, true)

def sweepPark (s : SweepState V) : Option (SweepState V) :=
  ((List.range n).find? fun i => decide (i ∈ s.pending) && (s.src i).isSome).bind fun i =>
    (s.src i).map fun v =>
      { s with
        src := update s.src i mark
        parked := insert i s.parked
        events := s.events ++ [.park i v] }

def sweepRound (s : SweepState V) : Option (SweepState V) :=
  let (s, progressed) := forRange n (sweepStep dst n) (s, false)
  if progressed then some s else sweepPark mark n s

def sweepSchedule (src : ℕ → Option V) : Option (List (SweepEvent V)) :=
  (whileLoopM (fun s => decide (0 < s.remaining)) (sweepRound dst mark n) (2 * n + 2)
    ⟨range n, src, ∅, n, []⟩).map (·.events)

variable {dst mark n}

theorem sweepBlocked_iff {s : SweepState V} (hsub : s.pending ⊆ range n) {i : ℕ} :
    sweepBlocked dst n s i = true ↔ ∃ j ∈ s.pending, j ≠ i ∧ s.src j = some (dst i) := by
  rw [sweepBlocked, List.any_eq_true]
  constructor
  · rintro ⟨j, _, hj⟩
    simp only [Bool.and_eq_true, decide_eq_true_eq] at hj
    exact ⟨j, hj.1.1, hj.1.2, hj.2⟩
  · rintro ⟨j, hj, hji, hsrc⟩
    have hlt := Finset.mem_range.mp (hsub hj)
    exact ⟨j, List.mem_range.mpr hlt, by simp [hj, hji, hsrc]⟩

def SweepStuck (dst : ℕ → V) (P : Finset ℕ) (src : ℕ → Option V) : Prop :=
  ∀ i ∈ P, ∃ j ∈ P, j ≠ i ∧ src j = some (dst i)

omit [DecidableEq V] in
theorem SweepStuck.sources {P : Finset ℕ} {src : ℕ → Option V} (h : SweepStuck dst P src)
    (hinj : Set.InjOn dst P) :
    Set.InjOn src P ∧ ∀ j ∈ P, ∃ i ∈ P, src j = some (dst i) := by
  classical
  have hsub : P.image (fun i => some (dst i)) ⊆ P.image src := by
    intro v hv
    obtain ⟨i, hi, rfl⟩ := Finset.mem_image.mp hv
    obtain ⟨j, hj, _, hji⟩ := h i hi
    exact Finset.mem_image.mpr ⟨j, hj, hji⟩
  have hcard : (P.image fun i => some (dst i)).card = P.card :=
    card_image_of_injOn fun i hi j hj hij => hinj hi hj (Option.some.inj hij)
  have heq := eq_of_subset_of_card_le hsub (by rw [hcard]; exact card_image_le)
  constructor
  · apply Finset.card_image_iff.mp
    rw [← heq, hcard]
  · intro j hj
    have hmem : src j ∈ P.image fun i => some (dst i) := heq ▸ mem_image_of_mem src hj
    obtain ⟨i, hi, hij⟩ := Finset.mem_image.mp hmem
    exact ⟨i, hi, hij.symm⟩

section Rule

variable {src₀ : ℕ → Option V}
  {I : Finset ℕ → (ℕ → Option V) → Finset ℕ → List (SweepEvent V) → Prop}

structure SweepInv (n : ℕ)
    (I : Finset ℕ → (ℕ → Option V) → Finset ℕ → List (SweepEvent V) → Prop)
    (s : SweepState V) : Prop where
  inv : I s.pending s.src s.parked s.events
  sub : s.pending ⊆ range n
  card : s.remaining = s.pending.card

/-- An invariant that emitting a ready move and parking a stuck one keep. -/
structure SweepRule (dst : ℕ → V) (mark : Option V)
    (I : Finset ℕ → (ℕ → Option V) → Finset ℕ → List (SweepEvent V) → Prop) : Prop where
  emit : ∀ P src K ev i, I P src K ev → i ∈ P → (∀ j ∈ P, j ≠ i → src j ≠ some (dst i)) →
    I (P.erase i) src K (ev ++ [.emit i (src i) (decide (i ∈ K))])
  park : ∀ P src K ev i v, I P src K ev → SweepStuck dst P src → i ∈ P → (∀ j ∈ P, i ≤ j) →
    src i = some v → I P (update src i mark) (insert i K) (ev ++ [.park i v])
  free : ∀ P src K ev, I P src K ev → SweepStuck dst P src → ∀ i ∈ P, mark ≠ some (dst i)

section

variable (hrule : SweepRule dst mark I)
include hrule

variable {s : SweepState V}

theorem sweep_inv (h : SweepInv n I s) :
    SweepInv n I (forRange n (sweepStep dst n) (s, false)).1 ∧
    ((forRange n (sweepStep dst n) (s, false)).2 = true →
      (forRange n (sweepStep dst n) (s, false)).1.pending.card < s.pending.card) ∧
    ((forRange n (sweepStep dst n) (s, false)).2 = false →
      (forRange n (sweepStep dst n) (s, false)).1 = s ∧ SweepStuck dst s.pending s.src) := by
  have key := @forRange_induction _ (sweepStep dst n)
    (fun k a => SweepInv n I a.1 ∧ a.1.src = s.src ∧ a.1.pending.card ≤ s.pending.card ∧
      (a.2 = true → a.1.pending.card < s.pending.card) ∧
      (a.2 = false → a.1 = s ∧ ∀ i < k, i ∈ s.pending → sweepBlocked dst n s i = true)) (s, false) n
    ⟨h, rfl, le_rfl, fun hf => (Bool.false_ne_true hf).elim, fun _ => ⟨rfl, fun i hi => by omega⟩⟩
    ?_
  · obtain ⟨hinv, _, _, hlt, hstuck⟩ := key
    refine ⟨hinv, hlt, fun hf => ⟨(hstuck hf).1, fun i hi => ?_⟩⟩
    exact (sweepBlocked_iff h.sub).mp
      ((hstuck hf).2 i (Finset.mem_range.mp (h.sub hi)) hi)
  · rintro k ⟨t, flag⟩ hk ⟨hinv, hsrc, hle, hlt, hstuck⟩
    dsimp only at hinv hsrc hle hlt hstuck
    by_cases hskip : k ∉ t.pending ∨ sweepBlocked dst n t k
    · rw [sweepStep, if_pos hskip]
      refine ⟨hinv, hsrc, hle, hlt, fun hf => ⟨(hstuck hf).1, fun i hi hmem => ?_⟩⟩
      have hts : t = s := (hstuck hf).1
      rcases Nat.lt_succ_iff_lt_or_eq.mp hi with hi | rfl
      · exact (hstuck hf).2 i hi hmem
      · rw [hts] at hskip
        exact hskip.resolve_left (not_not.mpr hmem)
    · rw [sweepStep, if_neg hskip]
      rw [not_or, not_not, Bool.not_eq_true] at hskip
      have hcard : (t.pending.erase k).card < t.pending.card := card_erase_lt_of_mem hskip.1
      refine ⟨⟨?_, (erase_subset _ _).trans hinv.sub, ?_⟩, hsrc, by dsimp only; omega,
        fun _ => by dsimp only; omega, fun hf => absurd hf (by simp)⟩
      · refine hrule.emit _ _ _ _ k hinv.inv hskip.1 fun j hj hjk hsrcj => ?_
        have hb : sweepBlocked dst n t k = true := (sweepBlocked_iff hinv.sub).mpr ⟨j, hj, hjk, hsrcj⟩
        exact Bool.false_ne_true (hskip.2.symm.trans hb)
      · rw [card_erase_of_mem hskip.1, hinv.card]

omit [DecidableEq V] in
theorem sweepPark_inv (hinj : Set.InjOn dst (range n)) (h : SweepInv n I s)
    (hstuck : SweepStuck dst s.pending s.src) (hne : s.pending.Nonempty) :
    ∃ t, sweepPark mark n s = some t ∧ SweepInv n I t ∧ t.pending = s.pending ∧
      ∃ k ∈ t.pending, ∀ j ∈ t.pending, j ≠ k → t.src j ≠ some (dst k) := by
  have hinj' : Set.InjOn dst s.pending := hinj.mono (Finset.coe_subset.mpr h.sub)
  obtain ⟨hsrc, hall⟩ := hstuck.sources hinj'
  -- the first pending move has a source
  let i := s.pending.min' hne
  have hi : i ∈ s.pending := min'_mem _ hne
  have hmin : ∀ j ∈ s.pending, i ≤ j := fun j hj => min'_le _ j hj
  obtain ⟨k, hk, hik⟩ := hall i hi
  have hfind : (List.range n).find? (fun i => decide (i ∈ s.pending) && (s.src i).isSome)
      = some i := by
    rw [List.find?_range_eq_some]
    refine ⟨by simp [hi, hik], List.mem_range.mpr (Finset.mem_range.mp (h.sub hi)), fun j hj => ?_⟩
    have : j ∉ s.pending := fun hmem => absurd (hmin j hmem) (by omega)
    simp [this]
  have hpark : sweepPark mark n s = some
      { s with
        src := update s.src i mark
        parked := insert i s.parked
        events := s.events ++ [.park i (dst k)] } := by
    rw [sweepPark, hfind, Option.bind_some, hik, Option.map_some]
  refine ⟨_, hpark, ⟨?_, h.sub, h.card⟩, rfl, k, hk, fun j hj _ => ?_⟩
  · exact hrule.park _ _ _ _ i _ h.inv hstuck hi hmin hik
  · dsimp only
    by_cases hji : j = i
    · rw [hji, update_self]
      exact hrule.free _ _ _ _ h.inv hstuck k hk
    · rw [update_of_ne hji, ← hik]
      exact fun e => hji (hsrc hj hi e)

/-- The schedule is finite and carries out every move; what emitting and parking keep holds of its
events. -/
theorem sweepSchedule_rule (hinj : Set.InjOn dst (range n))
    (h0 : I (range n) src₀ ∅ []) :
    ∃ ev src K, sweepSchedule dst mark n src₀ = some ev ∧ I ∅ src K ev := by
  classical
  -- a round emits a move, or parks one and makes another ready: at most two rounds a move
  let ready : SweepState V → Prop := fun s =>
    ∃ k ∈ s.pending, ∀ j ∈ s.pending, j ≠ k → s.src j ≠ some (dst k)
  let measure : SweepState V → ℕ := fun s => 2 * s.pending.card + if ready s then 0 else 1
  have step : ∀ s, SweepInv n I s → decide (0 < s.remaining) = true →
      ∃ t, sweepRound dst mark n s = some t ∧ SweepInv n I t ∧ measure t < measure s := by
    intro s hs hcond
    obtain ⟨hinv, hlt, hstuck⟩ := sweep_inv hrule hs
    rw [sweepRound]
    generalize forRange n (sweepStep dst n) (s, false) = a at hinv hlt hstuck
    obtain ⟨t, flag⟩ := a
    cases flag with
    | true =>
      refine ⟨t, rfl, hinv, ?_⟩
      have := hlt rfl
      dsimp only [measure] at this ⊢
      split <;> omega
    | false =>
      obtain ⟨hts, hst⟩ := hstuck rfl
      obtain rfl : t = s := hts
      have hne : t.pending.Nonempty := by
        rw [← card_pos, ← hs.card]
        simpa using hcond
      obtain ⟨u, hu, hinvu, hpend, hready⟩ := sweepPark_inv hrule hinj hs hst hne
      refine ⟨u, by simpa using hu, hinvu, ?_⟩
      have hnot : ¬ ready t := by
        rintro ⟨k, hk, hfree⟩
        obtain ⟨j, hj, hjk, hsrcj⟩ := hst k hk
        exact hfree j hj hjk hsrcj
      dsimp only [measure]
      rw [if_pos hready, if_neg hnot, hpend]
      omega
  obtain ⟨t, ht, hinv, hdone⟩ := whileLoopM_total (SweepInv n I) measure step (2 * n + 2)
    ⟨range n, src₀, ∅, n, []⟩ ⟨h0, Finset.Subset.refl _, (card_range n).symm⟩ (by
      dsimp only [measure]
      rw [card_range]
      split <;> omega)
  have hempty : t.pending = ∅ := by
    have hz : t.remaining = 0 := by simpa using hdone
    rw [hinv.card] at hz
    exact Finset.card_eq_zero.mp hz
  refine ⟨t.events, t.src, t.parked, by rw [sweepSchedule, ht]; rfl, ?_⟩
  rw [← hempty]
  exact hinv.inv

end

end Rule

theorem injOn_getD_of_nodup {α β : Type*} {f : α → β} {l : List α} (h : (l.map f).Nodup) (d : α) :
    Set.InjOn (fun i => f (l.getD i d)) (range l.length) := by
  intro i hi j hj hij
  have hi' : i < l.length := Finset.mem_range.mp hi
  have hj' : j < l.length := Finset.mem_range.mp hj
  have hget : (l.map f).get ⟨i, by simpa using hi'⟩ = (l.map f).get ⟨j, by simpa using hj'⟩ := by
    simpa [List.getD_eq_getElem, hi', hj'] using hij
  exact congrArg Fin.val (List.nodup_iff_injective_get.mp h hget)

end Tinycc.Lib
