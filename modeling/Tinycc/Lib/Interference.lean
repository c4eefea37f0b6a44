import Mathlib.Logic.Relation
import Tinycc.Lib.Simulation

namespace Tinycc.Lib
open Relation

/-- What the instructions of a program do to its variables. -/
structure Code (I V : Type) where
  Step : I → I → Prop
  Reads : I → V → Prop
  Writes : I → V → Prop
  /-- The instruction moves the value of the second variable to the first and does nothing else. -/
  Copies : I → V → V → Prop
  reads_of_copies {i : I} {d s : V} : Copies i d s → Reads i s
  writes_of_copies {i : I} {d s : V} : Copies i d s → Writes i d
  copies_unique {i : I} {d s s' : V} : Copies i d s → Copies i d s' → s = s'
  writes_unique {i : I} {v v' : V} : Writes i v → Writes i v' → v = v'

namespace Code

variable {I V : Type} (C : Code I V) (a b : V)

def Pair (a b v : V) : Prop := v = a ∨ v = b

def Observes (i : I) (v : V) : Prop := C.Reads i v ∧ ∀ d, Pair a b d → ¬ C.Copies i d v

def Renews (i : I) (v : V) : Prop := C.Writes i v ∧ ∀ s, Pair a b s → ¬ C.Copies i v s

/-- The value of a variable of the pair before the instruction is observed on some path. -/
inductive Live : V → I → Prop
  | read {v : V} {i : I} : Pair a b v → C.Observes a b i v → Live v i
  | copy {v d : V} {i j : I} : Pair a b v → Pair a b d → C.Copies i d v → C.Step i j →
      Live d j → Live v i
  | pass {v : V} {i j : I} : ¬ C.Writes i v → C.Step i j → Live v j → Live v i

def DeadAfter (v : V) (i : I) : Prop := ∀ j, C.Step i j → ¬ C.Live a b v j

/-- The pair does not interfere: whichever variable is renewed, the other is dead. What that means
for the first variable is left open. -/
structure ApartBy (entry : I) (dead : I → Prop) : Prop where
  left : ∀ i, ReflTransGen C.Step entry i → C.Renews a b i a → dead i
  right : ∀ i, ReflTransGen C.Step entry i → C.Renews a b i b → C.DeadAfter a b a i
  entry : ¬ (C.Live a b a entry ∧ C.Live a b b entry)

def Apart (entry : I) : Prop := C.ApartBy a b entry (C.DeadAfter a b b)

variable {C a b} {entry i : I} {v : V}

theorem ApartBy.congr {P Q : I → Prop}
    (h : ∀ i, ReflTransGen C.Step entry i → C.Renews a b i a → (P i ↔ Q i)) :
    C.ApartBy a b entry P ↔ C.ApartBy a b entry Q :=
  ⟨fun hp => ⟨fun i hi hw => (h i hi hw).mp (hp.left i hi hw), hp.right, hp.entry⟩,
    fun hq => ⟨fun i hi hw => (h i hi hw).mpr (hq.left i hi hw), hq.right, hq.entry⟩⟩

theorem Live.pair (h : C.Live a b v i) : Pair a b v := by
  induction h with
  | read hv => exact hv
  | copy hv => exact hv
  | pass _ _ _ ih => exact ih

/-- A variable is dead in a set of instructions that control leaves only where it is dead or written
and none of which reads it. -/
theorem deadAfter_of_region {R : I → Prop}
    (hstep : ∀ i j, R i → C.Step i j →
      (¬ C.Reads j v ∧ (C.Writes j v ∨ R j)) ∨ ¬ C.Live a b v j)
    (hi : R i) : C.DeadAfter a b v i := by
  intro j hj h
  induction h generalizing i with
  | read hv ho =>
    rcases hstep _ _ hi hj with ⟨hno, _⟩ | hdead
    · exact hno ho.1
    · exact hdead (.read hv ho)
  | copy hv hd hc hs hl =>
    rcases hstep _ _ hi hj with ⟨hno, _⟩ | hdead
    · exact hno (C.reads_of_copies hc)
    · exact hdead (.copy hv hd hc hs hl)
  | pass hw hs hl ih =>
    rcases hstep _ _ hi hj with ⟨_, h | h⟩ | hdead
    · exact hw h
    · exact ih hstep h hs
    · exact hdead (.pass hw hs hl)

end Code

/-- A meaning of the instructions as far as a pair of variables is concerned: how they depend on the
two variables and change them. -/
structure PairMeaning {I V : Type} (C : Code I V) (a b : V) (Val World : Type) where
  act : I → (V → Val) → World → World ⊕ (I × (V → Val) × World)
  step {i j : I} {σ σ' : V → Val} {w w' : World} : act i σ w = .inr (j, σ', w') → C.Step i j
  keeps {i j : I} {σ σ' : V → Val} {w w' : World} : act i σ w = .inr (j, σ', w') →
    ∀ v, Code.Pair a b v → ¬ C.Writes i v → σ' v = σ v
  copies {i j : I} {σ σ' : V → Val} {w w' : World} : act i σ w = .inr (j, σ', w') →
    ∀ d s, Code.Pair a b d → Code.Pair a b s → C.Copies i d s → σ' d = σ s
  halt_congr {i : I} {σ τ : V → Val} {w w' : World} :
    (∀ v, ¬ Code.Pair a b v ∨ C.Observes a b i v → σ v = τ v) →
    act i σ w = .inl w' → act i τ w = .inl w'
  step_congr {i j : I} {σ σ' τ : V → Val} {w w' : World} :
    (∀ v, ¬ Code.Pair a b v ∨ C.Observes a b i v → σ v = τ v) →
    act i σ w = .inr (j, σ', w') → ∃ τ', act i τ w = .inr (j, τ', w') ∧
      ∀ v, ¬ Code.Pair a b v ∨ C.Renews a b i v → σ' v = τ' v

namespace PairMeaning

variable {I V : Type} {C : Code I V} {a b : V} {Val World : Type}

/-- The runs of a program, where `place` says how the variables lie in registers: what they hold
after an instruction that left the given values. -/
def machine (M : PairMeaning C a b Val World) (place : I → (V → Val) → V → Val) :
    Machine (I × (V → Val) × World) World := fun s =>
  match M.act s.1 s.2.1 s.2.2 with
  | .inl w => .inr w
  | .inr (j, σ, w) => .inl (j, place s.1 σ, w)

def separate (_ : I) (σ : V → Val) : V → Val := σ

open Classical in
/-- One register for the pair: it holds what was written last. -/
noncomputable def shared (C : Code I V) (a b : V) (i : I) (σ : V → Val) : V → Val := fun v =>
  if Code.Pair a b v then if C.Writes i a then σ a else σ b else σ v

open Classical in
noncomputable def holding (a b : V) (x : Val) (σ : V → Val) : V → Val := fun v =>
  if Code.Pair a b v then x else σ v

def observe (s : I × (V → Val) × World) : I × World := (s.1, s.2.2)

theorem machine_of_inl {M : PairMeaning C a b Val World} {place : I → (V → Val) → V → Val} {i : I}
    {σ : V → Val} {w w' : World} (h : M.act i σ w = .inl w') :
    M.machine place (i, σ, w) = .inr w' := by
  simp [machine, h]

theorem machine_of_inr {M : PairMeaning C a b Val World} {place : I → (V → Val) → V → Val} {i j : I}
    {σ σ' : V → Val} {w w' : World} (h : M.act i σ w = .inr (j, σ', w')) :
    M.machine place (i, σ, w) = .inl (j, place i σ', w') := by
  simp [machine, h]

theorem shared_of_not_pair {i : I} {σ : V → Val} {v : V} (hv : ¬ Code.Pair a b v) :
    shared C a b i σ v = σ v := if_neg hv

theorem shared_left (i : I) (σ : V → Val) {v : V} (hv : Code.Pair a b v) :
    shared C a b i σ v = shared C a b i σ a := by
  simp only [shared, if_pos hv, if_pos (show Code.Pair a b a from .inl rfl)]

theorem shared_of_writes {i : I} (σ : V → Val) {v : V} (hv : Code.Pair a b v)
    (hw : C.Writes i v) : shared C a b i σ a = σ v := by
  simp only [shared, if_pos (show Code.Pair a b a from .inl rfl)]
  rcases hv with rfl | rfl
  · exact if_pos hw
  · split
    · next ha => rw [C.writes_unique ha hw]
    · rfl

theorem shared_of_not_writes {i : I} (σ : V → Val) (h : ¬ C.Writes i a) :
    shared C a b i σ a = σ b := by
  simp only [shared, if_pos (show Code.Pair a b a from .inl rfl), if_neg h]

theorem shared_eq (i : I) (σ : V → Val) : ∃ u, Code.Pair a b u ∧ shared C a b i σ a = σ u := by
  by_cases h : C.Writes i a
  · exact ⟨a, .inl rfl, shared_of_writes σ (.inl rfl) h⟩
  · exact ⟨b, .inr rfl, shared_of_not_writes σ h⟩

end PairMeaning

/-- One register for the two variables does as well as two, whatever the instructions mean: for
every start there is a first content with which all runs go as before. -/
def Code.Shares {I V : Type} (C : Code I V) (a b : V) (entry : I) : Prop :=
  ∀ (Val World : Type) (M : PairMeaning C a b Val World) (σ : V → Val), ∃ x, ∀ w,
    SameBehaviour (M.machine PairMeaning.separate) (M.machine (PairMeaning.shared C a b))
      PairMeaning.observe PairMeaning.observe (entry, σ, w)
      (entry, PairMeaning.holding a b x σ, w)

namespace PairMeaning

section Sound

variable {I V : Type} {C : Code I V} {a b : V} {entry : I} {Val World : Type}
  (M : PairMeaning C a b Val World)

/-- The register holds the value of each variable of the pair that is live. -/
structure Related (C : Code I V) (a b : V) (entry : I) (s t : I × (V → Val) × World) : Prop where
  place : s.1 = t.1
  world : s.2.2 = t.2.2
  reach : ReflTransGen C.Step entry s.1
  rest : ∀ v, ¬ Code.Pair a b v → s.2.1 v = t.2.1 v
  one : ∀ v, Code.Pair a b v → t.2.1 v = t.2.1 a
  live : ∀ v, C.Live a b v s.1 → s.2.1 v = t.2.1 v

variable {i j : I} {σ σ' τ τ' : V → Val} {w w' : World}

theorem shared_of_live (hC : C.Apart a b entry) (hreach : ReflTransGen C.Step entry i)
    (hone : ∀ v, Code.Pair a b v → τ v = τ a) (hlive : ∀ v, C.Live a b v i → σ v = τ v)
    (hs : M.act i σ w = .inr (j, σ', w')) (ht : M.act i τ w = .inr (j, τ', w'))
    (hnew : ∀ v, ¬ Code.Pair a b v ∨ C.Renews a b i v → σ' v = τ' v)
    {v : V} (hv : C.Live a b v j) : σ' v = shared C a b i τ' v := by
  have hp := hv.pair
  have hstep := M.step hs
  rw [shared_left i τ' hp]
  by_cases hw : C.Writes i v
  · rw [shared_of_writes τ' hp hw]
    by_cases hc : ∃ s, Code.Pair a b s ∧ C.Copies i v s
    · obtain ⟨s, hsp, hc⟩ := hc
      rw [M.copies hs v s hp hsp hc, M.copies ht v s hp hsp hc]
      exact hlive s (.copy hsp hp hc hstep hv)
    · exact hnew v (.inr ⟨hw, fun s hsp hcs => hc ⟨s, hsp, hcs⟩⟩)
  · -- the variable keeps its value, and the register does unless the other one is renewed
    rw [M.keeps hs v hp hw, hlive v (.pass hw hstep hv), hone v hp]
    have hother : ∀ u, Code.Pair a b u → C.Writes i u → ¬ C.Renews a b i u := by
      intro u hu hwu hren
      have hne : u ≠ v := fun h => hw (h ▸ hwu)
      rcases hu with rfl | rfl
      · obtain rfl : v = b := hp.resolve_left (Ne.symm hne)
        exact hC.left i hreach hren j hstep hv
      · obtain rfl : v = a := hp.resolve_right (Ne.symm hne)
        exact hC.right i hreach hren j hstep hv
    by_cases hu : ∃ u, Code.Pair a b u ∧ C.Writes i u
    · obtain ⟨u, hup, hwu⟩ := hu
      have hc : ∃ s, Code.Pair a b s ∧ C.Copies i u s := by
        by_contra hno
        exact hother u hup hwu ⟨hwu, fun s hsp hcs => hno ⟨s, hsp, hcs⟩⟩
      obtain ⟨s, hsp, hc⟩ := hc
      rw [shared_of_writes τ' hup hwu, M.copies ht u s hup hsp hc, hone s hsp]
    · have ha : ¬ C.Writes i a := fun h => hu ⟨a, .inl rfl, h⟩
      have hb : ¬ C.Writes i b := fun h => hu ⟨b, .inr rfl, h⟩
      rw [shared_of_not_writes τ' ha, M.keeps ht b (.inr rfl) hb, hone b (.inr rfl)]

/-- Without interference the register serves both variables. -/
theorem simulation_shared (hC : C.Apart a b entry) :
    Simulation (M.machine separate) (M.machine (shared C a b)) observe observe
      (Related C a b entry) where
  obs h := Prod.ext h.place h.world
  step {s s' t} h hm := by
    obtain ⟨i, σ, w⟩ := s
    obtain ⟨i', τ, w₁⟩ := t
    obtain ⟨rfl, rfl, hreach, hrest, hone, hlive⟩ := h
    dsimp only at *
    cases hs : M.act i σ w with
    | inl w' =>
      rw [machine_of_inl hs] at hm
      cases hm
    | inr r =>
      obtain ⟨j, σ', w'⟩ := r
      rw [machine_of_inr hs] at hm
      cases hm
      -- what the instruction observes is live before it
      have hagree : ∀ v, ¬ Code.Pair a b v ∨ C.Observes a b i v → σ v = τ v := by
        intro v hv
        by_cases hp : Code.Pair a b v
        · exact hlive v (.read hp (hv.resolve_left (not_not_intro hp)))
        · exact hrest v hp
      obtain ⟨τ', ht, hnew⟩ := M.step_congr hagree hs
      refine ⟨1, (j, shared C a b i τ', w'), Nat.one_pos,
        .one (machine_of_inr ht) (.inl rfl), rfl, rfl, hreach.tail (M.step hs), ?_, ?_, ?_⟩
      · exact fun v hv => (hnew v (.inl hv)).trans (shared_of_not_pair hv).symm
      · exact fun v hv => shared_left i τ' hv
      · exact fun v hv => shared_of_live M hC hreach hone hlive hs ht hnew hv
  halt {s t r} h hm := by
    obtain ⟨i, σ, w⟩ := s
    obtain ⟨i', τ, w₁⟩ := t
    obtain ⟨rfl, rfl, hreach, hrest, hone, hlive⟩ := h
    dsimp only at *
    cases hs : M.act i σ w with
    | inr r' =>
      obtain ⟨j, σ', w'⟩ := r'
      rw [machine_of_inr hs] at hm
      cases hm
    | inl w' =>
      rw [machine_of_inl hs] at hm
      cases hm
      refine ⟨0, _, .refl _, machine_of_inl (M.halt_congr (fun v hv => ?_) hs), rfl⟩
      by_cases hp : Code.Pair a b v
      · exact hlive v (.read hp (hv.resolve_left (not_not_intro hp)))
      · exact hrest v hp

end Sound

section Complete

variable {I V : Type} (C : Code I V) (a b : V)

open Classical in
/-- The values after an instruction that writes `x` where it writes no copy. -/
noncomputable def written (i : I) (σ : V → ℕ) (x : ℕ) : V → ℕ := fun v =>
  if Code.Pair a b v then
    if C.Copies i v a then σ a else if C.Copies i v b then σ b
    else if C.Writes i v then x else σ v
  else σ v

open Classical in
/-- What an instruction sees of the pair. -/
noncomputable def seen (i : I) (σ : V → ℕ) : ℕ × ℕ :=
  (if C.Observes a b i a then σ a else 0, if C.Observes a b i b then σ b else 0)

variable {C a b} {i j : I} {σ τ : V → ℕ} {x : ℕ} {v d s : V}

theorem written_of_copies (hne : a ≠ b) (hd : Code.Pair a b d) (hs : Code.Pair a b s)
    (hc : C.Copies i d s) : written C a b i σ x d = σ s := by
  unfold written
  rw [if_pos hd]
  rcases hs with rfl | rfl
  · exact if_pos hc
  · rw [if_neg (fun h => hne (C.copies_unique h hc)), if_pos hc]

theorem written_of_renews (hv : Code.Pair a b v) (h : C.Renews a b i v) :
    written C a b i σ x v = x := by
  unfold written
  rw [if_pos hv, if_neg (h.2 a (.inl rfl)), if_neg (h.2 b (.inr rfl)), if_pos h.1]

theorem written_of_not_writes (hw : ¬ C.Writes i v) : written C a b i σ x v = σ v := by
  have hc : ∀ s, ¬ C.Copies i v s := fun s h => hw (C.writes_of_copies h)
  simp only [written, if_neg (hc a), if_neg (hc b), if_neg hw, ite_self]

theorem written_of_not_pair (hv : ¬ Code.Pair a b v) : written C a b i σ x v = σ v := if_neg hv

theorem written_cases (hne : a ≠ b) (hv : Code.Pair a b v) :
    (∃ u, Code.Pair a b u ∧ written C a b i σ x v = σ u) ∨ written C a b i σ x v = x := by
  by_cases hw : C.Writes i v
  · by_cases hc : ∃ u, Code.Pair a b u ∧ C.Copies i v u
    · obtain ⟨u, hu, hc⟩ := hc
      exact .inl ⟨u, hu, written_of_copies hne hv hu hc⟩
    · exact .inr (written_of_renews hv ⟨hw, fun u hu h => hc ⟨u, hu, h⟩⟩)
  · exact .inl ⟨v, hv, written_of_not_writes hw⟩

open Classical in
/-- A run that follows a given path and shows what its last instruction sees. Every value that is
written tells how many steps remain. -/
noncomputable def steer (C : Code I V) (a b : V) (i : I) (σ : V → ℕ) (w : List I × ℕ × ℕ) :
    (List I × ℕ × ℕ) ⊕ (I × (V → ℕ) × List I × ℕ × ℕ) :=
  match w with
  | ([], _) => .inl ([], seen C a b i σ)
  | (j :: path, o) =>
    if C.Step i j then .inr (j, written C a b i σ (path.length + 1), path, o)
    else .inl (j :: path, o)

theorem steer_inr {σ' : V → ℕ} {w w' : List I × ℕ × ℕ}
    (h : steer C a b i σ w = .inr (j, σ', w')) : C.Step i j ∧ ∃ path o,
      w = (j :: path, o) ∧ w' = (path, o) ∧ σ' = written C a b i σ (path.length + 1) := by
  unfold steer at h
  split at h
  · cases h
  · next k path o =>
    split at h
    · next hs =>
      cases h
      exact ⟨hs, path, o, rfl, rfl, rfl⟩
    · cases h

theorem steer_inl {w w' : List I × ℕ × ℕ} (h : steer C a b i σ w = .inl w') :
    (w.1 = [] ∧ w' = ([], seen C a b i σ)) ∨
      ∃ j path, w.1 = j :: path ∧ ¬ C.Step i j ∧ w' = w := by
  unfold steer at h
  split at h
  · cases h
    exact .inl ⟨rfl, rfl⟩
  · next k path o =>
    split at h
    · cases h
    · next hs =>
      cases h
      exact .inr ⟨k, path, rfl, hs, rfl⟩

theorem seen_congr (h : ∀ v, C.Observes a b i v → σ v = τ v) : seen C a b i σ = seen C a b i τ := by
  have hv : ∀ v, (open Classical in if C.Observes a b i v then σ v else 0) =
      open Classical in if C.Observes a b i v then τ v else 0 := by
    intro v
    split
    · next ho => exact h v ho
    · rfl
  simp only [seen, hv]

noncomputable def steered (C : Code I V) {a b : V} (hne : a ≠ b) :
    PairMeaning C a b ℕ (List I × ℕ × ℕ) where
  act := steer C a b
  step h := (steer_inr h).1
  keeps h v _ hw := by
    obtain ⟨_, path, o, _, _, rfl⟩ := steer_inr h
    exact written_of_not_writes hw
  copies h d s hd hs hc := by
    obtain ⟨_, path, o, _, _, rfl⟩ := steer_inr h
    exact written_of_copies hne hd hs hc
  halt_congr {i σ τ w w'} hagree h := by
    obtain ⟨path, o⟩ := w
    rcases steer_inl h with ⟨hp, rfl⟩ | ⟨j, rest, hp, hs, rfl⟩
    · obtain rfl : path = [] := hp
      rw [seen_congr fun v hv => hagree v (.inr hv)]
      rfl
    · obtain rfl : path = j :: rest := hp
      exact if_neg hs
  step_congr {i j σ σ' τ w w'} hagree h := by
    obtain ⟨hs, path, o, rfl, rfl, rfl⟩ := steer_inr h
    refine ⟨written C a b i τ (path.length + 1), if_pos hs, fun v hv => ?_⟩
    by_cases hp : Code.Pair a b v
    · have hr := hv.resolve_left (not_not_intro hp)
      rw [written_of_renews hp hr, written_of_renews hp hr]
    · rw [written_of_not_pair hp, written_of_not_pair hp]
      exact hagree v (.inl hp)

variable {hne : a ≠ b} {place : I → (V → ℕ) → V → ℕ} {path : List I} {o : ℕ × ℕ}

theorem steered_step (hs : C.Step i j) :
    (steered C hne).machine place (i, σ, j :: path, o) =
      .inl (j, place i (written C a b i σ (path.length + 1)), path, o) :=
  machine_of_inr (if_pos hs)

theorem steered_end : (steered C hne).machine place (i, σ, [], o) = .inr ([], seen C a b i σ) :=
  machine_of_inl rfl

/-- There is a path to every reachable instruction, and on it every variable keeps a value larger
than the number of steps that remain. -/
theorem exists_steered_path (hne : a ≠ b) {k : I} (h : ReflTransGen C.Step k i) (path : List I) :
    ∃ full : List I, ∀ σ τ o, (∀ v, full.length < σ v) → ∃ σ' τ',
      ((steered C hne).machine separate).Reaches (k, σ, full, o) (i, σ', path, o) ∧
      ((steered C hne).machine (shared C a b)).Reaches (k, τ, full, o) (i, τ', path, o) ∧
      ∀ v, path.length < σ' v := by
  induction h using ReflTransGen.head_induction_on with
  | refl => exact ⟨path, fun σ τ o hσ => ⟨σ, τ, .refl _, .refl _, hσ⟩⟩
  | @head k j hs _ ih =>
    obtain ⟨full, hfull⟩ := ih
    refine ⟨j :: full, fun σ τ o hσ => ?_⟩
    have hlarge : ∀ v, full.length < written C a b k σ (full.length + 1) v := by
      intro v
      have hold : ∀ u, full.length < σ u := fun u => Nat.lt_of_succ_lt (hσ u)
      by_cases hv : Code.Pair a b v
      · rcases written_cases (i := k) (σ := σ) (x := full.length + 1) hne hv with ⟨u, _, hu⟩ | hx
        · rw [hu]
          exact hold u
        · rw [hx]
          exact Nat.lt_succ_self _
      · rw [written_of_not_pair hv]
        exact hold v
    obtain ⟨σ', τ', h1, h2, h3⟩ := hfull _ (shared C a b k (written C a b k τ (full.length + 1))) o
      hlarge
    exact ⟨σ', τ', (Machine.Reaches.of_inl (steered_step hs)).trans h1,
      (Machine.Reaches.of_inl (steered_step hs)).trans h2, h3⟩

/-- On the path the one run shows the value of the variable; the other shows what the register holds
now, or a value that is written on the path. -/
def ShownOn (C : Code I V) {a b : V} (hne : a ≠ b) (v : V) (i : I) (path : List I)
    (part : ℕ × ℕ → ℕ) : Prop :=
  ∀ σ τ o, (∀ u, Code.Pair a b u → τ u = τ a) →
    ∃ r r', ((steered C hne).machine separate).Halts (i, σ, path, o) ([], r) ∧
      ((steered C hne).machine (shared C a b)).Halts (i, τ, path, o) ([], r') ∧
      part r = σ v ∧ (part r' = τ a ∨ part r' ≤ path.length)

theorem ShownOn.cons {u : V} {part : ℕ × ℕ → ℕ} (h : ShownOn C hne u j path part)
    (hs : C.Step i j) (hu : ∀ (σ : V → ℕ) x, written C a b i σ x u = σ v) :
    ShownOn C hne v i (j :: path) part := by
  -- one step back, the register of the other run gets an old value or a new one
  intro σ τ o hone
  obtain ⟨r, r', h1, h2, h3, h4⟩ := h (written C a b i σ (path.length + 1))
    (shared C a b i (written C a b i τ (path.length + 1))) o fun u hp => shared_left i _ hp
  refine ⟨r, r', (Machine.Reaches.of_inl (steered_step hs)).halts h1,
    (Machine.Reaches.of_inl (steered_step hs)).halts h2, h3.trans (hu σ _), ?_⟩
  rcases h4 with h4 | h4
  · obtain ⟨u', hp, he⟩ := shared_eq (C := C) (a := a) (b := b) i
      (written C a b i τ (path.length + 1))
    rw [h4, he]
    rcases written_cases (i := i) (σ := τ) (x := path.length + 1) hne hp with ⟨u'', hp', hw⟩ | hw
    · exact .inl (hw.trans (hone u'' hp'))
    · exact .inr (Nat.le_of_eq hw)
  · exact .inr (Nat.le_succ_of_le h4)

theorem exists_shownOn (hne : a ≠ b) (h : C.Live a b v i) :
    ∃ path part, ShownOn C hne v i path part := by
  induction h with
  | @read v i hp ho =>
    rcases hp with rfl | rfl
    · refine ⟨[], Prod.fst, fun σ τ o _ => ⟨_, _, .of_inr steered_end, .of_inr steered_end, ?_, ?_⟩⟩
      · exact if_pos ho
      · exact .inl (if_pos ho)
    · refine ⟨[], Prod.snd, fun σ τ o hone =>
        ⟨_, _, .of_inr steered_end, .of_inr steered_end, ?_, ?_⟩⟩
      · exact if_pos ho
      · exact .inl ((if_pos ho).trans (hone _ (.inr rfl)))
  | @copy v d i j hp hd hc hs _ ih =>
    obtain ⟨path, part, ih⟩ := ih
    exact ⟨j :: path, part, ih.cons hs fun σ x => written_of_copies hne hd hp hc⟩
  | @pass v i j hw hs _ ih =>
    obtain ⟨path, part, ih⟩ := ih
    exact ⟨j :: path, part, ih.cons hs fun σ x => written_of_not_writes hw⟩

end Complete

end PairMeaning

namespace Code

variable {I V : Type} {C : Code I V} {a b : V} {entry : I}
open PairMeaning

theorem Shares.deadAfter (hne : a ≠ b) (h : C.Shares a b entry) {i : I} {u v : V}
    (hu : Pair a b u) (hvu : v ≠ u) (hreach : ReflTransGen C.Step entry i)
    (hren : C.Renews a b i u) : C.DeadAfter a b v i := by
  -- where the other variable is live, a path leads to a read that tells the two runs apart
  intro j hs hlive
  obtain ⟨path, part, hobs⟩ := exists_shownOn hne hlive
  obtain ⟨full, hfull⟩ := exists_steered_path hne hreach (j :: path)
  obtain ⟨x, hx⟩ := h ℕ (List I × ℕ × ℕ) (steered C hne) fun _ => full.length + 1
  obtain ⟨σ, τ, h1, h2, hσ⟩ := hfull (fun _ => full.length + 1)
    (holding a b x fun _ => full.length + 1) (0, 0) fun _ => Nat.lt_succ_self _
  have hkeep : written C a b i σ (path.length + 1) v = σ v :=
    written_of_not_writes fun hw => hvu (C.writes_unique hw hren.1)
  have hreg : shared C a b i (written C a b i τ (path.length + 1)) a = path.length + 1 := by
    rw [shared_of_writes _ hu hren.1, written_of_renews hu hren]
  obtain ⟨r, r', h3, h4, hr, hr'⟩ := hobs (written C a b i σ (path.length + 1))
    (shared C a b i (written C a b i τ (path.length + 1))) (0, 0) fun w hw => shared_left i _ hw
  have hhalt := (h1.trans (.of_inl (steered_step hs))).halts h3
  have hhalt' := (h2.trans (.of_inl (steered_step hs))).halts h4
  -- the one run shows a value from before the instruction, the other one from it or after it
  have heq : r = r' :=
    (Prod.mk.inj (Machine.Halts.unique (((hx (full, 0, 0)).1 _).mp hhalt) hhalt')).2
  have hlt := hσ v
  rw [hkeep] at hr
  rw [hreg, ← heq, hr] at hr'
  rw [List.length_cons] at hlt
  omega

theorem Shares.not_both_live (hne : a ≠ b) (h : C.Shares a b entry) :
    ¬ (C.Live a b a entry ∧ C.Live a b b entry) := by
  rintro ⟨ha, hb⟩
  obtain ⟨path, part, hobs⟩ := exists_shownOn hne ha
  obtain ⟨path', part', hobs'⟩ := exists_shownOn hne hb
  let n := path.length + path'.length
  let σ : V → ℕ := open Classical in fun v => if v = a then n + 1 else n + 2
  obtain ⟨x, hx⟩ := h ℕ (List I × ℕ × ℕ) (steered C hne) σ
  have hone : ∀ u, Pair a b u → holding a b x σ u = holding a b x σ a := fun u hu => by
    simp only [holding, if_pos hu, if_pos (show Pair a b a from .inl rfl)]
  have hxa : holding a b x σ a = x := if_pos (.inl rfl)
  obtain ⟨r, r', h1, h2, hr, hr'⟩ := hobs σ (holding a b x σ) (0, 0) hone
  obtain ⟨q, q', h3, h4, hq, hq'⟩ := hobs' σ (holding a b x σ) (0, 0) hone
  have hrr : r = r' :=
    (Prod.mk.inj (Machine.Halts.unique (((hx (path, 0, 0)).1 _).mp h1) h2)).2
  have hqq : q = q' :=
    (Prod.mk.inj (Machine.Halts.unique (((hx (path', 0, 0)).1 _).mp h3) h4)).2
  have hσa : σ a = n + 1 := if_pos rfl
  have hσb : σ b = n + 2 := if_neg hne.symm
  rw [← hrr, hr, hσa, hxa] at hr'
  rw [← hqq, hq, hσb, hxa] at hq'
  omega

/-- Two variables can share a register exactly if they do not interfere. -/
theorem shares_iff (hne : a ≠ b) : C.Shares a b entry ↔ C.Apart a b entry := by
  constructor
  · intro h
    exact ⟨fun i hi hw => h.deadAfter hne (.inl rfl) hne.symm hi hw,
      fun i hi hw => h.deadAfter hne (.inr rfl) hne hi hw, h.not_both_live hne⟩
  · intro hC Val World M σ
    -- the register starts with the value of the variable that is live at the entry
    have hx : ∃ x, ∀ v, C.Live a b v entry → σ v = x := by
      by_cases ha : C.Live a b a entry
      · refine ⟨σ a, fun v hv => ?_⟩
        rcases hv.pair with rfl | rfl
        · rfl
        · exact absurd ⟨ha, hv⟩ hC.entry
      · refine ⟨σ b, fun v hv => ?_⟩
        rcases hv.pair with rfl | rfl
        · exact absurd hv ha
        · rfl
    obtain ⟨x, hx⟩ := hx
    refine ⟨x, fun w => (simulation_shared M hC).sameBehaviour ⟨rfl, rfl, .refl, ?_, ?_, ?_⟩⟩
    · exact fun v hv => (if_neg hv).symm
    · exact fun v hv => (if_pos hv).trans (if_pos (.inl rfl)).symm
    · exact fun v hv => (hx v hv).trans (if_pos hv.pair).symm

end Code

end Tinycc.Lib
