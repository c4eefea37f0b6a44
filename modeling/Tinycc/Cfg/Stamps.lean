import Tinycc.Cfg.Idoms

namespace Tinycc
open Lib Flowgraph Relation Function Finset Nat Relation.ReflTransGen

/-- `a` is `b` or an ancestor of `b` in the tree of a parent function. -/
def TreeAnc (par : ℕ → Option ℕ) (a b : ℕ) : Prop := ReflTransGen (fun p c => par c = some p) a b

def TreeStack (par : ℕ → Option ℕ) : List ℕ → Prop
  | [] => True
  | b :: rest => (∀ a, TreeAnc par a b ↔ a ∈ b :: rest) ∧ TreeStack par rest

structure ChildArrays (nb : ℕ) (par : ℕ → Option ℕ) (cstart chld : ℕ → ℕ) : Prop where
  root : par 0 = none
  antisymm : ∀ a b, TreeAnc par a b → TreeAnc par b a → a = b
  child_lt : ∀ c p, par c = some p → c < nb ∧ p < nb
  le : ∀ p < nb, cstart p ≤ cstart (p + 1)
  child : ∀ p < nb, ∀ k, cstart p ≤ k → k < cstart (p + 1) → par (chld k) = some p
  complete : ∀ p < nb, ∀ c, par c = some p → ∃ k, cstart p ≤ k ∧ k < cstart (p + 1) ∧ chld k = c
  inj : ∀ p < nb, ∀ k k', cstart p ≤ k → k < cstart (p + 1) → cstart p ≤ k' →
    k' < cstart (p + 1) → chld k = chld k' → k = k'

theorem treeAnc_child_iff {par : ℕ → Option ℕ} {a b c : ℕ} (h : par c = some b) :
    TreeAnc par a c ↔ a = c ∨ TreeAnc par a b := by
  constructor
  · intro hac
    rcases cases_tail hac with rfl | ⟨p, hp, hpc⟩
    · exact .inl rfl
    · rw [h] at hpc
      cases hpc
      exact .inr hp
  · rintro (rfl | hab)
    · exact refl
    · exact tail hab h

section Search

variable {nb : ℕ} {par : ℕ → Option ℕ} {cstart chld : ℕ → ℕ} {st : StampState}

/-- What the search has visited and stamped so far. -/
structure StampInv (nb : ℕ) (par : ℕ → Option ℕ) (cstart chld : ℕ → ℕ) (st : StampState) :
    Prop where
  root : st.tin 0 ≠ none
  visited : ∀ b, st.tin b ≠ none → b < nb ∧ TreeAnc par 0 b
  visited_parent : ∀ c p, par c = some p → st.tin c ≠ none → st.tin p ≠ none
  open_iff : ∀ b, b ∈ st.stack ↔ st.tin b ≠ none ∧ st.tout b = none
  stack : TreeStack par st.stack
  nodup : st.stack.Nodup
  cursor : ∀ b < nb, cstart b ≤ st.nxt b ∧ st.nxt b ≤ cstart (b + 1)
  child_iff : ∀ b < nb, ∀ k, cstart b ≤ k → k < cstart (b + 1) →
    (st.tin (chld k) ≠ none ↔ k < st.nxt b)
  closed : ∀ b, st.tout b ≠ none → st.tin b ≠ none ∧ st.nxt b = cstart (b + 1)
  tin_lt : ∀ b t, st.tin b = some t → t < st.clock
  tout_lt : ∀ b t, st.tout b = some t → t < st.clock
  nested : ∀ x y tx ty, x ≠ y → TreeAnc par x y → st.tin x = some tx → st.tin y = some ty →
    tx < ty ∧ ∀ ox, st.tout x = some ox → ∃ oy, st.tout y = some oy ∧ oy < ox
  apart : ∀ x y tx ty, ¬ TreeAnc par x y → ¬ TreeAnc par y x → st.tin x = some tx →
    st.tin y = some ty → tx < ty → ∃ ox, st.tout x = some ox ∧ ox < ty
  order : ∀ b t o, st.tin b = some t → st.tout b = some o → t < o

/-- The search goes down the tree, so nothing below an unvisited vertex has been visited. -/
theorem StampInv.not_treeAnc (I : StampInv nb par cstart chld st) {c y : ℕ} (hc : st.tin c = none)
    (hy : st.tin y ≠ none) : ¬ TreeAnc par c y := by
  intro hcy
  induction hcy with
  | refl => exact hy hc
  | tail _ hq ih => exact ih (I.visited_parent _ _ hq hy)

section

variable (A : ChildArrays nb par cstart chld)
include A

theorem stampInv_init (hnb : 0 < nb) :
    StampInv nb par cstart chld
      { nxt := cstart, tin := update (fun _ => none) 0 (some 0), tout := fun _ => none,
        clock := 1, stack := [0] } := by
  have htin : ∀ b, update (fun _ : ℕ => (none : Option ℕ)) 0 (some 0) b ≠ none ↔ b = 0 := by
    intro b
    by_cases hb : b = 0 <;> simp [hb]
  have hval : ∀ b t, update (fun _ : ℕ => (none : Option ℕ)) 0 (some 0) b = some t →
      b = 0 ∧ t = 0 := by
    intro b t h
    have hb := (htin b).mp (by simp [h])
    subst hb
    simpa using h.symm
  have hroot : ∀ a, TreeAnc par a 0 ↔ a = 0 := by
    intro a
    constructor
    · intro h
      rcases cases_tail h with h | ⟨p, _, hp⟩
      · exact h.symm
      · rw [A.root] at hp
        cases hp
    · rintro rfl
      exact refl
  constructor
  case root => simp
  case visited =>
    intro b hb
    rw [(htin b).mp hb]
    exact ⟨hnb, refl⟩
  case visited_parent =>
    intro c p hp hc
    rw [(htin c).mp hc, A.root] at hp
    cases hp
  case open_iff =>
    intro b
    simp only [List.mem_singleton, and_true]
    exact (htin b).symm
  case stack => exact ⟨fun a => by simpa using hroot a, trivial⟩
  case nodup => exact List.nodup_singleton 0
  case cursor => exact fun b hb => ⟨le_rfl, A.le b hb⟩
  case child_iff =>
    intro b hb k h1 h2
    dsimp only
    rw [htin]
    constructor
    · intro h
      have := A.child b hb k h1 h2
      rw [h, A.root] at this
      cases this
    · intro h
      omega
  case closed => simp
  case tin_lt =>
    intro b t h
    rw [(hval b t h).2]
    exact Nat.zero_lt_one
  case tout_lt => simp
  case nested =>
    intro x y tx ty hne _ hx hy
    exact absurd ((hval x tx hx).1.trans (hval y ty hy).1.symm) hne
  case apart =>
    intro x y tx ty hxy _ hx hy
    rw [(hval x tx hx).1, (hval y ty hy).1] at hxy
    exact absurd refl hxy
  case order => simp

section

variable (I : StampInv nb par cstart chld st)
include I

theorem stampInv_push
    {b : ℕ} {rest : List ℕ} (hs : st.stack = b :: rest) (hlt : st.nxt b < cstart (b + 1)) :
    st.tin (chld (st.nxt b)) = none ∧ chld (st.nxt b) < nb ∧
    StampInv nb par cstart chld
      { nxt := update st.nxt b (st.nxt b + 1),
        tin := update st.tin (chld (st.nxt b)) (some st.clock), tout := st.tout,
        clock := st.clock + 1, stack := chld (st.nxt b) :: b :: rest } := by
  have hbopen := (I.open_iff b).mp (by simp [hs])
  obtain ⟨hbn, hb0⟩ := I.visited b hbopen.1
  obtain ⟨hc1, hc2⟩ := I.cursor b hbn
  have hpar := A.child b hbn _ hc1 hlt
  have hnew : st.tin (chld (st.nxt b)) = none := by
    by_contra hne
    exact lt_irrefl _ ((I.child_iff b hbn _ hc1 hlt).mp hne)
  generalize hcdef : chld (st.nxt b) = c at hpar hnew ⊢
  have hcn := (A.child_lt c b hpar).1
  have hstack := I.stack
  rw [hs] at hstack
  have hanc : ∀ a, TreeAnc par a c ↔ a = c ∨ a ∈ st.stack := by
    intro a
    rw [treeAnc_child_iff hpar, hstack.1 a, hs]
  have hmet : ∀ x, st.tin x ≠ none → x ≠ c := by
    rintro x hx rfl
    exact hx hnew
  have htin : ∀ x, x ≠ c → update st.tin c (some st.clock) x = st.tin x := by
    intro x hx
    rw [update_of_ne hx]
  refine ⟨hnew, hcn, ?_⟩
  constructor
  case root =>
    dsimp only
    rw [htin 0 (hmet 0 I.root)]
    exact I.root
  case visited =>
    intro x hx
    dsimp only at hx
    by_cases he : x = c
    · rw [he]
      exact ⟨hcn, tail hb0 hpar⟩
    · rw [htin x he] at hx
      exact I.visited x hx
  case visited_parent =>
    intro x p hp hx
    dsimp only at hx ⊢
    by_cases he : x = c
    · rw [he, hpar] at hp
      cases hp
      rw [htin b (hmet b hbopen.1)]
      exact hbopen.1
    · rw [htin x he] at hx
      have hp' := I.visited_parent x p hp hx
      rw [htin p (hmet p hp')]
      exact hp'
  case open_iff =>
    intro x
    rw [List.mem_cons, ← hs, I.open_iff]
    by_cases he : x = c
    · have hno : st.tout c = none := by
        by_contra hne
        exact (I.closed c hne).1 hnew
      simp [he, hno]
    · simp [he]
  case stack =>
    refine ⟨fun a => ?_, hstack⟩
    rw [hanc a, hs]
    exact List.mem_cons.symm
  case nodup =>
    rw [← hs]
    refine List.nodup_cons.mpr ⟨fun h => ?_, I.nodup⟩
    exact ((I.open_iff c).mp h).1 hnew
  case cursor =>
    intro x hx
    dsimp only
    by_cases he : x = b
    · rw [he, update_self]
      omega
    · rw [update_of_ne he]
      exact I.cursor x hx
  case child_iff =>
    intro x hx k h1 h2
    dsimp only
    have hk := A.child x hx k h1 h2
    have hold := I.child_iff x hx k h1 h2
    by_cases he : x = b
    · subst he
      rw [update_self]
      by_cases hck : chld k = c
      · have : k = st.nxt x := A.inj x hx k _ h1 h2 hc1 hlt (hck.trans hcdef.symm)
        rw [hck, update_self, this]
        simp
      · rw [htin _ hck, hold]
        have hne : k ≠ st.nxt x := fun e => hck (e ▸ hcdef)
        omega
    · have hck : chld k ≠ c := by
        intro e
        rw [e, hpar] at hk
        exact he (Option.some.inj hk).symm
      rw [update_of_ne he, htin _ hck]
      exact hold
  case closed =>
    intro x hx
    dsimp only at hx ⊢
    obtain ⟨h1, h2⟩ := I.closed x hx
    have hxb : x ≠ b := by
      rintro rfl
      exact hx hbopen.2
    rw [htin x (hmet x h1), update_of_ne hxb]
    exact ⟨h1, h2⟩
  case tin_lt =>
    intro x t h
    rcases update_eq_some h with ⟨_, rfl⟩ | ⟨_, h⟩
    · exact lt_succ_self _
    · exact (I.tin_lt x t h).trans (lt_succ_self _)
  case tout_lt => exact fun x t h => (I.tout_lt x t h).trans (lt_succ_self _)
  case nested =>
    intro x y tx ty hne hxy hx hy
    dsimp only at hx hy ⊢
    rcases update_eq_some hx with ⟨rfl, _⟩ | ⟨_, hx'⟩
    · rw [htin y hne.symm] at hy
      exact absurd hxy (I.not_treeAnc hnew (by simp [hy]))
    · rcases update_eq_some hy with ⟨rfl, rfl⟩ | ⟨_, hy⟩
      · -- the proper ancestors of the new vertex are on the stack, so none of them is closed
        have hxs := ((hanc x).mp hxy).resolve_left hne
        refine ⟨I.tin_lt x tx hx', fun ox hox => ?_⟩
        rw [((I.open_iff x).mp hxs).2] at hox
        cases hox
      · exact I.nested x y tx ty hne hxy hx' hy
  case apart =>
    intro x y tx ty hxy hyx hx hy hlt'
    dsimp only at hx hy ⊢
    rcases update_eq_some hx with ⟨rfl, rfl⟩ | ⟨_, hx'⟩
    · rcases update_eq_some hy with ⟨rfl, _⟩ | ⟨_, hy⟩
      · exact absurd .refl hxy
      · exact absurd (I.tin_lt y ty hy) hlt'.not_gt
    · rcases update_eq_some hy with ⟨rfl, rfl⟩ | ⟨_, hy⟩
      · -- whatever is apart from the new vertex is not on the stack, so it is closed by now
        have hxs : x ∉ st.stack := fun h => hxy ((hanc x).mpr (.inr h))
        have hclosed : st.tout x ≠ none := fun h => hxs ((I.open_iff x).mpr ⟨by simp [hx'], h⟩)
        obtain ⟨ox, hox⟩ := Option.ne_none_iff_exists'.mp hclosed
        exact ⟨ox, hox, I.tout_lt x ox hox⟩
      · exact I.apart x y tx ty hxy hyx hx' hy hlt'
  case order =>
    intro x t o ht ho
    dsimp only at ht ho
    have hx := (I.closed x (by simp [ho])).1
    rw [htin x (hmet x hx)] at ht
    exact I.order x t o ht ho

theorem stampInv_pop
    {b : ℕ} {rest : List ℕ} (hs : st.stack = b :: rest) (hge : cstart (b + 1) ≤ st.nxt b) :
    StampInv nb par cstart chld
      { st with
        tout := update st.tout b (some st.clock), clock := st.clock + 1,
        stack := rest } := by
  have hbopen := (I.open_iff b).mp (by simp [hs])
  obtain ⟨hbn, -⟩ := I.visited b hbopen.1
  have hstack := I.stack
  rw [hs] at hstack
  have hout : ∀ x, x ≠ b → update st.tout b (some st.clock) x = st.tout x := by
    intro x hx
    rw [update_of_ne hx]
  have hnodup := I.nodup
  rw [hs] at hnodup
  have hdesc : ∀ y, st.tin y ≠ none → y ≠ b → TreeAnc par b y → st.tout y ≠ none := by
    intro y hy hne hby hopen
    have hys := (I.open_iff y).mpr ⟨hy, hopen⟩
    rw [hs] at hys
    exact hne (A.antisymm y b ((hstack.1 y).mpr hys) hby)
  constructor
  case root => exact I.root
  case visited => exact I.visited
  case visited_parent => exact I.visited_parent
  case open_iff =>
    intro x
    dsimp only
    by_cases he : x = b
    · subst he
      exact ⟨fun h => absurd h (List.nodup_cons.mp hnodup).1, fun h => by simp at h⟩
    · rw [hout x he, ← I.open_iff, hs, List.mem_cons]
      exact ⟨.inr, fun h => h.resolve_left he⟩
  case stack => exact hstack.2
  case nodup => exact (List.nodup_cons.mp hnodup).2
  case cursor => exact I.cursor
  case child_iff => exact I.child_iff
  case closed =>
    intro x hx
    dsimp only at hx ⊢
    by_cases he : x = b
    · subst he
      have := (I.cursor x hbn).2
      exact ⟨hbopen.1, by omega⟩
    · rw [hout x he] at hx
      exact I.closed x hx
  case tin_lt => exact fun x t h => (I.tin_lt x t h).trans (lt_succ_self _)
  case tout_lt =>
    intro x t h
    rcases update_eq_some h with ⟨_, rfl⟩ | ⟨_, h⟩
    · exact lt_succ_self _
    · exact (I.tout_lt x t h).trans (lt_succ_self _)
  case nested =>
    intro x y tx ty hne hxy hx hy
    dsimp only at hx hy ⊢
    obtain ⟨h1, h2⟩ := I.nested x y tx ty hne hxy hx hy
    refine ⟨h1, fun ox hox => ?_⟩
    rcases update_eq_some hox with ⟨rfl, rfl⟩ | ⟨_, hox⟩
    · have hyo := hdesc y (by simp [hy]) hne.symm hxy
      obtain ⟨oy, hoy⟩ := Option.ne_none_iff_exists'.mp hyo
      exact ⟨oy, by rw [hout y hne.symm]; exact hoy, I.tout_lt y oy hoy⟩
    · obtain ⟨oy, hoy, hlt⟩ := h2 ox hox
      have hyb : y ≠ b := by
        rintro rfl
        rw [hbopen.2] at hoy
        cases hoy
      exact ⟨oy, by rw [hout y hyb]; exact hoy, hlt⟩
  case apart =>
    intro x y tx ty hxy hyx hx hy hlt
    dsimp only at hx hy ⊢
    obtain ⟨ox, hox, hlt'⟩ := I.apart x y tx ty hxy hyx hx hy hlt
    have hxb : x ≠ b := by
      rintro rfl
      rw [hbopen.2] at hox
      cases hox
    exact ⟨ox, by rw [hout x hxb]; exact hox, hlt'⟩
  case order =>
    intro x t o ht ho
    rcases update_eq_some ho with ⟨rfl, rfl⟩ | ⟨_, ho⟩
    · exact I.tin_lt x t ht
    · exact I.order x t o ht ho

def stampMeasure (nb : ℕ) (st : StampState) : ℕ :=
  2 * ((range nb).filter fun b => st.tin b = none).card + st.stack.length

theorem stampStep_spec
    (h : st.stack ≠ []) :
    StampInv nb par cstart chld (stampStep cstart chld st) ∧
      stampMeasure nb (stampStep cstart chld st) < stampMeasure nb st := by
  obtain ⟨b, rest, hs⟩ := List.exists_cons_of_ne_nil h
  unfold stampStep
  rw [hs]
  dsimp only
  split
  · next hlt =>
    obtain ⟨hnew, hcn, hI⟩ := stampInv_push A I hs hlt
    refine ⟨hI, ?_⟩
    unfold stampMeasure
    have hcard : ((range nb).filter fun x =>
        update st.tin (chld (st.nxt b)) (some st.clock) x = none) =
        ((range nb).filter fun x => st.tin x = none).erase (chld (st.nxt b)) := by
      ext x
      by_cases he : x = chld (st.nxt b) <;> simp [he]
    have hmem : chld (st.nxt b) ∈ (range nb).filter fun x => st.tin x = none := by
      simp [hcn, hnew]
    have hpos := Finset.card_pos.mpr ⟨_, hmem⟩
    rw [hcard, card_erase_of_mem hmem, hs]
    simp only [List.length_cons]
    omega
  · next hge =>
    refine ⟨stampInv_pop A I hs (by omega), ?_⟩
    simp only [stampMeasure, hs, List.length_cons]
    omega

/-- The finished search: the stamps of every block of the tree. -/
structure Stamped (par : ℕ → Option ℕ) (tin tout : ℕ → Option ℕ) : Prop where
  visited_iff : ∀ b, tin b ≠ none ↔ TreeAnc par 0 b
  closed : ∀ b, tin b ≠ none → tout b ≠ none
  nested_iff : ∀ x y tx ty ox oy, x ≠ y → tin x = some tx → tin y = some ty →
    tout x = some ox → tout y = some oy → ((tx < ty ∧ oy < ox) ↔ TreeAnc par x y)

theorem stamped_of_inv
    (hs : st.stack = []) : Stamped par st.tin st.tout := by
  have hclosed : ∀ b, st.tin b ≠ none → st.tout b ≠ none := by
    intro b hb ho
    have := (I.open_iff b).mpr ⟨hb, ho⟩
    simp [hs] at this
  refine ⟨fun b => ⟨fun hb => (I.visited b hb).2, fun hb => ?_⟩, hclosed, ?_⟩
  · induction hb with
    | refl => exact I.root
    | @tail p c _ hc ih =>
      have hpn := (I.visited p ih).1
      obtain ⟨k, h1, h2, rfl⟩ := A.complete p hpn c hc
      rw [I.child_iff p hpn k h1 h2, (I.closed p (hclosed p ih)).2]
      exact h2
  · intro x y tx ty ox oy hne hx hy hox hoy
    constructor
    · rintro ⟨ht, ho⟩
      by_contra hxy
      by_cases hyx : TreeAnc par y x
      · have := (I.nested y x ty tx hne.symm hyx hy hx).1
        omega
      · obtain ⟨o, ho', hlt⟩ := I.apart x y tx ty hxy hyx hx hy ht
        rw [hox] at ho'
        cases ho'
        have := I.order y ty oy hy hoy
        omega
    · intro hxy
      obtain ⟨h1, h2⟩ := I.nested x y tx ty hne hxy hx hy
      obtain ⟨o, ho, hlt⟩ := h2 ox hox
      rw [hoy] at ho
      cases ho
      exact ⟨h1, hlt⟩

end

theorem stamp_loop (hnb : 0 < nb) :
    ∃ st, whileLoop (fun st : StampState => !st.stack.isEmpty) (stampStep cstart chld) (2 * nb + 1)
        { nxt := cstart, tin := update (fun _ => none) 0 (some 0), tout := fun _ => none,
          clock := 1, stack := [0] } = some st ∧ Stamped par st.tin st.tout := by
  obtain ⟨st, hst, I, hc⟩ := @whileLoop_total StampState (fun st => !st.stack.isEmpty)
    (stampStep cstart chld) (StampInv nb par cstart chld) (stampMeasure nb)
    (fun st I hc => stampStep_spec A I (by simpa using hc)) (2 * nb + 1) _
    (stampInv_init A hnb) (by
      have hcard : ((range nb).filter fun b =>
          update (fun _ : ℕ => (none : Option ℕ)) 0 (some 0) b = none).card < nb := by
        refine lt_of_lt_of_eq (card_lt_card ?_) (card_range nb)
        refine (ssubset_iff_of_subset (filter_subset _ _)).mpr ⟨0, ?_, ?_⟩
        · simpa using hnb
        · simp
      simp only [stampMeasure, List.length_singleton]
      omega)
  exact ⟨st, hst, stamped_of_inv A I (by simpa using hc)⟩

end

end Search

section Arrays

variable {cfg : IRCFG}

def domChildrenIn (cfg : IRCFG) (l : List ℕ) (p : ℕ) : List ℕ :=
  l.filter fun b => domParent cfg b = some p

theorem domChildrenIn_append (l l' : List ℕ) (p : ℕ) :
    domChildrenIn cfg (l ++ l') p = domChildrenIn cfg l p ++ domChildrenIn cfg l' p := by
  simp [domChildrenIn]

theorem domCcount_eq (cfg : IRCFG) (p : ℕ) :
    domCcount cfg p = (domChildrenIn cfg cfg.rpoOrder p).length := by
  have key : ∀ (l : List ℕ) (f : ℕ → ℕ),
      l.foldl (domCcountStep cfg) f p = f p + (domChildrenIn cfg l p).length := by
    intro l
    induction l with
    | nil => simp [domChildrenIn]
    | cons b l ih =>
      intro f
      rw [List.foldl_cons, ih, ← List.singleton_append, domChildrenIn_append, List.length_append]
      cases hb : domParent cfg b with
      | none => simp [domChildrenIn, domCcountStep, hb]
      | some q =>
        by_cases hq : q = p
        · simp [domChildrenIn, domCcountStep, hb, hq]
          omega
        · have hq' : p ≠ q := fun e => hq e.symm
          simp [domChildrenIn, domCcountStep, hb, hq, hq']
  have h := key cfg.rpoOrder fun _ => 0
  rw [Nat.zero_add] at h
  exact h

theorem domCstart_succ {i : ℕ} (hi : i < cfg.numBlocks) :
    domCstart cfg (i + 1) = domCstart cfg i + domCcount cfg i := by
  refine forRange_induction (fun k (f : ℕ → ℕ) => ∀ i < k, f (i + 1) = f i + domCcount cfg i)
    cfg.numBlocks (by simp) ?_ i hi
  intro k f _ ih i hik
  rw [update_of_ne (by omega : i ≠ k + 1)]
  rcases Nat.lt_succ_iff_lt_or_eq.mp hik with hlt | rfl
  · rw [update_of_ne (by omega), ih i hlt]
  · rw [update_self]

theorem domCstart_mono {p q : ℕ} (hpq : p ≤ q) (hq : q ≤ cfg.numBlocks) :
    domCstart cfg p ≤ domCstart cfg q := by
  induction q with
  | zero => rw [Nat.le_zero.mp hpq]
  | succ q ih =>
    rcases Nat.lt_or_eq_of_le hpq with hlt | rfl
    · rw [domCstart_succ (by omega)]
      exact (ih (by omega) (by omega)).trans (Nat.le_add_right _ _)
    · exact le_rfl

/-- The cursors and the array after some of the blocks have been placed. -/
structure FillInv (cfg : IRCFG) (l : List ℕ) (st : (ℕ → ℕ) × (ℕ → ℕ)) : Prop where
  next : ∀ p < cfg.numBlocks, st.2 p = domCstart cfg p + (domChildrenIn cfg l p).length
  stored : ∀ p < cfg.numBlocks, ∀ k c, (domChildrenIn cfg l p)[k]? = some c →
    st.1 (domCstart cfg p + k) = c

theorem fillInv_step {l l' : List ℕ} {b p : ℕ} (hl : cfg.rpoOrder = l ++ b :: l')
    (hb : domParent cfg b = some p) (hp : p < cfg.numBlocks) {st : (ℕ → ℕ) × (ℕ → ℕ)}
    (I : FillInv cfg l st) :
    FillInv cfg (l ++ [b])
      (update st.1 (st.2 p) b, update st.2 p (st.2 p + 1)) := by
  have hself : domChildrenIn cfg [b] p = [b] := by simp [domChildrenIn, hb]
  have hother : ∀ q, q ≠ p → domChildrenIn cfg [b] q = [] := by
    intro q hq
    have : p ≠ q := fun e => hq e.symm
    simp [domChildrenIn, hb, this]
  have hcount : ∀ q, (domChildrenIn cfg l q).length +
      (domChildrenIn cfg [b] q).length ≤ domCcount cfg q := by
    intro q
    have hl' : cfg.rpoOrder = (l ++ [b]) ++ l' := by simp [hl]
    rw [domCcount_eq, hl', domChildrenIn_append, domChildrenIn_append, List.length_append,
      List.length_append]
    omega
  have hcp := hcount p
  rw [hself, List.length_singleton] at hcp
  constructor
  · intro q hq
    dsimp only
    rw [domChildrenIn_append, List.length_append]
    by_cases he : q = p
    · rw [he, update_self, hself, I.next p hp, List.length_singleton]
      omega
    · rw [update_of_ne he, hother q he, I.next q hq, List.length_nil, Nat.add_zero]
  · intro q hq k c hc
    dsimp only
    rw [I.next p hp]
    rw [domChildrenIn_append] at hc
    by_cases he : q = p
    · subst he
      rw [hself] at hc
      by_cases hk : k = (domChildrenIn cfg l q).length
      · subst hk
        simp only [List.getElem?_concat_length, Option.some.injEq] at hc
        rw [update_self, hc]
      · have hlt := (List.getElem?_eq_some_iff.mp hc).1
        rw [List.length_append, List.length_singleton] at hlt
        rw [List.getElem?_append_left (by omega)] at hc
        rw [update_of_ne (by omega)]
        exact I.stored q hq k c hc
    · rw [hother q he, List.append_nil] at hc
      have hk := (List.getElem?_eq_some_iff.mp hc).1
      have hcq := hcount q
      -- the places of two parents do not overlap
      have hne : domCstart cfg q + k ≠ domCstart cfg p + (domChildrenIn cfg l p).length := by
        have hsp := domCstart_succ hp
        have hsq := domCstart_succ hq
        rcases Nat.lt_or_gt_of_ne he with hlt | hgt
        · have := @domCstart_mono cfg (q + 1) p hlt hp.le
          omega
        · have := @domCstart_mono cfg (p + 1) q hgt hq.le
          omega
      rw [update_of_ne hne]
      exact I.stored q hq k c hc

theorem fillInv_domChld (hpar : ∀ b p, domParent cfg b = some p → p < cfg.numBlocks) :
    ∀ p < cfg.numBlocks, ∀ k c, (domChildrenIn cfg cfg.rpoOrder p)[k]? = some c →
      domChld cfg (domCstart cfg p + k) = c := by
  have key : ∀ (l' l : List ℕ) (st : (ℕ → ℕ) × (ℕ → ℕ)), cfg.rpoOrder = l ++ l' →
      FillInv cfg l st → FillInv cfg cfg.rpoOrder
        (l'.foldl (domChldStep cfg) st) := by
    intro l'
    induction l' with
    | nil => intro l st hl I; rw [hl, List.append_nil]; exact I
    | cons b l' ih =>
      intro l st hl I
      refine ih (l ++ [b]) _ (by simp [hl]) ?_
      unfold domChldStep
      cases hb : domParent cfg b with
      | some p => exact fillInv_step hl hb (hpar b p hb) I
      | none =>
        have hnil : ∀ q, domChildrenIn cfg [b] q = [] := by simp [domChildrenIn, hb]
        refine ⟨fun p hp => ?_, fun p hp k c hc => ?_⟩
        · rw [domChildrenIn_append, hnil, List.append_nil]
          exact I.next p hp
        · rw [domChildrenIn_append, hnil, List.append_nil] at hc
          exact I.stored p hp k c hc
  exact (key cfg.rpoOrder [] _ rfl ⟨by simp [domChildrenIn], by simp [domChildrenIn]⟩).stored

theorem domParent_zero (cfg : IRCFG) : domParent cfg 0 = none := by
  unfold domParent
  split <;> simp

theorem childArrays_domChld (hnodup : cfg.rpoOrder.Nodup)
    (hpar : ∀ b p, domParent cfg b = some p →
      b < cfg.numBlocks ∧ p < cfg.numBlocks ∧ b ∈ cfg.rpoOrder)
    (hanti : ∀ a b, TreeAnc (domParent cfg) a b → TreeAnc (domParent cfg) b a → a = b) :
    ChildArrays cfg.numBlocks (domParent cfg) (domCstart cfg) (domChld cfg) := by
  -- the first loop counts the children of each block, the second fills their places
  have hfill := fillInv_domChld fun b p h => (hpar b p h).2.1
  have hget : ∀ p < cfg.numBlocks, ∀ k, domCstart cfg p ≤ k → k < domCstart cfg (p + 1) →
      (domChildrenIn cfg cfg.rpoOrder p)[k - domCstart cfg p]? = some (domChld cfg k) := by
    intro p hp k h1 h2
    rw [domCstart_succ hp, domCcount_eq] at h2
    have hlt : k - domCstart cfg p < (domChildrenIn cfg cfg.rpoOrder p).length := by omega
    have h := hfill p hp _ _ (List.getElem?_eq_getElem hlt)
    rw [show domCstart cfg p + (k - domCstart cfg p) = k by omega] at h
    rw [h]
    exact List.getElem?_eq_getElem hlt
  refine ⟨domParent_zero cfg, hanti, fun c p h => ⟨(hpar c p h).1, (hpar c p h).2.1⟩, ?_, ?_, ?_, ?_⟩
  · intro p hp
    rw [domCstart_succ hp]
    exact Nat.le_add_right _ _
  · intro p hp k h1 h2
    have hm := List.mem_of_getElem? (hget p hp k h1 h2)
    simpa [domChildrenIn] using (List.mem_filter.mp hm).2
  · intro p hp c hc
    have hm : c ∈ domChildrenIn cfg cfg.rpoOrder p := by
      simp [domChildrenIn, hc, (hpar c p hc).2.2]
    obtain ⟨k, hk, rfl⟩ := List.mem_iff_getElem.mp hm
    refine ⟨domCstart cfg p + k, by omega, ?_, hfill p hp k _ (List.getElem?_eq_getElem hk)⟩
    rw [domCstart_succ hp, domCcount_eq]
    omega
  · intro p hp k k' h1 h2 h1' h2' he
    have hk := hget p hp k h1 h2
    have hk' := hget p hp k' h1' h2'
    rw [← he] at hk'
    have hnd : (domChildrenIn cfg cfg.rpoOrder p).Nodup := hnodup.filter _
    have := (List.getElem?_inj (List.getElem?_eq_some_iff.mp hk).1 hnd).mp (hk.trans hk'.symm)
    omega

end Arrays

end Tinycc
