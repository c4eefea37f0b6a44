import Tinycc.Lib.DepthFirst
import Tinycc.Lib.Loop
import Mathlib.Algebra.GroupWithZero.Nat
import Mathlib.Algebra.BigOperators.Group.Finset.Basic

namespace Tinycc.Lib
open Relation Flowgraph Function Finset

/-- Each vertex of a stack has the vertices below it as its proper ancestors. -/
def StackChain (parent num : ℕ → ℕ) : List ℕ → Prop
  | [] => True
  | b :: rest =>
    (∀ u, Ancestor parent u (num b) ↔ ∃ c ∈ b :: rest, num c = u) ∧ StackChain parent num rest

structure DfsFrame where
  block : ℕ
  ci : ℕ
  deriving DecidableEq

/-- A depth-first search from `0` with an explicit stack, numbering vertices as it meets them. -/
structure DfsState where
  pre : ℕ → Option ℕ
  vertex : ℕ → ℕ
  parent : ℕ → ℕ
  np : ℕ
  post : List ℕ
  stack : List DfsFrame

def dfsInit : DfsState :=
  { pre := update (fun _ => none) 0 (some 0), vertex := fun _ => 0, parent := fun _ => 0,
    np := 1, post := [], stack := [⟨0, 0⟩] }

def dfsStep (nb : ℕ) (succs : ℕ → List ℕ) (s : DfsState) : DfsState :=
  -- the next successor of the top vertex, or the vertex is left
  match s.stack with
  | [] => s
  | top :: rest =>
    match (succs top.block)[top.ci]? with
    | some c =>
      let stack := { top with ci := top.ci + 1 } :: rest
      if c < nb ∧ s.pre c = none then
        { pre := update s.pre c (some s.np), vertex := update s.vertex s.np c,
          parent := update s.parent s.np ((s.pre top.block).getD 0), np := s.np + 1,
          post := s.post, stack := ⟨c, 0⟩ :: stack }
      else { s with stack := stack }
    | none => { s with post := s.post ++ [top.block], stack := rest }

def SuccEdge (nb : ℕ) (succs : ℕ → List ℕ) (b c : ℕ) : Prop := c ∈ succs b ∧ c < nb

namespace DfsState

def num (s : DfsState) (b : ℕ) : ℕ := (s.pre b).getD 0

def onStack (s : DfsState) : List ℕ := s.stack.map DfsFrame.block

/-- What has been numbered so far is a depth-first tree. -/
structure TreeInv (nb : ℕ) (succs : ℕ → List ℕ) (s : DfsState) : Prop where
  np_pos : 0 < s.np
  pre_zero : s.pre 0 = some 0
  vertex_of_pre : ∀ b i, s.pre b = some i → i < s.np ∧ s.vertex i = b
  pre_vertex : ∀ i < s.np, s.pre (s.vertex i) = some i
  vertex_lt : ∀ i < s.np, s.vertex i < nb
  parent_lt : ∀ i, 0 < i → i < s.np → s.parent i < i
  parent_edge : ∀ i, 0 < i → i < s.np →
    SuccEdge nb succs (s.vertex (s.parent i)) (s.vertex i)
  interval : ∀ u y x, x < s.np → Ancestor s.parent u x → u ≤ y → y ≤ x → Ancestor s.parent u y
  forward : ∀ i j, i < j → j < s.np → SuccEdge nb succs (s.vertex i) (s.vertex j) →
    Ancestor s.parent i j

/-- How the stack relates to the tree and to the vertices already left. -/
structure StackInv (nb : ℕ) (succs : ℕ → List ℕ) (s : DfsState) : Prop where
  numbered : ∀ b ∈ s.onStack, s.pre b ≠ none
  chain : StackChain s.parent s.num s.onStack
  below : ∀ b ∈ s.onStack, ∀ i, s.num b ≤ i → i < s.np → Ancestor s.parent (s.num b) i
  looked : ∀ f ∈ s.stack, ∀ c ∈ (succs f.block).take f.ci, c < nb → s.pre c ≠ none
  finished : ∀ b, s.pre b ≠ none → b ∉ s.onStack → ∀ c ∈ succs b, c < nb → s.pre c ≠ none
  post_mem : ∀ b, b ∈ s.post ↔ s.pre b ≠ none ∧ b ∉ s.onStack
  post_nodup : s.post.Nodup
  stack_nodup : s.onStack.Nodup

structure Inv (nb : ℕ) (succs : ℕ → List ℕ) (s : DfsState) : Prop
  extends TreeInv nb succs s, StackInv nb succs s

end DfsState

variable {p q : ℕ → ℕ} {u x : ℕ}

theorem Ancestor.congr {n : ℕ} (hlt : ∀ i, 0 < i → i < n → p i < i) (hpq : ∀ i < n, p i = q i)
    (h : Ancestor p u x) (hx : x < n) : Ancestor q u x := by
  induction h with
  | refl => exact .refl
  | @step v h0 _ ih =>
    have := hlt v h0 hx
    refine .step h0 ?_
    rw [← hpq v hx]
    exact ih (by omega)

theorem ancestor_congr {n : ℕ} (hlt : ∀ i, 0 < i → i < n → p i < i) (hpq : ∀ i < n, p i = q i)
    (hx : x < n) : Ancestor p u x ↔ Ancestor q u x := by
  refine ⟨fun h => h.congr hlt hpq hx, fun h => h.congr ?_ (fun i hi => (hpq i hi).symm) hx⟩
  intro i h0 hi
  rw [← hpq i hi]
  exact hlt i h0 hi

theorem ancestor_zero_iff : Ancestor p u 0 ↔ u = 0 := by
  constructor
  · intro h
    cases h with
    | refl => rfl
    | step h0 _ => omega
  · rintro rfl
    exact .refl

theorem ancestor_succ_iff (hx : 0 < x) :
    Ancestor p u x ↔ u = x ∨ Ancestor p u (p x) := by
  constructor
  · intro h
    cases h with
    | refl => exact .inl rfl
    | step _ h => exact .inr h
  · rintro (rfl | h)
    · exact .refl
    · exact .step hx h

section Loop

variable {nb : ℕ} {succs : ℕ → List ℕ} {s : DfsState} {top : DfsFrame} {rest : List DfsFrame}
  {c : ℕ}

theorem dfsInit_inv (hnb : 0 < nb) : dfsInit.Inv nb succs := by
  have hpre : ∀ b, dfsInit.pre b = if b = 0 then some 0 else none := by
    intro b
    simp [dfsInit, update_apply]
  have hmet : ∀ b, dfsInit.pre b ≠ none → b = 0 := by
    intro b hb
    by_contra h0
    simp [hpre, h0] at hb
  have hnum : dfsInit.num 0 = 0 := by simp [DfsState.num, hpre]
  have hstack : dfsInit.onStack = [0] := rfl
  have hnp : dfsInit.np = 1 := rfl
  constructor
  · constructor
    case np_pos => simp [dfsInit]
    case pre_zero => simp [hpre]
    case vertex_of_pre =>
      intro b i h
      have hb := hmet b (by simp [h])
      subst hb
      cases h
      exact ⟨Nat.zero_lt_one, rfl⟩
    case pre_vertex =>
      intro i hi
      rw [Nat.lt_one_iff.mp hi]
      simp [dfsInit]
    case vertex_lt => exact fun _ _ => hnb
    case parent_lt => intro i h0 hi; rw [hnp] at hi; omega
    case parent_edge => intro i h0 hi; rw [hnp] at hi; omega
    case interval =>
      intro u y x hx _ huy hyx
      rw [show y = u by omega]
      exact .refl
    case forward => intro i j hij hj; rw [hnp] at hj; omega
  · constructor
    case numbered => simp [hstack, hpre]
    case chain =>
      rw [hstack]
      refine ⟨fun u => ?_, trivial⟩
      simp only [hnum, ancestor_zero_iff, List.mem_singleton, exists_eq_left]
      exact eq_comm
    case below =>
      intro b hb i _ hi
      rw [hstack, List.mem_singleton] at hb
      rw [hb, Nat.lt_one_iff.mp hi]
      exact .refl
    case looked => intro f hf c hc; simp [dfsInit] at hf; simp [hf] at hc
    case finished =>
      intro b hb hs
      simp [hstack, hmet b hb] at hs
    case post_mem =>
      intro b
      simp only [hstack, List.mem_singleton]
      exact ⟨fun h => by simp [dfsInit] at h, fun h => absurd (hmet b h.1) h.2⟩
    case post_nodup => exact List.nodup_nil
    case stack_nodup => simp [hstack]

variable {b : ℕ}

theorem num_of_pre {i : ℕ} (h : s.pre b = some i) : s.num b = i := by
  simp [DfsState.num, h]

theorem DfsState.TreeInv.num_lt (I : s.TreeInv nb succs) (h : s.pre b ≠ none) :
    s.num b < s.np := by
  obtain ⟨i, hi⟩ := Option.ne_none_iff_exists'.mp h
  rw [num_of_pre hi]
  exact (I.vertex_of_pre b i hi).1

theorem DfsState.TreeInv.vertex_num (I : s.TreeInv nb succs) (h : s.pre b ≠ none) :
    s.vertex (s.num b) = b := by
  obtain ⟨i, hi⟩ := Option.ne_none_iff_exists'.mp h
  rw [num_of_pre hi]
  exact (I.vertex_of_pre b i hi).2

theorem inv_advance (I : s.Inv nb succs) (hs : s.stack = top :: rest)
    (hc : (succs top.block)[top.ci]? = some c) (hmet : c < nb → s.pre c ≠ none) :
    ({ s with stack := { top with ci := top.ci + 1 } :: rest } : DfsState).Inv nb succs := by
  have hon : ({ s with stack := { top with ci := top.ci + 1 } :: rest } : DfsState).onStack =
      s.onStack := by simp [DfsState.onStack, hs]
  refine ⟨⟨I.np_pos, I.pre_zero, I.vertex_of_pre, I.pre_vertex, I.vertex_lt, I.parent_lt,
    I.parent_edge, I.interval, I.forward⟩, ?_⟩
  constructor <;> (try rw [hon])
  case numbered => exact I.numbered
  case chain => exact I.chain
  case below => exact I.below
  case looked =>
    intro f hf d hd hlt
    rcases List.mem_cons.mp hf with rfl | hf
    · rw [List.take_add_one, hc] at hd
      rcases List.mem_append.mp hd with hd | hd
      · exact I.looked top (by simp [hs]) d hd hlt
      · simp only [Option.toList_some, List.mem_singleton] at hd
        exact hd ▸ hmet (hd ▸ hlt)
    · exact I.looked f (by simp [hs, hf]) d hd hlt
  case finished => exact I.finished
  case post_mem => exact I.post_mem
  case post_nodup => exact I.post_nodup
  case stack_nodup => exact I.stack_nodup

theorem inv_pop (I : s.Inv nb succs) (hs : s.stack = top :: rest)
    (hc : (succs top.block)[top.ci]? = none) :
    ({ s with post := s.post ++ [top.block], stack := rest } : DfsState).Inv nb succs := by
  have hon : s.onStack = top.block :: rest.map DfsFrame.block := by simp [DfsState.onStack, hs]
  have hsub : ∀ b ∈ rest.map DfsFrame.block, b ∈ s.onStack := by simp +contextual [hon]
  have hnd := I.stack_nodup
  have hchain := I.chain
  rw [hon] at hnd hchain
  have htop : top.block ∈ s.onStack := by simp [hon]
  refine ⟨⟨I.np_pos, I.pre_zero, I.vertex_of_pre, I.pre_vertex, I.vertex_lt, I.parent_lt,
    I.parent_edge, I.interval, I.forward⟩, ?_⟩
  constructor
  case numbered => exact fun b hb => I.numbered b (hsub b hb)
  case chain => exact hchain.2
  case below => exact fun b hb => I.below b (hsub b hb)
  case looked => exact fun f hf => I.looked f (by simp [hs, show f ∈ rest from hf])
  case finished =>
    intro b hb hbs c hcb hlt
    by_cases he : b = top.block
    · have hle := List.getElem?_eq_none_iff.mp hc
      refine I.looked top (by simp [hs]) c ?_ hlt
      rw [List.take_of_length_le hle]
      exact he ▸ hcb
    · exact I.finished b hb (by rw [hon, List.mem_cons, not_or]; exact ⟨he, hbs⟩) c hcb hlt
  case post_mem =>
    intro b
    rw [List.mem_append, I.post_mem, hon, List.mem_singleton, List.mem_cons, not_or]
    by_cases he : b = top.block
    · subst he
      simp only [not_true_eq_false, false_and, and_false, or_true, true_iff]
      exact ⟨I.numbered _ htop, (List.nodup_cons.mp hnd).1⟩
    · simp only [he, not_false_eq_true, true_and, or_false]
      exact Iff.rfl
  case post_nodup =>
    refine List.nodup_append.mpr ⟨I.post_nodup, List.nodup_singleton _, ?_⟩
    rintro a ha b hb rfl
    rw [List.mem_singleton] at hb
    exact ((I.post_mem a).mp ha).2 (hb ▸ htop)
  case stack_nodup => exact (List.nodup_cons.mp hnd).2

end Loop

section Push

variable {nb : ℕ} {succs : ℕ → List ℕ} {s : DfsState} {top : DfsFrame} {rest : List DfsFrame}
  {c : ℕ}

def DfsState.push (s : DfsState) (top : DfsFrame) (rest : List DfsFrame) (c : ℕ) : DfsState :=
  { pre := update s.pre c (some s.np), vertex := update s.vertex s.np c,
    parent := update s.parent s.np (s.num top.block), np := s.np + 1,
    post := s.post, stack := ⟨c, 0⟩ :: { top with ci := top.ci + 1 } :: rest }

variable (I : s.Inv nb succs) (hs : s.stack = top :: rest) (hnew : s.pre c = none)

include hnew in
theorem push_pre {b : ℕ} (hb : s.pre b ≠ none) : (s.push top rest c).pre b = s.pre b := by
  have hne : b ≠ c := fun e => hb (e ▸ hnew)
  simp [DfsState.push, hne]

include hnew in
theorem push_num {b : ℕ} (hb : s.pre b ≠ none) : (s.push top rest c).num b = s.num b := by
  simp only [DfsState.num, push_pre hnew hb]

theorem push_num_self : (s.push top rest c).num c = s.np := by
  simp [DfsState.num, DfsState.push]

variable {b u : ℕ}

theorem push_pre_ne_none :
    (s.push top rest c).pre b ≠ none ↔ s.pre b ≠ none ∨ b = c := by
  by_cases hb : b = c <;> simp [DfsState.push, hb]

theorem push_onStack : (s.push top rest c).onStack = c :: top.block :: rest.map DfsFrame.block := by
  simp [DfsState.onStack, DfsState.push]

include I in
theorem push_ancestor {x : ℕ} (hx : x < s.np) :
    Ancestor (s.push top rest c).parent u x ↔ Ancestor s.parent u x :=
  (ancestor_congr I.parent_lt (fun i hi => by simp [DfsState.push, hi.ne]) hx).symm

include I hs in
theorem push_ancestor_np :
    Ancestor (s.push top rest c).parent u s.np ↔ u = s.np ∨ ∃ b ∈ s.onStack, s.num b = u := by
  have hon : s.onStack = top.block :: rest.map DfsFrame.block := by simp [DfsState.onStack, hs]
  have hchain := I.chain
  have htop := I.num_lt (I.numbered top.block (by simp [hon]))
  rw [hon] at hchain ⊢
  have hp : (s.push top rest c).parent s.np = s.num top.block := by simp [DfsState.push]
  rw [ancestor_succ_iff I.np_pos, hp, push_ancestor I htop, hchain.1 u]

include I hnew in
theorem onStack_of_edge_new (hb : s.pre b ≠ none) (he : c ∈ succs b) (hc : c < nb) :
    b ∈ s.onStack := by
  by_contra hbs
  exact I.finished b hb hbs c he hc hnew

include I hs hnew in
theorem push_treeInv (he : c ∈ succs top.block) (hc : c < nb) :
    (s.push top rest c).TreeInv nb succs := by
  have hnp : (s.push top rest c).np = s.np + 1 := rfl
  have hv : ∀ i < s.np, (s.push top rest c).vertex i = s.vertex i := by
    intro i hi
    simp [DfsState.push, hi.ne]
  have hvn : (s.push top rest c).vertex s.np = c := by simp [DfsState.push]
  have hp : ∀ i < s.np, (s.push top rest c).parent i = s.parent i := by
    intro i hi
    simp [DfsState.push, hi.ne]
  have hpn : (s.push top rest c).parent s.np = s.num top.block := by simp [DfsState.push]
  have htop := I.numbered top.block (by simp [DfsState.onStack, hs])
  have hmet : ∀ i < s.np, s.pre (s.vertex i) ≠ none := by
    intro i hi
    rw [I.pre_vertex i hi]
    simp
  constructor
  case np_pos => exact Nat.succ_pos _
  case pre_zero => rw [push_pre hnew (by simp [I.pre_zero]), I.pre_zero]
  case vertex_of_pre =>
    intro b i h
    by_cases hb : b = c
    · have hi : i = s.np := by
        rw [← num_of_pre h, hb, push_num_self]
      rw [hi, hvn]
      exact ⟨Nat.lt_succ_self _, hb.symm⟩
    · have hpre : s.pre b = some i := by
        simpa [DfsState.push, hb] using h
      obtain ⟨hi, hvi⟩ := I.vertex_of_pre b i hpre
      rw [hv i hi]
      exact ⟨hi.trans (Nat.lt_succ_self _), hvi⟩
  case pre_vertex =>
    intro i hi
    rcases Nat.lt_succ_iff_lt_or_eq.mp hi with hlt | rfl
    · rw [hv i hlt, push_pre hnew (hmet i hlt), I.pre_vertex i hlt]
    · simp [DfsState.push]
  case vertex_lt =>
    intro i hi
    rcases Nat.lt_succ_iff_lt_or_eq.mp hi with hlt | rfl
    · rw [hv i hlt]; exact I.vertex_lt i hlt
    · rw [hvn]; exact hc
  case parent_lt =>
    intro i h0 hi
    rcases Nat.lt_succ_iff_lt_or_eq.mp hi with hlt | rfl
    · rw [hp i hlt]; exact I.parent_lt i h0 hlt
    · rw [hpn]; exact I.num_lt htop
  case parent_edge =>
    intro i h0 hi
    rcases Nat.lt_succ_iff_lt_or_eq.mp hi with hlt | rfl
    · have := I.parent_lt i h0 hlt
      rw [hp i hlt, hv i hlt, hv _ (by omega)]
      exact I.parent_edge i h0 hlt
    · rw [hpn, hvn, hv _ (I.num_lt htop), I.vertex_num htop]
      exact ⟨he, hc⟩
  case interval =>
    intro u y x hx hux huy hyx
    rcases Nat.lt_succ_iff_lt_or_eq.mp hx with hlt | rfl
    · rw [push_ancestor I (by omega)]
      exact I.interval u y x hlt ((push_ancestor I hlt).mp hux) huy hyx
    · rcases Nat.lt_or_eq_of_le hyx with hy | rfl
      · rcases (push_ancestor_np I hs).mp hux with rfl | ⟨b, hb, rfl⟩
        · omega
        · exact (push_ancestor I hy).mpr (I.below b hb y huy hy)
      · exact hux
  case forward =>
    intro i j hij hj hedge
    rcases Nat.lt_succ_iff_lt_or_eq.mp hj with hlt | rfl
    · rw [push_ancestor I hlt]
      rw [hv i (by omega), hv j hlt] at hedge
      exact I.forward i j hij hlt hedge
    · rw [hv i hij, hvn] at hedge
      -- whoever has an edge to an unnumbered vertex is still on the stack
      have hon := onStack_of_edge_new I hnew (hmet i hij) hedge.1 hc
      exact (push_ancestor_np I hs).mpr (.inr ⟨_, hon, num_of_pre (I.pre_vertex i hij)⟩)

include I hnew in
theorem push_stackChain (l : List ℕ) (hl : ∀ b ∈ l, s.pre b ≠ none)
    (h : StackChain s.parent s.num l) :
    StackChain (s.push top rest c).parent (s.push top rest c).num l := by
  induction l with
  | nil => trivial
  | cons b l ih =>
    have hb := hl b (by simp)
    refine ⟨fun u => ?_, ih (fun d hd => hl d (by simp [hd])) h.2⟩
    rw [push_num hnew hb, push_ancestor I (I.num_lt hb), h.1 u]
    exact exists_congr fun d => and_congr_right fun hd => by rw [push_num hnew (hl d hd)]

include I hs hnew in
theorem push_stackInv (hc : (succs top.block)[top.ci]? = some c) :
    (s.push top rest c).StackInv nb succs := by
  have hon : s.onStack = top.block :: rest.map DfsFrame.block := by simp [DfsState.onStack, hs]
  have hon' : (s.push top rest c).onStack = c :: s.onStack := by rw [push_onStack, hon]
  have hcs : c ∉ s.onStack := fun h => I.numbered c h hnew
  have hmet : ∀ b, s.pre b ≠ none → (s.push top rest c).pre b ≠ none :=
    fun b hb => push_pre_ne_none.mpr (.inl hb)
  constructor <;> (try rw [hon'])
  case numbered =>
    intro b hb
    rcases List.mem_cons.mp hb with rfl | hb
    · exact push_pre_ne_none.mpr (.inr rfl)
    · exact hmet b (I.numbered b hb)
  case chain =>
    refine ⟨fun u => ?_, push_stackChain I hnew _ I.numbered I.chain⟩
    rw [push_num_self, push_ancestor_np I hs]
    constructor
    · rintro (rfl | ⟨b, hb, rfl⟩)
      · exact ⟨c, by simp, push_num_self⟩
      · exact ⟨b, by simp [hb], push_num hnew (I.numbered b hb)⟩
    · rintro ⟨b, hb, rfl⟩
      rcases List.mem_cons.mp hb with rfl | hb
      · exact .inl push_num_self
      · exact .inr ⟨b, hb, (push_num hnew (I.numbered b hb)).symm⟩
  case below =>
    intro b hb i hle hi
    have hi' : i < s.np + 1 := hi
    rcases List.mem_cons.mp hb with rfl | hb
    · rw [push_num_self] at hle ⊢
      rw [show i = s.np by omega]
      exact .refl
    · rw [push_num hnew (I.numbered b hb)] at hle ⊢
      rcases Nat.lt_succ_iff_lt_or_eq.mp hi' with hlt | rfl
      · exact (push_ancestor I hlt).mpr (I.below b hb i hle hlt)
      · exact (push_ancestor_np I hs).mpr (.inr ⟨b, hb, rfl⟩)
  case looked =>
    intro f hf d hd hlt
    rcases List.mem_cons.mp hf with rfl | hf
    · simp at hd
    · rcases List.mem_cons.mp hf with rfl | hf
      · rw [List.take_add_one, hc] at hd
        rcases List.mem_append.mp hd with hd | hd
        · exact hmet d (I.looked top (by simp [hs]) d hd hlt)
        · simp only [Option.toList_some, List.mem_singleton] at hd
          exact push_pre_ne_none.mpr (.inr hd)
      · exact hmet d (I.looked f (by simp [hs, hf]) d hd hlt)
  case finished =>
    intro b hb hbs d hd hlt
    rw [List.mem_cons, not_or] at hbs
    have hb' := (push_pre_ne_none.mp hb).resolve_right hbs.1
    exact hmet d (I.finished b hb' hbs.2 d hd hlt)
  case post_mem =>
    intro b
    rw [push_pre_ne_none, List.mem_cons, not_or]
    refine (I.post_mem b).trans ⟨fun h => ⟨.inl h.1, ?_, h.2⟩, fun h => ⟨?_, h.2.2⟩⟩
    · rintro rfl
      exact h.1 hnew
    · exact h.1.resolve_right h.2.1
  case post_nodup => exact I.post_nodup
  case stack_nodup => exact List.nodup_cons.mpr ⟨hcs, I.stack_nodup⟩

end Push

section Run

variable {nb : ℕ} {succs : ℕ → List ℕ} {s : DfsState}

theorem dfsStep_inv (I : s.Inv nb succs) : (dfsStep nb succs s).Inv nb succs := by
  unfold dfsStep
  split
  · exact I
  · next top rest hs =>
    split
    · next c hc =>
      split
      · next h =>
        exact ⟨push_treeInv I hs h.2 (List.mem_of_getElem? hc) h.1, push_stackInv I hs h.2 hc⟩
      · next h => exact inv_advance I hs hc fun hlt hn => h ⟨hlt, hn⟩
    · next hc => exact inv_pop I hs hc

/-- The successors still to be looked at, and the vertices still to be left. -/
def dfsMeasure (nb : ℕ) (succs : ℕ → List ℕ) (s : DfsState) : ℕ :=
  (∑ b ∈ range nb with s.pre b = none, ((succs b).length + 1)) +
    (s.stack.map fun f => (succs f.block).length - f.ci + 1).sum

theorem dfsStep_measure (h : s.stack ≠ []) :
    dfsMeasure nb succs (dfsStep nb succs s) < dfsMeasure nb succs s := by
  unfold dfsStep
  split
  · next hs => exact absurd hs h
  · next top rest hs =>
    split
    · next c hc =>
      have hlt : top.ci < (succs top.block).length := (List.getElem?_eq_some_iff.mp hc).1
      split
      · next hnew =>
        have hsum : (∑ b ∈ range nb with s.pre b = none, ((succs b).length + 1)) =
            (∑ b ∈ range nb with update s.pre c (some s.np) b = none,
              ((succs b).length + 1)) + ((succs c).length + 1) := by
          rw [← sum_erase_add _ _ (a := c) (by simp [hnew])]
          congr 1
          refine sum_congr ?_ fun _ _ => rfl
          ext b
          by_cases hb : b = c <;> simp [hb]
        simp only [dfsMeasure, hs, List.map_cons, List.sum_cons, hsum]
        omega
      · simp only [dfsMeasure, hs, List.map_cons, List.sum_cons]
        omega
    · simp only [dfsMeasure, hs, List.map_cons, List.sum_cons]
      omega

def dfsFuel (nb : ℕ) (succs : ℕ → List ℕ) : ℕ :=
  (List.range nb).foldl (fun k b => k + ((succs b).length + 1)) 1

theorem dfsMeasure_init_lt (hnb : 0 < nb) : dfsMeasure nb succs dfsInit < dfsFuel nb succs := by
  have hfuel : ∀ k, (List.range k).foldl (fun k b => k + ((succs b).length + 1)) 1 =
      ∑ b ∈ range k, ((succs b).length + 1) + 1 := by
    intro k
    induction k with
    | zero => simp
    | succ k ih =>
      rw [List.range_succ, List.foldl_append, sum_range_succ]
      simp only [List.foldl_cons, List.foldl_nil]
      omega
  have hsum : (∑ b ∈ range nb with dfsInit.pre b = none, ((succs b).length + 1)) +
      ((succs 0).length + 1) = ∑ b ∈ range nb, ((succs b).length + 1) := by
    rw [← sum_erase_add (range nb) _ (a := 0) (by simpa using hnb)]
    congr 1
    refine sum_congr ?_ fun _ _ => rfl
    ext b
    rw [mem_filter]
    by_cases hb : b = 0 <;> simp [dfsInit, hb]
  unfold dfsFuel dfsMeasure
  rw [hfuel, ← hsum]
  simp [dfsInit]

theorem dfs_terminates (succs : ℕ → List ℕ) (hnb : 0 < nb) :
    ∃ t, whileLoop (fun s : DfsState => !s.stack.isEmpty) (dfsStep nb succs) (dfsFuel nb succs)
      dfsInit = some t ∧ t.Inv nb succs ∧ t.stack = [] := by
  obtain ⟨t, ht, hI, hc⟩ := @whileLoop_total DfsState (fun s => !s.stack.isEmpty)
    (dfsStep nb succs) (DfsState.Inv nb succs) (dfsMeasure nb succs)
    (fun s hI hc => ⟨dfsStep_inv hI, dfsStep_measure (by simpa using hc)⟩)
    (dfsFuel nb succs) dfsInit (dfsInit_inv hnb) (dfsMeasure_init_lt hnb)
  exact ⟨t, ht, hI, by simpa using hc⟩

end Run

section Finished

variable {nb : ℕ} {succs : ℕ → List ℕ} {s : DfsState}

theorem pre_ne_none_iff (I : s.Inv nb succs) (hs : s.stack = []) (b : ℕ) :
    s.pre b ≠ none ↔ Reachable (SuccEdge nb succs) 0 b := by
  constructor
  · intro hb
    have key : ∀ i < s.np, Reachable (SuccEdge nb succs) 0 (s.vertex i) := by
      intro i
      induction i using Nat.strong_induction_on with
      | _ i ih =>
        intro hi
        rcases Nat.eq_zero_or_pos i with rfl | h0
        · rw [(I.vertex_of_pre 0 0 I.pre_zero).2]
          exact ReflTransGen.refl
        · have hlt := I.parent_lt i h0 hi
          exact ReflTransGen.tail (ih _ hlt (by omega)) (I.parent_edge i h0 hi)
    have := key _ (I.num_lt hb)
    rwa [I.vertex_num hb] at this
  · intro h
    induction h with
    | refl => simp [I.pre_zero]
    | @tail x y _ he ih => exact I.finished x ih (by simp [DfsState.onStack, hs]) y he.1 he.2

theorem mem_post_iff (I : s.Inv nb succs) (hs : s.stack = []) (b : ℕ) :
    b ∈ s.post ↔ Reachable (SuccEdge nb succs) 0 b := by
  rw [I.post_mem, ← pre_ne_none_iff I hs]
  simp [DfsState.onStack, hs]

/-- The edges between reachable vertices, in preorder numbers. -/
def numEdge (nb : ℕ) (succs : ℕ → List ℕ) (s : DfsState) (i j : ℕ) : Prop :=
  i < s.np ∧ j < s.np ∧ SuccEdge nb succs (s.vertex i) (s.vertex j)

theorem dfsTree_of_inv (I : s.Inv nb succs) : DfsTree s.np (numEdge nb succs s) s.parent where
  parent_lt := I.parent_lt
  parent_edge i h0 hi := ⟨(I.parent_lt i h0 hi).trans hi, hi, I.parent_edge i h0 hi⟩
  edge_lt _ _ h := ⟨h.1, h.2.1⟩
  interval := I.interval
  forward i j h hlt := I.forward i j hlt h.2.1 h.2.2

end Finished

end Tinycc.Lib
