import Tinycc.Lib.Loop
import Mathlib.Data.List.Nodup
import Mathlib.Data.List.Perm.Subperm

namespace Tinycc.Lib
open Function List

structure KahnState (V : Type*) where
  indegree : V → ℤ
  queue : List V
  head : ℕ

variable {V : Type*} [DecidableEq V] (succs : V → List V) (vs : List V)

def kahnIndegree : V → ℤ :=
  vs.foldl (fun d b => (succs b).foldl (fun d s => update d s (d s + 1)) d) fun _ => 0

def kahnInit : KahnState V :=
  ⟨kahnIndegree succs vs, vs.filter fun v => kahnIndegree succs vs v = 0, 0⟩

def KahnState.drop (st : KahnState V) (v : V) : KahnState V :=
  let st := { st with indegree := update st.indegree v (st.indegree v - 1) }
  if st.indegree v = 0 then { st with queue := st.queue ++ [v] } else st

def kahnStep (st : KahnState V) : KahnState V :=
  match st.queue[st.head]? with
  | some b => (succs b).foldl KahnState.drop { st with head := st.head + 1 }
  | none => st

def kahn : Option (KahnState V) :=
  whileLoop (fun st => st.head < st.queue.length) (kahnStep succs) (vs.length + 1)
    (kahnInit succs vs)

def KahnState.left (st : KahnState V) : List V := vs.filter (· ∉ st.queue.take st.head)

structure KahnInv (st : KahnState V) (rest : List V) : Prop where
  indegree : ∀ v, st.indegree v = ((st.left vs).flatMap succs).count v + rest.count v
  nodup : st.queue.Nodup
  mem : ∀ v, v ∈ st.queue ↔ v ∈ vs ∧ st.indegree v = 0
  head_le : st.head ≤ st.queue.length
  order : ∀ k v, st.queue[k]? = some v → ∀ u ∈ vs, v ∈ succs u → u ∈ st.queue.take k

variable {succs vs} {st : KahnState V} {rest : List V}

omit [DecidableEq V] in
private theorem getElem?_snoc {l : List V} {v w : V} {k : ℕ} (h : (l ++ [v])[k]? = some w) :
    l[k]? = some w ∨ (k = l.length ∧ w = v) := by
  rcases Nat.lt_trichotomy k l.length with hk | hk | hk
  · rw [List.getElem?_append_left hk] at h
    exact .inl h
  · subst hk
    simp only [List.getElem?_concat_length, Option.some.injEq] at h
    exact .inr ⟨rfl, h.symm⟩
  · rw [List.getElem?_eq_none (by simp; omega)] at h
    cases h

theorem foldl_count (l : List V) : ∀ (d : V → ℤ) (v : V),
    l.foldl (fun d s => update d s (d s + 1)) d v = d v + l.count v := by
  induction l with
  | nil => simp
  | cons x l ih =>
    intro d v
    rw [foldl_cons, ih]
    by_cases hv : v = x
    · subst hv
      rw [update_self, count_cons_self]
      omega
    · rw [update_of_ne hv, count_cons_of_ne (Ne.symm hv)]

theorem kahnIndegree_eq (v : V) : kahnIndegree succs vs v = (vs.flatMap succs).count v := by
  have key : ∀ (vs : List V) (d : V → ℤ),
      vs.foldl (fun d b => (succs b).foldl (fun d s => update d s (d s + 1)) d) d v =
        d v + (vs.flatMap succs).count v := by
    intro vs
    induction vs with
    | nil => simp
    | cons b vs ih =>
      intro d
      rw [foldl_cons, ih, foldl_count, flatMap_cons, count_append]
      omega
  exact (key vs fun _ => 0).trans (Int.zero_add _)

theorem kahnInv_init (hvs : vs.Nodup) : KahnInv succs vs (kahnInit succs vs) [] where
  indegree v := by simp [kahnInit, kahnIndegree_eq, KahnState.left]
  nodup := hvs.filter _
  mem v := by simp [kahnInit]
  head_le := Nat.zero_le _
  order k v hk u hu hv := by
    -- a vertex of the first queue has no predecessor
    have hq := (List.mem_filter.mp (List.mem_of_getElem? hk)).2
    rw [decide_eq_true_eq, kahnIndegree_eq] at hq
    exact absurd (List.mem_flatMap.mpr ⟨u, hu, hv⟩) (List.count_eq_zero.mp (by omega))

variable {v u b : V}

theorem KahnState.pred_removed (h0 : ((st.left vs).flatMap succs).count v = 0) (hu : u ∈ vs)
    (hv : v ∈ succs u) :
    u ∈ st.queue.take st.head := by
  by_contra hn
  refine List.count_eq_zero.mp h0 (List.mem_flatMap.mpr ⟨u, ?_, hv⟩)
  exact List.mem_filter.mpr ⟨hu, by simpa using hn⟩

theorem KahnInv.drop (h : KahnInv succs vs st (v :: rest)) (hv : v ∈ vs) :
    KahnInv succs vs (st.drop v) rest := by
  have hdeg := h.indegree v
  rw [count_cons_self] at hdeg
  have hnot : v ∉ st.queue := fun hq => by
    have := ((h.mem v).mp hq).2
    omega
  have hdeg' : ∀ w, update st.indegree v (st.indegree v - 1) w =
      ((st.left vs).flatMap succs).count w + rest.count w := by
    intro w
    by_cases hw : w = v
    · subst hw
      rw [update_self]
      omega
    · rw [update_of_ne hw, h.indegree, count_cons_of_ne (Ne.symm hw)]
  have hother : ∀ w, w ≠ v → (update st.indegree v (st.indegree v - 1) w = 0 ↔
      st.indegree w = 0) := fun w hw => by rw [update_of_ne hw]
  unfold KahnState.drop
  dsimp only
  -- the last edge into `v` puts it in the queue
  by_cases h0 : update st.indegree v (st.indegree v - 1) v = 0
  · rw [if_pos h0]
    have htake : (st.queue ++ [v]).take st.head = st.queue.take st.head :=
      take_append_of_le_length h.head_le
    refine ⟨?_, ?_, ?_, ?_, ?_⟩
    · simpa [KahnState.left, htake] using hdeg'
    · exact h.nodup.append (nodup_singleton v) (by simpa using hnot)
    · intro w
      simp only [mem_append, mem_singleton]
      by_cases hw : w = v
      · subst hw
        exact ⟨fun _ => ⟨hv, h0⟩, fun _ => .inr rfl⟩
      · rw [hother w hw, ← h.mem w]
        simp [hw]
    · simp only [length_append]
      exact h.head_le.trans (Nat.le_add_right _ _)
    · intro k w hk u hu hw
      rcases getElem?_snoc hk with hk | ⟨rfl, rfl⟩
      · have hlt : k < st.queue.length := (List.getElem?_eq_some_iff.mp hk).1
        rw [take_append_of_le_length hlt.le]
        exact h.order k w hk u hu hw
      · rw [take_append_of_le_length le_rfl, take_length]
        have hc := hdeg' w
        exact mem_of_mem_take (KahnState.pred_removed (by omega) hu hw)
  · rw [if_neg h0]
    refine ⟨hdeg', h.nodup, ?_, h.head_le, h.order⟩
    intro w
    by_cases hw : w = v
    · subst hw
      exact ⟨fun hq => absurd hq hnot, fun hq => absurd hq.2 h0⟩
    · rw [hother w hw]
      exact h.mem w

theorem drop_head (st : KahnState V) (v : V) : (st.drop v).head = st.head := by
  unfold KahnState.drop
  dsimp only
  split <;> rfl

theorem KahnInv.foldl_drop : ∀ (l : List V) {st : KahnState V}, KahnInv succs vs st l →
    l ⊆ vs → KahnInv succs vs (l.foldl KahnState.drop st) [] ∧
      (l.foldl KahnState.drop st).head = st.head := by
  intro l
  induction l with
  | nil => exact fun h _ => ⟨h, rfl⟩
  | cons v l ih =>
    intro st h hl
    have hv := hl mem_cons_self
    obtain ⟨h1, h2⟩ := ih (h.drop hv) (subset_of_cons_subset hl)
    exact ⟨h1, h2.trans (drop_head st v)⟩

theorem KahnInv.pop (hvs : vs.Nodup) (h : KahnInv succs vs st [])
    (hb : st.queue[st.head]? = some b) :
    KahnInv succs vs { st with head := st.head + 1 } (succs b) := by
  obtain ⟨hlt, hget⟩ := List.getElem?_eq_some_iff.mp hb
  have htake : st.queue.take (st.head + 1) = st.queue.take st.head ++ [b] := by
    rw [take_add_one, hb, Option.toList_some]
  have hnot : b ∉ st.queue.take st.head := by
    have hn := h.nodup.sublist (take_sublist (st.head + 1) st.queue)
    rw [htake] at hn
    exact fun hm => (disjoint_of_nodup_append hn) hm (mem_singleton_self b)
  have hmem : b ∈ st.left vs :=
    List.mem_filter.mpr ⟨((h.mem b).mp (List.mem_of_getElem? hb)).1, by simpa using hnot⟩
  have hleft : KahnState.left vs { st with head := st.head + 1 } = (st.left vs).erase b := by
    unfold KahnState.left
    rw [(hvs.filter _).erase_eq_filter b, filter_filter, htake]
    refine filter_congr fun u _ => ?_
    by_cases hu : u = b <;> simp [hu]
  refine ⟨?_, h.nodup, h.mem, hlt, h.order⟩
  intro v
  have hp := ((perm_cons_erase hmem).flatMap_right succs).count_eq v
  rw [flatMap_cons, count_append] at hp
  have hd := h.indegree v
  rw [hleft]
  simp only [count_nil] at hd
  dsimp only
  omega

theorem KahnInv.step (hvs : vs.Nodup) (hsub : ∀ u ∈ vs, succs u ⊆ vs)
    (h : KahnInv succs vs st []) (hlt : st.head < st.queue.length) :
    KahnInv succs vs (kahnStep succs st) [] ∧ (kahnStep succs st).head = st.head + 1 := by
  have hb := List.getElem?_eq_getElem hlt
  unfold kahnStep
  rw [hb]
  have hmem := ((h.mem _).mp (List.mem_of_getElem? hb)).1
  exact KahnInv.foldl_drop _ (h.pop hvs hb) (hsub _ hmem)

theorem KahnInv.length_le (h : KahnInv succs vs st rest) : st.queue.length ≤ vs.length :=
  (h.nodup.subperm fun v hv => ((h.mem v).mp hv).1).length_le

theorem kahn_spec (hvs : vs.Nodup) (hsub : ∀ u ∈ vs, succs u ⊆ vs) :
    ∃ st, kahn succs vs = some st ∧ KahnInv succs vs st [] := by
  have step : ∀ st, KahnInv succs vs st [] → decide (st.head < st.queue.length) = true →
      KahnInv succs vs (kahnStep succs st) [] ∧
        vs.length - (kahnStep succs st).head < vs.length - st.head := by
    intro st h hlt
    rw [decide_eq_true_eq] at hlt
    obtain ⟨h1, h2⟩ := h.step hvs hsub hlt
    have := h.length_le
    exact ⟨h1, by omega⟩
  obtain ⟨st, hst, hinv, _⟩ := whileLoop_total (fun st => KahnInv succs vs st [])
    (fun st => vs.length - st.head) step (vs.length + 1) _ (kahnInv_init hvs) (by omega)
  exact ⟨st, hst, hinv⟩

theorem KahnInv.idxOf_lt (h : KahnInv succs vs st rest) (hu : u ∈ vs) (hv : v ∈ st.queue)
    (he : v ∈ succs u) : st.queue.idxOf u < st.queue.idxOf v := by
  have hlt := idxOf_lt_length_of_mem hv
  have hk : st.queue[st.queue.idxOf v]? = some v := by
    rw [List.getElem?_eq_getElem hlt, getElem_idxOf]
  have hmem := h.order _ v hk u hu he
  have hle := idxOf_lt_length_of_mem hmem
  rw [length_take] at hle
  have heq := List.IsPrefix.idxOf_eq_of_mem ( take_prefix (st.queue.idxOf v) st.queue) hmem
  omega

theorem KahnInv.acyclic (hsub : ∀ u ∈ vs, succs u ⊆ vs) (h : KahnInv succs vs st [])
    (hall : st.queue.length = vs.length) (hb : b ∈ vs) :
    ¬ Relation.TransGen (fun u v => v ∈ succs u) b b := by
  have hmem : ∀ v ∈ vs, v ∈ st.queue := by
    have hp := (h.nodup.subperm fun v hv => ((h.mem v).mp hv).1).perm_of_length_le hall.ge
    exact fun v hv => hp.symm.subset hv
  have key : ∀ {a c : V}, a ∈ vs → Relation.TransGen (fun u v => v ∈ succs u) a c →
      c ∈ vs ∧ st.queue.idxOf a < st.queue.idxOf c := by
    intro a c ha hpath
    induction hpath with
    | single he => exact ⟨hsub _ ha he, h.idxOf_lt ha (hmem _ (hsub _ ha he)) he⟩
    | tail _ he ih =>
      obtain ⟨hd, hlt⟩ := ih
      have hc := hsub _ hd he
      exact ⟨hc, hlt.trans (h.idxOf_lt hd (hmem _ hc) he)⟩
  exact fun hpath => lt_irrefl _ (key hb hpath).2

end Tinycc.Lib
