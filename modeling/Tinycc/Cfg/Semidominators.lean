import Tinycc.Cfg.Rpo

namespace Tinycc
open Lib Flowgraph Function Option

section Eval

variable {n w : ℕ} {E : ℕ → ℕ → Prop} {parent : ℕ → ℕ} {st : SncaState}

/-- The compressed forest when the vertices above `w` have been linked. -/
structure Forest (n : ℕ) (parent : ℕ → ℕ) (w : ℕ) (st : SncaState) : Prop where
  root : ∀ x ≤ w, st.ancestor x = none ∧ st.label x = x
  out : ∀ x, n ≤ x → st.ancestor x = none
  linked : ∀ x, w < x → x < n → ∃ a, st.ancestor x = some a
  lt : ∀ x a, st.ancestor x = some a → a < x
  ancestor : ∀ x a, st.ancestor x = some a → Ancestor parent a x
  label : ∀ x a, st.ancestor x = some a → Ancestor parent (st.label x) x ∧ a < st.label x
  least : ∀ x a u, st.ancestor x = some a → Ancestor parent u x → a < u →
    w < u ∧ st.semi (st.label x) ≤ st.semi u

variable {x a r v : ℕ}

theorem Forest.bounds (F : Forest n parent w st) (h : st.ancestor x = some a) :
    w < x ∧ x < n := by
  constructor
  · by_contra hle
    rw [(F.root x (by omega)).1] at h
    cases h
  · by_contra hge
    rw [F.out x (by omega)] at h
    cases h

theorem Forest.le_of_none (F : Forest n parent w st) (hr : r < n) (h : st.ancestor r = none) :
    r ≤ w := by
  by_contra hlt
  obtain ⟨a, ha⟩ := F.linked r (by omega) hr
  rw [ha] at h
  cases h

theorem sncaCompress_ancestor (hx : st.ancestor x = some a) (ha : st.ancestor a = some r) :
    (sncaCompress st x).ancestor = update st.ancestor x (some r) := by
  simp [sncaCompress, hx, ha]

theorem sncaCompress_label_of_ne {y : ℕ} (h : y ≠ x) :
    (sncaCompress st x).label y = st.label y := by
  unfold sncaCompress
  dsimp only
  split
  · rw [update_of_ne h]
  · rfl

theorem sncaCompress_label (hx : st.ancestor x = some a) :
    ((sncaCompress st x).label x = st.label a ∨ (sncaCompress st x).label x = st.label x) ∧
      st.semi ((sncaCompress st x).label x) ≤ st.semi (st.label a) ∧
      st.semi ((sncaCompress st x).label x) ≤ st.semi (st.label x) := by
  unfold sncaCompress
  simp only [hx, getD_some]
  split
  · next h =>
    rw [update_self]
    exact ⟨.inl rfl, le_rfl, h.le⟩
  · next h => exact ⟨.inr rfl, not_lt.mp h, le_rfl⟩

theorem forest_compress (T : DfsTree n E parent) (F : Forest n parent w st)
    (hx : st.ancestor x = some a) (ha : st.ancestor a = some r) :
    Forest n parent w (sncaCompress st x) := by
  have hanc := sncaCompress_ancestor hx ha
  have hsemi : (sncaCompress st x).semi = st.semi := rfl
  obtain ⟨hwx, hxn⟩ := F.bounds hx
  obtain ⟨hlab, hla, hlx⟩ := sncaCompress_label hx
  have hother : ∀ y, y ≠ x → (sncaCompress st x).ancestor y = st.ancestor y ∧
      (sncaCompress st x).label y = st.label y := by
    intro y hy
    exact ⟨by rw [hanc, update_of_ne hy], sncaCompress_label_of_ne hy⟩
  have hnew : ∀ {y b}, (sncaCompress st x).ancestor y = some b →
      (y = x ∧ r = b) ∨ (y ≠ x ∧ st.ancestor y = some b) := by
    rw [hanc]
    exact update_eq_some
  have hra := F.lt a r ha
  have hax := F.lt x a hx
  have hpa := F.ancestor x a hx
  constructor
  case root =>
    intro y hy
    obtain ⟨h1, h2⟩ := hother y (by omega)
    rw [h1, h2]
    exact F.root y hy
  case out =>
    intro y hy
    rw [(hother y (by omega)).1]
    exact F.out y hy
  case linked =>
    intro y hy hn
    by_cases he : y = x
    · exact ⟨r, by rw [he, hanc, update_self]⟩
    · rw [(hother y he).1]
      exact F.linked y hy hn
  case lt =>
    intro y b hb
    rcases hnew hb with ⟨rfl, rfl⟩ | ⟨_, hb⟩
    · omega
    · exact F.lt y b hb
  case ancestor =>
    intro y b hb
    rcases hnew hb with ⟨rfl, rfl⟩ | ⟨_, hb⟩
    · exact (F.ancestor a _ ha).trans hpa
    · exact F.ancestor y b hb
  case label =>
    intro y b hb
    rcases hnew hb with ⟨rfl, rfl⟩ | ⟨he, hb⟩
    · rcases hlab with h | h
      · rw [h]
        exact ⟨(F.label a _ ha).1.trans hpa, (F.label a _ ha).2⟩
      · rw [h]
        exact ⟨(F.label y a hx).1, hra.trans (F.label y a hx).2⟩
    · rw [sncaCompress_label_of_ne he]
      exact F.label y b hb
  case least =>
    intro y b u hb huy hbu
    rcases hnew hb with ⟨rfl, rfl⟩ | ⟨he, hb⟩
    · -- the path of `x` was that up to `a` and the one of `a`
      rcases Nat.lt_or_ge a u with hau | hua
      · obtain ⟨h1, h2⟩ := F.least y a u hx huy hau
        exact ⟨h1, hlx.trans h2⟩
      · have hua' := T.ancestor_of_le huy hpa hxn hua
        obtain ⟨h1, h2⟩ := F.least a _ u ha hua' hbu
        exact ⟨h1, hla.trans h2⟩
    · rw [sncaCompress_label_of_ne he]
      exact F.least y b u hb huy hbu

def ForestPath (st : SncaState) : List ℕ → ℕ → Prop
  | [], _ => True
  | y :: ys, a => st.ancestor y = some a ∧ ForestPath st ys y

theorem ForestPath.lt (F : Forest n parent w st) :
    ∀ {ys : List ℕ} {a : ℕ}, ForestPath st ys a → ∀ z ∈ ys, a < z := by
  intro ys
  induction ys with
  | nil => simp
  | cons y ys ih =>
    intro a h z hz
    have hay := F.lt y a h.1
    rcases List.mem_cons.mp hz with rfl | hz
    · exact hay
    · exact hay.trans (ih h.2 z hz)

theorem ForestPath.congr {st' : SncaState} : ∀ {ys : List ℕ} {a : ℕ}, ForestPath st ys a →
    (∀ z ∈ ys, st'.ancestor z = st.ancestor z) → ForestPath st' ys a := by
  intro ys
  induction ys with
  | nil => exact fun _ _ => trivial
  | cons y ys ih =>
    intro a h heq
    exact ⟨(heq y (by simp)).trans h.1, ih h.2 fun z hz => heq z (by simp [hz])⟩

def Compressed (st : SncaState) (v : ℕ) : Prop :=
  ∃ r, st.ancestor v = some r ∧ st.ancestor r = none

theorem foldl_sncaCompress (T : DfsTree n E parent) (stk : List ℕ) :
    ∀ a st, Forest n parent w st → ForestPath st stk a → Compressed st a →
      Forest n parent w (stk.foldl sncaCompress st) ∧
      (stk.foldl sncaCompress st).semi = st.semi ∧
      Compressed (stk.foldl sncaCompress st) (stk.getLastD a) := by
  induction stk with
  | nil => exact fun a st F _ hc => ⟨F, rfl, hc⟩
  | cons y ys ih =>
    rintro a st F ⟨hy, hys⟩ ⟨r, har, hr⟩
    have hanc := sncaCompress_ancestor hy har
    have hgt := ForestPath.lt F hys
    have hry : r ≠ y := by
      rintro rfl
      rw [hr] at hy
      cases hy
    have hpath : ForestPath (sncaCompress st y) ys y := by
      refine hys.congr fun z hz => ?_
      rw [hanc, update_of_ne (hgt z hz).ne']
    have hcomp : Compressed (sncaCompress st y) y :=
      ⟨r, by rw [hanc, update_self], by rw [hanc, update_of_ne hry, hr]⟩
    obtain ⟨h1, h2, h3⟩ := ih y _ (forest_compress T F hy har) hpath hcomp
    exact ⟨h1, h2, by rw [List.getLastD_cons]; exact h3⟩

theorem sncaUncompressed_iff {u : ℕ} (h : st.ancestor u = some a) :
    sncaUncompressed st u = true ↔ st.ancestor a ≠ none := by
  simp [sncaUncompressed, h, isSome_iff_ne_none]

theorem snca_collect (F : Forest n parent w st) (hv : st.ancestor v ≠ none) :
    ∃ stk u, whileLoop (fun s : List ℕ × ℕ => sncaUncompressed st s.2)
        (fun s => (s.2 :: s.1, (st.ancestor s.2).getD 0)) (v + 1) ([], v) = some (stk, u) ∧
      ForestPath st stk u ∧ stk.getLastD u = v ∧ Compressed st u := by
  obtain ⟨⟨stk, u⟩, ht, ⟨hp, hl, hu⟩, hc⟩ := @whileLoop_total (List ℕ × ℕ)
    (fun s => sncaUncompressed st s.2) (fun s => (s.2 :: s.1, (st.ancestor s.2).getD 0))
    (fun s => ForestPath st s.1 s.2 ∧ s.1.getLastD s.2 = v ∧ st.ancestor s.2 ≠ none)
    (fun s => s.2) (by
      rintro ⟨stk, u⟩ ⟨hp, hl, hu⟩ hc
      obtain ⟨a, ha⟩ := Option.ne_none_iff_exists'.mp hu
      have hc' := (sncaUncompressed_iff ha).mp hc
      simp only [ha, getD_some]
      exact ⟨⟨⟨ha, hp⟩, by rw [List.getLastD_cons]; exact hl, hc'⟩, F.lt u a ha⟩)
    (v + 1) ([], v) ⟨trivial, rfl, hv⟩ (Nat.lt_succ_self v)
  obtain ⟨a, ha⟩ := Option.ne_none_iff_exists'.mp hu
  refine ⟨stk, u, ht, hp, hl, a, ha, ?_⟩
  by_contra hne
  rw [(sncaUncompressed_iff ha).mpr hne] at hc
  cases hc

/-- An unlinked vertex answers itself, a linked one the best vertex on its path above `w`. -/
theorem cfgSncaEval_spec (T : DfsTree n E parent) (F : Forest n parent w st) (hv : v < n) :
    ∃ u st', cfgSncaEval v st = some (u, st') ∧ Forest n parent w st' ∧ st'.semi = st.semi ∧
      (v ≤ w → u = v) ∧
      (w < v → Ancestor parent u v ∧ w < u ∧
        ∀ x, Ancestor parent x v → w < x → st.semi u ≤ st.semi x) := by
  by_cases hnone : st.ancestor v = none
  · have hle := F.le_of_none hv hnone
    exact ⟨v, st, by simp [cfgSncaEval, hnone], F, rfl, fun _ => rfl, fun h => by omega⟩
  · obtain ⟨stk, u, ht, hp, hl, hc⟩ := snca_collect F hnone
    obtain ⟨F', hsemi, r, hr, hrn⟩ := foldl_sncaCompress T stk u st F hp hc
    rw [hl] at hr
    have hrv := F'.lt v r hr
    have hrw := F'.le_of_none (hrv.trans hv) hrn
    obtain ⟨hanc, hrl⟩ := F'.label v r hr
    refine ⟨(stk.foldl sncaCompress st).label v, _, ?_, F', hsemi, ?_, ?_⟩
    · unfold cfgSncaEval
      rw [if_neg hnone, ht]
      rfl
    · intro hle
      rw [(F.root v hle).1] at hnone
      exact absurd rfl hnone
    · intro _
      refine ⟨hanc, (F'.least v r _ hr hanc hrl).1, fun x hx hwx => ?_⟩
      have := (F'.least v r x hr hx (by omega)).2
      rwa [hsemi] at this

end Eval

def domOfDfs (s : DfsState) : DomDfs :=
  { pre := s.pre, vertex := s.vertex, parent := s.parent, np := s.np, stack := s.stack }

theorem domDfsStep_domOfDfs (cfg : IRCFG) (s : DfsState) :
    domDfsStep cfg (domOfDfs s) =
      domOfDfs (dfsStep cfg.numBlocks (fun b => (cfg.blocks b).succs) s) := by
  unfold domDfsStep dfsStep
  have hstack : (domOfDfs s).stack = s.stack := rfl
  rw [hstack]
  cases s.stack with
  | nil => rfl
  | cons top rest =>
    dsimp only
    cases (cfg.blocks top.block).succs[top.ci]? with
    | none => rfl
    | some c =>
      have hpre : (domOfDfs s).pre = s.pre := rfl
      dsimp only
      rw [hpre]
      by_cases h : c < cfg.numBlocks ∧ s.pre c = none
      · rw [if_pos h, if_pos h]
        rfl
      · rw [if_neg h, if_neg h]
        rfl

/-- The edges between reachable blocks in preorder numbers. -/
def IRCFG.numEdge (cfg : IRCFG) (s : DfsState) : ℕ → ℕ → Prop :=
  Lib.numEdge cfg.numBlocks (fun b => (cfg.blocks b).succs) s

structure Searched (cfg : IRCFG) (s : DfsState) : Prop where
  inv : s.Inv cfg.numBlocks fun b => (cfg.blocks b).succs
  done : s.stack = []

theorem domDfs_eq {cfg : IRCFG} (W : cfg.WellFormed) :
    ∃ s, domDfs cfg = some (domOfDfs s) ∧ Searched cfg s := by
  obtain ⟨t, ht, I, hstack⟩ := dfs_terminates (fun b => (cfg.blocks b).succs) W.pos
  have hloop := @whileLoop_map DfsState DomDfs (fun s => !s.stack.isEmpty) _
    (fun s => !s.stack.isEmpty) _ domOfDfs (fun _ => rfl) (fun s _ => domDfsStep_domOfDfs cfg s)
    (dfsFuel cfg.numBlocks fun b => (cfg.blocks b).succs) dfsInit
  rw [ht] at hloop
  exact ⟨t, hloop, I, hstack⟩

section Sweep

variable {cfg : IRCFG} {s : DfsState} {w : ℕ}

theorem Searched.tree (S : Searched cfg s) : DfsTree s.np (cfg.numEdge s) s.parent :=
  dfsTree_of_inv S.inv

theorem Searched.numEdge_iff (S : Searched cfg s) (W : cfg.WellFormed) {v : ℕ} (hw : w < s.np) :
    cfg.numEdge s v w ↔ ∃ p ∈ (cfg.blocks (s.vertex w)).preds, s.pre p = some v := by
  constructor
  · rintro ⟨hv, _, he, _⟩
    exact ⟨s.vertex v, (W.pred_iff _ _).mpr he, S.inv.pre_vertex v hv⟩
  · rintro ⟨p, hp, hv⟩
    obtain ⟨hlt, rfl⟩ := S.inv.vertex_of_pre p v hv
    have he := (W.pred_iff _ _).mp hp
    exact ⟨hlt, hw, he, (W.edge_lt _ _ he).2⟩

/-- The sweep has reached `w`: larger vertices are linked and have their semidominator. -/
structure SweepInv (cfg : IRCFG) (s : DfsState) (w : ℕ) (st : SncaState) : Prop where
  forest : Forest s.np s.parent w st
  semi_low : ∀ x < w, st.semi x = x
  semi_high : ∀ x, w < x → x < s.np → IsSemidominator (cfg.numEdge s) x (st.semi x)

structure PredInv (cfg : IRCFG) (s : DfsState) (w : ℕ) (preds : List ℕ) (st : SncaState) : Prop
    extends SweepInv cfg s w st where
  low : ∀ p ∈ preds, ∀ v, s.pre p = some v → v < w → st.semi w ≤ v
  high : ∀ p ∈ preds, ∀ v u, s.pre p = some v → Ancestor s.parent u v → w < u →
    st.semi w ≤ st.semi u
  attained : st.semi w = w ∨ (cfg.numEdge s (st.semi w) w ∧ st.semi w < w) ∨
    ∃ v u, cfg.numEdge s v w ∧ Ancestor s.parent u v ∧ w < u ∧ st.semi w = st.semi u

variable {preds : List ℕ} {p : ℕ}

theorem predInv_skip {st : SncaState} (P : PredInv cfg s w preds st)
    (hp : ∀ v, s.pre p = some v → (v < w → st.semi w ≤ v) ∧
      ∀ u, Ancestor s.parent u v → w < u → st.semi w ≤ st.semi u) :
    PredInv cfg s w (preds ++ [p]) st where
  toSweepInv := P.toSweepInv
  low q hq v hv hlt := by
    rcases List.mem_append.mp hq with hq | hq
    · exact P.low q hq v hv hlt
    · rw [List.mem_singleton] at hq
      exact (hp v (hq ▸ hv)).1 hlt
  high q hq v u hv hanc hwu := by
    rcases List.mem_append.mp hq with hq | hq
    · exact P.high q hq v u hv hanc hwu
    · rw [List.mem_singleton] at hq
      exact (hp v (hq ▸ hv)).2 u hanc hwu
  attained := P.attained

theorem predInv_lower {st : SncaState} {k : ℕ} (P : PredInv cfg s w preds st) (hk : k < st.semi w)
    (hat : (cfg.numEdge s k w ∧ k < w) ∨
      ∃ v u, cfg.numEdge s v w ∧ Ancestor s.parent u v ∧ w < u ∧ k = st.semi u) :
    PredInv cfg s w preds { st with semi := update st.semi w k } := by
  have hne : ∀ u, w < u → update st.semi w k u = st.semi u := by
    intro u hu
    rw [update_of_ne hu.ne']
  have hlab : ∀ x a, st.ancestor x = some a → w < st.label x := by
    intro x a ha
    obtain ⟨h1, h2⟩ := P.forest.label x a ha
    exact (P.forest.least x a _ ha h1 h2).1
  refine ⟨⟨?_, ?_, ?_⟩, ?_, ?_, ?_⟩
  · have F := P.forest
    refine ⟨F.root, F.out, F.linked, F.lt, F.ancestor, F.label, fun x a u ha hu hau => ?_⟩
    obtain ⟨h1, h2⟩ := F.least x a u ha hu hau
    dsimp only
    rw [hne u h1, hne _ (hlab x a ha)]
    exact ⟨h1, h2⟩
  · intro x hx
    dsimp only
    rw [update_of_ne hx.ne]
    exact P.semi_low x hx
  · intro x hx hn
    dsimp only
    rw [hne x hx]
    exact P.semi_high x hx hn
  · intro p hp v hv hlt
    dsimp only
    rw [update_self]
    exact hk.le.trans (P.low p hp v hv hlt)
  · intro p hp v u hv hu hwu
    dsimp only
    rw [update_self, hne u hwu]
    exact hk.le.trans (P.high p hp v u hv hu hwu)
  · dsimp only
    rw [update_self]
    rcases hat with h | ⟨v, u, h1, h2, h3, h4⟩
    · exact .inr (.inl h)
    · exact .inr (.inr ⟨v, u, h1, h2, h3, by rw [hne u h3]; exact h4⟩)

theorem sncaPredStep_spec (W : cfg.WellFormed) (S : Searched cfg s) (hw : w < s.np) {st : SncaState}
    (hp : p ∈ (cfg.blocks (s.vertex w)).preds) (P : PredInv cfg s w preds st) :
    ∃ st', sncaPredStep cfg (domOfDfs s) w st p = some st' ∧
      PredInv cfg s w (preds ++ [p]) st' := by
  have hpn : p < cfg.numBlocks := (W.edge_lt _ _ ((W.pred_iff _ _).mp hp)).1
  unfold sncaPredStep
  rw [if_neg (by omega)]
  have hpre : (domOfDfs s).pre p = s.pre p := rfl
  rw [hpre]
  cases hv : s.pre p with
  | none => exact ⟨st, rfl, predInv_skip P (by simp [hv])⟩
  | some v =>
    have hvn := (S.inv.vertex_of_pre p v hv).1
    have he := (S.numEdge_iff W hw).mpr ⟨p, hp, hv⟩
    obtain ⟨u, st', heval, F, hsemi, hlow, hhigh⟩ := cfgSncaEval_spec S.tree P.forest hvn
    have P' : PredInv cfg s w preds st' := by
      refine ⟨⟨F, ?_, ?_⟩, ?_, ?_, ?_⟩ <;> rw [hsemi]
      · exact P.semi_low
      · exact P.semi_high
      · exact P.low
      · exact P.high
      · exact P.attained
    -- what the new value of `w` owes to this predecessor
    have key : ∀ (k : ℕ) (st'' : SncaState), st''.semi w = k →
        (∀ x, w < x → st''.semi x = st.semi x) → k ≤ st.semi u →
        ∀ v', s.pre p = some v' → (v' < w → st''.semi w ≤ v') ∧
          ∀ x, Ancestor s.parent x v' → w < x → st''.semi w ≤ st''.semi x := by
      intro k st'' hk hx hku v' hv'
      rw [hv] at hv'
      cases hv'
      refine ⟨fun hlt => ?_, fun x hanc hwx => ?_⟩
      · rw [hk]
        rw [hlow hlt.le, P.semi_low v hlt] at hku
        exact hku
      · have hwv := hwx.trans_le (S.tree.ancestor_le hanc hvn)
        rw [hk, hx x hwx]
        exact hku.trans ((hhigh hwv).2.2 x hanc hwx)
    simp only [heval, bind_eq_bind, bind_some]
    by_cases hlt : st'.semi u < st'.semi w
    · refine ⟨_, by rw [if_pos hlt], predInv_skip (predInv_lower P' hlt ?_) ?_⟩
      · rw [hsemi] at hlt ⊢
        rcases lt_trichotomy v w with h | h | h
        · rw [hlow h.le, P.semi_low v h]
          exact .inl ⟨he, h⟩
        · rw [hlow h.le, h] at hlt
          exact absurd hlt (lt_irrefl _)
        · exact .inr ⟨v, u, he, (hhigh h).1, (hhigh h).2.1, rfl⟩
      · refine key (st'.semi u) _ (update_self ..) ?_ (by rw [hsemi])
        intro x hx
        dsimp only
        rw [update_of_ne hx.ne', hsemi]
    · refine ⟨_, by rw [if_neg hlt], predInv_skip P' ?_⟩
      refine key (st'.semi w) _ rfl (fun x _ => by rw [hsemi]) ?_
      rw [← hsemi]
      exact not_lt.mp hlt

theorem forest_link (S : Searched cfg s) {st : SncaState} (h0 : 0 < w) (hw : w < s.np)
    (F : Forest s.np s.parent w st) :
    Forest s.np s.parent (w - 1)
      { st with ancestor := update st.ancestor w (some (s.parent w)) } := by
  have T := S.tree
  have hlt := T.parent_lt w h0 hw
  constructor
  case root =>
    intro x hx
    dsimp only
    rw [update_of_ne (by omega)]
    exact F.root x (by omega)
  case out =>
    intro x hx
    dsimp only
    rw [update_of_ne (by omega)]
    exact F.out x hx
  case linked =>
    intro x hx hn
    dsimp only
    rw [update_apply]
    split
    · exact ⟨_, rfl⟩
    · exact F.linked x (by omega) hn
  all_goals
    intro x a
    dsimp only
    rw [update_apply]
  case lt =>
    split
    · next he =>
      rintro ⟨⟩
      rw [he]
      exact hlt
    · exact F.lt x a
  case ancestor =>
    split
    · next he =>
      rintro ⟨⟩
      rw [he]
      exact .step h0 .refl
    · exact F.ancestor x a
  case label =>
    split
    · next he =>
      rintro ⟨⟩
      rw [he, (F.root w le_rfl).2]
      exact ⟨.refl, hlt⟩
    · exact F.label x a
  case least =>
    intro u
    split
    · next he =>
      rintro ⟨⟩ hu hpu
      rw [he] at hu ⊢
      -- on the path of the new link there is `w` alone
      rcases (ancestor_succ_iff h0).mp hu with rfl | hu
      · rw [(F.root u le_rfl).2]
        exact ⟨by omega, le_rfl⟩
      · have := T.ancestor_le hu (by omega)
        omega
    · intro ha hu hau
      obtain ⟨h1, h2⟩ := F.least x a u ha hu hau
      exact ⟨by omega, h2⟩

theorem predInv_isSemidominator (W : cfg.WellFormed) (S : Searched cfg s) {st : SncaState}
    (h0 : 0 < w) (hw : w < s.np)
    (P : PredInv cfg s w (cfg.blocks (s.vertex w)).preds st) :
    IsSemidominator (cfg.numEdge s) w (st.semi w) := by
  have hlo : ∀ v, cfg.numEdge s v w → v < w → st.semi w ≤ v := by
    intro v he hlt
    obtain ⟨p, hp, hv⟩ := (S.numEdge_iff W hw).mp he
    exact P.low p hp v hv hlt
  have hpar := hlo _ (S.tree.parent_edge w h0 hw) (S.tree.parent_lt w h0 hw)
  have hparlt := S.tree.parent_lt w h0 hw
  refine S.tree.isSemidominator_of h0 hw P.semi_high hlo ?_ ?_
  · intro v u he hanc hwu
    obtain ⟨p, hp, hv⟩ := (S.numEdge_iff W hw).mp he
    exact P.high p hp v u hv hanc hwu
  · rcases P.attained with h | h | h
    · omega
    · exact .inl h
    · exact .inr h

theorem sncaSemiStep_spec (W : cfg.WellFormed) (S : Searched cfg s) {st : SncaState}
    (h0 : 0 < w) (hw : w < s.np) (hsemi : st.semi w = w) (I : SweepInv cfg s w st) :
    ∃ st', sncaSemiStep cfg (domOfDfs s) st w = some st' ∧ SweepInv cfg s (w - 1) st' ∧
      st'.semi (w - 1) = w - 1 := by
  have P0 : PredInv cfg s w [] st := ⟨I, by simp, by simp, .inl hsemi⟩
  obtain ⟨st', hst', P⟩ := foldlM_total (PredInv cfg s w) (cfg.blocks (s.vertex w)).preds
    (fun done p t hp => sncaPredStep_spec W S hw hp) P0
  refine ⟨{ st' with ancestor := update st'.ancestor w (some (s.parent w)) }, ?_,
    ⟨forest_link S h0 hw P.forest, ?_, ?_⟩, P.semi_low _ (by omega)⟩
  · unfold sncaSemiStep
    have hv : (domOfDfs s).vertex = s.vertex := rfl
    have hp : (domOfDfs s).parent = s.parent := rfl
    rw [hv, hst']
    rfl
  · exact fun x hx => P.semi_low x (by omega)
  · intro x hx hn
    rcases Nat.lt_or_ge w x with h | h
    · exact P.semi_high x h hn
    · have hsd := predInv_isSemidominator W S h0 hw P
      rw [show x = w by omega]
      exact hsd

theorem sncaSemidominators_spec (W : cfg.WellFormed) (S : Searched cfg s) :
    ∃ st, sncaSemidominators cfg (domOfDfs s) = some st ∧
      ∀ x, 0 < x → x < s.np → IsSemidominator (cfg.numEdge s) x (st.semi x) := by
  obtain ⟨st, hst, I, _⟩ := forDownM_total
    (fun w st => SweepInv cfg s w st ∧ st.semi w = w) (s.np - 1)
    (fun i st hi h => sncaSemiStep_spec W S (Nat.succ_pos i) (by omega) h.2 h.1)
    { semi := fun i => i, ancestor := fun _ => none, label := fun i => i }
    ⟨⟨⟨fun _ _ => ⟨rfl, rfl⟩, fun _ _ => rfl, fun x h1 h2 => by omega, by simp, by simp, by simp,
      by simp⟩, fun _ _ => rfl, fun x h1 h2 => by omega⟩, rfl⟩
  exact ⟨st, hst, I.semi_high⟩

end Sweep

end Tinycc
