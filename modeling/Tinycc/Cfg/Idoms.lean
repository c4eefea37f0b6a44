import Tinycc.Cfg.Semidominators

namespace Tinycc
open Lib Flowgraph Relation Function Option Nat Relation.ReflTransGen

section Numbers

variable {cfg : IRCFG} {s : DfsState}

variable {i j a : ℕ}

theorem Searched.vertex_inj (S : Searched cfg s) (hi : i < s.np) (hj : j < s.np)
    (h : s.vertex i = s.vertex j) : i = j := by
  have h1 := S.inv.pre_vertex i hi
  rw [h, S.inv.pre_vertex j hj] at h1
  exact (Option.some.inj h1).symm

theorem Searched.vertex_zero (S : Searched cfg s) : s.vertex 0 = 0 :=
  (S.inv.vertex_of_pre 0 0 S.inv.pre_zero).2

theorem Searched.reachable_iff (S : Searched cfg s) (W : cfg.WellFormed) (b : ℕ) :
    Reachable cfg.Edge 0 b ↔ ∃ i < s.np, s.vertex i = b := by
  rw [← succEdge_eq W, ← pre_ne_none_iff S.inv S.done]
  constructor
  · exact fun h => ⟨s.num b, S.inv.num_lt h, S.inv.vertex_num h⟩
  · rintro ⟨i, hi, rfl⟩
    simp [S.inv.pre_vertex i hi]

theorem edge_num (W : cfg.WellFormed) (hi : i < s.np) (hj : j < s.np) :
    cfg.numEdge s i j ↔ cfg.Edge (s.vertex i) (s.vertex j) :=
  ⟨fun h => h.2.2.1, fun h => ⟨hi, hj, h, (W.edge_lt _ _ h).2⟩⟩

theorem Searched.avoids_iff (S : Searched cfg s) (W : cfg.WellFormed) (ha : a < s.np)
    (hj : j < s.np) :
    Avoids (cfg.numEdge s) a 0 j ↔ Avoids cfg.Edge (s.vertex a) 0 (s.vertex j) := by
  constructor
  · intro h
    clear hj
    induction h with
    | refl => rw [S.vertex_zero]; exact refl
    | @tail u v _ he ih =>
      have hv := he.1.2.1
      exact tail ih ⟨he.1.2.2.1, fun e => he.2 (S.vertex_inj hv ha e)⟩
  · intro h
    have key : ∀ b, Avoids cfg.Edge (s.vertex a) 0 b →
        ∃ i < s.np, s.vertex i = b ∧ Avoids (cfg.numEdge s) a 0 i := by
      intro b hb
      induction hb with
      | refl => exact ⟨0, S.inv.np_pos, S.vertex_zero, refl⟩
      | @tail u v hu he ih =>
        obtain ⟨i, hi, hiu, hp⟩ := ih
        obtain ⟨k, hk, hkv⟩ :=
          (S.reachable_iff W v).mp (tail (Avoids.reachable hu) he.1)
        refine ⟨k, hk, hkv, tail hp ⟨(edge_num W hi hk).mpr ?_, ?_⟩⟩
        · rw [hiu, hkv]
          exact he.1
        · rintro rfl
          exact he.2 hkv.symm
    obtain ⟨i, hi, hij, hp⟩ := key _ h
    rwa [S.vertex_inj hi hj hij] at hp

theorem Searched.dominates_iff (S : Searched cfg s) (W : cfg.WellFormed) (ha : a < s.np)
    (hj : j < s.np) :
    Dominates (cfg.numEdge s) 0 a j ↔ Dominates cfg.Edge 0 (s.vertex a) (s.vertex j) := by
  refine not_iff_not.mp ?_
  rw [not_dominates_iff, not_dominates_iff, S.avoids_iff W ha hj]
  refine and_congr_left fun _ => not_congr ⟨?_, ?_⟩
  · rintro rfl
    exact S.vertex_zero.symm
  · intro h
    exact S.vertex_inj S.inv.np_pos ha (S.vertex_zero.trans h)

theorem Searched.isIdom (S : Searched cfg s) (W : cfg.WellFormed) {d : ℕ} (hd : d < s.np)
    (hj : j < s.np) (h : IsIdom (cfg.numEdge s) 0 d j) :
    IsIdom cfg.Edge 0 (s.vertex d) (s.vertex j) := by
  refine ⟨⟨(S.dominates_iff W hd hj).mp h.1.1, fun e => h.1.2 (S.vertex_inj hd hj e)⟩, ?_⟩
  rintro b ⟨hb, hne⟩
  have hreach := (S.reachable_iff W _).mpr ⟨j, hj, rfl⟩
  obtain ⟨i, hi, rfl⟩ := (S.reachable_iff W b).mp (hb.reachable hreach)
  refine (S.dominates_iff W hi hd).mp (h.2 i ⟨(S.dominates_iff W hi hj).mpr hb, ?_⟩)
  rintro rfl
  exact hne rfl

end Numbers

section Idoms

variable {cfg : IRCFG} {s : DfsState} {semi : ℕ → ℕ}

theorem snca_climb (S : Searched cfg s) {w : ℕ} (h0 : 0 < w) (hw : w < s.np)
    (hsemi : IsSemidominator (cfg.numEdge s) w (semi w)) {idomPre : ℕ → ℕ}
    (hidom : ∀ x, 0 < x → x < w → IsIdom (cfg.numEdge s) 0 (idomPre x) x) :
    ∃ a, whileLoop (fun a => decide (semi w < a)) idomPre (s.parent w + 1) (s.parent w) = some a ∧
      a < w ∧ IsIdom (cfg.numEdge s) 0 a w := by
  have T := S.tree
  have hpar := T.parent_lt w h0 hw
  have hinit : ∀ d, StrictlyDominates (cfg.numEdge s) 0 d w →
      Dominates (cfg.numEdge s) 0 d (s.parent w) :=
    fun d hd => hd.pred (T.parent_edge w h0 hw)
  obtain ⟨a, ha, ⟨haw, hdom, hmax⟩, hc⟩ := @whileLoop_total ℕ (fun a => decide (semi w < a)) idomPre
    (fun a => a < w ∧ Dominates (cfg.numEdge s) 0 a (s.parent w) ∧
      ∀ d, StrictlyDominates (cfg.numEdge s) 0 d w → Dominates (cfg.numEdge s) 0 d a)
    (fun a => a) (by
      rintro a ⟨haw, hdom, hmax⟩ hc
      have hc' : semi w < a := by simpa using hc
      have hid := hidom a (by omega) haw
      have hlt : idomPre a < a :=
        lt_of_le_of_ne (T.ancestor_le (T.ancestor_of_dominates hid.1.1 (by omega)) (by omega))
          hid.1.2
      refine ⟨⟨by omega, hid.1.1.trans hdom, fun d hd => ?_⟩, hlt⟩
      have hds := T.strictlyDominates_le_semidominator hsemi hw hd
      exact hid.2 d ⟨hmax d hd, by omega⟩)
    (s.parent w + 1) (s.parent w) ⟨hpar, dominates_refl _ _ _, hinit⟩ (lt_succ_self _)
  have hle : a ≤ semi w := by simpa using hc
  exact ⟨a, ha, haw, T.isIdom_of_semidominator hsemi h0 hw hdom hle hmax⟩

structure IdomInv (cfg : IRCFG) (s : DfsState) (i : ℕ) (st : (ℕ → ℕ) × IRCFG) : Prop where
  graph : SameGraph cfg st.2
  rpoOrder : st.2.rpoOrder = cfg.rpoOrder
  isIdom : ∀ x, 0 < x → x ≤ i → x < s.np → st.1 x < s.np ∧
    IsIdom (cfg.numEdge s) 0 (st.1 x) x
  stored : ∀ x, 0 < x → x ≤ i → x < s.np →
    (st.2.blocks (s.vertex x)).idom = some (s.vertex (st.1 x))
  kept : ∀ b, (∀ x, 0 < x → x ≤ i → x < s.np → s.vertex x ≠ b) →
    (st.2.blocks b).idom = (cfg.blocks b).idom

theorem sncaIdomStep_spec (S : Searched cfg s)
    (hsemi : ∀ x, 0 < x → x < s.np → IsSemidominator (cfg.numEdge s) x (semi x)) {i : ℕ}
    {st : (ℕ → ℕ) × IRCFG} (hi : i + 1 < s.np) (I : IdomInv cfg s i st) :
    ∃ st', sncaIdomStep (domOfDfs s) semi st i = some st' ∧ IdomInv cfg s (i + 1) st' := by
  obtain ⟨a, ha, haw, hid⟩ := snca_climb S (succ_pos i) hi (hsemi _ (succ_pos i) hi)
    (fun x h0 hx => (I.isIdom x h0 (by omega) (by omega)).2)
  refine ⟨(update st.1 (i + 1) a,
    st.2.modifyBlock (s.vertex (i + 1)) fun bb => { bb with idom := some (s.vertex a) }), ?_, ?_⟩
  · have hp : (domOfDfs s).parent = s.parent := rfl
    have hv : (domOfDfs s).vertex = s.vertex := rfl
    simp only [sncaIdomStep, hp, hv, ha, bind_eq_bind, bind_some]
  constructor
  case graph =>
    dsimp only
    refine I.graph.trans (sameGraph_modifyBlock _ _ _ ?_ ?_) <;> exact fun _ => rfl
  case rpoOrder => exact I.rpoOrder
  case isIdom =>
    intro x h0 hx hn
    dsimp only
    rcases Nat.lt_or_eq_of_le hx with hlt | rfl
    · rw [update_of_ne hlt.ne]
      exact I.isIdom x h0 (by omega) hn
    · rw [update_self]
      exact ⟨by omega, hid⟩
  case stored =>
    intro x h0 hx hn
    simp only [IRCFG.modifyBlock]
    rcases Nat.lt_or_eq_of_le hx with hlt | rfl
    · have hne : s.vertex x ≠ s.vertex (i + 1) := fun e => hlt.ne (S.vertex_inj hn hi e)
      rw [update_of_ne hlt.ne, update_of_ne hne]
      exact I.stored x h0 (by omega) hn
    · simp only [update_self]
  case kept =>
    intro b hb
    simp only [IRCFG.modifyBlock]
    rw [update_of_ne (hb (i + 1) (succ_pos i) le_rfl hi).symm]
    exact I.kept b fun x h0 hx => hb x h0 (by omega)

theorem sncaIdoms_spec (W : cfg.WellFormed) :
    ∃ cfg', sncaIdoms cfg = some cfg' ∧ SameGraph cfg cfg' ∧ cfg'.rpoOrder = cfg.rpoOrder ∧
      (∀ b, b ≠ 0 → Reachable cfg.Edge 0 b →
        ∃ d, (cfg'.blocks b).idom = some d ∧ IsIdom cfg.Edge 0 d b) ∧
      (∀ b, b = 0 ∨ ¬ Reachable cfg.Edge 0 b → (cfg'.blocks b).idom = (cfg.blocks b).idom) := by
  obtain ⟨s, hs, S⟩ := domDfs_eq W
  obtain ⟨snca, hsnca, hsemi⟩ := sncaSemidominators_spec W S
  have hpos := S.inv.np_pos
  obtain ⟨⟨idomPre, cfg'⟩, hloop, I⟩ := @forRangeM_total ((ℕ → ℕ) × IRCFG)
    (sncaIdomStep (domOfDfs s) snca.semi) (IdomInv cfg s)
    (update (fun i => (snca.ancestor i).getD 0) 0 0, cfg) (s.np - 1)
    ⟨SameGraph.refl cfg, rfl, fun x h0 hx => by omega, fun x h0 hx => by omega, fun _ _ => rfl⟩
    (fun i st hi I => sncaIdomStep_spec S hsemi (by omega) I)
  refine ⟨cfg', ?_, I.graph, I.rpoOrder, ?_, ?_⟩
  · have hnp : (domOfDfs s).np = s.np := rfl
    unfold sncaIdoms
    simp only [hs, hsnca, bind_eq_bind, bind_some, hnp, hloop]
  · intro b hb hr
    obtain ⟨i, hi, rfl⟩ := (S.reachable_iff W b).mp hr
    have h0 : 0 < i := by
      rcases Nat.eq_zero_or_pos i with rfl | h
      · exact absurd S.vertex_zero hb
      · exact h
    obtain ⟨hlt, hid⟩ := I.isIdom i h0 (by omega) hi
    exact ⟨_, I.stored i h0 (by omega) hi, S.isIdom W hlt hi hid⟩
  · intro b hb
    refine I.kept b fun x h0 _ hx he => ?_
    rcases hb with rfl | hb
    · have := S.vertex_inj hx hpos (he.trans S.vertex_zero.symm)
      omega
    · exact hb ((S.reachable_iff W b).mpr ⟨x, hx, he⟩)

end Idoms

end Tinycc
