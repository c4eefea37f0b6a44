import Tinycc.Memory.HotArena

/-!
# The arena over a run

Every arena a program can reach is a row of tagged blocks with no two free neighbours. An
operation exchanges a stretch of the row for another of the same length.
-/

namespace Tinycc
open Function List Option

open Lib

namespace HotArena

/-- The arena is the row `ts`, and the blocks in use are the live payloads. -/
structure Sound (a : HotArena) (live : ℕ → Option ℕ) (ts : List Tile) : Prop where
  room : a.base < a.endp
  fits : 8 * (a.endp - a.base) < 2 ^ 32
  headers : Tagged a.mem 0 a.base ts
  ends : tileEnd a.base ts = a.endp
  /-- A link of 0 is the first block's alone. -/
  payloads : (∀ t ∈ ts, t.cells ≠ 0) ∨ ts = [⟨0, false⟩]
  coalesced : Coalesced ts
  counted : a.used = 8 * usedCells ts
  requested : ∀ q t, TileAt a.base ts q t → t.used = true →
    ∃ r, live (q + 1) = some r ∧ r ≤ 8 * t.cells
  placed : ∀ p, live p ≠ none → ∃ q t, p = q + 1 ∧ TileAt a.base ts q t ∧ t.used = true

variable {a a' : HotArena} {live : ℕ → Option ℕ} {ts : List Tile}

variable {pre post : List Tile} {t : Tile} {k p bytes c : ℕ}

/-- A stretch of the row around the block `t` becomes a block of `k` cells and free blocks behind
it. The payload of `t` is then live with the request `v`. -/
theorem Sound.recast {xs ys rest : List Tile} {u : Bool} {v : Option ℕ}
    (h : a.Sound live (pre ++ ((xs ++ t :: ys) ++ post))) (hxs : ∀ s ∈ xs, s.used = false)
    (hys : ∀ s ∈ ys, s.used = false) (hrest : ∀ s ∈ rest, s.used = false ∧ s.cells ≠ 0) (hk : k ≠ 0)
    (hlive : u = true → xs = [] ∧ ∃ r, v = some r ∧ r ≤ 8 * k) (hfree : u = false → v = none)
    (hend : tileEnd (tileEnd a.base pre) (⟨k, u⟩ :: rest)
      = tileEnd (tileEnd a.base pre) (xs ++ t :: ys))
    (hco : Coalesced (pre ++ ⟨k, u⟩ :: (rest ++ post))) (hbase : a'.base = a.base)
    (hendp : a'.endp = a.endp) (hused : a'.used + (if t.used then 8 * t.cells + 8 else 0)
      = a.used + if u then 8 * k + 8 else 0)
    (htag : Tagged a'.mem 0 a.base (pre ++ ⟨k, u⟩ :: (rest ++ post))) :
    a'.Sound (update live (tileEnd (tileEnd a.base pre) xs + 1) v)
      (pre ++ ⟨k, u⟩ :: (rest ++ post)) where
  room := by rw [hbase, hendp]; exact h.room
  fits := by rw [hbase, hendp]; exact h.fits
  headers := hbase ▸ htag
  ends := by
    have := h.ends
    rw [tileEnd_append, tileEnd_append, ← hend, ← tileEnd_append] at this
    rw [hbase, hendp, tileEnd_append, ← cons_append, this]
  payloads := by
    refine .inl fun s hs => ?_
    simp only [mem_append, mem_cons] at hs
    -- the arena that is one empty block has none outside of the stretch
    have hold : s ∈ pre ++ post → s.cells ≠ 0 := by
      intro hs
      rcases h.payloads with hall | hone
      · exact hall s (by simp only [mem_append] at hs ⊢; tauto)
      · have hlen := congrArg List.length hone
        have := length_pos_of_mem hs
        simp at hlen this
        omega
    rcases hs with hs | rfl | hs | hs
    · exact hold (by simp [hs])
    · exact hk
    · exact (hrest s hs).2
    · exact hold (by simp [hs])
  coalesced := hco
  counted := by
    have := h.counted
    simp only [usedCells_append, usedCells_cons, usedCells_free hxs, usedCells_free hys,
      usedCells_free fun s hs => (hrest s hs).1] at this ⊢
    cases u <;> cases ht : t.used <;> simp [ht] at hused this ⊢ <;> omega
  requested := by
    intro q s hs hu
    have hlo := le_tileEnd (tileEnd a.base pre) xs
    have hhi := le_tileEnd (tileEnd (tileEnd a.base pre) xs + t.cells + 1) ys
    rw [hbase, tileAt_append, ← cons_append, tileAt_append, tileAt_cons, hend] at hs
    -- outside of the stretch the blocks and their requests are as before
    have hold : TileAt a.base (pre ++ ((xs ++ t :: ys) ++ post)) q s →
        q ≠ tileEnd (tileEnd a.base pre) xs → ∃ r, update live
          (tileEnd (tileEnd a.base pre) xs + 1) v (q + 1) = some r ∧ r ≤ 8 * s.cells := by
      intro hs hq
      rw [update_of_ne (by omega)]
      exact h.requested q s hs hu
    rw [tileAt_append, tileAt_append] at hold
    rcases hs with hs | (⟨rfl, rfl⟩ | ⟨_, _, rfl, -⟩) | hs
    · have := hs.bounds
      exact hold (.inl hs) (by omega)
    · obtain ⟨rfl, hr⟩ := hlive hu
      rwa [tileEnd_nil, update_self]
    · rw [(hrest s (by simp)).1] at hu
      exact absurd hu (by simp)
    · have := hs.bounds
      rw [tileEnd_append, tileEnd_cons] at this
      exact hold (.inr (.inr hs)) (by omega)
  placed := by
    intro p hp
    rw [hbase]
    by_cases hpb : p = tileEnd (tileEnd a.base pre) xs + 1
    · rw [hpb, update_self] at hp
      have hu : u = true := by
        by_contra hu
        exact hp (hfree (by simpa using hu))
      obtain ⟨rfl, -⟩ := hlive hu
      exact ⟨_, ⟨k, u⟩, hpb, by simp, hu⟩
    · rw [update_of_ne hpb] at hp
      obtain ⟨q, s, rfl, hs, hu⟩ := h.placed p hp
      refine ⟨q, s, rfl, ?_, hu⟩
      -- in the stretch only `t` can have been in use
      have hfreeIn : ∀ zs : List Tile, s ∈ zs → (∀ s ∈ zs, s.used = false) → False := by
        intro zs hs hzs
        rw [hzs s hs] at hu
        exact absurd hu (by simp)
      rw [tileAt_append, tileAt_append, tileAt_append, tileAt_cons] at hs
      rw [tileAt_append, ← cons_append, tileAt_append, hend]
      rcases hs with hs | (⟨_, _, rfl, -⟩ | hs | ⟨_, _, rfl, -⟩) | hs
      · exact .inl hs
      · exact (hfreeIn _ (by simp) hxs).elim
      · omega
      · exact (hfreeIn _ (by simp) hys).elim
      · exact .inr (.inr hs)

theorem Sound.split (h : a.Sound live ts) (hp : live p ≠ none) :
    ∃ pre t post, ts = pre ++ t :: post ∧ p - 1 = tileEnd a.base pre ∧ p ≠ 0 ∧ t.used = true := by
  obtain ⟨q, t, rfl, ⟨pre, post, rfl, rfl⟩, hu⟩ := h.placed p hp
  exact ⟨pre, t, post, rfl, rfl, by omega, hu⟩

theorem Sound.suffix {suf : List Tile} (h : a.Sound live (pre ++ suf)) :
    Tagged a.mem (lastBytes 0 pre) (tileEnd a.base pre) suf ∧
      tileEnd (tileEnd a.base pre) suf = a.endp ∧
      8 * (a.endp - tileEnd a.base pre) < 2 ^ 32 := by
  have hends := h.ends
  have hfits := h.fits
  have := le_tileEnd a.base pre
  rw [tileEnd_append] at hends
  exact ⟨(tagged_append.mp h.headers).2, hends, by omega⟩

/-! ## Initialisation -/

theorem hotArenaInit_sound (mem : HotCells) {memory : ℕ} (hlo : 8 ≤ bytes) (hhi : bytes < 2 ^ 32) :
    (hotArenaInit mem memory bytes).Sound (fun _ => none) [⟨bytes / 8 - 1, false⟩] where
  room := by
    simp only [hotArenaInit]
    omega
  fits := by
    simp only [hotArenaInit]
    omega
  headers := by
    refine ⟨?_, trivial⟩
    simp only [hotArenaInit, update_self, tileHeader, Bool.toNat_false, HotBlock.mk.injEq,
      and_true]
    omega
  ends := by
    simp only [hotArenaInit, tileEnd_cons, tileEnd_nil]
    omega
  payloads := by
    by_cases h : bytes / 8 - 1 = 0
    · exact .inr (by rw [h])
    · exact .inl (by simpa using h)
  coalesced := isChain_singleton _
  counted := by simp [hotArenaInit]
  requested := by
    intro q t ht hu
    simp only [tileAt_cons, tileAt_nil, or_false] at ht
    rw [ht.2] at hu
    exact absurd hu (by simp)
  placed := fun _ h => absurd rfl h

/-! ## Allocation -/

theorem hotArenaBest_spec {mem : HotCells} {base endp : ℕ} (h : Tagged mem 0 base ts)
    (hend : tileEnd base ts = endp) (n : ℕ) :
    ∃ s, hotArenaBest endp mem n base = some s ∧
      ∀ b ∈ s.2, ∃ t, TileAt base ts b t ∧ t.used = false ∧ n ≤ 8 * t.cells := by
  -- The invariant: the walk stands between two blocks of the row.
  let I : ℕ × Option ℕ → Prop := fun s => (∃ xs ys, ts = xs ++ ys ∧ s.1 = tileEnd base xs) ∧
    ∀ b ∈ s.2, ∃ t, TileAt base ts b t ∧ t.used = false ∧ n ≤ 8 * t.cells
  have step : ∀ s, I s → decide (s.1 < endp) = true →
      I (hotArenaScan mem n s) ∧ endp - (hotArenaScan mem n s).1 < endp - s.1 := by
    rintro ⟨b, best⟩ ⟨⟨xs, ys, rfl, hb⟩, hbest⟩ hlt
    subst hb
    have hlt : tileEnd base xs < endp := by simpa using hlt
    cases ys with
    | nil =>
      rw [append_nil] at hend
      omega
    | cons t ys =>
      have ht := (tagged_append.mp h).2.1
      simp only [I, hotArenaScan, hbNext_header ht, hbSize_header ht, hbUsed_header ht]
      refine ⟨⟨⟨xs ++ [t], ys, by simp, by simp⟩, fun b hb => ?_⟩, by omega⟩
      split at hb
      next hc =>
        cases hb
        exact ⟨t, ⟨xs, ys, rfl, rfl⟩, by simpa using hc.1, hc.2.1⟩
      next => exact hbest b hb
  obtain ⟨s, hs, hI, -⟩ := whileLoop_total I (fun s => endp - s.1) step (endp - base + 1)
    (base, none) ⟨⟨[], ts, rfl, rfl⟩, by simp⟩ (by simp)
  exact ⟨s, hs, hI.2⟩

theorem hbRound_request (h : bytes < 2 ^ 31) :
    ∃ k, hbRound (if bytes = 0 then 1 else bytes) = 8 * k ∧ 1 ≤ k ∧ bytes ≤ 8 * k ∧
      8 * k + 16 < 2 ^ 32 := by
  refine ⟨((if bytes = 0 then 1 else bytes) + 7) / 8, ?_⟩
  rw [hbRound]
  split <;> omega

theorem Sound.free_neighbours (h : a.Sound live (pre ++ t :: post)) (hfree : t.used = false) :
    Coalesced pre ∧ Coalesced post ∧ (∀ s ∈ pre.getLast?, s.used = true) ∧
      ∀ s ∈ post.head?, s.used = true := by
  obtain ⟨hpre, hmid, hjoin⟩ := coalesced_append.mp h.coalesced
  obtain ⟨-, hpost, hjoin'⟩ := coalesced_append.mp (show Coalesced ([t] ++ post) from hmid)
  simp only [List.head?_cons, mem_some_iff, forall_eq', hfree, Bool.false_eq_true,
    or_false] at hjoin
  simp only [List.getLast?_singleton, mem_some_iff, forall_eq', hfree, Bool.false_eq_true,
    false_or] at hjoin'
  exact ⟨hpre, hpost, hjoin, hjoin'⟩

theorem hotArenaAlloc_sound (h : a.Sound live ts) (hb : bytes < 2 ^ 31) :
    ∃ r, a.hotArenaAlloc bytes = some r ∧
      ∃ ts', r.1.Sound (r.2.elim live fun p => update live p (some bytes)) ts' := by
  rw [hotArenaAlloc]
  split
  next => exact ⟨_, rfl, ts, h⟩
  next =>
    obtain ⟨k, hround, hk, hbytes, hfit⟩ := hbRound_request hb
    obtain ⟨⟨e, best⟩, hs, hbest⟩ := hotArenaBest_spec h.headers h.ends (8 * k)
    simp only [hround, hs, map_some]
    refine ⟨_, rfl, ?_⟩
    cases best with
    | none =>
      exact ⟨ts, h.room, h.fits, h.headers, h.ends, h.payloads, h.coalesced, h.counted,
        h.requested, h.placed⟩
    | some b =>
      obtain ⟨t, ⟨pre, post, rfl, rfl⟩, hfree, hn⟩ := hbest b rfl
      obtain ⟨htag, hend, -⟩ := h.suffix
      obtain ⟨k', rest, hkk, hcut, hrest, hrend, hframe⟩ :=
        hbSplit_spec htag hend (show k ≤ t.cells by omega) hfit
      dsimp only
      generalize hbSplit a.endp a.mem (tileEnd a.base pre) (8 * k) = mem₁ at hcut hframe ⊢
      -- the block is cut to size, and then its use bit is set
      have hcell : { mem₁ (tileEnd a.base pre) with
          size := (mem₁ (tileEnd a.base pre)).size ||| 1 }
          = tileHeader ⟨k', true⟩ (lastBytes 0 pre) := by
        have hor := or_toNat k' true
        rw [Bool.toNat_true] at hor
        simp only [hcut.1, tileHeader, hfree, Bool.toNat_false, Bool.toNat_true, add_zero, hor]
      have hmark := hcut.mark hcell
      obtain ⟨hpre, hpost, -, hr⟩ := h.free_neighbours hfree
      have hco : Coalesced (rest ++ post) := by
        rcases hrest with rfl | ⟨c, -, rfl⟩
        · exact hpost
        · exact coalesced_insert isChain_nil hpost (.inr (by simp)) (.inr hr)
      have h' : a.Sound live (pre ++ (([] ++ t :: []) ++ post)) := h
      refine ⟨_, h'.recast (u := true) (by simp) (by simp) ?_ (show k' ≠ 0 by omega)
        (fun _ => ⟨rfl, bytes, rfl, by omega⟩) (by simp) hrend
        (coalesced_insert hpre hco (.inl rfl) (.inl rfl)) rfl rfl ?_
        (h.headers.retag hmark fun q hq => ?_)⟩
      · rcases hrest with rfl | ⟨c, hc, rfl⟩ <;> simp [*]
      · simp [hfree, hbSize_header hmark.1]
      · dsimp only
        rw [update_of_ne (by omega), hframe q (by omega) (by omega)]

/-! ## Release -/

theorem Sound.release {xs ys : List Tile} (h : a.Sound live (pre ++ ((xs ++ t :: ys) ++ post)))
    (ht : t.used = true) (hxs : ∀ s ∈ xs, s.used = false) (hys : ∀ s ∈ ys, s.used = false)
    (hl : ∀ s ∈ pre.getLast?, s.used = true) (hr : ∀ s ∈ post.head?, s.used = true) (hc : c ≠ 0)
    (hend : tileEnd (tileEnd a.base pre) [⟨c, false⟩]
      = tileEnd (tileEnd a.base pre) (xs ++ t :: ys)) (hbase : a'.base = a.base)
    (hendp : a'.endp = a.endp) (hused : a'.used = a.used - (8 * t.cells + 8))
    (htag : Tagged a'.mem 0 a.base (pre ++ ⟨c, false⟩ :: post)) :
    a'.Sound (update live (tileEnd (tileEnd a.base pre) xs + 1) none)
      (pre ++ ⟨c, false⟩ :: post) := by
  obtain ⟨hpre, hrest, -⟩ := coalesced_append.mp h.coalesced
  have hpost := (coalesced_append.mp hrest).2.1
  refine h.recast hxs hys (by simp) hc (by simp) (fun _ => rfl) hend
    (coalesced_insert hpre hpost (.inr hl) (.inr hr)) hbase hendp ?_ htag
  have := h.counted
  simp only [usedCells_append, usedCells_cons, ht, if_true] at this
  simp [ht, hused]
  omega

theorem Sound.cells_ne_zero {u : Tile} (h : a.Sound live ts) (ht : t ∈ ts) (hu : u ∈ ts)
    (hused : u.used = true) : t.cells ≠ 0 := by
  rcases h.payloads with hall | hone
  · exact hall t ht
  · rw [hone, mem_singleton] at hu
    rw [hu] at hused
    exact absurd hused (by simp)

theorem Sound.join_right (h : a.Sound live (pre ++ t :: post)) (ht : t.used = true) :
    ∃ c ys post', post = ys ++ post' ∧ (∀ s ∈ ys, s.used = false) ∧
      (∀ s ∈ post'.head?, s.used = true) ∧ c ≠ 0 ∧
      tileEnd (tileEnd a.base pre) [⟨c, false⟩] = tileEnd (tileEnd a.base pre) (t :: ys) ∧
      Tagged (hbMergeNext a.endp (update a.mem (tileEnd a.base pre)
        { a.mem (tileEnd a.base pre) with size := (a.mem (tileEnd a.base pre)).size / 2 * 2 })
        (tileEnd a.base pre)) 0 a.base (pre ++ (⟨c, false⟩ :: post')) := by
  obtain ⟨htag, hend, hfit⟩ := h.suffix
  have ht0 := h.cells_ne_zero (t := t) (by simp) (by simp) ht
  have hcell : { a.mem (tileEnd a.base pre) with
      size := (a.mem (tileEnd a.base pre)).size / 2 * 2 }
      = tileHeader ⟨t.cells, false⟩ (lastBytes 0 pre) := by
    simp only [htag.1, tileHeader, ht, Bool.toNat_true, Bool.toNat_false, HotBlock.mk.injEq,
      and_true]
    omega
  obtain ⟨hjoin, hframe⟩ := hbMergeNext_tagged (htag.mark hcell) hend hfit
  obtain ⟨c, ys, post', rfl, habs, hc, hys, hcend⟩ :=
    absorb_cases (tileEnd a.base pre) ⟨t.cells, false⟩ post
  rw [habs] at hjoin
  dsimp only at hc
  refine ⟨c, ys, post', rfl, ?_, ?_, by omega, hcend, h.headers.retag hjoin fun q hq => ?_⟩
  · rcases hys with ⟨rfl, -⟩ | ⟨y, hy, rfl⟩ <;> simp [*]
  · rcases hys with ⟨-, hr⟩ | ⟨y, hy, rfl⟩
    · exact hr
    · have h' : a.Sound live ((pre ++ [t]) ++ y :: post') := by simpa using h
      exact (h'.free_neighbours hy).2.2.2
  · rw [hframe q (by omega) (by omega), update_of_ne (by omega)]

theorem hotArenaFree_sound (h : a.Sound live ts) (hp : live p ≠ none) :
    ∃ ts', (a.hotArenaFree p).Sound (update live p none) ts' := by
  obtain ⟨pre, t, post, rfl, hb, hp0, ht⟩ := h.split hp
  obtain rfl : p = tileEnd a.base pre + 1 := by omega
  obtain ⟨c, ys, post, rfl, hys, hr, hc, hcend, hjoin⟩ := h.join_right ht
  rw [hotArenaFree]
  rw [hb, hbSize_header h.suffix.1.1]
  generalize hbMergeNext a.endp _ _ = mem₂ at hjoin ⊢
  have hblock := (tagged_append.mp hjoin).2.1
  rcases pre.eq_nil_or_concat' with rfl | ⟨pre, x, rfl⟩
  · have hprev : (mem₂ (tileEnd a.base [])).prev = 0 := by
      rw [hblock]
      rfl
    rw [if_neg fun hne => hne.1 hprev]
    have h' : a.Sound live ([] ++ (([] ++ t :: ys) ++ post)) := by simpa using h
    exact ⟨_, h'.release ht (by simp) hys (by simp) hr hc hcend rfl rfl rfl hjoin⟩
  · have hx0 := h.cells_ne_zero (t := x) (by simp) (u := t) (by simp) ht
    have hprev : (mem₂ (tileEnd a.base (pre ++ [x]))).prev = 8 * x.cells := by
      rw [hblock, ← lastBytes_append_singleton 0 pre x]
      rfl
    have hback : hbPrev mem₂ (tileEnd a.base (pre ++ [x])) = tileEnd a.base pre := by
      rw [hbPrev, hprev, tileEnd_append, tileEnd_cons, tileEnd_nil]
      omega
    rw [append_assoc] at hjoin
    have hx : Tagged mem₂ (lastBytes 0 pre) (tileEnd a.base pre) (x :: ⟨c, false⟩ :: post) :=
      (tagged_append.mp hjoin).2
    rw [hback, hbUsed_header hx.1]
    cases hxu : x.used with
    | true =>
      have h' : a.Sound live ((pre ++ [x]) ++ (([] ++ t :: ys) ++ post)) := by simpa using h
      exact ⟨_, h'.release ht (by simp) hys (by simpa using hxu) hr hc hcend rfl rfl rfl
        (by simpa using hjoin)⟩
    | false =>
      rw [if_pos ⟨by omega, rfl⟩]
      have h' : a.Sound live (pre ++ (([x] ++ t :: ys) ++ post)) := by simpa using h
      have hlen : tileEnd (tileEnd a.base pre) (x :: ⟨c, false⟩ :: post) = a.endp := by
        rw [← h'.suffix.2.1]
        simp only [tileEnd_append, tileEnd_cons, tileEnd_nil] at hcend ⊢
        rw [hcend]
      obtain ⟨hleft, hframe⟩ := hbMergeNext_tagged hx hlen h'.suffix.2.2
      rw [absorb, hxu] at hleft
      have hrow := hjoin.retag hleft fun q hq => hframe q (by omega) (by omega)
      have hl := (Sound.free_neighbours (by simpa using h) hxu).2.2.1
      have hroom : tileEnd (tileEnd a.base pre) [⟨x.cells + c + 1, false⟩]
          = tileEnd (tileEnd a.base pre) ([x] ++ t :: ys) := by
        simp only [tileEnd_append, tileEnd_cons, tileEnd_nil] at hcend ⊢
        omega
      rw [tileEnd_append a.base pre [x]]
      exact ⟨_, h'.release ht (by simpa using hxu) hys hl hr (by omega) hroom rfl rfl rfl hrow⟩

/-! ## Resizing -/

theorem Sound.trim {m : ℕ} {mem₁ : HotCells} (zs : List Tile)
    (h : a.Sound live (pre ++ t :: (zs ++ post))) (ht : t.used = true)
    (hzs : ∀ s ∈ zs, s.used = false)
    (htag : Tagged mem₁ (lastBytes 0 pre) (tileEnd a.base pre) (⟨m, true⟩ :: post))
    (hm : tileEnd (tileEnd a.base pre) [⟨m, true⟩] = tileEnd (tileEnd a.base pre) (t :: zs))
    (hframe : ∀ q, q ≠ tileEnd a.base pre → q ≤ tileEnd a.base pre + t.cells → mem₁ q = a.mem q)
    (hk : 1 ≤ k) (hkm : k ≤ m) (hbytes : bytes ≤ 8 * k) (hfit : 8 * k + 16 < 2 ^ 32) {n : ℕ}
    {mem₂ : HotCells} (hmem₂ : mem₂ = hbTrim a.endp mem₁ (tileEnd a.base pre) (8 * k)) :
    (∃ ts', HotArena.Sound { a with
        mem := mem₂, used := a.used - 8 * t.cells + hbSize mem₂ (tileEnd a.base pre), peak := n }
      (update live (tileEnd a.base pre + 1) (some bytes)) ts') ∧
    ∀ c, 8 * c < min (8 * t.cells) (hbSize mem₂ (tileEnd a.base pre)) →
      mem₂ (tileEnd a.base pre + 1 + c) = a.mem (tileEnd a.base pre + 1 + c) := by
  obtain ⟨-, hend, hfits⟩ := h.suffix
  have hco := (coalesced_append.mp h.coalesced).2.1
  have hpost : Coalesced post := (coalesced_append.mp
    (show Coalesced ((t :: zs) ++ post) from hco)).2.1
  have hrow : tileEnd (tileEnd a.base pre) (⟨m, true⟩ :: post) = a.endp := by
    rw [← hend, ← singleton_append, tileEnd_append, hm, ← tileEnd_append, cons_append]
  obtain ⟨k', rest, ys, post, rfl, hkk, htrim, hys, hrest, hrco, hrend, hkeep⟩ :=
    hbTrim_spec htag hrow hfits hkm hfit hpost
  rw [← hmem₂] at htrim hkeep
  have hlow : ∀ q, q ≠ tileEnd a.base pre → q ≤ tileEnd a.base pre + t.cells →
      q ≤ tileEnd a.base pre + k' → mem₂ q = a.mem q := by
    intro q hq h₁ h₂
    rw [hkeep q hq h₂, hframe q hq h₁]
  have hused : 8 * t.cells + 8 ≤ a.used := by
    have := h.counted
    rw [usedCells_append, usedCells_cons, if_pos ht] at this
    omega
  have hfree : ∀ s ∈ zs ++ ys, s.used = false := by
    intro s hs
    rcases List.mem_append.mp hs with hs | hs
    · exact hzs s hs
    · exact hys s hs
  have hroom : tileEnd (tileEnd a.base pre) (⟨k', true⟩ :: rest)
      = tileEnd (tileEnd a.base pre) (t :: (zs ++ ys)) := by
    rw [hrend, ← singleton_append, tileEnd_append, hm, ← tileEnd_append, cons_append]
  have h' : a.Sound live (pre ++ (([] ++ t :: (zs ++ ys)) ++ post)) := by simpa using h
  rw [hbSize_header htrim.1]
  have hpre := (coalesced_append.mp h.coalesced).1
  refine ⟨⟨_, h'.recast (by simp) hfree hrest (by omega) (fun _ => ⟨rfl, bytes, rfl, by omega⟩)
    (by simp) hroom (coalesced_insert hpre hrco (.inl rfl) (.inl rfl)) rfl rfl ?_
    (h.headers.retag htrim fun q hq => hlow q (by omega) (by omega) (by omega))⟩, fun c hc => ?_⟩
  · rw [if_pos ht, if_pos rfl]
    dsimp only
    omega
  · dsimp only at hc
    exact hlow _ (by omega) (by omega) (by omega)

theorem hotArenaResize_sound (h : a.Sound live ts) (hp : live p ≠ none) (hb : bytes < 2 ^ 31) :
    (∃ ts', (a.hotArenaResize p bytes).1.Sound
      (if (a.hotArenaResize p bytes).2 then update live p (some bytes) else live) ts') ∧
    ∀ c, 8 * c < min (a.hotArenaBlockSize p) ((a.hotArenaResize p bytes).1.hotArenaBlockSize p) →
      (a.hotArenaResize p bytes).1.mem (p + c) = a.mem (p + c) := by
  obtain ⟨pre, t, post, rfl, hpb, hp0, ht⟩ := h.split hp
  obtain rfl : p = tileEnd a.base pre + 1 := by omega
  obtain ⟨k, hround, hk, hbytes, hfit⟩ := hbRound_request hb
  obtain ⟨htag, hend, hfits⟩ := h.suffix
  have hhead : (⟨t.cells, true⟩ : Tile) = t := by rw [← ht]
  simp only [hotArenaResize, hotArenaBlockSize, hpb, hround, hbSize_header htag.1,
    hbNext_header htag.1]
  split
  next => exact ⟨⟨_, h⟩, fun _ _ => rfl⟩
  next hgrow =>
    by_cases hbig : 8 * k > 8 * t.cells
    · simp only [hbig, true_and, not_or, not_le, not_not, ge_iff_le] at hgrow
      obtain ⟨hlt, hfree, hsum⟩ := hgrow
      cases post with
      | nil =>
        rw [tileEnd_cons, tileEnd_nil] at hend
        omega
      | cons c post =>
        rw [hbUsed_header htag.2.1] at hfree
        rw [hbSize_header htag.2.1] at hsum
        have hc : c.used = false := by simpa using hfree
        obtain ⟨hjoin, hframe⟩ := hbMergeNext_tagged htag hend hfits
        rw [absorb, if_neg (by simp [hc]), ht] at hjoin
        simp only [if_pos hbig, if_true]
        refine Sound.trim [c] h ht (by simpa using hc) hjoin ?_
          (fun q h₁ h₂ => hframe q h₁ (by omega)) hk (by omega) hbytes hfit rfl
        simp only [tileEnd_cons, tileEnd_nil]
        omega
    · simp only [if_neg hbig, if_true]
      exact Sound.trim [] h ht (by simp) (by rwa [hhead]) (by rw [hhead])
        (fun _ _ _ => rfl) hk (by omega) hbytes hfit rfl

/-! ## Runs -/

theorem Sound.write (h : a.Sound live ts) (cell : HotBlock) (hp : live p ≠ none)
    (hc : 8 * c < a.hotArenaBlockSize p) :
    HotArena.Sound { a with mem := update a.mem (p + c) cell } live ts := by
  obtain ⟨q, t, rfl, ht, -⟩ := h.placed p hp
  obtain ⟨prev, hhead⟩ := h.headers.header ht
  rw [hotArenaBlockSize, Nat.add_sub_cancel, hbSize_header hhead] at hc
  refine ⟨h.room, h.fits, h.headers.congr fun q' t' ht' => ?_, h.ends, h.payloads, h.coalesced,
    h.counted, h.requested, h.placed⟩
  have := ht.apart ht'
  exact update_of_ne (by omega) _ _

theorem Reach.sound (h : a.Reach live) : ∃ ts, a.Sound live ts := by
  induction h with
  | init mem memory bytes hlo hhi => exact ⟨_, hotArenaInit_sound mem hlo hhi⟩
  | alloc _ hb ha ih =>
    obtain ⟨ts, h⟩ := ih
    obtain ⟨r, hr, hsound⟩ := hotArenaAlloc_sound h hb
    rw [hr, Option.some.injEq] at ha
    subst ha
    exact hsound
  | free _ hp ih =>
    obtain ⟨ts, h⟩ := ih
    exact hotArenaFree_sound h hp
  | resize _ hp hb ih =>
    obtain ⟨ts, h⟩ := ih
    exact (hotArenaResize_sound h hp hb).1
  | write cell _ hp hc ih =>
    obtain ⟨ts, h⟩ := ih
    exact ⟨ts, h.write cell hp hc⟩

theorem Sound.block (h : a.Sound live ts) {r : ℕ} (hp : live p = some r) :
    ∃ q t, p = q + 1 ∧ TileAt a.base ts q t ∧ r ≤ 8 * t.cells ∧
      a.hotArenaBlockSize p = 8 * t.cells := by
  obtain ⟨q, t, rfl, ht, hu⟩ := h.placed p (by simp [hp])
  obtain ⟨prev, hhead⟩ := h.headers.header ht
  obtain ⟨r', hr', hle⟩ := h.requested q t ht hu
  rw [hp, Option.some.injEq] at hr'
  subst hr'
  exact ⟨q, t, rfl, ht, hle, by rw [hotArenaBlockSize, Nat.add_sub_cancel, hbSize_header hhead]⟩

theorem Sound.all_free (h : a.Sound live ts) (hnone : ∀ p, live p = none) :
    ts = [⟨a.endp - a.base - 1, false⟩] := by
  have hfree : ∀ t ∈ ts, t.used = false := by
    intro t ht
    obtain ⟨pre, post, rfl⟩ := append_of_mem ht
    by_contra hu
    obtain ⟨r, hr, -⟩ := h.requested _ t ⟨pre, post, rfl, rfl⟩ (by simpa using hu)
    rw [hnone] at hr
    cases hr
  have hlen := h.coalesced.length_le_one hfree
  have hends := h.ends
  match ts, hlen, hfree, hends with
  | [], _, _, hends =>
    have := h.room
    rw [tileEnd_nil] at hends
    omega
  | [⟨c, u⟩], _, hfree, hends =>
    have hu : u = false := hfree ⟨c, u⟩ (by simp)
    rw [hu, ← hends]
    simp
    omega

/-- In every reachable arena the headers tile it with correct back links, no two neighbours are
free, and `used` counts the blocks in use. Live payloads lie apart and hold their request; a resize
keeps the contents, an allocation returns, and with nothing live the arena is one free block. -/
theorem hotArena_reach (h : a.Reach live) :
    ∃ ts, Tagged a.mem 0 a.base ts ∧ tileEnd a.base ts = a.endp ∧ Coalesced ts ∧
      a.used = 8 * usedCells ts ∧
      (∀ p r, live p = some r → r ≤ a.hotArenaBlockSize p ∧ a.base < p ∧
        p + a.hotArenaBlockSize p / 8 ≤ a.endp) ∧
      (∀ p q, live p ≠ none → live q ≠ none → p ≠ q →
        p + a.hotArenaBlockSize p / 8 < q ∨ q + a.hotArenaBlockSize q / 8 < p) ∧
      (∀ p bytes c, live p ≠ none → bytes < 2 ^ 31 →
        8 * c < min (a.hotArenaBlockSize p)
          ((a.hotArenaResize p bytes).1.hotArenaBlockSize p) →
        (a.hotArenaResize p bytes).1.mem (p + c) = a.mem (p + c)) ∧
      (∀ bytes < 2 ^ 31, ∃ r, a.hotArenaAlloc bytes = some r) ∧
      ((∀ p, live p = none) → ts = [⟨a.endp - a.base - 1, false⟩]) := by
  obtain ⟨ts, hs⟩ := h.sound
  refine ⟨ts, hs.headers, hs.ends, hs.coalesced, hs.counted, ?_, ?_, ?_, ?_, hs.all_free⟩
  · intro p r hp
    obtain ⟨q, t, rfl, ht, hr, hsize⟩ := hs.block hp
    have := ht.bounds
    have := hs.ends
    omega
  · intro p q hp hq hne
    obtain ⟨r, hr⟩ := Option.ne_none_iff_exists'.mp hp
    obtain ⟨r', hr'⟩ := Option.ne_none_iff_exists'.mp hq
    obtain ⟨b, t, rfl, ht, -, hsize⟩ := hs.block hr
    obtain ⟨b', t', rfl, ht', -, hsize'⟩ := hs.block hr'
    have := ht.apart ht'
    omega
  · intro p bytes c hp hb
    exact (hotArenaResize_sound hs hp hb).2 c
  · intro bytes hb
    obtain ⟨r, hr, -⟩ := hotArenaAlloc_sound hs hb
    exact ⟨r, hr⟩

def afterAlloc (a : HotArena) (bytes : ℕ) : HotArena :=
  ((a.hotArenaAlloc bytes).map Prod.fst).getD a

theorem Reach.afterAlloc {bytes : ℕ} {p : Option ℕ} (h : a.Reach live) (hb : bytes < 2 ^ 31)
    (hp : (a.hotArenaAlloc bytes).map Prod.snd = some p) :
    (a.afterAlloc bytes).Reach (p.elim live fun p => update live p (some bytes)) := by
  obtain ⟨⟨a', p'⟩, ha, rfl⟩ := Option.map_eq_some_iff.mp hp
  rw [HotArena.afterAlloc, ha]
  exact Reach.alloc h hb ha

/-- Three blocks in 128 bytes. The middle one is freed, and the first grows into its place. -/
def threeBlocks : HotArena :=
  (((hotArenaInit (fun _ => ⟨0, 0⟩) 1 128).afterAlloc 5).afterAlloc 16).afterAlloc 8

theorem hotArena_reach_threeBlocks :
    ∃ live, Reach ((threeBlocks.hotArenaFree 4).hotArenaResize 2 20).1 live ∧
      live 2 = some 20 ∧ live 4 = none ∧ live 7 = some 8 ∧
      20 ≤ ((threeBlocks.hotArenaFree 4).hotArenaResize 2 20).1.hotArenaBlockSize 2 ∧
      2 + ((threeBlocks.hotArenaFree 4).hotArenaResize 2 20).1.hotArenaBlockSize 2 / 8 < 7 := by
  have hinit := Reach.init (fun _ => ⟨0, 0⟩) 1 128 (by decide) (by decide)
  have hfirst := hinit.afterAlloc (by decide : 5 < 2 ^ 31) (p := some 2) (by decide)
  have hsecond := hfirst.afterAlloc (by decide : 16 < 2 ^ 31) (p := some 4) (by decide)
  have hthird : threeBlocks.Reach _ :=
    hsecond.afterAlloc (by decide : 8 < 2 ^ 31) (p := some 7) (by decide)
  have hfree := Reach.free hthird (p := 4) (by decide)
  have hresize := Reach.resize hfree (p := 2) (by decide) (by decide : 20 < 2 ^ 31)
  have hgrown : ((threeBlocks.hotArenaFree 4).hotArenaResize 2 20).2 = true := by decide
  rw [if_pos hgrown] at hresize
  obtain ⟨ts, -, -, -, -, hlive, hapart, -⟩ := hotArena_reach hresize
  refine ⟨_, hresize, rfl, rfl, rfl, (hlive 2 20 rfl).1, ?_⟩
  rcases hapart 2 7 (by decide) (by decide) (by decide) with h | h
  · exact h
  · exact absurd h (by omega)

end HotArena

end Tinycc
