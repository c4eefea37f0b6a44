import Mathlib.Data.Nat.Bitwise
import Tinycc.Lib.Loop
import Tinycc.Lib.Tiling

/-!
# The arena of fast memory

The allocator of `memory/hot_arena.c` over memory in cells of eight bytes. Every header starts
at a multiple of eight bytes from the base, so pointers are cell numbers; sizes stay in bytes.
`size_t` and `unsigned` have 32 bits.
-/

namespace Tinycc
open Function

open Lib

structure HotBlock where
  /-- Payload bytes; bit 0 is set while the block is in use. -/
  size : ℕ
  /-- Payload bytes of the block physically before; 0 for the first. -/
  prev : ℕ
deriving DecidableEq

abbrev HotCells := ℕ → HotBlock

structure HotArena where
  base : ℕ
  endp : ℕ
  used : ℕ
  peak : ℕ
  misses : ℕ
  mem : HotCells

section Blocks

variable (endp : ℕ) (mem : HotCells)

def hbSize (b : ℕ) : ℕ := (mem b).size / 2 * 2

def hbUsed (b : ℕ) : ℕ := (mem b).size % 2

def hbNext (b : ℕ) : ℕ := b + 1 + hbSize mem b / 8

def hbPrev (b : ℕ) : ℕ := b - (mem b).prev / 8 - 1

def hbRound (bytes : ℕ) : ℕ := (bytes + 7) % 2 ^ 32 / 8 * 8

def hbLinkNext (b : ℕ) : HotCells :=
  let n := hbNext mem b
  if n < endp then update mem n { mem n with prev := hbSize mem b } else mem

def hbSplit (b size : ℕ) : HotCells :=
  let total := hbSize mem b
  if total < (size + 8 + 8) % 2 ^ 32 then mem
  else
    let t := b + 1 + size / 8
    let mem₁ := update mem t ⟨total - size - 8, size⟩
    let mem₂ := update mem₁ b { mem₁ b with size := size ||| hbUsed mem₁ b }
    hbLinkNext endp mem₂ t

def hbMergeNext (b : ℕ) : HotCells :=
  let n := hbNext mem b
  if n ≥ endp ∨ hbUsed mem n ≠ 0 then mem
  else
    let size := (hbSize mem b + hbSize mem n + 8) % 2 ^ 32 ||| hbUsed mem b
    hbLinkNext endp (update mem b { mem b with size := size }) b

def hbTrim (b n : ℕ) : HotCells :=
  let mem₁ := hbSplit endp mem b n
  let t := hbNext mem₁ b
  if t < endp ∧ hbUsed mem₁ t = 0 then hbMergeNext endp mem₁ t else mem₁

def hotArenaScan (n : ℕ) (s : ℕ × Option ℕ) : ℕ × Option ℕ :=
  (hbNext mem s.1,
    if hbUsed mem s.1 = 0 ∧ hbSize mem s.1 ≥ n ∧
        ∀ best ∈ s.2, hbSize mem s.1 < hbSize mem best then some s.1 else s.2)

def hotArenaBest (n base : ℕ) : Option (ℕ × Option ℕ) :=
  whileLoop (fun s => decide (s.1 < endp)) (hotArenaScan mem n) (endp - base + 1) (base, none)

end Blocks

namespace HotArena

def hotArenaInit (mem : HotCells) (memory bytes : ℕ) : HotArena where
  base := memory
  endp := memory + bytes / 8
  used := 0
  peak := 0
  misses := 0
  mem := update mem memory ⟨(bytes / 8 * 8 + 2 ^ 32 - 8) % 2 ^ 32, 0⟩

/-- The arena afterwards and the payload, `none` for `NULL`. The outer option is the walk cut
off before its end. -/
def hotArenaAlloc (a : HotArena) (bytes : ℕ) : Option (HotArena × Option ℕ) :=
  if a.base = 0 ∨ bytes > 8 * (a.endp - a.base) then some (a, none)
  else
    let n := hbRound (if bytes = 0 then 1 else bytes)
    (hotArenaBest a.endp a.mem n a.base).map fun s =>
      match s.2 with
      | none => ({ a with misses := (a.misses + 1) % 2 ^ 32 }, none)
      | some best =>
        let mem₁ := hbSplit a.endp a.mem best n
        let mem₂ := update mem₁ best { mem₁ best with size := (mem₁ best).size ||| 1 }
        let used := a.used + (hbSize mem₂ best + 8)
        ({ a with mem := mem₂, used := used, peak := max a.peak used }, some (best + 1))

def hotArenaFree (a : HotArena) (p : ℕ) : HotArena :=
  let b := p - 1
  let used := a.used - (hbSize a.mem b + 8)
  let mem₁ := update a.mem b { a.mem b with size := (a.mem b).size / 2 * 2 }
  let mem₂ := hbMergeNext a.endp mem₁ b
  let mem₃ :=
    if (mem₂ b).prev ≠ 0 ∧ hbUsed mem₂ (hbPrev mem₂ b) = 0 then
      hbMergeNext a.endp mem₂ (hbPrev mem₂ b)
    else mem₂
  { a with used := used, mem := mem₃ }

def hotArenaResize (a : HotArena) (p bytes : ℕ) : HotArena × Bool :=
  let b := p - 1
  let n := hbRound (if bytes = 0 then 1 else bytes)
  let old := hbSize a.mem b
  let next := hbNext a.mem b
  if n > old ∧ (next ≥ a.endp ∨ hbUsed a.mem next ≠ 0 ∨
      (old + hbSize a.mem next + 8) % 2 ^ 32 < n) then (a, false)
  else
    let mem₁ := if n > old then hbMergeNext a.endp a.mem b else a.mem
    let mem₂ := hbTrim a.endp mem₁ b n
    let used := a.used - old + hbSize mem₂ b
    ({ a with mem := mem₂, used := used, peak := max a.peak used }, true)

def hotArenaBlockSize (a : HotArena) (p : ℕ) : ℕ := hbSize a.mem (p - 1)

/-- The arenas a program can reach, with the requested size of each live payload. Between the
calls the program writes to the payloads it holds. -/
inductive Reach : HotArena → (ℕ → Option ℕ) → Prop
  | init (mem : HotCells) (memory bytes : ℕ) :
      8 ≤ bytes → bytes < 2 ^ 32 → Reach (hotArenaInit mem memory bytes) fun _ => none
  | alloc {a a' : HotArena} {live : ℕ → Option ℕ} {bytes : ℕ} {p : Option ℕ} :
      Reach a live → bytes < 2 ^ 31 → a.hotArenaAlloc bytes = some (a', p) →
      Reach a' (p.elim live fun p => update live p (some bytes))
  | free {a : HotArena} {live : ℕ → Option ℕ} {p : ℕ} :
      Reach a live → live p ≠ none → Reach (a.hotArenaFree p) (update live p none)
  | resize {a : HotArena} {live : ℕ → Option ℕ} {p bytes : ℕ} :
      Reach a live → live p ≠ none → bytes < 2 ^ 31 →
      Reach (a.hotArenaResize p bytes).1
        (if (a.hotArenaResize p bytes).2 then update live p (some bytes) else live)
  | write {a : HotArena} {live : ℕ → Option ℕ} {p c : ℕ} (cell : HotBlock) :
      Reach a live → live p ≠ none → 8 * c < a.hotArenaBlockSize p →
      Reach { a with mem := update a.mem (p + c) cell } live

end HotArena

/-! ## Headers -/

def tileHeader (t : Tile) (prev : ℕ) : HotBlock := ⟨8 * t.cells + t.used.toNat, prev⟩

/-- The headers of blocks laid from `pos`, the first behind a block of `prev` bytes. -/
def Tagged (mem : HotCells) : ℕ → ℕ → List Tile → Prop
  | _, _, [] => True
  | prev, pos, t :: ts =>
      mem pos = tileHeader t prev ∧ Tagged mem (8 * t.cells) (pos + t.cells + 1) ts

def lastBytes (prev : ℕ) : List Tile → ℕ
  | [] => prev
  | t :: ts => lastBytes (8 * t.cells) ts

variable {pos k : ℕ} {mem' : HotCells} {ts post zs : List Tile}

theorem tagged_append {mem : HotCells} {prev : ℕ} {xs ys : List Tile} :
    Tagged mem prev pos (xs ++ ys) ↔
      Tagged mem prev pos xs ∧ Tagged mem (lastBytes prev xs) (tileEnd pos xs) ys := by
  induction xs generalizing prev pos with
  | nil => simp [Tagged, lastBytes]
  | cons t xs ih => simp [Tagged, lastBytes, ih, and_assoc]

theorem lastBytes_append_singleton (prev : ℕ) (xs : List Tile) (t : Tile) :
    lastBytes prev (xs ++ [t]) = 8 * t.cells := by
  induction xs generalizing prev with
  | nil => rfl
  | cons s xs ih => exact ih _

theorem Tagged.congr {mem : HotCells} {prev : ℕ} (h : Tagged mem prev pos ts)
    (heq : ∀ q t, TileAt pos ts q t → mem' q = mem q) :
    Tagged mem' prev pos ts := by
  induction ts generalizing prev pos with
  | nil => trivial
  | cons t ts ih =>
    refine ⟨(heq pos t (by simp)).trans h.1, ih h.2 fun q s hs => heq q s ?_⟩
    rw [tileAt_cons]
    exact .inr hs

theorem Tagged.retag {mem : HotCells} {prev : ℕ} {pre suf suf' : List Tile}
    (h : Tagged mem prev pos (pre ++ suf))
    (hsuf : Tagged mem' (lastBytes prev pre) (tileEnd pos pre) suf')
    (hframe : ∀ q, q < tileEnd pos pre → mem' q = mem q) : Tagged mem' prev pos (pre ++ suf') := by
  refine tagged_append.mpr ⟨(tagged_append.mp h).1.congr fun q t ht => ?_, hsuf⟩
  have := ht.bounds
  exact hframe q (by omega)

theorem Tagged.header {mem : HotCells} {prev q : ℕ} {t : Tile} (h : Tagged mem prev pos ts)
    (ht : TileAt pos ts q t) : ∃ p, mem q = tileHeader t p := by
  obtain ⟨pre, post, rfl, rfl⟩ := ht
  exact ⟨_, (tagged_append.mp h).2.1⟩

section Header

variable {mem : HotCells} {b prev : ℕ} {t : Tile} (h : mem b = tileHeader t prev)
include h

theorem hbSize_header : hbSize mem b = 8 * t.cells := by
  have := t.used.toNat_le
  simp only [hbSize, h, tileHeader]
  omega

theorem hbUsed_header : hbUsed mem b = t.used.toNat := by
  have := t.used.toNat_le
  simp only [hbUsed, h, tileHeader]
  omega

theorem hbNext_header : hbNext mem b = b + t.cells + 1 := by
  rw [hbNext, hbSize_header h]
  omega

end Header

theorem or_toNat (k : ℕ) (u : Bool) : 8 * k ||| u.toNat = 8 * k + u.toNat := by
  have := u.toNat_le
  exact (Nat.two_pow_add_eq_or_of_lt (i := 3) (by omega) k).symm

/-! ## The block operations -/

theorem hbLinkNext_tagged {endp b prev v : ℕ} {mem : HotCells} {t : Tile}
    (ht : mem b = tileHeader t prev) (hpost : Tagged mem v (b + t.cells + 1) post)
    (hend : tileEnd (b + t.cells + 1) post = endp) :
    Tagged (hbLinkNext endp mem b) prev b (t :: post) ∧
      ∀ q, q ≠ b + t.cells + 1 → hbLinkNext endp mem b q = mem q := by
  rw [hbLinkNext, hbNext_header ht, hbSize_header ht]
  cases post with
  | nil =>
    rw [tileEnd_nil] at hend
    rw [if_neg (by omega)]
    exact ⟨⟨ht, trivial⟩, fun _ _ => rfl⟩
  | cons c post =>
    rw [tileEnd_cons] at hend
    have hlt : b + t.cells + 1 < endp := by
      have := le_tileEnd (b + t.cells + 1 + c.cells + 1) post
      omega
    rw [if_pos hlt]
    refine ⟨⟨?_, ?_, hpost.2.congr ?_⟩, fun q hq => update_of_ne hq _ _⟩
    · rw [update_of_ne (by omega), ht]
    · rw [update_self, hpost.1]
      rfl
    · intro q s hs
      have := hs.bounds
      exact update_of_ne (by omega) _ _

theorem hbSplit_tagged {endp b prev : ℕ} {mem : HotCells} {t : Tile}
    (h : Tagged mem prev b (t :: post)) (hend : tileEnd b (t :: post) = endp)
    (hk : k + 2 ≤ t.cells) :
    Tagged (hbSplit endp mem b (8 * k)) prev b
        (⟨k, t.used⟩ :: ⟨t.cells - k - 1, false⟩ :: post) ∧
      ∀ q, q ≠ b → q ≠ b + k + 1 → q ≠ b + t.cells + 1 →
        hbSplit endp mem b (8 * k) q = mem q := by
  rw [tileEnd_cons] at hend
  have ht : b + 1 + 8 * k / 8 = b + k + 1 := by omega
  simp only [hbSplit, hbSize_header h.1, ht]
  rw [if_neg (by omega)]
  generalize hm : update (update mem (b + k + 1) _) b _ = mem₂
  have hb : mem₂ b = tileHeader ⟨k, t.used⟩ prev := by
    have hother : update mem (b + k + 1) ⟨8 * t.cells - 8 * k - 8, 8 * k⟩ b
        = tileHeader t prev := by
      rw [update_of_ne (by omega), h.1]
    rw [← hm, update_self, hbUsed_header hother, hother, or_toNat]
    rfl
  have hrest : mem₂ (b + k + 1) = tileHeader ⟨t.cells - k - 1, false⟩ (8 * k) := by
    rw [← hm, update_of_ne (by omega), update_self]
    simp only [tileHeader, Bool.toNat_false, HotBlock.mk.injEq, and_true]
    omega
  have hpost : Tagged mem₂ (8 * t.cells) (b + k + 1 + (t.cells - k - 1) + 1) post := by
    rw [show b + k + 1 + (t.cells - k - 1) + 1 = b + t.cells + 1 by omega]
    refine h.2.congr fun q s hs => ?_
    have := hs.bounds
    rw [← hm, update_of_ne (by omega), update_of_ne (by omega)]
  have hend' : tileEnd (b + k + 1 + (t.cells - k - 1) + 1) post = endp := by
    rw [← hend]
    congr 1
    omega
  obtain ⟨htag, hframe⟩ := hbLinkNext_tagged hrest hpost hend'
  refine ⟨⟨?_, htag⟩, fun q h₁ h₂ h₃ => ?_⟩
  · rw [hframe b (by dsimp only; omega), hb]
  · rw [hframe q (by dsimp only; omega), ← hm, update_of_ne h₁,
      update_of_ne h₂]

theorem hbSplit_spec {endp b prev : ℕ} {mem : HotCells} {t : Tile}
    (h : Tagged mem prev b (t :: post)) (hend : tileEnd b (t :: post) = endp) (hk : k ≤ t.cells)
    (hfit : 8 * k + 16 < 2 ^ 32) :
    ∃ k' rest, k ≤ k' ∧
      Tagged (hbSplit endp mem b (8 * k)) prev b (⟨k', t.used⟩ :: (rest ++ post)) ∧
      (rest = [] ∨ ∃ c, c ≠ 0 ∧ rest = [⟨c, false⟩]) ∧
      tileEnd b (⟨k', t.used⟩ :: rest) = tileEnd b [t] ∧
      ∀ q, q ≠ b → q ≤ b + k' → hbSplit endp mem b (8 * k) q = mem q := by
  by_cases hroom : k + 2 ≤ t.cells
  · obtain ⟨htag, hframe⟩ := hbSplit_tagged h hend hroom
    refine ⟨k, [⟨t.cells - k - 1, false⟩], le_rfl, htag, .inr ⟨_, by omega, rfl⟩, ?_, ?_⟩
    · simp only [tileEnd_cons, tileEnd_nil]
      omega
    · intro q hq hle
      exact hframe q hq (by omega) (by omega)
  · rw [hbSplit, hbSize_header h.1, if_pos (by omega)]
    exact ⟨t.cells, [], hk, h, .inl rfl, rfl, fun _ _ _ => rfl⟩

theorem Tagged.mark {b prev : ℕ} {mem : HotCells} {t : Tile} {u : Bool} {cell : HotBlock}
    (h : Tagged mem prev b (t :: post)) (hcell : cell = tileHeader ⟨t.cells, u⟩ prev) :
    Tagged (update mem b cell) prev b (⟨t.cells, u⟩ :: post) := by
  refine ⟨by rw [update_self, hcell], h.2.congr fun q s hs => ?_⟩
  have := hs.bounds
  exact update_of_ne (by omega) _ _

def absorb (t : Tile) : List Tile → List Tile
  | [] => [t]
  | c :: post => if c.used then t :: c :: post else ⟨t.cells + c.cells + 1, t.used⟩ :: post

theorem hbMergeNext_tagged {endp b prev : ℕ} {mem : HotCells} {t : Tile}
    (h : Tagged mem prev b (t :: post)) (hend : tileEnd b (t :: post) = endp)
    (hfit : 8 * (endp - b) < 2 ^ 32) :
    Tagged (hbMergeNext endp mem b) prev b (absorb t post) ∧
      ∀ q, q ≠ b → q ≤ b + t.cells + 1 → hbMergeNext endp mem b q = mem q := by
  rw [tileEnd_cons] at hend
  rw [hbMergeNext, hbNext_header h.1]
  match post, h, hend with
  | [], h, hend =>
    rw [tileEnd_nil] at hend
    rw [if_pos (.inl (by omega))]
    exact ⟨h, fun _ _ _ => rfl⟩
  | c :: post, h, hend =>
    rw [tileEnd_cons] at hend
    have hle := le_tileEnd (b + t.cells + 1 + c.cells + 1) post
    rw [hbUsed_header h.2.1, absorb]
    cases hc : c.used with
    | true =>
      rw [if_pos (.inr (by simp))]
      exact ⟨h, fun _ _ _ => rfl⟩
    | false =>
      rw [if_neg (by simp; omega), hbSize_header h.1, hbSize_header h.2.1,
        hbUsed_header h.1]
      dsimp only
      generalize hm : update mem b _ = mem₁
      have hb : mem₁ b = tileHeader ⟨t.cells + c.cells + 1, t.used⟩ prev := by
        have hsum : (8 * t.cells + 8 * c.cells + 8) % 2 ^ 32 = 8 * (t.cells + c.cells + 1) := by
          omega
        rw [← hm, update_self, hsum, or_toNat, h.1]
        rfl
      have hpost : Tagged mem₁ (8 * c.cells) (b + (t.cells + c.cells + 1) + 1) post := by
        rw [show b + (t.cells + c.cells + 1) + 1 = b + t.cells + 1 + c.cells + 1 by omega]
        refine h.2.2.congr fun q s hs => ?_
        have := hs.bounds
        rw [← hm, update_of_ne (by omega)]
      have hend' : tileEnd (b + (t.cells + c.cells + 1) + 1) post = endp := by
        rw [← hend]
        congr 1
        omega
      obtain ⟨htag, hframe⟩ := hbLinkNext_tagged hb hpost hend'
      refine ⟨htag, fun q h₁ h₂ => ?_⟩
      rw [hframe q (by dsimp only; omega), ← hm, update_of_ne h₁]

theorem absorb_cases (b : ℕ) (t : Tile) (post : List Tile) :
    ∃ c ys post', post = ys ++ post' ∧ absorb t post = ⟨c, t.used⟩ :: post' ∧ t.cells ≤ c ∧
      (ys = [] ∧ (∀ s ∈ post'.head?, s.used = true) ∨ ∃ y, y.used = false ∧ ys = [y]) ∧
      tileEnd b [⟨c, t.used⟩] = tileEnd b (t :: ys) := by
  cases post with
  | nil => exact ⟨t.cells, [], [], rfl, rfl, le_rfl, .inl ⟨rfl, by simp⟩, rfl⟩
  | cons y post =>
    rw [absorb]
    cases hy : y.used with
    | true => exact ⟨t.cells, [], y :: post, rfl, rfl, le_rfl, .inl ⟨rfl, by simpa using hy⟩, rfl⟩
    | false =>
      refine ⟨t.cells + y.cells + 1, [y], post, rfl, rfl, by omega, .inr ⟨y, hy, rfl⟩, ?_⟩
      simp only [tileEnd_cons, tileEnd_nil]
      omega

def settle : List Tile → List Tile
  | [] => []
  | z :: zs => if z.used then z :: zs else absorb z zs

theorem settle_of_coalesced (h : Coalesced zs) : settle zs = zs := by
  match zs, h with
  | [], _ => rfl
  | [z], _ => simp [settle, absorb]
  | z :: y :: zs, h =>
    have hzy := (List.isChain_cons_cons.mp h).1
    cases hz : z.used <;> simp_all [settle, absorb]

theorem settle_tagged {endp b prev : ℕ} {mem : HotCells} {t : Tile}
    (h : Tagged mem prev b (t :: zs)) (hend : tileEnd b (t :: zs) = endp)
    (hfits : 8 * (endp - b) < 2 ^ 32)
    (hmem' : mem' = if hbNext mem b < endp ∧ hbUsed mem (hbNext mem b) = 0 then
      hbMergeNext endp mem (hbNext mem b) else mem) :
    Tagged mem' prev b (t :: settle zs) ∧ ∀ q, q ≤ b + t.cells → mem' q = mem q := by
  rw [tileEnd_cons] at hend
  rw [hbNext_header h.1] at hmem'
  cases zs with
  | nil =>
    rw [tileEnd_nil] at hend
    rw [hmem', if_neg (by omega)]
    exact ⟨h, fun _ _ => rfl⟩
  | cons z zs =>
    have hle := le_tileEnd (b + t.cells + 1 + z.cells + 1) zs
    rw [hbUsed_header h.2.1] at hmem'
    rw [settle]
    cases hz : z.used with
    | true =>
      rw [hmem', if_neg (by simp [hz])]
      exact ⟨h, fun _ _ => rfl⟩
    | false =>
      rw [tileEnd_cons] at hend
      rw [if_pos ⟨by omega, by simp [hz]⟩] at hmem'
      obtain ⟨hjoin, hframe⟩ := hbMergeNext_tagged h.2 (by simpa using hend) (by omega)
      rw [hmem']
      refine ⟨⟨?_, hjoin⟩, fun q hq => hframe q (by omega) (by omega)⟩
      rw [hframe b (by omega) (by omega), h.1]

/-- Trimming leaves the block with the requested cells and at most one free block behind it,
which has taken in the free block that followed. -/
theorem hbTrim_spec {endp b prev : ℕ} {mem : HotCells} {t : Tile}
    (h : Tagged mem prev b (t :: post)) (hend : tileEnd b (t :: post) = endp)
    (hfits : 8 * (endp - b) < 2 ^ 32) (hk : k ≤ t.cells) (hfit : 8 * k + 16 < 2 ^ 32)
    (hco : Coalesced post) :
    ∃ k' rest ys post', post = ys ++ post' ∧ k ≤ k' ∧
      Tagged (hbTrim endp mem b (8 * k)) prev b (⟨k', t.used⟩ :: (rest ++ post')) ∧
      (∀ s ∈ ys, s.used = false) ∧ (∀ s ∈ rest, s.used = false ∧ s.cells ≠ 0) ∧
      Coalesced (rest ++ post') ∧
      tileEnd b (⟨k', t.used⟩ :: rest) = tileEnd b (t :: ys) ∧
      ∀ q, q ≠ b → q ≤ b + k' → hbTrim endp mem b (8 * k) q = mem q := by
  obtain ⟨k', rest, hkk, hcut, hrest, hrend, hframe⟩ := hbSplit_spec h hend hk hfit
  have hend' : tileEnd b (⟨k', t.used⟩ :: (rest ++ post)) = endp := by
    rw [← List.cons_append, tileEnd_append, hrend, ← tileEnd_append, List.singleton_append, hend]
  obtain ⟨htag, hlow⟩ := settle_tagged hcut hend' hfits (show hbTrim endp mem b (8 * k) = _ from rfl)
  have hkeep : ∀ q, q ≠ b → q ≤ b + k' → hbTrim endp mem b (8 * k) q = mem q := by
    intro q hq hle
    rw [hlow q hle, hframe q hq hle]
  rcases hrest with rfl | ⟨c, hc, rfl⟩
  · -- No room for a block of its own: what follows is joined already.
    rw [List.nil_append, settle_of_coalesced hco] at htag
    exact ⟨k', [], [], post, rfl, hkk, htag, by simp, by simp, hco, hrend, hkeep⟩
  · obtain ⟨d, ys, post', rfl, habs, hd, hys, hdend⟩ :=
      absorb_cases (b + k' + 1) ⟨c, false⟩ post
    dsimp only at habs hd hdend
    rw [List.singleton_append, settle, habs] at htag
    have hpost := (coalesced_append.mp hco).2.1
    refine ⟨k', [⟨d, false⟩], ys, post', rfl, hkk, htag, ?_, by simp; omega, ?_, ?_, hkeep⟩
    · rcases hys with ⟨rfl, -⟩ | ⟨y, hy, rfl⟩ <;> simp [*]
    · refine coalesced_insert List.isChain_nil hpost (.inr (by simp)) (.inr ?_)
      rcases hys with ⟨-, hr⟩ | ⟨y, hy, rfl⟩
      · exact hr
      · have := (coalesced_append.mp hco).2.2
        simpa [hy] using this
    · simp only [tileEnd_cons, tileEnd_nil] at hrend hdend ⊢
      rw [hdend, hrend]

end Tinycc
