import Mathlib.Data.List.Chain

/-!
# Tiles

A stretch of memory cut into blocks laid end to end. A block is one header cell and the payload
cells behind it, and is in use or free.
-/

namespace Tinycc.Lib

structure Tile where
  cells : ℕ
  used : Bool
deriving DecidableEq

def tileEnd (pos : ℕ) (ts : List Tile) : ℕ := ts.foldl (fun p t => p + t.cells + 1) pos

@[simp] theorem tileEnd_nil (pos : ℕ) : tileEnd pos [] = pos := rfl

@[simp] theorem tileEnd_cons (pos : ℕ) (t : Tile) (ts : List Tile) :
    tileEnd pos (t :: ts) = tileEnd (pos + t.cells + 1) ts := rfl

@[simp] theorem tileEnd_append (pos : ℕ) (xs ys : List Tile) :
    tileEnd pos (xs ++ ys) = tileEnd (tileEnd pos xs) ys :=
  List.foldl_append

theorem le_tileEnd (pos : ℕ) (ts : List Tile) : pos ≤ tileEnd pos ts := by
  induction ts generalizing pos with
  | nil => exact le_rfl
  | cons t ts ih => exact le_trans (by omega) (ih (pos + t.cells + 1))

def TileAt (pos : ℕ) (ts : List Tile) (q : ℕ) (t : Tile) : Prop :=
  ∃ pre post, ts = pre ++ t :: post ∧ tileEnd pos pre = q

variable {pos q : ℕ} {t : Tile} {ts xs ys : List Tile}

@[simp] theorem tileAt_nil : ¬TileAt pos [] q t := by
  rintro ⟨pre, post, h, -⟩
  simp at h

@[simp] theorem tileAt_cons {s : Tile} :
    TileAt pos (s :: ts) q t ↔ q = pos ∧ t = s ∨ TileAt (pos + s.cells + 1) ts q t := by
  constructor
  · rintro ⟨pre, post, h, hq⟩
    cases pre with
    | nil =>
      rw [List.nil_append, List.cons.injEq] at h
      exact .inl ⟨hq.symm, h.1.symm⟩
    | cons u pre =>
      rw [List.cons_append, List.cons.injEq] at h
      obtain ⟨rfl, h⟩ := h
      exact .inr ⟨pre, post, h, by simpa using hq⟩
  · rintro (⟨rfl, rfl⟩ | ⟨pre, post, h, hq⟩)
    · exact ⟨[], ts, rfl, rfl⟩
    · exact ⟨s :: pre, post, by rw [h]; rfl, by simpa using hq⟩

@[simp] theorem tileAt_append :
    TileAt pos (xs ++ ys) q t ↔ TileAt pos xs q t ∨ TileAt (tileEnd pos xs) ys q t := by
  induction xs generalizing pos with
  | nil => simp
  | cons s xs ih => simp [ih, or_assoc]

theorem TileAt.bounds (h : TileAt pos ts q t) :
    pos ≤ q ∧ q + t.cells + 1 ≤ tileEnd pos ts := by
  obtain ⟨pre, post, rfl, rfl⟩ := h
  have := le_tileEnd (tileEnd pos pre + t.cells + 1) post
  have := le_tileEnd pos pre
  simp only [tileEnd_append, tileEnd_cons]
  omega

theorem TileAt.apart {q' : ℕ} {t' : Tile} (h : TileAt pos ts q t) (h' : TileAt pos ts q' t') :
    q = q' ∧ t = t' ∨ q + t.cells < q' ∨ q' + t'.cells < q := by
  induction ts generalizing pos with
  | nil => exact absurd h tileAt_nil
  | cons s ts ih =>
    rw [tileAt_cons] at h h'
    rcases h with ⟨rfl, rfl⟩ | h <;> rcases h' with ⟨rfl, rfl⟩ | h'
    · exact .inl ⟨rfl, rfl⟩
    · have := h'.bounds
      omega
    · have := h.bounds
      omega
    · exact ih h h'

def usedCells (ts : List Tile) : ℕ :=
  ts.foldr (fun t n => (if t.used then t.cells + 1 else 0) + n) 0

@[simp] theorem usedCells_nil : usedCells [] = 0 := rfl

@[simp] theorem usedCells_cons (t : Tile) (ts : List Tile) :
    usedCells (t :: ts) = (if t.used then t.cells + 1 else 0) + usedCells ts := rfl

@[simp] theorem usedCells_append (xs ys : List Tile) :
    usedCells (xs ++ ys) = usedCells xs + usedCells ys := by
  induction xs with
  | nil => simp
  | cons t xs ih => simp [ih, Nat.add_assoc]

theorem usedCells_free (h : ∀ t ∈ ts, t.used = false) : usedCells ts = 0 := by
  induction ts with
  | nil => rfl
  | cons t ts ih =>
    rw [List.forall_mem_cons] at h
    simp [h.1, ih h.2]

def Coalesced (ts : List Tile) : Prop := ts.IsChain fun s t => s.used = true ∨ t.used = true

theorem coalesced_append :
    Coalesced (xs ++ ys) ↔ Coalesced xs ∧ Coalesced ys ∧
      ∀ s ∈ xs.getLast?, ∀ t ∈ ys.head?, s.used = true ∨ t.used = true :=
  List.isChain_append

/-- A block in use may stand anywhere, a free one between blocks in use. -/
theorem coalesced_insert {pre post : List Tile} (hpre : Coalesced pre) (hpost : Coalesced post)
    (hl : t.used = true ∨ ∀ s ∈ pre.getLast?, s.used = true)
    (hr : t.used = true ∨ ∀ s ∈ post.head?, s.used = true) : Coalesced (pre ++ t :: post) := by
  have hmid : Coalesced ([t] ++ post) := by
    refine coalesced_append.mpr ⟨List.isChain_singleton _, hpost, ?_⟩
    simp only [List.getLast?_singleton, Option.mem_some_iff, forall_eq']
    intro s hs
    exact hr.imp_right fun h => h s hs
  refine coalesced_append.mpr ⟨hpre, hmid, ?_⟩
  simp only [List.head?_cons, Option.mem_some_iff, forall_eq']
  intro s hs
  exact hl.symm.imp_left fun h => h s hs

theorem Coalesced.length_le_one (h : Coalesced ts) (hfree : ∀ t ∈ ts, t.used = false) :
    ts.length ≤ 1 := by
  match ts, h, hfree with
  | [], _, _ => simp
  | [_], _, _ => simp
  | s :: t :: ts, h, hfree =>
    have hs := hfree s (by simp)
    have ht := hfree t (by simp)
    simp [Coalesced, hs, ht] at h

end Tinycc.Lib
