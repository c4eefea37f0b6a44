import Mathlib.Data.List.Basic
import Mathlib.Data.List.TakeWhile
import Mathlib.Tactic.Ring

namespace Tinycc.Lib
open BitVec List

abbrev Bytes := List (BitVec 8)

def leBytes : ℕ → ℕ → Bytes
  | 0, _ => []
  | w + 1, n => BitVec.ofNat 8 n :: leBytes w (n / 256)

def leNat : Bytes → ℕ
  | [] => 0
  | b :: bs => b.toNat + 256 * leNat bs

@[simp] theorem length_leBytes (w n : ℕ) : (leBytes w n).length = w := by
  induction w generalizing n with
  | zero => rfl
  | succ w ih => simp [leBytes, ih]

theorem leNat_leBytes (w n : ℕ) : leNat (leBytes w n) = n % 256 ^ w := by
  induction w generalizing n with
  | zero => simp [leBytes, leNat, Nat.mod_one]
  | succ w ih =>
    simp only [leBytes, leNat, ih, toNat_ofNat]
    have hpow : 256 ^ (w + 1) = 256 * 256 ^ w := Nat.pow_succ'
    rw [hpow, Nat.mod_mul]

section Pieces

variable {file a b : Bytes} {o w : ℕ}

def bytesAt (l : Bytes) (offset n : ℕ) : Bytes := (l.drop offset).take n

def Written (file : Bytes) (offset : ℕ) (piece : Bytes) : Prop :=
  ∃ after, file.drop offset = piece ++ after

theorem written_append (before piece after : Bytes) :
    Written (before ++ (piece ++ after)) before.length piece :=
  ⟨after, by simp⟩

theorem Written.bytesAt_eq (h : Written file o a) : bytesAt file o a.length = a := by
  obtain ⟨after, h⟩ := h
  simp [bytesAt, h]

theorem Written.left (h : Written file o (a ++ b)) : Written file o a := by
  obtain ⟨after, h⟩ := h
  exact ⟨b ++ after, by rw [h, List.append_assoc]⟩

theorem Written.right (h : Written file o (a ++ b)) : Written file (o + a.length) b := by
  obtain ⟨after, h⟩ := h
  refine ⟨after, ?_⟩
  rw [← drop_drop, h]
  simp

theorem Written.leNat_eq {n : ℕ} (h : Written file o (leBytes w n)) :
    leNat (bytesAt file o w) = n % 256 ^ w := by
  have hb := h.bytesAt_eq
  rw [length_leBytes] at hb
  rw [hb, leNat_leBytes]

theorem length_flatMap_of_length {α : Type*} {f : α → Bytes} (hf : ∀ x, (f x).length = w)
    (xs : List α) : (xs.flatMap f).length = w * xs.length := by
  induction xs with
  | nil => rfl
  | cons x xs ih =>
    rw [flatMap_cons, length_append, ih, hf, length_cons]
    ring

theorem length_flatMap_leBytes (w : ℕ) (xs : List ℕ) :
    (xs.flatMap (leBytes w)).length = w * xs.length :=
  length_flatMap_of_length (length_leBytes w) xs

theorem Written.item {α : Type*} {f : α → Bytes} (hf : ∀ x, (f x).length = w) {xs : List α}
    (h : Written file o (xs.flatMap f)) {i : ℕ} (hi : i < xs.length) :
    Written file (o + w * i) (f xs[i]) := by
  have hsplit : xs = xs.take i ++ xs[i] :: xs.drop (i + 1) := by simp
  have hlen : ((xs.take i).flatMap f).length = w * i := by
    rw [length_flatMap_of_length hf, length_take, Nat.min_eq_left hi.le]
  rw [hsplit, flatMap_append] at h
  have hx := h.right.left
  rwa [hlen] at hx

def leArray (w : ℕ) (l : Bytes) (n : ℕ) : List ℕ :=
  (range n).map fun i => leNat (bytesAt l (w * i) w)

theorem Written.array {xs : List ℕ} (h : Written file o (xs.flatMap (leBytes w))) {i : ℕ}
    (hi : i < xs.length) : leNat (bytesAt file (o + w * i) w) = xs[i] % 256 ^ w :=
  (h.item (length_leBytes w) hi).leNat_eq

theorem leArray_flatMap (w : ℕ) (xs : List ℕ) :
    leArray w (xs.flatMap (leBytes w)) xs.length = xs.map (· % 256 ^ w) := by
  apply ext_getElem
  · simp [leArray]
  · intro i hi _
    have hi' : i < xs.length := by simpa [leArray] using hi
    have hw : Written (xs.flatMap (leBytes w)) 0 (xs.flatMap (leBytes w)) := ⟨[], by simp⟩
    have hx := hw.array hi'
    rw [Nat.zero_add] at hx
    simp only [leArray, getElem_map, getElem_range, hx]

def cstr (l : Bytes) : Bytes := l.takeWhile (· ≠ 0#8)

theorem cstr_append (h : 0#8 ∉ a) (b : Bytes) : cstr (a ++ 0#8 :: b) = a := by
  rw [cstr, takeWhile_append_of_pos]
  · simp
  · intro x hx
    have : x ≠ 0#8 := fun e => h (e ▸ hx)
    simpa using this

theorem Written.cstr_eq (h : Written file o (a ++ 0#8 :: b)) (ha : 0#8 ∉ a) :
    cstr (file.drop o) = a := by
  obtain ⟨after, h⟩ := h
  rw [h, List.append_assoc]
  exact cstr_append ha _

end Pieces

section Records

variable {rs : List Bytes} {i : ℕ}

/-- Where each of some records starts when they are written one behind the other. -/
def recordOffsets (rs : List Bytes) : List ℕ :=
  (range rs.length).map fun i => (rs.take i).flatten.length

theorem recordOffsets_append (rs : List Bytes) (r : Bytes) :
    recordOffsets (rs ++ [r]) = recordOffsets rs ++ [rs.flatten.length] := by
  simp only [recordOffsets, length_append, length_singleton, range_succ,
    map_append, map_cons, map_nil]
  congr 1
  · apply map_congr_left
    intro i hi
    rw [take_append_of_le_length (mem_range.mp hi).le]
  · rw [take_append_of_le_length le_rfl, take_length]

@[simp] theorem length_recordOffsets (rs : List Bytes) :
    (recordOffsets rs).length = rs.length := by
  simp [recordOffsets]

theorem getElem_recordOffsets (hi : i < (recordOffsets rs).length) :
    (recordOffsets rs)[i] = (rs.take i).flatten.length := by
  simp [recordOffsets]

theorem flatten_eq_record (hi : i < rs.length) :
    rs.flatten = (rs.take i).flatten ++ (rs[i] ++ (rs.drop (i + 1)).flatten) := by
  rw [← flatten_cons, ← drop_eq_getElem_cons hi, ← flatten_append,
    take_append_drop]

theorem record_end_le (hi : i < rs.length) :
    (rs.take i).flatten.length + rs[i].length ≤ rs.flatten.length := by
  rw [flatten_eq_record hi, length_append, length_append]
  omega

theorem Written.record {file : Bytes} {o : ℕ} (h : Written file o rs.flatten) (hi : i < rs.length) :
    Written file (o + (rs.take i).flatten.length) rs[i] := by
  rw [flatten_eq_record hi] at h
  exact h.right.left

theorem mul_length_le_flatten {w : ℕ} (h : ∀ r ∈ rs, w ≤ r.length) :
    w * rs.length ≤ rs.flatten.length := by
  induction rs with
  | nil => simp
  | cons r rs ih =>
    have hr := h r mem_cons_self
    have hrs := ih fun x hx => h x (mem_cons_of_mem _ hx)
    rw [flatten_cons, length_append, length_cons, Nat.mul_succ]
    omega

end Records

section Fields

variable {k m n : ℕ} (a : BitVec k) (b : BitVec m) (c : BitVec n)

theorem extractLsb'_append_low : (a ++ b).extractLsb' 0 m = b := by
  ext i hi
  simp [getLsbD_append, hi]

theorem extractLsb'_append_high : (a ++ b).extractLsb' m k = a := by
  ext i hi
  simp [getLsbD_append, hi]

theorem extractLsb'_append_middle : (a ++ b ++ c).extractLsb' n m = b := by
  ext i hi
  simp [getLsbD_append, hi]

theorem extractLsb'_append_top : (a ++ b ++ c).extractLsb' (n + m) k = a := by
  ext i hi
  have h₁ : ¬n + m + i < n := by omega
  have h₂ : ¬n + m + i - n < m := by omega
  have h₃ : n + m + i - n - m = i := by omega
  simp [getLsbD_append, hi, h₁, h₂, h₃]

end Fields

end Tinycc.Lib
