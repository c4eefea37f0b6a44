import Mathlib.Data.List.Range

namespace Tinycc.Lib
open Function List

section Chain

variable {next next' : ℕ → ℕ} {i j k : ℕ} {l : List ℕ} {p : ℕ → Bool}

inductive Chain (next : ℕ → ℕ) : ℕ → List ℕ → Prop
  | nil : Chain next 0 []
  | cons {i : ℕ} {l : List ℕ} : i ≠ 0 → Chain next (next i) l → Chain next i (i :: l)

/-- The first index of a chain that passes a test, 0 if none does; the links are followed at most
`fuel` times. -/
def chainFind (next : ℕ → ℕ) (p : ℕ → Bool) : ℕ → ℕ → ℕ
  | 0, _ => 0
  | fuel + 1, i => if i = 0 then 0 else if p i then i else chainFind next p fuel (next i)

section

variable (h : Chain next i l)
include h

variable {fuel : ℕ}

theorem chainFind_eq (hf : l.length < fuel) :
    chainFind next p fuel i = (l.find? p).getD 0 := by
  induction h generalizing fuel with
  | nil =>
    cases fuel with
    | zero => rfl
    | succ fuel => simp [chainFind]
  | @cons i l hi _ ih =>
    cases fuel with
    | zero => exact absurd hf (Nat.not_lt_zero _)
    | succ fuel =>
      have ih' := ih (Nat.lt_of_succ_lt_succ hf)
      cases hp : p i with
      | true => simp [chainFind, hi, hp]
      | false => simp [chainFind, hi, hp, ih']

def chainVisit (next : ℕ → ℕ) : ℕ → ℕ → List ℕ
  | 0, _ => []
  | fuel + 1, i => if i = 0 then [] else i :: chainVisit next fuel (next i)

theorem chainVisit_eq (hf : l.length ≤ fuel) :
    chainVisit next fuel i = l := by
  induction h generalizing fuel with
  | nil =>
    cases fuel with
    | zero => rfl
    | succ fuel => simp [chainVisit]
  | @cons i l hi _ ih =>
    cases fuel with
    | zero => exact absurd hf (Nat.not_succ_le_zero _)
    | succ fuel =>
      have ih' := ih (Nat.le_of_succ_le_succ hf)
      simp [chainVisit, hi, ih']

theorem Chain.congr (heq : ∀ x ∈ l, next' x = next x) : Chain next' i l := by
  induction h with
  | nil => exact .nil
  | @cons i l hi _ ih =>
    refine .cons hi ?_
    rw [heq i mem_cons_self]
    exact ih fun x hx => heq x (mem_cons_of_mem _ hx)

theorem Chain.update_of_notMem (hkl : k ∉ l) (x : ℕ) :
    Chain (update next k x) i l := by
  apply h.congr
  intro y hy
  have hyk : y ≠ k := fun e => hkl (e ▸ hy)
  exact update_of_ne hyk _ _

theorem Chain.push (hk : k ≠ 0) (hkl : k ∉ l) :
    Chain (update next k i) k (k :: l) := by
  refine .cons hk ?_
  rw [update_self]
  exact h.update_of_notMem hkl i

theorem Chain.head_mem : i = 0 ∨ i ∈ l := by
  cases h with
  | nil => exact .inl rfl
  | cons _ _ => exact .inr mem_cons_self

theorem Chain.next_mem : ∀ x ∈ l, next x = 0 ∨ next x ∈ l := by
  induction h with
  | nil => intro x hx; cases hx
  | cons _ htail ih =>
    intro x hx
    rcases List.mem_cons.mp hx with rfl | hx
    · exact htail.head_mem.imp_right (mem_cons_of_mem _)
    · exact (ih x hx).imp_right (mem_cons_of_mem _)

/-- The end of a chain: the links are followed until one is 0. -/
def chainEnd (next : ℕ → ℕ) : ℕ → ℕ → ℕ
  | 0, i => i
  | fuel + 1, i => if next i ≠ 0 then chainEnd next fuel (next i) else i

theorem Chain.nil_iff : i = 0 ↔ l = [] := by
  cases h with
  | nil => simp
  | cons hi _ => simp [hi]

theorem Chain.append (hi : i ≠ 0) (hnd : l.Nodup) (hk : k ≠ 0) (hkl : k ∉ l) (hend : next k = 0)
    (hf : l.length ≤ fuel) :
    chainEnd next fuel i ∈ l ∧
      Chain (update next (chainEnd next fuel i) k) i (l ++ [k]) := by
  induction h generalizing fuel with
  | nil => exact absurd rfl hi
  | @cons i l hi' htail ih =>
    obtain ⟨fuel, rfl⟩ : ∃ n, fuel = n + 1 := ⟨fuel - 1, by simp at hf; omega⟩
    have hki : k ≠ i := fun e => hkl (e ▸ mem_cons_self)
    by_cases hn : next i = 0
    · have hl : l = [] := htail.nil_iff.mp hn
      subst hl
      have he : chainEnd next (fuel + 1) i = i := by simp [chainEnd, hn]
      rw [he]
      refine ⟨mem_cons_self, .cons hi' ?_⟩
      rw [update_self]
      refine .cons hk ?_
      rw [update_of_ne hki, hend]
      exact .nil
    · have he : chainEnd next (fuel + 1) i = chainEnd next fuel (next i) := by
        simp [chainEnd, hn]
      rw [he]
      have hkl' : k ∉ l := fun h => hkl (mem_cons_of_mem _ h)
      obtain ⟨hmem, hch⟩ := ih hn hnd.of_cons hkl' (by simpa using hf)
      refine ⟨mem_cons_of_mem _ hmem, .cons hi' ?_⟩
      -- The end is another index than the head, whose link stays.
      have hne : i ≠ chainEnd next fuel (next i) := fun e => (List.nodup_cons.mp hnd).1 (e ▸ hmem)
      rwa [update_of_ne hne]

end

end Chain

section Buckets

variable {slot slot' : ℕ → Option ℕ} {n h i : ℕ}

def bucketList (slot : ℕ → Option ℕ) (n h : ℕ) : List ℕ :=
  (List.range n).filter fun i => 0 < i ∧ slot i = some h

theorem mem_bucketList : i ∈ bucketList slot n h ↔ i < n ∧ 0 < i ∧ slot i = some h := by
  simp [bucketList]

theorem notMem_bucketList : n ∉ bucketList slot n h :=
  fun hn => Nat.lt_irrefl n (mem_bucketList.mp hn).1

theorem length_bucketList_le : (bucketList slot n h).length ≤ n := by
  have := length_filter_le (fun i => decide (0 < i ∧ slot i = some h)) (List.range n)
  simpa [bucketList] using this

theorem nodup_bucketList : (bucketList slot n h).Nodup := List.nodup_range.filter _

theorem bucketList_reverse_descending : (bucketList slot n h).reverse.Pairwise (· > ·) :=
  List.pairwise_reverse.mpr (List.pairwise_lt_range.filter _)

theorem le_of_find?_descending {l : List ℕ} {p : ℕ → Bool} {j : ℕ} (hl : l.Pairwise (· > ·))
    (hi : l.find? p = some i) (hj : j ∈ l) (hp : p j = true) : j ≤ i := by
  obtain ⟨_, as, bs, rfl, has⟩ := List.find?_eq_some_iff_append.mp hi
  rcases List.mem_append.mp hj with hja | hjb
  · have := has j hja
    simp [hp] at this
  · rcases List.mem_cons.mp hjb with rfl | hjb
    · exact Nat.le_refl _
    · have hgt := (List.pairwise_cons.mp (List.pairwise_append.mp hl).2.1).1 j hjb
      exact Nat.le_of_lt hgt

theorem bucketList_congr (heq : ∀ i < n, 0 < i → slot' i = slot i) :
    bucketList slot' n h = bucketList slot n h := by
  apply filter_congr
  intro i hi
  by_cases h0 : 0 < i
  · simp [heq i (List.mem_range.mp hi) h0]
  · simp [h0]

theorem bucketList_one : bucketList slot 1 h = [] := by
  simp [bucketList, range_succ]

theorem bucketList_succ_of_eq (hn : 0 < n) (hs : slot n = some h) :
    bucketList slot (n + 1) h = bucketList slot n h ++ [n] := by
  simp [bucketList, range_succ, hn, hs]

theorem bucketList_succ_of_ne (hs : slot n ≠ some h) :
    bucketList slot (n + 1) h = bucketList slot n h := by
  simp [bucketList, range_succ, hs]

end Buckets

end Tinycc.Lib
