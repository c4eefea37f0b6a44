import Mathlib.Tactic.Common

namespace Tinycc.Lib
open BitVec Bool

variable {n : ℕ} {m m' x y : BitVec n} {k : ℕ}

def Covers (m x : BitVec n) : Prop := ∀ i, x.getLsbD i = true → m.getLsbD i = true

namespace Covers

theorem refl (x : BitVec n) : Covers x x := fun _ h => h

theorem allOnes (x : BitVec n) : Covers (BitVec.allOnes n) x := fun i h => by
  simpa using lt_of_getLsbD h

section

variable (h : Covers m x)
include h

theorem and (h' : Covers m' y) : Covers (m &&& m') (x &&& y) := by
  intro i hi
  simp only [getLsbD_and, and_eq_true] at hi ⊢
  exact ⟨h i hi.1, h' i hi.2⟩

theorem or (h' : Covers m' y) : Covers (m ||| m') (x ||| y) := by
  intro i hi
  simp only [getLsbD_or, or_eq_true] at hi ⊢
  exact hi.imp (h i) (h' i)

theorem xor (h' : Covers m' y) : Covers (m ||| m') (x ^^^ y) := by
  intro i hi
  simp only [getLsbD_xor, getLsbD_or, or_eq_true] at hi ⊢
  by_cases hx : x.getLsbD i = true
  · exact .inl (h i hx)
  · exact .inr (h' i (by simpa [hx] using hi))

theorem shiftLeft (k : ℕ) : Covers (m <<< k) (x <<< k) := by
  intro i hi
  simp only [getLsbD_shiftLeft, and_eq_true] at hi ⊢
  exact ⟨hi.1, h _ hi.2⟩

theorem shiftRight (k : ℕ) : Covers (m >>> k) (x >>> k) := by
  intro i hi
  rw [getLsbD_ushiftRight] at hi ⊢
  exact h _ hi

theorem msb (hx : x.msb = true) : m.msb = true := by
  rw [msb_eq_getLsbD_last] at hx ⊢
  exact h _ hx

theorem sshiftRight (k : ℕ) :
    Covers (m >>> k ||| if m.msb = true ∧ k ≠ 0 then ~~~(BitVec.allOnes n >>> k) else 0#n)
      (x.sshiftRight k) := by
  intro i hi
  rw [getLsbD_sshiftRight] at hi
  simp only [and_eq_true, not_eq_true', decide_eq_false_iff_not, Nat.not_le] at hi
  rw [getLsbD_or, getLsbD_ushiftRight, or_eq_true]
  by_cases hlt : k + i < n
  · left
    exact h _ (by simpa [hlt] using hi.2)
  · right
    have hx : x.msb = true := by simpa [hlt] using hi.2
    have hk : k ≠ 0 := by omega
    simp [h.msb hx, hk]
    omega

theorem rotateRight (hk : k < n) :
    Covers (m >>> k ||| m <<< (n - k)) (x.rotateRight k) := by
  rw [rotateRight_eq_rotateRightAux_of_lt hk]
  exact (h.shiftRight k).or (h.shiftLeft (n - k))

theorem and_eq_zero (hm : m &&& m' = 0#n) : x &&& m' = 0#n := by
  refine eq_of_getLsbD_eq fun i _ => ?_
  have hi := congrArg (·.getLsbD i) hm
  simp only [getLsbD_and, getLsbD_zero] at hi ⊢
  cases hx : x.getLsbD i with
  | false => rfl
  | true => simpa [h i hx] using hi

end

theorem eq_zero (h : Covers 0#n x) : x = 0#n := by
  refine eq_of_getLsbD_eq fun i _ => ?_
  cases hx : x.getLsbD i with
  | false => simp
  | true => exact absurd (h i hx) (by simp)

theorem and_eq_self (h : Covers m x) (hm : m &&& ~~~m' = 0#n) : x &&& m' = x := by
  refine eq_of_getLsbD_eq fun i hi => ?_
  have hmi := congrArg (·.getLsbD i) hm
  simp only [getLsbD_and, getLsbD_zero, getLsbD_not, hi, decide_true,
    Bool.true_and] at hmi ⊢
  cases hx : x.getLsbD i with
  | false => rfl
  | true => simpa [h i hx] using hmi

theorem of_and_left (x y : BitVec n) : Covers y (x &&& y) := fun i hi => by
  simp only [getLsbD_and, and_eq_true] at hi
  exact hi.2

end Covers

theorem sshiftRight_eq_or (x : BitVec n) (k : ℕ) :
    x.sshiftRight k = x >>> k ||| if x.msb = true then ~~~(BitVec.allOnes n >>> k) else 0#n := by
  apply eq_of_getLsbD_eq
  intro i hi
  have hge : ¬n ≤ i := Nat.not_le_of_lt hi
  rw [getLsbD_sshiftRight, getLsbD_or]
  by_cases hlt : k + i < n
  · cases hx : x.msb <;> simp [hge, hlt]
  · have hout : x.getLsbD (k + i) = false := getLsbD_of_ge x _ (Nat.le_of_not_lt hlt)
    cases hx : x.msb <;> simp [hi, hge, hlt, hout]

theorem getLsbD_lowMask (hk : k < n) (i : ℕ) :
    ((1#n <<< k) - 1#n).getLsbD i = decide (i < k) := by
  have hpow : 2 ^ k < 2 ^ n := Nat.pow_lt_pow_right (by decide) hk
  have hpos : 0 < 2 ^ k := Nat.two_pow_pos k
  have hone : (1#n).toNat = 1 := by
    exact Nat.mod_eq_of_lt (by omega)
  have hshift : (1#n <<< k).toNat = 2 ^ k := by
    rw [toNat_shiftLeft, hone, Nat.shiftLeft_eq, Nat.one_mul]
    exact Nat.mod_eq_of_lt hpow
  have hsub : ((1#n <<< k) - 1#n).toNat = 2 ^ k - 1 := by
    rw [toNat_sub_of_le (by rw [le_def, hone]; omega), hshift, hone]
  rw [← testBit_toNat, hsub, Nat.testBit_two_pow_sub_one]

theorem Covers.lowMask (hk : k < n) (x : BitVec k) : Covers ((1#n <<< k) - 1#n) (x.setWidth n) := by
  intro i hi
  rw [getLsbD_setWidth, and_eq_true] at hi
  rw [getLsbD_lowMask hk, decide_eq_true_eq]
  exact lt_of_getLsbD hi.2

/-- The bits of `kz` are 0 in `x` and those of `ko` are 1. -/
structure Knows (kz ko x : BitVec n) : Prop where
  zero : ∀ i, kz.getLsbD i = true → x.getLsbD i = false
  one : ∀ i, ko.getLsbD i = true → x.getLsbD i = true

namespace Knows

variable {kz ko kz' ko' : BitVec n}

theorem none (x : BitVec n) : Knows 0#n 0#n x :=
  ⟨fun i h => by simp at h, fun i h => by simp at h⟩

theorem const (x : BitVec n) : Knows (~~~x) x x := by
  refine ⟨fun i h => ?_, fun _ h => h⟩
  rw [getLsbD_not, and_eq_true, not_eq_true'] at h
  exact h.2

section

variable (h : Knows kz ko x)
include h

theorem eq (hall : kz ||| ko = BitVec.allOnes n) : x = ko := by
  refine eq_of_getLsbD_eq fun i hi => ?_
  have hbit := congrArg (·.getLsbD i) hall
  simp only [getLsbD_or, getLsbD_allOnes, hi, decide_true, or_eq_true] at hbit
  cases hko : ko.getLsbD i with
  | true => exact h.one i hko
  | false => exact h.zero i (hbit.resolve_right (by simp [hko]))

theorem and (h' : Knows kz' ko' y) :
    Knows (kz ||| kz') (ko &&& ko') (x &&& y) := by
  refine ⟨fun i hi => ?_, fun i hi => ?_⟩
  · simp only [getLsbD_or, or_eq_true] at hi
    rcases hi with hi | hi
    · simp [h.zero i hi]
    · simp [h'.zero i hi]
  · simp only [getLsbD_and, and_eq_true] at hi ⊢
    exact ⟨h.one i hi.1, h'.one i hi.2⟩

theorem or (h' : Knows kz' ko' y) :
    Knows (kz &&& kz') (ko ||| ko') (x ||| y) := by
  refine ⟨fun i hi => ?_, fun i hi => ?_⟩
  · simp only [getLsbD_and, and_eq_true] at hi
    simp [h.zero i hi.1, h'.zero i hi.2]
  · simp only [getLsbD_or, or_eq_true] at hi ⊢
    exact hi.imp (h.one i) (h'.one i)

theorem xor (h' : Knows kz' ko' y) :
    Knows ((kz &&& kz') ||| (ko &&& ko')) ((kz &&& ko') ||| (ko &&& kz')) (x ^^^ y) := by
  refine ⟨fun i hi => ?_, fun i hi => ?_⟩
  · simp only [getLsbD_or, getLsbD_and, or_eq_true, and_eq_true] at hi
    rcases hi with hi | hi
    · simp [h.zero i hi.1, h'.zero i hi.2]
    · simp [h.one i hi.1, h'.one i hi.2]
  · simp only [getLsbD_or, getLsbD_and, or_eq_true, and_eq_true] at hi
    rcases hi with hi | hi
    · simp [h.zero i hi.1, h'.one i hi.2]
    · simp [h.one i hi.1, h'.zero i hi.2]

theorem shiftLeft (hk : k < n) :
    Knows (kz <<< k ||| ((1#n <<< k) - 1#n)) (ko <<< k) (x <<< k) := by
  refine ⟨fun i hi => ?_, fun i hi => ?_⟩
  · rw [getLsbD_or, or_eq_true] at hi
    by_cases hik : i < k
    · simp [hik]
    · rcases hi with hi | hi
      · rw [getLsbD_shiftLeft] at hi
        simp only [and_eq_true] at hi
        simp [h.zero _ hi.2]
      · rw [getLsbD_lowMask hk] at hi
        simp [hik] at hi
  · rw [getLsbD_shiftLeft] at hi ⊢
    simp only [and_eq_true] at hi ⊢
    exact ⟨hi.1, h.one _ hi.2⟩

theorem shiftRight (k : ℕ) :
    Knows (kz >>> k ||| ~~~(BitVec.allOnes n >>> k)) (ko >>> k) (x >>> k) := by
  refine ⟨fun i hi => ?_, fun i hi => ?_⟩
  · rw [getLsbD_or, or_eq_true, getLsbD_ushiftRight] at hi
    rw [getLsbD_ushiftRight]
    rcases hi with hi | hi
    · exact h.zero _ hi
    · simp only [getLsbD_not, getLsbD_ushiftRight, getLsbD_allOnes,
        and_eq_true, decide_eq_true_eq, not_eq_true', decide_eq_false_iff_not] at hi
      exact getLsbD_of_ge _ _ (by omega)
  · rw [getLsbD_ushiftRight] at hi ⊢
    exact h.one _ hi

theorem msb_zero (hz : kz.msb = true) : x.msb = false := by
  rw [msb_eq_getLsbD_last] at hz ⊢
  exact h.zero _ hz

theorem msb_one (ho : ko.msb = true) : x.msb = true := by
  rw [msb_eq_getLsbD_last] at ho ⊢
  exact h.one _ ho

theorem sshiftRight (k : ℕ) :
    Knows (kz.sshiftRight k) (ko.sshiftRight k) (x.sshiftRight k) := by
  refine ⟨fun i hi => ?_, fun i hi => ?_⟩
  · rw [getLsbD_sshiftRight] at hi ⊢
    by_cases hn : n ≤ i
    · simp [hn]
    · by_cases hlt : k + i < n
      · simp only [hn, decide_false, Bool.not_false, hlt, if_true, Bool.true_and] at hi ⊢
        exact h.zero _ hi
      · simp only [hn, decide_false, Bool.not_false, hlt, if_false, Bool.true_and] at hi ⊢
        exact h.msb_zero hi
  · rw [getLsbD_sshiftRight] at hi ⊢
    by_cases hn : n ≤ i
    · simp [hn] at hi
    · by_cases hlt : k + i < n
      · simp only [hn, decide_false, Bool.not_false, hlt, if_true, Bool.true_and] at hi ⊢
        exact h.one _ hi
      · simp only [hn, decide_false, Bool.not_false, hlt, if_false, Bool.true_and] at hi ⊢
        exact h.msb_one hi

theorem mono (hz : Covers kz kz') (ho : Covers ko ko') : Knows kz' ko' x :=
  ⟨fun i hi => h.zero i (hz i hi), fun i hi => h.one i (ho i hi)⟩

theorem not : Knows ko kz (~~~x) := by
  refine ⟨fun i hi => ?_, fun i hi => ?_⟩
  · rw [getLsbD_not, h.one i hi]
    simp
  · rw [getLsbD_not, h.zero i hi]
    simp [lt_of_getLsbD hi]

theorem disjoint : kz &&& ko = 0#n := by
  apply eq_of_getLsbD_eq
  intro i _
  rw [getLsbD_and, getLsbD_zero]
  cases hz : kz.getLsbD i with
  | false => rfl
  | true =>
    cases ho : ko.getLsbD i with
    | false => rfl
    | true => exact absurd (h.one i ho) (by rw [h.zero i hz]; exact false_ne_true)

end

theorem of_disjoint (h : kz &&& ko = 0#n) : Knows kz ko ko := by
  refine ⟨fun i hi => ?_, fun _ hi => hi⟩
  have hbit := congrArg (·.getLsbD i) h
  simpa only [getLsbD_and, getLsbD_zero, hi, Bool.true_and] using hbit

theorem getLsbD_eq (h : Knows kz ko x) {i : ℕ} (hi : (kz ||| ko).getLsbD i = true) :
    x.getLsbD i = ko.getLsbD i := by
  rw [getLsbD_or, or_eq_true] at hi
  cases ho : ko.getLsbD i with
  | true => exact h.one i ho
  | false => exact h.zero i (hi.resolve_right (by rw [ho]; exact false_ne_true))

theorem insert_one (h : Knows kz ko x) (hk : x.getLsbD k = true) :
    Knows kz (ko ||| 1#n <<< k) x := by
  refine ⟨h.zero, fun i hi => ?_⟩
  rw [getLsbD_or, or_eq_true, ← twoPow_eq, getLsbD_twoPow,
    and_eq_true, decide_eq_true_eq, decide_eq_true_eq] at hi
  rcases hi with hi | hi
  · exact h.one i hi
  · rw [← hi.2]
    exact hk

theorem insert_zero (h : Knows kz ko x) (hk : x.getLsbD k = false) :
    Knows (kz ||| 1#n <<< k) ko x := by
  refine ⟨fun i hi => ?_, h.one⟩
  rw [getLsbD_or, or_eq_true, ← twoPow_eq, getLsbD_twoPow,
    and_eq_true, decide_eq_true_eq, decide_eq_true_eq] at hi
  rcases hi with hi | hi
  · exact h.zero i hi
  · rw [← hi.2]
    exact hk

end Knows

end Tinycc.Lib
