import Mathlib.Data.Fintype.Pigeonhole
import Mathlib.Data.List.GetD
import Mathlib.Dynamics.PeriodicPts.Defs
import Tinycc.Obj.Yaff

namespace Tinycc
open Lib Function

/-- A walk along `f` leaves a finite set unless it comes back to where it has been. -/
theorem Lib.exists_not_iterate_iff {f : ℕ → ℕ} {P : ℕ → Prop} {n : ℕ} (hP : ∀ x, P x → x < n)
    (x : ℕ) : (∃ k, ¬P (f^[k] x)) ↔
      ∀ k p, 0 < p → (∀ m < k + p, P (f^[m] x)) → f^[k + p] x ≠ f^[k] x := by
  constructor
  · rintro ⟨m, hm⟩ k p hp hall heq
    have hper : IsPeriodicPt f p (f^[k] x) := by
      rwa [IsPeriodicPt, IsFixedPt, ← iterate_add_apply, Nat.add_comm]
    rcases Nat.lt_or_ge m (k + p) with hlt | hge
    · exact hm (hall m hlt)
    · have hmod := hper.iterate_mod_apply (m - k)
      rw [← iterate_add_apply, ← iterate_add_apply, Nat.sub_add_cancel (by omega)] at hmod
      have := Nat.mod_lt (m - k) hp
      exact hm (hmod ▸ hall _ (by omega))
  · intro hne
    by_contra! hall
    obtain ⟨a, b, hab, heq⟩ := Finite.exists_ne_map_eq_of_infinite
      fun k => (⟨f^[k] x, hP _ (hall k)⟩ : Fin n)
    have heq : f^[a] x = f^[b] x := congrArg Fin.val heq
    rcases Nat.lt_or_gt_of_ne hab with h | h
    · exact hne a (b - a) (by omega) (fun m _ => hall m) (by rw [Nat.add_sub_cancel' h.le, heq])
    · exact hne b (a - b) (by omega) (fun m _ => hall m) (by rw [Nat.add_sub_cancel' h.le, heq])

theorem Lib.ite_error_eq_ok {ε α : Type*} {c : Prop} [Decidable c] {e : ε} {x : Except ε α} {a : α} :
    (if c then .error e else x) = .ok a ↔ ¬c ∧ x = .ok a := by
  split <;> simp [*]

namespace YaffLib

def bucketOf (lib : YaffLib) (h : BitVec 32) : ℕ := lib.bucket.getD (h.toNat % lib.nbucket) 0

def chainOf (lib : YaffLib) (i : ℕ) : ℕ := lib.chain.getD i 0

/-- What the loop reads for the symbol is in the buffers, the name with its final zero. -/
def Readable (lib : YaffLib) (i : ℕ) : Prop :=
  i < lib.lookup.length ∧ i < lib.chain.length ∧ lib.lookup.getD i 0 + 4 ≤ lib.region.length ∧
    0#8 ∈ lib.region.drop (lib.lookup.getD i 0 + 4)

def Passes (lib : YaffLib) (name : SymName) (i : ℕ) : Prop :=
  i ≠ 0 ∧ i < lib.nsyms ∧ lib.nameAt i ≠ name

/-- A run of the loop of `yaff_lib_find` that ends, and the symbol that it returns. -/
inductive FindRun (lib : YaffLib) (name : SymName) : ℕ → Option ℕ → Prop
  | stop {i : ℕ} : i = 0 ∨ lib.nsyms ≤ i → FindRun lib name i none
  | found {i : ℕ} : i ≠ 0 → i < lib.nsyms → lib.Readable i → lib.nameAt i = name →
      FindRun lib name i (some i)
  | next {i : ℕ} {r : Option ℕ} : lib.Passes name i → lib.Readable i →
      FindRun lib name (lib.chainOf i) r → FindRun lib name i r

variable {lib : YaffLib} {name : SymName} {i : ℕ} {r : Option ℕ} {file : Bytes} {header : YaffHeader}

theorem FindRun.findFrom_eq (h : lib.FindRun name i r) : (∀ k ∈ r, lib.nameAt k = name) ∧
    ∃ n, ∀ fuel, lib.findFrom name (n + fuel) i = r.map lib.entryAt := by
  induction h with
  | stop hi =>
    refine ⟨by simp, 1, fun fuel => ?_⟩
    rw [Nat.add_comm, findFrom]
    rcases hi with rfl | hi <;> simp [*]
  | found h0 hlt _ hname =>
    refine ⟨by simpa using hname, 1, fun fuel => ?_⟩
    rw [Nat.add_comm, findFrom, if_neg h0, if_neg (by omega), if_pos hname, Option.map_some]
  | next hi _ _ ih =>
    obtain ⟨hr, n, hn⟩ := ih
    refine ⟨hr, n + 1, fun fuel => ?_⟩
    rw [Nat.add_right_comm, findFrom, if_neg hi.1, if_neg (by have := hi.2.1; omega),
      if_neg hi.2.2]
    exact hn fuel

theorem exists_findRun_of (hread : ∀ i < lib.nsyms, lib.Readable i)
    (h : lib.Passes name i → ∃ r, lib.FindRun name (lib.chainOf i) r) :
    ∃ r, lib.FindRun name i r := by
  by_cases hi : i = 0 ∨ lib.nsyms ≤ i
  · exact ⟨none, .stop hi⟩
  · obtain ⟨h0, hlt⟩ : i ≠ 0 ∧ i < lib.nsyms := by omega
    by_cases hname : lib.nameAt i = name
    · exact ⟨some i, .found h0 hlt (hread i hlt) hname⟩
    · obtain ⟨r, hr⟩ := h ⟨h0, hlt, hname⟩
      exact ⟨r, .next ⟨h0, hlt, hname⟩ (hread i hlt) hr⟩

theorem exists_findRun_iff (hread : ∀ i < lib.nsyms, lib.Readable i) :
    (∃ r, lib.FindRun name i r) ↔ ∃ k, ¬lib.Passes name (lib.chainOf^[k] i) := by
  constructor
  · rintro ⟨r, h⟩
    induction h with
    | stop hi => exact ⟨0, fun h => hi.elim h.1 (Nat.not_le.mpr h.2.1)⟩
    | found _ _ _ hname => exact ⟨0, fun h => h.2.2 hname⟩
    | next _ _ _ ih =>
      obtain ⟨k, hk⟩ := ih
      exact ⟨k + 1, hk⟩
  · rintro ⟨k, hk⟩
    induction k generalizing i with
    | zero => exact exists_findRun_of hread fun h => absurd h hk
    | succ k ih => exact exists_findRun_of hread fun _ => ih hk

theorem readable_of_read (hread : yaffLibReadExports file header = .ok lib) :
    0 < lib.nbucket ∧ lib.bucket.length = lib.nbucket ∧ ∀ i < lib.nsyms, lib.Readable i := by
  unfold yaffLibReadExports at hread
  simp only [bind, Except.bind, pure, Except.pure, throw, throwThe, MonadExceptOf.throw,
    ite_error_eq_ok, Except.ok.injEq] at hread
  obtain ⟨_, _, _, hregion, _, hlookup, _, hhdr, _, rfl⟩ := hread
  refine ⟨by dsimp only; omega, by simp [leArray], fun i hi => ?_⟩
  dsimp only at hi
  have hlen : i < (leArray 2 (bytesAt file header.exportedSymbolsLookupOffset
      (2 * header.exportedSymbolsAmount)) header.exportedSymbolsAmount).length := by simpa [leArray]
  simp only [List.any_eq_true, not_exists, not_and, decide_eq_true_eq] at hlookup
  have hoff := hlookup _ (List.getElem_mem hlen)
  unfold Readable
  rw [List.getD_eq_getElem _ _ hlen]
  refine ⟨hlen, by simp [leArray]; omega, ?_, ?_⟩
  · rw [List.length_append]
    omega
  · rw [List.drop_append_of_le_length (by omega)]
    simp

end YaffLib

open YaffLib in
/-- A search ends with every read in bounds, and with nothing or a symbol of the name, exactly if
its chain does not come back to a symbol that it has passed. -/
theorem yaffLibFind_iff {file : Bytes} {header : YaffHeader} {lib : YaffLib}
    (hread : yaffLibReadExports file header = .ok lib) (h : BitVec 32) (name : SymName) :
    (0 < lib.nbucket ∧ h.toNat % lib.nbucket < lib.bucket.length ∧
      ∃ r, lib.FindRun name (lib.bucketOf h) r ∧ (∀ k ∈ r, lib.nameAt k = name) ∧
        ∃ n, ∀ fuel, lib.findFrom name (n + fuel) (lib.bucketOf h) = r.map lib.entryAt) ↔
    ∀ k p, 0 < p → (∀ m < k + p, lib.Passes name (lib.chainOf^[m] (lib.bucketOf h))) →
      lib.chainOf^[k + p] (lib.bucketOf h) ≠ lib.chainOf^[k] (lib.bucketOf h) := by
  obtain ⟨hpos, hlen, hall⟩ := readable_of_read hread
  rw [← exists_not_iterate_iff (fun x hx => hx.2.1), ← exists_findRun_iff hall, hlen]
  constructor
  · rintro ⟨_, _, r, hr, _⟩
    exact ⟨r, hr⟩
  · rintro ⟨r, hr⟩
    exact ⟨hpos, Nat.mod_lt _ hpos, r, hr, hr.findFrom_eq⟩

/-- A library that exports `y`, whose chain goes on at `next`. -/
def chainFile (next : ℕ) : Bytes :=
  cName "YAFF" ++ [2, 0, 0, 5] ++ List.replicate 22 0 ++ [4, 0, 0, 0, 0, 0] ++
    [0, 0, 0, 0, 2, 0, 0, 0, 0, 0, 0, 136, 136, 136, 176, 152, 152, 156, 156, 0, 0, 0, 0, 0,
      0].flatMap (leBytes 4) ++
    nullRecord ++ symbolRecord 4 ⟨0, 0, 0⟩ (cName "y") ++ [0, 8].flatMap (leBytes 2) ++
    [1, 2, 1, 0, next].flatMap (leBytes 4)

theorem yaffLibFind_iff_ends : ∃ lib, tccLoadYaff "liby.so" (chainFile 0) = .ok (some lib) ∧
    ∃ r, lib.FindRun (cName "x") (lib.bucketOf 0#32) r := by
  obtain ⟨lib, hload, hlib, hnext⟩ : ∃ lib, tccLoadYaff "liby.so" (chainFile 0) = .ok (some lib) ∧
    yaffLibReadExports (chainFile 0) (.ofBytes (chainFile 0)) = .ok lib ∧
    lib.chainOf (lib.bucketOf 0#32) = 0 ∧ lib.bucketOf 0#32 = 1 := ⟨_, rfl, rfl, rfl, rfl⟩
  obtain ⟨_, _, r, hr, _⟩ := (yaffLibFind_iff hlib 0#32 (cName "x")).mpr fun k p hp hall heq => by
    rcases Nat.lt_or_ge 1 (k + p) with h | h
    · exact (hall 1 h).1 hnext.1
    · obtain ⟨rfl, rfl⟩ : k = 0 ∧ p = 1 := by omega
      exact Nat.zero_ne_one (hnext.1.symm.trans (heq.trans hnext.2))
  exact ⟨lib, hload, r, hr⟩

/-- The library with its symbol linked to itself is loaded, and the search for `x` does not end. -/
theorem yaffLibFind_loops :
    ∃ filename file lib, tccLoadYaff filename file = .ok (some lib) ∧
      yaffLibReadExports file (.ofBytes file) = .ok lib ∧
      ∃ name, ∀ r, ¬lib.FindRun name (lib.bucketOf (tccYaffHash true name)) r := by
  obtain ⟨lib, hload, hlib, hpass⟩ : ∃ lib,
    tccLoadYaff "liby.so" (chainFile 1) = .ok (some lib) ∧
    yaffLibReadExports (chainFile 1) (.ofBytes (chainFile 1)) = .ok lib ∧
    lib.Passes (cName "x") 1 ∧ lib.chainOf 1 = 1 ∧
      lib.bucketOf (tccYaffHash true (cName "x")) = 1 :=
    ⟨_, rfl, rfl, ⟨by decide, by decide, by decide⟩, rfl, rfl⟩
  refine ⟨_, _, lib, hload, hlib, cName "x", fun r hr => ?_⟩
  rw [hpass.2.2] at hr
  generalize hi : 1 = i at hr
  induction hr with
  | stop h =>
    have := hpass.1.2.1
    omega
  | found _ _ _ hname => exact hpass.1.2.2 (hi ▸ hname)
  | next _ _ _ ih => exact ih (hi ▸ hpass.2.1.symm)

end Tinycc
