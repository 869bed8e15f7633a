import Mathlib.Data.List.Basic
import Mathlib.Data.List.Count
import Mathlib.Algebra.GroupWithZero.Nat

/-!
# Masks in order

The masks of one length with one number of set bits, from the greatest in lexicographic order to the
least, as `prev_permutation` steps through them, and a table that keeps the first value of each key.

* `permutations_first`: the steps from the greatest mask visit all of them.
* `lookup_insertAll`: what such a table holds for a key.
* `pairwise_masksUpTo`: masks of one weight after the other are ordered by weight.
-/

namespace CudaqQec.Combinations

/-! ## Steps -/

/-- The previous permutation of a mask, if there is one. A mask that has none is in increasing order; with
a set bit before it, that bit trades places with the last unset one, and what follows is reversed. -/
@[grind =] def prevPermutation : List Bool → Option (List Bool)
  | [] => none
  | bit :: mask =>
    match prevPermutation mask with
    | some before => some (bit :: before)
    | none =>
      if bit = true ∧ false ∈ mask then some (false :: (mask.erase false ++ [true]).reverse) else none

@[grind =] def value : List Bool → Nat
  | [] => 0
  | bit :: mask => bit.toNat * 2 ^ mask.length + value mask

theorem value_lt (mask : List Bool) : value mask < 2 ^ mask.length := by
  induction mask with
  | nil => simp [value]
  | cons bit mask ih =>
    rw [value, List.length_cons, Nat.pow_succ]
    cases bit <;> simp <;> omega

theorem length_prevPermutation {mask before : List Bool} (h : prevPermutation mask = some before) :
    before.length = mask.length := by
  induction mask generalizing before with
  | nil => cases h
  | cons bit mask ih =>
    rw [prevPermutation] at h
    split at h
    next found heq =>
      cases h
      simp [ih heq]
    next =>
      split at h
      next hbit =>
        cases h
        have := List.length_erase_of_mem hbit.2
        have := List.length_pos_of_mem hbit.2
        simp
        omega
      next => cases h

theorem value_prevPermutation {mask before : List Bool} (h : prevPermutation mask = some before) :
    value before < value mask := by
  induction mask generalizing before with
  | nil => cases h
  | cons bit mask ih =>
    rw [prevPermutation] at h
    split at h
    next found heq =>
      cases h
      rw [value, value, length_prevPermutation heq]
      exact Nat.add_lt_add_left (ih heq) _
    next =>
      split at h
      next hbit =>
        cases h
        have hlen : (mask.erase false ++ [true]).reverse.length = mask.length := by
          have := List.length_erase_of_mem hbit.2
          have := List.length_pos_of_mem hbit.2
          simp
          omega
        have hlt := value_lt (mask.erase false ++ [true]).reverse
        rw [hlen] at hlt
        rw [value, value, hbit.1, hlen]
        simp only [Bool.toNat_false, Bool.toNat_true, Nat.zero_mul, Nat.one_mul, Nat.zero_add]
        omega
      next => cases h

/-- The masks that `do … while (prev_permutation(…))` visits. -/
@[grind =] def permutations (mask : List Bool) : List (List Bool) :=
  mask :: match _h : prevPermutation mask with
    | none => []
    | some before => permutations before
  termination_by value mask
  decreasing_by exact value_prevPermutation _h

/-! ## All masks -/

@[grind =] def masks : Nat → Nat → List (List Bool)
  | 0, 0 => [[]]
  | 0, _ + 1 => []
  | n + 1, 0 => (masks n 0).map (false :: ·)
  | n + 1, k + 1 => (masks n k).map (true :: ·) ++ (masks n (k + 1)).map (false :: ·)

/-- The greatest mask: `k` set bits first. -/
def first (n k : Nat) : List Bool := List.replicate k true ++ List.replicate (n - k) false

def last (n k : Nat) : List Bool := List.replicate (n - k) false ++ List.replicate k true

theorem mem_masks {n k : Nat} {mask : List Bool} :
    mask ∈ masks n k ↔ mask.length = n ∧ mask.count true = k := by
  induction n generalizing k mask with
  | zero =>
    cases k with
    | zero =>
      rw [masks, List.mem_singleton, List.length_eq_zero_iff]
      exact ⟨fun h => by simp [h], And.left⟩
    | succ k =>
      rw [masks, List.length_eq_zero_iff]
      constructor
      · intro h
        cases h
      · rintro ⟨rfl, h⟩
        cases h
  | succ n ih =>
    cases mask with
    | nil => cases k <;> simp [masks]
    | cons bit mask =>
      cases k with
      | zero => cases bit <;> simp [masks, ih]
      | succ k => cases bit <;> simp [masks, ih]

theorem masks_eq_nil {n k : Nat} (h : n < k) : masks n k = [] := by
  rw [List.eq_nil_iff_forall_not_mem]
  intro mask hmem
  obtain ⟨hlen, hcount⟩ := mem_masks.mp hmem
  have := List.count_le_length (a := true) (l := mask)
  omega

theorem getLast?_masks {n k : Nat} (h : k ≤ n) : (masks n k).getLast? = some (last n k) := by
  induction n generalizing k with
  | zero =>
    obtain rfl : k = 0 := by omega
    rfl
  | succ n ih =>
    cases k with
    | zero => simp [masks, last, ih (Nat.zero_le n), List.replicate_succ]
    | succ k =>
      rw [masks, List.getLast?_append, List.getLast?_map, List.getLast?_map]
      by_cases hk : k + 1 ≤ n
      · have hsub : n + 1 - (k + 1) = n - (k + 1) + 1 := by omega
        rw [ih hk, last, last, hsub, List.replicate_succ]
        rfl
      · obtain rfl : k = n := by omega
        rw [masks_eq_nil (Nat.lt_succ_self k), ih (Nat.le_refl k), last, last, Nat.sub_self, Nat.sub_self]
        rfl

/-! ## The steps visit all masks -/

theorem permutations_of_none {mask : List Bool} (h : prevPermutation mask = none) :
    permutations mask = [mask] := by
  rw [permutations]
  split
  · rfl
  next before heq => rw [h] at heq; cases heq

theorem permutations_of_some {mask before : List Bool} (h : prevPermutation mask = some before) :
    permutations mask = mask :: permutations before := by
  rw [permutations]
  split
  next heq => rw [h] at heq; cases heq
  next found heq =>
    rw [h] at heq
    cases heq
    rfl

theorem prevPermutation_of_some {mask before : List Bool} (h : prevPermutation mask = some before)
    (bit : Bool) : prevPermutation (bit :: mask) = some (bit :: before) := by
  rw [prevPermutation, h]

theorem prevPermutation_of_none {mask : List Bool} (h : prevPermutation mask = none) (bit : Bool) :
    prevPermutation (bit :: mask) = if bit = true ∧ false ∈ mask then
      some (false :: (mask.erase false ++ [true]).reverse) else none := by
  rw [prevPermutation, h]

theorem steps_induction {motive : List Bool → Prop}
    (least : ∀ mask, prevPermutation mask = none → motive mask)
    (step : ∀ mask before, prevPermutation mask = some before → motive before → motive mask)
    (mask : List Bool) : motive mask := by
  induction hv : value mask using Nat.strongRecOn generalizing mask with
  | _ v ih =>
    cases h : prevPermutation mask with
    | none => exact least mask h
    | some before =>
      apply step mask before h
      exact ih _ (hv ▸ value_prevPermutation h) before rfl

/-- An unset bit in front stays. -/
theorem permutations_false (mask : List Bool) :
    permutations (false :: mask) = (permutations mask).map (false :: ·) := by
  induction mask using steps_induction with
  | least mask h =>
    have hnone : prevPermutation (false :: mask) = none := by
      rw [prevPermutation_of_none h, if_neg]
      simp
    rw [permutations_of_none hnone, permutations_of_none h]
    rfl
  | step mask before h ih =>
    rw [permutations_of_some (prevPermutation_of_some h false), permutations_of_some h, ih]
    rfl

/-- A set bit in front stays until the rest is at its least. -/
theorem permutations_true (mask : List Bool) {least : List Bool}
    (hlast : (permutations mask).getLast? = some least) :
    permutations (true :: mask) = (permutations mask).map (true :: ·) ++
      if false ∈ least then permutations (false :: (least.erase false ++ [true]).reverse) else [] := by
  induction mask using steps_induction with
  | least mask h =>
    rw [permutations_of_none h, List.getLast?_singleton, Option.some.injEq] at hlast
    subst hlast
    have hprev := prevPermutation_of_none h true
    simp only [true_and] at hprev
    rw [permutations_of_none h]
    split
    next hmem =>
      rw [if_pos hmem] at hprev
      rw [permutations_of_some hprev]
      rfl
    next hmem =>
      rw [if_neg hmem] at hprev
      rw [permutations_of_none hprev]
      rfl
  | step mask before h ih =>
    have hne : permutations before ≠ [] := by
      rw [permutations]
      exact List.cons_ne_nil _ _
    rw [permutations_of_some h, List.getLast?_cons, List.getLast?_eq_some_getLast hne,
      Option.getD_some, ← List.getLast?_eq_some_getLast hne] at hlast
    rw [permutations_of_some (prevPermutation_of_some h true), permutations_of_some h, ih hlast]
    rfl

/-- Where the next block of masks begins. -/
theorem reverse_last {n k : Nat} (h : k < n) :
    ((last n k).erase false ++ [true]).reverse = first n (k + 1) := by
  obtain ⟨d, rfl⟩ : ∃ d, n = k + 1 + d := ⟨n - (k + 1), by omega⟩
  have hsub : k + 1 + d - k = d + 1 := by omega
  have hsub' : k + 1 + d - (k + 1) = d := by omega
  rw [last, first, hsub, hsub', List.replicate_succ, List.cons_append, List.erase_cons_head,
    List.append_assoc, List.reverse_append, List.reverse_append, List.reverse_replicate,
    List.reverse_replicate, List.reverse_singleton, List.replicate_succ]
  rfl

/-- The steps from the greatest mask visit all of them. -/
theorem permutations_first {n k : Nat} (h : k ≤ n) : permutations (first n k) = masks n k := by
  induction n generalizing k with
  | zero =>
    obtain rfl : k = 0 := by omega
    exact permutations_of_none rfl
  | succ n ih =>
    cases k with
    | zero =>
      rw [masks, ← ih (Nat.zero_le n), ← permutations_false]
      rfl
    | succ k =>
      have hfirst : first (n + 1) (k + 1) = true :: first n k := by
        rw [first, first, List.replicate_succ, Nat.add_sub_add_right]
        rfl
      have hrest := ih (show k ≤ n by omega)
      have hlast : (permutations (first n k)).getLast? = some (last n k) := by
        rw [hrest, getLast?_masks (by omega)]
      rw [hfirst, permutations_true _ hlast, hrest, masks]
      by_cases hk : k < n
      · have hmem : false ∈ last n k := by
          rw [last, List.mem_append, List.mem_replicate]
          exact .inl ⟨by omega, rfl⟩
        rw [if_pos hmem, permutations_false, reverse_last hk, ih hk]
      · have hmem : false ∉ last n k := by
          rw [last, show n - k = 0 by omega]
          simp
        have hnil : masks n (k + 1) = [] := masks_eq_nil (by omega)
        rw [if_neg hmem, hnil, List.map_nil]

/-! ## First values -/

section

variable {α κ ν : Type} [BEq κ] [LawfulBEq κ]

def insertAbsent (key : α → κ) (val : α → ν) (table : List (κ × ν)) (a : α) : List (κ × ν) :=
  match table.lookup (key a) with
  | some _ => table
  | none => table ++ [(key a, val a)]

theorem lookup_insertAll (key : α → κ) (val : α → ν) (l : List α) (table : List (κ × ν)) (k : κ) :
    (l.foldl (insertAbsent key val) table).lookup k =
      (table.lookup k).or ((l.find? fun a => key a == k).map val) := by
  induction l generalizing table with
  | nil => simp
  | cons a l ih =>
    rw [List.foldl_cons, ih, List.find?_cons]
    by_cases hk : key a = k
    · subst hk
      rw [beq_self_eq_true, insertAbsent]
      cases hold : table.lookup (key a) with
      | some v => simp [hold]
      | none => simp [hold, List.lookup_append]
    · have hne : (key a == k) = false := by simpa using hk
      have hne' : (k == key a) = false := by simpa using fun h => hk h.symm
      rw [hne, insertAbsent]
      cases hold : table.lookup (key a) with
      | some v => rfl
      | none => simp [List.lookup_append, List.lookup_cons, hne']

end

/-- In a list that is ordered by weight, what is found first has the lowest weight. -/
theorem find?_minimal {α : Type} {l : List α} {weight : α → Nat} {p : α → Bool} {a : α}
    (h : l.Pairwise fun x y => weight x ≤ weight y) (hfind : l.find? p = some a) :
    ∀ x ∈ l, p x = true → weight a ≤ weight x := by
  obtain ⟨-, before, after, rfl, hbefore⟩ := List.find?_eq_some_iff_append.mp hfind
  rw [List.pairwise_append, List.pairwise_cons] at h
  intro x hx hp
  rcases List.mem_append.mp hx with hx | hx
  · have := hbefore x hx
    simp [hp] at this
  · rcases List.mem_cons.mp hx with rfl | hx
    · exact Nat.le_refl _
    · exact h.2.1.1 x hx

def masksUpTo (n k : Nat) : List (List Bool) := (List.range' 1 k).flatMap (masks n)

theorem mem_masksUpTo {n k : Nat} {mask : List Bool} :
    mask ∈ masksUpTo n k ↔ mask.length = n ∧ 1 ≤ mask.count true ∧ mask.count true ≤ k := by
  simp only [masksUpTo, List.mem_flatMap, List.mem_range'_1, mem_masks]
  constructor
  · rintro ⟨w, hw, hlen, hcount⟩
    exact ⟨hlen, by omega, by omega⟩
  · rintro ⟨hlen, hpos, hle⟩
    exact ⟨_, by omega, hlen, rfl⟩

theorem pairwise_masksUpTo (n k : Nat) :
    (masksUpTo n k).Pairwise fun x y => x.count true ≤ y.count true := by
  rw [masksUpTo, List.pairwise_flatMap]
  constructor
  · intro w _
    rw [List.pairwise_iff_forall_sublist]
    intro x y hxy
    have hx : x ∈ masks n w := hxy.subset (by simp)
    have hy : y ∈ masks n w := hxy.subset (by simp)
    exact Nat.le_of_eq ((mem_masks.mp hx).2.trans (mem_masks.mp hy).2.symm)
  · apply List.Pairwise.imp _ List.pairwise_lt_range'
    intro v w hvw x hx y hy
    rw [(mem_masks.mp hx).2, (mem_masks.mp hy).2]
    omega

end CudaqQec.Combinations
