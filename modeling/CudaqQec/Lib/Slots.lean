import Mathlib.Data.List.Basic
import Mathlib.Data.Nat.Log
import Mathlib.Algebra.GroupWithZero.Nat

/-!
# Slotted memory

A buffer is a flat memory cut into slots of one width: entry `i` of slot `s` lies at `s * w + i`.
Items are numbered in the order they are written and item `q` goes to slot `q % n`, so a buffer of
`n` slots keeps any `n` items in a row apart.

* `write`, `read`: copying a list into memory and out of it.
* `write_slot`, `write_other_slot`: what a write into a slot changes, and what it leaves.
* `mod_ne_of_near`: items less than a buffer apart have different slots.
-/

namespace CudaqQec.Slots

variable {α : Type}

def write (mem : Nat → α) (a : Nat) (xs : List α) : Nat → α :=
  fun i => if a ≤ i then (xs[i - a]?).getD (mem i) else mem i

def read (mem : Nat → α) (a n : Nat) : List α := (List.range n).map fun i => mem (a + i)

@[simp] theorem length_read (mem : Nat → α) (a n : Nat) : (read mem a n).length = n := by
  simp [read]

theorem getElem?_read {mem : Nat → α} {a n i : Nat} (h : i < n) :
    (read mem a n)[i]? = some (mem (a + i)) := by
  simp [read, h]

/-- Two memories that agree on a stretch read alike there. -/
theorem read_congr {mem mem' : Nat → α} {a a' n : Nat} (h : ∀ i < n, mem (a + i) = mem' (a' + i)) :
    read mem a n = read mem' a' n :=
  List.map_congr_left fun i hi => h i (List.mem_range.mp hi)

theorem read_eq_of_getElem? {mem : Nat → α} {a : Nat} {xs : List α}
    (h : ∀ i < xs.length, xs[i]? = some (mem (a + i))) : read mem a xs.length = xs := by
  apply List.ext_getElem?
  intro i
  by_cases hi : i < xs.length
  · rw [getElem?_read hi, h i hi]
  · rw [List.getElem?_eq_none (by simpa using hi), List.getElem?_eq_none (by simpa using hi)]

theorem write_apply (mem : Nat → α) (a i : Nat) (xs : List α) :
    write mem a xs (a + i) = (xs[i]?).getD (mem (a + i)) := by
  simp [write]

theorem write_of_lt {mem : Nat → α} {a i : Nat} {xs : List α} (h : i < a) :
    write mem a xs i = mem i := if_neg (by omega)

theorem write_of_le {mem : Nat → α} {a i : Nat} {xs : List α} (h : a + xs.length ≤ i) :
    write mem a xs i = mem i := by
  unfold write
  split
  · rw [List.getElem?_eq_none (by omega), Option.getD_none]
  · rfl

theorem read_write (mem : Nat → α) (a : Nat) (xs : List α) :
    read (write mem a xs) a xs.length = xs := by
  refine read_eq_of_getElem? fun i hi => ?_
  rw [write_apply, List.getElem?_eq_getElem hi, Option.getD_some]

/-! ## Slots -/

/-- Slots of one width do not overlap. -/
theorem slot_lt {w s s' i j : Nat} (hi : i < w) (hs : s < s') : s * w + i < s' * w + j := by
  have h : (s + 1) * w ≤ s' * w := Nat.mul_le_mul_right w hs
  have e : (s + 1) * w = s * w + w := Nat.succ_mul s w
  omega

theorem write_other_slot {mem : Nat → α} {w s s' o i : Nat} {xs : List α} (h : o + xs.length ≤ w)
    (hi : i < w) (hs : s' ≠ s) : write mem (s * w + o) xs (s' * w + i) = mem (s' * w + i) := by
  rcases Nat.lt_or_gt_of_ne hs with hlt | hgt
  · exact write_of_lt (slot_lt (j := o) hi hlt)
  · apply write_of_le
    have hmul : (s + 1) * w ≤ s' * w := Nat.mul_le_mul_right w hgt
    have e : (s + 1) * w = s * w + w := Nat.succ_mul s w
    omega

/-- A write past the first entries of a slot leaves them. -/
theorem write_slot_before {mem : Nat → α} {w s o i : Nat} {xs : List α} (hi : i < o) :
    write mem (s * w + o) xs (s * w + i) = mem (s * w + i) := write_of_lt (by omega)

theorem write_slot (mem : Nat → α) (w s o i : Nat) (xs : List α) :
    write mem (s * w + o) xs (s * w + (o + i)) = (xs[i]?).getD (mem (s * w + (o + i))) := by
  rw [← Nat.add_assoc]
  exact write_apply mem _ i xs

/-- Items less than a buffer apart have different slots. -/
theorem mod_ne_of_near {n a b : Nat} (h : a < b) (hn : b < a + n) : a % n ≠ b % n := by
  intro heq
  have hd : n ∣ b - a := Nat.dvd_of_mod_eq_zero (Nat.sub_mod_eq_zero_of_mod_eq heq.symm)
  have := Nat.le_of_dvd (by omega) hd
  omega

/-! ## Powers of two -/

@[grind =] def doubleUntil (n : Nat) : Nat → Nat → Nat
  | 0, p => p
  | fuel + 1, p => if p < n then doubleUntil n fuel (2 * p) else p

/-- The least power of two not below `n`; it takes fewer than `n` doublings. -/
def powerOfTwoAtLeast (n : Nat) : Nat := doubleUntil n n 1

theorem doubleUntil_spec {n : Nat} (fuel m : Nat) (h : n ≤ 2 ^ m * 2 ^ fuel) :
    ∃ m', doubleUntil n fuel (2 ^ m) = 2 ^ m' ∧ n ≤ 2 ^ m' := by
  induction fuel generalizing m with
  | zero => exact ⟨m, rfl, by simpa using h⟩
  | succ fuel ih =>
    unfold doubleUntil
    split
    · rw [← Nat.pow_succ']
      refine ih (m + 1) ?_
      rw [Nat.pow_succ 2 fuel] at h
      rw [Nat.pow_succ 2 m, Nat.mul_assoc, Nat.mul_comm 2 (2 ^ fuel)]
      exact h
    · exact ⟨m, rfl, by omega⟩

theorem powerOfTwoAtLeast_spec (n : Nat) :
    ∃ m, powerOfTwoAtLeast n = 2 ^ m ∧ n ≤ 2 ^ m := by
  have h : n ≤ 2 ^ 0 * 2 ^ n := by
    have := Nat.lt_two_pow_self (n := n)
    omega
  exact doubleUntil_spec n 0 h

/-- Masking with one less than a power of two is the remainder. -/
theorem land_powerOfTwoAtLeast (n r : Nat) :
    r &&& (powerOfTwoAtLeast n - 1) = r % powerOfTwoAtLeast n := by
  obtain ⟨m, hm, -⟩ := powerOfTwoAtLeast_spec n
  rw [hm, Nat.and_two_pow_sub_one_eq_mod]

end CudaqQec.Slots
