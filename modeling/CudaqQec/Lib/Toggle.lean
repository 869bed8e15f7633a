import Mathlib.Data.List.Basic

/-!
# Bits that are flipped

A vector of bits to which flips are applied one after another. Flips commute and cancel in pairs, so
only how often each position is flipped matters, modulo two.

* `flipAll_eq`: a list of flips is one XOR.
-/

namespace CudaqQec.Toggle

/-- Flip one bit; a position past the end is no bit. -/
def flipAt (bits : List Bool) (i : Nat) : List Bool := bits.modify i not

def flipAll (bits : List Bool) (flips : List Nat) : List Bool := flips.foldl flipAt bits

def xorBits (a b : List Bool) : List Bool := List.zipWith xor a b

def flipped (n : Nat) (flips : List Nat) : List Bool :=
  (List.range n).map fun k => decide (flips.count k % 2 = 1)

variable {bits a b c : List Bool} {flips : List Nat}

@[simp] theorem length_flipAt (i : Nat) : (flipAt bits i).length = bits.length := by
  simp [flipAt]

@[simp] theorem length_flipAll : (flipAll bits flips).length = bits.length := by
  induction flips generalizing bits with
  | nil => rfl
  | cons i flips ih =>
    rw [flipAll, List.foldl_cons]
    exact ih.trans (length_flipAt i)

theorem flipAll_append (flips flips' : List Nat) :
    flipAll bits (flips ++ flips') = flipAll (flipAll bits flips) flips' :=
  List.foldl_append

theorem getElem?_flipAt (i k : Nat) :
    (flipAt bits i)[k]? = bits[k]?.map (· ^^ decide (i = k)) := by
  rw [flipAt, List.getElem?_modify]
  by_cases hi : i = k
  · simp [hi]
  · simp [hi]

/-- A bit is turned over once for each flip that names it. -/
theorem getElem?_flipAll (k : Nat) :
    (flipAll bits flips)[k]? = bits[k]?.map (· ^^ decide (flips.count k % 2 = 1)) := by
  induction flips generalizing bits with
  | nil => simp [flipAll]
  | cons i flips ih =>
    have hcons : flipAll bits (i :: flips) = flipAll (flipAt bits i) flips := rfl
    rw [hcons, ih, getElem?_flipAt, Option.map_map, List.count_cons]
    congr 1
    funext bit
    by_cases hi : i = k
    · rcases Nat.mod_two_eq_zero_or_one (flips.count k) with h | h <;> simp [hi, h, Nat.add_mod]
    · simp [hi]

theorem flipAll_eq (bits : List Bool) (flips : List Nat) :
    flipAll bits flips = xorBits bits (flipped bits.length flips) := by
  apply List.ext_getElem?
  intro k
  rw [getElem?_flipAll, xorBits, List.getElem?_zipWith, flipped, List.getElem?_map]
  by_cases hk : k < bits.length
  · simp [hk]
  · simp [hk]

theorem xorBits_replicate (a : List Bool) : xorBits (List.replicate a.length false) a = a := by
  induction a with
  | nil => rfl
  | cons x a ih => simpa [xorBits, List.replicate_succ] using ih

theorem xorBits_comm (a b : List Bool) : xorBits a b = xorBits b a := by
  unfold xorBits
  rw [List.zipWith_comm]
  congr 1
  funext x y
  exact Bool.xor_comm y x

/-- What is added twice is gone. -/
theorem xorBits_cancel (h : a.length = b.length) : xorBits a (xorBits b a) = b := by
  induction a generalizing b with
  | nil => simp [xorBits, List.length_eq_zero_iff.mp h.symm]
  | cons x a ih =>
    cases b with
    | nil => cases h
    | cons y b =>
      have htail := ih (Nat.succ.inj h)
      simp only [xorBits, List.zipWith_cons_cons] at htail ⊢
      rw [htail]
      cases x <;> cases y <;> rfl

theorem length_xorBits (h : a.length = b.length) : (xorBits a b).length = a.length := by
  simp [xorBits, h]

/-- XOR with a fixed vector forgets nothing. -/
theorem xorBits_right_inj (hb : b.length = a.length) (hc : c.length = a.length) :
    xorBits a b = xorBits a c ↔ b = c := by
  induction a generalizing b c with
  | nil => simp [List.length_eq_zero_iff.mp hb, List.length_eq_zero_iff.mp hc]
  | cons x a ih =>
    cases b with
    | nil => cases hb
    | cons y b =>
      cases c with
      | nil => cases hc
      | cons z c =>
        have := ih (Nat.succ.inj hb) (Nat.succ.inj hc)
        simp only [xorBits, List.zipWith_cons_cons, List.cons.injEq] at this ⊢
        rw [this]
        cases x <;> simp

end CudaqQec.Toggle
