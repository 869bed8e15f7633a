import Mathlib.Data.List.Basic

/-!
# The last elements of a stream

A ring of fixed capacity is written at `next`, which then moves on by one place and from the last place
to the first. Once the ring is full the oldest element is at `next`. `Holds` says so against the whole
stream; a stream may also be cut short on the way, as long as a ringful of elements follows.
-/

namespace CudaqQec.LastKept

variable {α : Type}

def place (capacity next j : Nat) : Nat :=
  if capacity ≤ next + j then next + j - capacity else next + j

def moved (capacity next : Nat) : Nat := if next + 1 = capacity then 0 else next + 1

/-- The last `capacity` elements of a stream are in the ring, the oldest at `next`. -/
structure Holds (capacity : Nat) (kept : List α) (next : Nat) (stream : List α) : Prop where
  length : kept.length = capacity
  next_lt : next < capacity
  last : ∀ j < capacity, capacity ≤ stream.length + j →
    kept[place capacity next j]? = stream[stream.length + j - capacity]?

variable {capacity next : Nat} {kept stream : List α}

/-- The places after the next one are those after this one, with this one last. -/
theorem place_moved {j : Nat} (hj : j < capacity) :
    place capacity (moved capacity next) j =
      if j + 1 = capacity then next else place capacity next (j + 1) := by
  unfold place moved
  split_ifs <;> omega

theorem place_succ_ne {j : Nat} (hj : j + 1 < capacity) :
    place capacity next (j + 1) ≠ next := by
  unfold place
  split <;> omega

/-- A ring holds the last elements of the empty stream, whatever is in it. -/
theorem holds_nil (hlength : kept.length = capacity) (hnext : next < capacity) :
    Holds capacity kept next [] where
  length := hlength
  next_lt := hnext
  last j hj hle := by
    rw [List.length_nil, Nat.zero_add] at hle
    omega

theorem Holds.push (h : Holds capacity kept next stream) (b : α) :
    Holds capacity (kept.set next b) (moved capacity next) (stream ++ [b]) where
  length := by rw [List.length_set, h.length]
  next_lt := by
    have := h.next_lt
    unfold moved
    split <;> omega
  last j hj hle := by
    have hnext := h.next_lt
    rw [List.length_append, List.length_singleton] at hle ⊢
    rw [place_moved hj]
    split
    · next hlast =>
      -- the newest element is the last one
      rw [List.getElem?_set_self (by rw [h.length]; exact hnext),
        show stream.length + 1 + j - capacity = stream.length by omega, List.getElem?_concat_length]
    · next hbefore =>
      have hj' : j + 1 < capacity := by omega
      rw [List.getElem?_set_ne (place_succ_ne hj').symm, h.last (j + 1) hj' (by omega),
        List.getElem?_append_left (by omega)]
      congr 1
      omega

theorem Holds.of_append {skipped rest : List α} (h : Holds capacity kept next (stream ++ rest))
    (hfull : capacity ≤ rest.length) : Holds capacity kept next (skipped ++ rest) where
  length := h.length
  next_lt := h.next_lt
  last j hj hle := by
    have hlast := h.last j hj (by rw [List.length_append]; omega)
    rw [List.length_append, List.getElem?_append_right (by omega)] at hlast
    rw [List.length_append, List.getElem?_append_right (by omega), hlast]
    congr 1
    omega

end CudaqQec.LastKept
