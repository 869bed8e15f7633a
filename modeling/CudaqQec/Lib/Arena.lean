import Mathlib.Data.List.Basic

/-!
# Arenas

An arena only grows, at its end, and what is put into it is known by an offset and a count. Slices that
were each begun where the arena ended lie apart (`Laid`), keep their content while the arena grows, and
keep it while the content of another one is overwritten.
-/

namespace CudaqQec.Arena

variable {α : Type} {arena arena' new : List α} {s t : Nat × Nat} {slices : List (Nat × Nat)}

/-- The content of a slice: an offset and a count. -/
def slice (arena : List α) (s : Nat × Nat) : List α := (arena.drop s.1).take s.2

/-- A slice lies in front of another one; an empty slice is nowhere. -/
def Apart (a b : Nat × Nat) : Prop := 0 < a.2 → 0 < b.2 → a.1 + a.2 ≤ b.1

/-- A slice that is new in an arena that has grown. -/
def Slot (arena arena' : List α) (s : Nat × Nat) : Prop :=
  0 < s.2 → arena.length ≤ s.1 ∧ s.1 + s.2 ≤ arena'.length

/-- Slices of an arena, one behind the other. -/
structure Laid (arena : List α) (slices : List (Nat × Nat)) : Prop where
  apart : slices.Pairwise Apart
  inside : ∀ s ∈ slices, 0 < s.2 → s.1 + s.2 ≤ arena.length

theorem length_slice (h : s.1 + s.2 ≤ arena.length) : (slice arena s).length = s.2 := by
  rw [slice, List.length_take, List.length_drop]
  omega

theorem slice_append_self : slice (arena ++ new) (arena.length, new.length) = new := by
  rw [slice, List.drop_left, List.take_length]

theorem slice_of_grown (h : s.1 + s.2 ≤ arena.length) (hp : arena <+: arena') :
    slice arena' s = slice arena s := by
  obtain ⟨rest, rfl⟩ := hp
  rw [slice, List.drop_append_of_le_length (by omega), List.take_append_of_le_length (by simp; omega),
    slice]

theorem slice_grow {offset count : Nat} (h : offset + count = arena.length) :
    slice (arena ++ new) (offset, count + new.length) = slice arena (offset, count) ++ new := by
  rw [slice, slice, List.drop_append_of_le_length (by omega), List.take_of_length_le (by simp; omega),
    List.take_of_length_le (by simp; omega)]

theorem slot_none (h : s.2 = 0) : Slot arena arena' s := fun hpos => by omega

theorem slot_append : Slot arena (arena ++ new) (arena.length, new.length) :=
  fun _ => ⟨Nat.le_refl _, by simp⟩

theorem laid_nil (arena : List α) : Laid arena [] := ⟨.nil, by simp⟩

theorem Laid.append (h : Laid arena slices) (hp : arena <+: arena') (hs : Slot arena arena' s) :
    Laid arena' (slices ++ [s]) := by
  refine ⟨List.pairwise_append.mpr ⟨h.apart, List.pairwise_singleton _ _, ?_⟩, ?_⟩
  · intro t ht u hu hpos hpos'
    obtain rfl := List.mem_singleton.mp hu
    exact Nat.le_trans (h.inside t ht hpos) (hs hpos').1
  · intro t ht hpos
    rcases List.mem_append.mp ht with ht | ht
    · exact Nat.le_trans (h.inside t ht hpos) hp.length_le
    · obtain rfl := List.mem_singleton.mp ht
      exact (hs hpos).2

/-! ## Overwriting -/

def overwrite (arena : List α) (offset : Nat) (new : List α) : List α :=
  arena.take offset ++ (new ++ arena.drop (offset + new.length))

theorem overwrite_append (front : List α) {old : List α} (rest : List α)
    (h : new.length = old.length) :
    overwrite (front ++ (old ++ rest)) front.length new = front ++ (new ++ rest) := by
  rw [overwrite, List.take_left, List.drop_append, h]
  simp

theorem length_overwrite {offset : Nat} (h : offset + new.length ≤ arena.length) :
    (overwrite arena offset new).length = arena.length := by
  simp only [overwrite, List.length_append, List.length_take, List.length_drop]
  omega

theorem getElem?_overwrite {offset : Nat} (h : offset + new.length ≤ arena.length) (i : Nat) :
    (overwrite arena offset new)[i]? =
      if offset ≤ i ∧ i < offset + new.length then new[i - offset]? else arena[i]? := by
  have hlen : (arena.take offset).length = offset := by
    rw [List.length_take]
    omega
  unfold overwrite
  by_cases hi : i < offset
  · rw [List.getElem?_append_left (by omega), List.getElem?_take, if_pos hi, if_neg (by omega)]
  · rw [List.getElem?_append_right (by omega), hlen]
    by_cases hin : i < offset + new.length
    · rw [List.getElem?_append_left (by omega), if_pos ⟨by omega, hin⟩]
    · rw [List.getElem?_append_right (by omega), List.getElem?_drop, if_neg (by omega)]
      congr 1
      omega

theorem getElem?_slice (i : Nat) : (slice arena s)[i]? = if i < s.2 then arena[s.1 + i]? else none := by
  rw [slice, List.getElem?_take]
  split
  · rw [List.getElem?_drop]
  · rfl

/-- What is overwritten in one slice leaves another one as it is. -/
theorem slice_overwrite_of_apart {offset : Nat} (h : offset + new.length ≤ arena.length)
    (hs : s.1 + s.2 ≤ offset ∨ offset + new.length ≤ s.1) :
    slice (overwrite arena offset new) s = slice arena s := by
  refine List.ext_getElem? fun i => ?_
  rw [getElem?_slice, getElem?_slice]
  split
  · rw [getElem?_overwrite h, if_neg (by omega)]
  · rfl

/-- What is overwritten in a slice is overwritten in its content. -/
theorem slice_overwrite_inside {offset : Nat} (h : s.1 + s.2 ≤ arena.length)
    (hin : offset + new.length ≤ s.2) :
    slice (overwrite arena (s.1 + offset) new) s = overwrite (slice arena s) offset new := by
  have hlen := length_slice h
  refine List.ext_getElem? fun i => ?_
  rw [getElem?_slice, getElem?_overwrite (by omega), getElem?_overwrite (by omega), getElem?_slice]
  split
  · by_cases hi : offset ≤ i ∧ i < offset + new.length
    · rw [if_pos (by omega), if_pos hi]
      congr 1
      omega
    · rw [if_neg (by omega), if_neg hi]
  · rw [if_neg (by omega)]

/-- Only the last of two writes to one place is seen. -/
theorem overwrite_overwrite {offset : Nat} {new' : List α} (hlen : new'.length = new.length)
    (h : offset + new.length ≤ arena.length) :
    overwrite (overwrite arena offset new) offset new' = overwrite arena offset new' := by
  refine List.ext_getElem? fun i => ?_
  have hkeep := length_overwrite h
  rw [getElem?_overwrite (by omega), getElem?_overwrite (by omega), getElem?_overwrite (by omega)]
  split
  · rfl
  · rw [if_neg (by omega)]

end CudaqQec.Arena
