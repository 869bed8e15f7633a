import Mathlib.Data.List.Sort
import Mathlib.Data.List.Perm.Basic

/-!
# Parities of bytes

The low bits of a memory of bytes, XORed over a list of positions. A position listed twice cancels,
and the order of the list does not matter: `cancelPairs` sorts a list and drops its pairs without
changing any parity.
-/

namespace CudaqQec.Parity

def parity (read : Nat → UInt8) (l : List Nat) : UInt8 :=
  l.foldl (fun value i => value ^^^ (read i &&& 1)) 0

variable {read : Nat → UInt8}

private theorem foldl_parity (l : List Nat) (value : UInt8) :
    l.foldl (fun value i => value ^^^ (read i &&& 1)) value = value ^^^ parity read l := by
  induction l generalizing value with
  | nil => simp [parity]
  | cons i l ih =>
    rw [parity, List.foldl_cons, List.foldl_cons, ih, ih (0 ^^^ _), UInt8.zero_xor,
      UInt8.xor_assoc]

@[simp] theorem parity_nil : parity read [] = 0 := rfl

@[simp] theorem parity_cons (i : Nat) (l : List Nat) :
    parity read (i :: l) = (read i &&& 1) ^^^ parity read l := by
  rw [parity, List.foldl_cons, foldl_parity, UInt8.zero_xor]

@[simp] theorem parity_append (l l' : List Nat) :
    parity read (l ++ l') = parity read l ^^^ parity read l' := by
  rw [parity, List.foldl_append, foldl_parity]
  rfl

theorem parity_congr {read' : Nat → UInt8} {l : List Nat} (h : ∀ i ∈ l, read i = read' i) :
    parity read l = parity read' l := by
  induction l with
  | nil => rfl
  | cons i l ih =>
    rw [parity_cons, parity_cons, h i (by simp), ih fun j hj => h j (by simp [hj])]

theorem parity_perm {l l' : List Nat} (h : l.Perm l') : parity read l = parity read l' := by
  induction h with
  | nil => rfl
  | cons i _ ih => rw [parity_cons, parity_cons, ih]
  | swap i j l =>
    rw [parity_cons, parity_cons, parity_cons, parity_cons, ← UInt8.xor_assoc, ← UInt8.xor_assoc,
      UInt8.xor_comm (read j &&& 1)]
  | trans _ _ ih ih' => exact ih.trans ih'

/-- The low bit of an XOR. -/
theorem xor_and_one (a b : UInt8) : (a ^^^ b) &&& 1 = (a &&& 1) ^^^ (b &&& 1) := by
  rw [← UInt8.toNat_inj]
  simp only [UInt8.toNat_and, UInt8.toNat_xor]
  exact Nat.and_xor_distrib_right

/-! ## Positions in order -/

/-- The low bit of a byte. -/
theorem and_one_cases (b : UInt8) : b &&& 1 = 0 ∨ b &&& 1 = 1 := by
  rcases Nat.mod_two_eq_zero_or_one b.toNat with h | h
  · left
    rw [← UInt8.toNat_inj, UInt8.toNat_and]
    simpa [Nat.and_one_is_mod] using h
  · right
    rw [← UInt8.toNat_inj, UInt8.toNat_and]
    simpa [Nat.and_one_is_mod] using h

theorem parity_replicate_zero {p : Nat} (h : read p &&& 1 = 0) (n : Nat) :
    parity read (List.replicate n p) = 0 := by
  induction n with
  | zero => rfl
  | succ n ih => rw [List.replicate_succ, parity_cons, h, ih, UInt8.xor_zero]

/-- The positions of a list below a bound, each as often as the list names it. -/
theorem flatMap_replicate_count_perm {l : List Nat} {n : Nat} (h : ∀ x ∈ l, x < n) :
    ((List.range n).flatMap fun p => List.replicate (l.count p) p).Perm l := by
  induction n generalizing l with
  | zero =>
    have hnil : l = [] := List.eq_nil_iff_forall_not_mem.mpr fun x hx => Nat.not_lt_zero x (h x hx)
    rw [hnil]
    exact List.Perm.refl _
  | succ n ih =>
    have hbelow : ∀ x ∈ l.filter (· != n), x < n := by
      intro x hx
      obtain ⟨hmem, hne⟩ := List.mem_filter.mp hx
      have := h x hmem
      have hne : x ≠ n := by simpa using hne
      omega
    have hcount : (List.range n).flatMap (fun p => List.replicate (l.count p) p) =
        (List.range n).flatMap fun p => List.replicate ((l.filter (· != n)).count p) p := by
      apply List.flatMap_congr
      intro p hp
      have hne : p ≠ n := (List.mem_range.mp hp).ne
      rw [List.count_filter (by simpa using hne)]
    rw [List.range_succ, List.flatMap_append, hcount, List.flatMap_singleton, ← List.filter_beq]
    refine ((ih hbelow).append_right _).trans ?_
    have hsplit := List.filter_append_perm (· != n) l
    have hlast : (fun x => !x != n) = fun x : Nat => x == n := by
      funext x
      rw [bne, Bool.not_not]
    rwa [hlast] at hsplit

/-! ## Cancelling pairs -/

/-- One position of a sorted list: it cancels an equal one before it. -/
def cancelPush (kept : List Nat) (c : Nat) : List Nat :=
  if kept.getLast? = some c then kept.dropLast else kept ++ [c]

def cancelPairs (row : List Nat) : List Nat :=
  (row.insertionSort (· ≤ ·)).foldl cancelPush []

theorem parity_cancelPush (kept : List Nat) (c : Nat) :
    parity read (cancelPush kept c) = parity read kept ^^^ (read c &&& 1) := by
  unfold cancelPush
  split
  · next h =>
    have hkept : kept = kept.dropLast ++ [c] := by
      rw [List.getLast?_eq_some_iff] at h
      obtain ⟨ys, rfl⟩ := h
      simp
    rw [hkept, List.dropLast_concat, parity_append, parity_cons, parity_nil, UInt8.xor_zero,
      UInt8.xor_assoc, UInt8.xor_self, UInt8.xor_zero]
  · rw [parity_append, parity_cons, parity_nil, UInt8.xor_zero]

theorem parity_foldl_cancelPush (row kept : List Nat) :
    parity read (row.foldl cancelPush kept) = parity read kept ^^^ parity read row := by
  induction row generalizing kept with
  | nil => simp
  | cons c row ih => rw [List.foldl_cons, ih, parity_cancelPush, parity_cons, UInt8.xor_assoc]

theorem parity_cancelPairs (row : List Nat) : parity read (cancelPairs row) = parity read row := by
  rw [cancelPairs, parity_foldl_cancelPush, parity_nil, UInt8.zero_xor]
  exact parity_perm (List.perm_insertionSort _ row)

end CudaqQec.Parity
