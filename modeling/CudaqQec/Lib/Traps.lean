import CudaqQec.Lib.Checked

/-!
# Traps

Computations that may throw, and may do something no caller can catch: divide by zero, take a larger
number from a smaller one, slice past the end of a list. Such a trap ends the computation, so that one
that is `Safe` did none of it on the way to its result or to what it throws.

* `safe_bind_iff`: a sequence is safe when its first step is, and the rest is after what that returned.
* `safe_forM_range_iff`: a loop is safe when every turn that is reached is.
-/

namespace CudaqQec.Traps

open Checked

/-- What is no exception. -/
inductive Trap where
  | divisionByZero
  | negativeDifference
  | badSlice
  | failedAssertion
  deriving DecidableEq

/-- What ends a computation early. -/
inductive Stop (ε : Type) where
  | thrown (e : ε)
  | trapped (t : Trap)
  deriving DecidableEq

variable {ε α β : Type}

def throws (x : Except ε α) : Except (Stop ε) α := x.mapError .thrown

def sub (m n : Nat) : Except (Stop ε) Nat :=
  if n ≤ m then .ok (m - n) else .error (.trapped .negativeDifference)

def div (m n : Nat) : Except (Stop ε) Nat :=
  if n = 0 then .error (.trapped .divisionByZero) else .ok (m / n)

def mod (m n : Nat) : Except (Stop ε) Nat :=
  if n = 0 then .error (.trapped .divisionByZero) else .ok (m % n)

/-- The elements from one position up to another. -/
def slice (l : List α) (first stop : Nat) : Except (Stop ε) (List α) :=
  if first ≤ stop ∧ stop ≤ l.length then .ok ((l.take stop).drop first)
  else .error (.trapped .badSlice)

def assert (c : Prop) [Decidable c] : Except (Stop ε) Unit :=
  if c then .ok () else .error (.trapped .failedAssertion)

def Safe (x : Except (Stop ε) α) : Prop := ∀ t, x ≠ .error (.trapped t)

/-! ## Operations that do not trap -/

theorem sub_of_le {m n : Nat} (h : n ≤ m) : (sub m n : Except (Stop ε) Nat) = .ok (m - n) := if_pos h

theorem div_of_pos {m n : Nat} (h : 0 < n) : (div m n : Except (Stop ε) Nat) = .ok (m / n) :=
  if_neg (Nat.pos_iff_ne_zero.mp h)

theorem mod_of_pos {m n : Nat} (h : 0 < n) : (mod m n : Except (Stop ε) Nat) = .ok (m % n) :=
  if_neg (Nat.pos_iff_ne_zero.mp h)

theorem slice_of_le {l : List α} {first stop : Nat} (h : first ≤ stop) (hl : stop ≤ l.length) :
    (slice l first stop : Except (Stop ε) (List α)) = .ok ((l.take stop).drop first) :=
  if_pos ⟨h, hl⟩

theorem assert_eq_ok {c : Prop} [Decidable c] {u : Unit} :
    (assert c : Except (Stop ε) Unit) = .ok u ↔ c := by
  unfold assert
  split
  · next h => exact iff_of_true rfl h
  · next h => exact iff_of_false (by simp) h

theorem div_eq_ok {m n k : Nat} : (div m n : Except (Stop ε) Nat) = .ok k ↔ 0 < n ∧ k = m / n := by
  unfold div
  split
  · next h => simp [h]
  · next h => simp [Nat.pos_of_ne_zero h, eq_comm]

theorem throws_eq_ok {x : Except ε α} {a : α} : throws x = .ok a ↔ x = .ok a := by
  cases x with
  | error e => simp [throws, Except.mapError]
  | ok b => simp [throws, Except.mapError]

@[simp] theorem throws_ok (a : α) : throws (.ok a : Except ε α) = .ok a := rfl

@[simp] theorem throws_error (e : ε) : throws (.error e : Except ε α) = .error (.thrown e) := rfl

theorem throws_bind (x : Except ε α) (f : α → Except ε β) :
    throws (x >>= f) = throws x >>= fun a => throws (f a) := by
  cases x with
  | error e => rfl
  | ok a => rfl

/-! ## Safe computations -/

theorem safe_ok (a : α) : Safe (.ok a : Except (Stop ε) α) := by
  intro t h
  cases h

theorem safe_throws (x : Except ε α) : Safe (throws x) := by
  intro t h
  cases x with
  | error e => cases h
  | ok a => cases h

theorem not_safe_trapped (t : Trap) : ¬ Safe (.error (.trapped t) : Except (Stop ε) α) :=
  fun h => h t rfl

theorem safe_bind_iff {x : Except (Stop ε) α} {f : α → Except (Stop ε) β} :
    Safe (x >>= f) ↔ Safe x ∧ ∀ a, x = .ok a → Safe (f a) := by
  cases x with
  | error e =>
    constructor
    · intro h
      exact ⟨fun t ht => h t (by rw [ht]; rfl), fun a ha => by cases ha⟩
    · rintro ⟨h, -⟩ t ht
      exact h t (by cases ht; rfl)
  | ok a =>
    constructor
    · intro h
      refine ⟨safe_ok a, ?_⟩
      intro b hb
      cases hb
      exact h
    · rintro ⟨-, h⟩
      exact h a rfl

/-- After a check that can only throw, what follows counts only if the check passes. -/
theorem safe_throwIf_bind_iff {c : Prop} [Decidable c] {e : ε} {f : Unit → Except (Stop ε) β} :
    Safe (throws (throwIf c e) >>= f) ↔ c ∨ Safe (f ()) := by
  by_cases hc : c
  · rw [throwIf_of hc]
    exact iff_of_true (safe_throws (.error e)) (.inl hc)
  · rw [throwIf_of_not hc]
    simp [hc]

theorem forM_concat {l : List α} {x : α} {f : α → Except (Stop ε) PUnit} :
    forM (l ++ [x]) f = forM l f >>= fun _ => f x := by
  induction l with
  | nil =>
    show (f x >>= fun _ => forM [] f) = f x
    cases f x with
    | error e => rfl
    | ok u => rfl
  | cons y l ih =>
    rw [List.cons_append, List.forM_cons, List.forM_cons, ih]
    cases f y with
    | error e => rfl
    | ok u => rfl

/-- A loop is safe exactly when each turn is that comes after turns that returned. -/
theorem safe_forM_range_iff {n : Nat} {f : Nat → Except (Stop ε) PUnit} :
    Safe (forM (List.range n) f) ↔ ∀ w < n, (∀ v < w, f v = .ok ()) → Safe (f w) := by
  induction n with
  | zero =>
    simp only [List.range_zero, List.forM_nil]
    exact iff_of_true (safe_ok _) (by simp)
  | succ n ih =>
    rw [List.range_succ, forM_concat, safe_bind_iff, ih]
    constructor
    · rintro ⟨hpre, hlast⟩ w hw hv
      rcases Nat.lt_succ_iff_lt_or_eq.mp hw with hlt | rfl
      · exact hpre w hlt hv
      · apply hlast ()
        rw [forM_eq_ok]
        intro v hmem
        exact hv v (List.mem_range.mp hmem)
    · intro h
      refine ⟨fun w hw => h w (by omega), ?_⟩
      intro u hu
      rw [forM_eq_ok] at hu
      apply h n (Nat.lt_succ_self n)
      intro v hv
      exact hu v (List.mem_range.mpr hv)

end CudaqQec.Traps
