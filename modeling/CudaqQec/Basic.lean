import CudaqQec.Lib.Checked
import Mathlib.Algebra.Group.Int.Defs
import Mathlib.Algebra.GroupWithZero.Nat

/-!
# Exceptions and fixed-width integers

What every part of the library shares: the exception classes it throws, and `uint32_t`, the type of
every matrix dimension and row number. Counters that nothing overflows are `Nat`; a value that
passes through a `uint32_t` goes through `u32`, and a difference that a `size_t` may hold goes through
`sizeT`.
-/

namespace CudaqQec

/-- The standard exception classes the library throws, and what is no exception at all but undefined
behaviour: an access outside an array, and signed arithmetic past its type. -/
inductive ErrorKind where
  | invalidArgument
  | overflowError
  | outOfRange
  | lengthError
  | logicError
  | runtimeError
  | outOfBounds
  | signedOverflow
  deriving DecidableEq, Repr

/-- A thrown exception: its class and its `what()`. -/
structure Error where
  kind : ErrorKind
  what : String
  deriving DecidableEq, Repr

def Error.invalidArgument (what : String) : Error := ⟨.invalidArgument, what⟩
def Error.overflowError (what : String) : Error := ⟨.overflowError, what⟩
def Error.outOfRange (what : String) : Error := ⟨.outOfRange, what⟩
def Error.lengthError (what : String) : Error := ⟨.lengthError, what⟩
def Error.logicError (what : String) : Error := ⟨.logicError, what⟩
def Error.runtimeError (what : String) : Error := ⟨.runtimeError, what⟩
def Error.outOfBounds : Error := ⟨.outOfBounds, ""⟩
def Error.signedOverflow : Error := ⟨.signedOverflow, ""⟩

/-! ## Faults -/

/-- What ends a computation early: a thrown exception, or an access outside an array, which is
undefined behaviour. -/
inductive Fault where
  | thrown (e : Error)
  | outOfBounds
  deriving DecidableEq

def Error.fault (e : Error) : Fault := if e.kind = .outOfBounds then .outOfBounds else .thrown e

def thrown {α : Type} (x : Except Error α) : Except Fault α := x.mapError Error.fault

@[simp] theorem thrown_eq_ok {α : Type} {x : Except Error α} {a : α} :
    thrown x = .ok a ↔ x = .ok a := by
  cases x with
  | error e => simp [thrown, Except.mapError]
  | ok b => simp [thrown, Except.mapError]

/-! ## Types of the decoders -/

/-- `decode_result_type`: what the primary output of a decoder is. -/
inductive DecodeResultType where
  | errors
  | observables
  deriving DecidableEq, Repr

inductive RoundType where
  | bulk
  | final
  deriving DecidableEq

def wholeShot : Nat := 2 ^ 64 - 1

/-! ## Fixed widths -/

/-- `numeric_limits<uint32_t>::max()`. -/
def uint32Max : Nat := 2 ^ 32 - 1

/-- `static_cast<uint32_t>`. -/
def u32 (n : Nat) : Nat := n % 2 ^ 32

theorem lt_two_pow_of_lt_uint32Max {n : Nat} (h : n < uint32Max) : n < 2 ^ 32 := by
  unfold uint32Max at h
  omega

theorem u32_of_lt {n : Nat} (h : n < 2 ^ 32) : u32 n = n := Nat.mod_eq_of_lt h

theorem map_u32_of_lt {l : List Nat} (h : ∀ n ∈ l, n < 2 ^ 32) : l.map u32 = l := by
  conv_rhs => rw [← List.map_id l]
  exact List.map_congr_left fun n hn => u32_of_lt (h n hn)

theorem u32_lt (n : Nat) : u32 n < 2 ^ 32 := Nat.mod_lt _ (by decide)

theorem u32_le (n : Nat) : u32 n ≤ n := Nat.mod_le _ _

/-! The sizes of the examples fit in a `uint32_t`. -/

theorem zero_lt_uint32 : 0 < 2 ^ 32 := by decide

theorem one_lt_uint32 : 1 < 2 ^ 32 := by decide

@[simp] theorem u32_u32 (n : Nat) : u32 (u32 n) = u32 n := u32_of_lt (u32_lt n)

theorem u32_add (m n : Nat) : u32 (u32 m + n) = u32 (m + n) := by simp [u32]

theorem u32_add' (m n : Nat) : u32 (m + u32 n) = u32 (m + n) := by simp [u32]

/-- A number survives the cast exactly when it fits. -/
theorem u32_eq_iff {n : Nat} : n = u32 n ↔ n < 2 ^ 32 :=
  ⟨fun h => h ▸ u32_lt n, fun h => (u32_of_lt h).symm⟩

/-- A difference of two `uint32_t`: below zero it wraps around. -/
def sub32 (m n : Nat) : Nat := u32 (2 ^ 32 + m - n)

theorem sub32_of_le {m n : Nat} (h : n ≤ m) (hm : m < 2 ^ 32) : sub32 m n = m - n := by
  have hsum : 2 ^ 32 + m - n = (m - n) + 2 ^ 32 := by omega
  rw [sub32, u32, hsum, Nat.add_mod_right]
  exact Nat.mod_eq_of_lt (by omega)

/-- A product of sizes as a `size_t`. -/
def size64 (n : Nat) : Nat := n % 2 ^ 64

theorem size64_of_lt {n : Nat} (h : n < 2 ^ 64) : size64 n = n := Nat.mod_eq_of_lt h

/-- A difference of sizes as a `size_t`: below zero it wraps around. -/
def sizeT (x : Int) : Nat := if 0 ≤ x then x.toNat else (2 ^ 64 + x).toNat

theorem sizeT_natCast (n : Nat) : sizeT n = n := by simp [sizeT]

theorem sizeT_of_nonneg {x : Int} (h : 0 ≤ x) : (sizeT x : Int) = x := by
  rw [sizeT, if_pos h]
  exact Int.toNat_of_nonneg h

end CudaqQec
