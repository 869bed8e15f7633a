import CudaqQec.Artifacts.Bytes
import CudaqQec.Lib.SecureHash

/-!
# The digest of the artifact store

`sha256_hex` hashes the whole blocks of a message where they lie and builds one or two more for the rest.
It returns the digits of the standard's hash, which pads the message first (`Sha256.sha256Hex_eq_hexDigest`).
-/

namespace CudaqQec

open SecureHash Artifact

namespace Sha256

/-! ## `sha256_block` -/

def sha256K : List UInt32 := [
  0x428a2f98, 0x71374491, 0xb5c0fbcf, 0xe9b5dba5, 0x3956c25b, 0x59f111f1, 0x923f82a4, 0xab1c5ed5,
  0xd807aa98, 0x12835b01, 0x243185be, 0x550c7dc3, 0x72be5d74, 0x80deb1fe, 0x9bdc06a7, 0xc19bf174,
  0xe49b69c1, 0xefbe4786, 0x0fc19dc6, 0x240ca1cc, 0x2de92c6f, 0x4a7484aa, 0x5cb0a9dc, 0x76f988da,
  0x983e5152, 0xa831c66d, 0xb00327c8, 0xbf597fc7, 0xc6e00bf3, 0xd5a79147, 0x06ca6351, 0x14292967,
  0x27b70a85, 0x2e1b2138, 0x4d2c6dfc, 0x53380d13, 0x650a7354, 0x766a0abb, 0x81c2c92e, 0x92722c85,
  0xa2bfe8a1, 0xa81a664b, 0xc24b8b70, 0xc76c51a3, 0xd192e819, 0xd6990624, 0xf40e3585, 0x106aa070,
  0x19a4c116, 0x1e376c08, 0x2748774c, 0x34b0bcb5, 0x391c0cb3, 0x4ed8aa4a, 0x5b9cca4f, 0x682e6ff3,
  0x748f82ee, 0x78a5636f, 0x84c87814, 0x8cc70208, 0x90befffa, 0xa4506ceb, 0xbef9a3f7, 0xc67178f2]

def rotr (x : UInt32) (n : UInt32) : UInt32 := (x >>> n) ||| (x <<< (32 - n))

def wordAt (b : Bytes) (i : Nat) : UInt32 :=
  (b.getD i 0).toUInt32 <<< 24 ||| (b.getD (i + 1) 0).toUInt32 <<< 16 |||
    (b.getD (i + 2) 0).toUInt32 <<< 8 ||| (b.getD (i + 3) 0).toUInt32

def extendWords (w : List UInt32) (t : Nat) : List UInt32 :=
  let s0 := rotr (w.getD (t - 15) 0) 7 ^^^ rotr (w.getD (t - 15) 0) 18 ^^^ (w.getD (t - 15) 0 >>> 3)
  let s1 := rotr (w.getD (t - 2) 0) 17 ^^^ rotr (w.getD (t - 2) 0) 19 ^^^ (w.getD (t - 2) 0 >>> 10)
  w.set t (w.getD (t - 16) 0 + s0 + w.getD (t - 7) 0 + s1)

def blockWords (data : Bytes) (b : Nat) : List UInt32 :=
  (List.range' 16 48).foldl extendWords
    ((List.range 16).foldl (fun w t => w.set t (wordAt data (b + 4 * t))) (List.replicate 64 0))

/-- One round on the working words. -/
def sha256Round (w : List UInt32) (s : List UInt32) (t : Nat) : List UInt32 :=
  let at_ := fun i => s.getD i 0
  let e1 := rotr (at_ 4) 6 ^^^ rotr (at_ 4) 11 ^^^ rotr (at_ 4) 25
  let ch := (at_ 4 &&& at_ 5) ^^^ (~~~(at_ 4) &&& at_ 6)
  let t1 := at_ 7 + e1 + ch + sha256K.getD t 0 + w.getD t 0
  let a0 := rotr (at_ 0) 2 ^^^ rotr (at_ 0) 13 ^^^ rotr (at_ 0) 22
  let maj := (at_ 0 &&& at_ 1) ^^^ (at_ 0 &&& at_ 2) ^^^ (at_ 1 &&& at_ 2)
  let t2 := a0 + maj
  [t1 + t2, at_ 0, at_ 1, at_ 2, at_ 3 + t1, at_ 4, at_ 5, at_ 6]

/-- `sha256_block`: mix the block that begins at byte `b` into the hash state. -/
def sha256Block (h : List UInt32) (data : Bytes) (b : Nat) : List UInt32 :=
  let s := (List.range 64).foldl (sha256Round (blockWords data b)) h
  (List.range 8).foldl (fun h i => h.set i (h.getD i 0 + s.getD i 0)) h

/-! ## `sha256_hex` -/

def sha256Init : List UInt32 :=
  [0x6a09e667, 0xbb67ae85, 0x3c6ef372, 0xa54ff53a, 0x510e527f, 0x9b05688c, 0x1f83d9ab, 0x5be0cd19]

def hexDigit (d : Nat) : UInt8 := UInt8.ofNat (if d < 10 then 48 + d else 87 + d)

def hex8 (word : UInt32) : Bytes :=
  (List.range 8).map fun i => hexDigit (word.toNat / 16 ^ (7 - i) % 16)

def whole (bytes : Bytes) : Nat := bytes.length - bytes.length % 64

def rest (bytes : Bytes) : Nat := bytes.length - whole bytes

def tailSize (bytes : Bytes) : Nat := if rest bytes < 56 then 64 else 128

/-- The array `tail`: the rest, a 1 bit, zeros and the length in bits, the last byte first. -/
@[grind =] def tail (bytes : Bytes) : Bytes :=
  let length := size64 (bytes.length * 8)
  let copied := bytes.drop (whole bytes) ++ (List.replicate 128 (0 : UInt8)).drop (rest bytes)
  (List.range 8).foldl (fun tail i => tail.set (tailSize bytes - 1 - i) (UInt8.ofNat (length >>> (8 * i))))
    (copied.set (rest bytes) 0x80)

def sha256Hex (bytes : Bytes) : Bytes :=
  let h := (List.range' 0 (whole bytes / 64) 64).foldl (fun h i => sha256Block h bytes i) sha256Init
  let h := (List.range' 0 (tailSize bytes / 64) 64).foldl (fun h i => sha256Block h (tail bytes) i) h
  h.flatMap hex8

/-! ## Words -/

theorem toBitVec_rotr (x : UInt32) {n : Nat} (h0 : 0 < n) (h : n < 32) :
    (rotr x (UInt32.ofNat n)).toBitVec = x.toBitVec.rotateRight n := by
  have hn : (UInt32.ofNat n).toNat = n := UInt32.toNat_ofNat_of_lt' (by simp [UInt32.size]; omega)
  have hsub : (32 - UInt32.ofNat n).toNat = 32 - n := by
    rw [UInt32.toNat_sub_of_le _ _ (by rw [UInt32.le_iff_toNat_le, hn]; exact h.le), hn]
    rfl
  apply BitVec.eq_of_toNat_eq
  change (x >>> UInt32.ofNat n ||| x <<< (32 - UInt32.ofNat n)).toNat = _
  rw [UInt32.toNat_or, UInt32.toNat_shiftRight, UInt32.toNat_shiftLeft, hn, hsub,
    BitVec.rotateRight_def, Nat.mod_eq_of_lt h, Nat.mod_eq_of_lt (show 32 - n < 32 by omega),
    BitVec.toNat_or, BitVec.toNat_ushiftRight, BitVec.toNat_shiftLeft]
  rfl

/-- Disjoint bits add up. -/
theorem or_shiftLeft (m n k : Nat) (h : n < 2 ^ k) : m * 2 ^ k ||| n = m * 2 ^ k + n := by
  rw [Nat.mul_comm, Nat.two_pow_add_eq_or_of_lt h]

/-- Four bytes as a word, by shifts and as a number. -/
theorem toBitVec_wordAt (b : Bytes) (i : Nat) (h : i + 4 ≤ b.length) :
    (wordAt b i).toBitVec = BitVec.ofNat 32 (bigEndian ((b.drop i).take 4)) := by
  have hfour : (b.drop i).take 4 =
      [b.getD i 0, b.getD (i + 1) 0, b.getD (i + 2) 0, b.getD (i + 3) 0] := by
    apply List.ext_getElem
    · simp only [List.length_take, List.length_drop, List.length_cons, List.length_nil]
      omega
    · intro k hk hk'
      simp only [List.length_cons, List.length_nil] at hk'
      rw [List.getElem_take, List.getElem_drop]
      interval_cases k <;> simp [List.getD_eq_getElem?_getD, show i < b.length by omega,
        show i + 1 < b.length by omega, show i + 2 < b.length by omega, show i + 3 < b.length by omega]
  rw [hfour, wordAt]
  generalize b.getD i 0 = x0
  generalize b.getD (i + 1) 0 = x1
  generalize b.getD (i + 2) 0 = x2
  generalize b.getD (i + 3) 0 = x3
  have h0 := x0.toNat_lt
  have h1 := x1.toNat_lt
  have h2 := x2.toNat_lt
  have h3 := x3.toNat_lt
  -- a byte shifted to its place loses no bit
  have hshift : ∀ (x : UInt8) (k : Nat), k ≤ 24 →
      (x.toUInt32 <<< UInt32.ofNat k).toNat = x.toNat * 2 ^ k := by
    intro x k hk
    have hx := x.toNat_lt
    have hle : 2 ^ k ≤ 2 ^ 24 := Nat.pow_le_pow_right (by decide) hk
    rw [UInt32.toNat_shiftLeft, UInt32.toNat_ofNat_of_lt' (by simp [UInt32.size]; omega),
      UInt8.toNat_toUInt32, Nat.mod_eq_of_lt (show k < 32 by omega), Nat.shiftLeft_eq,
      Nat.mod_eq_of_lt]
    nlinarith
  apply BitVec.eq_of_toNat_eq
  change (x0.toUInt32 <<< UInt32.ofNat 24 ||| x1.toUInt32 <<< UInt32.ofNat 16 |||
    x2.toUInt32 <<< UInt32.ofNat 8 ||| x3.toUInt32).toNat = _
  rw [UInt32.toNat_or, UInt32.toNat_or, UInt32.toNat_or, hshift _ 24 (by decide),
    hshift _ 16 (by decide), hshift _ 8 (by decide), UInt8.toNat_toUInt32, Nat.or_assoc, Nat.or_assoc,
    or_shiftLeft _ _ 8 (by omega), or_shiftLeft _ _ 16 (by omega), or_shiftLeft _ _ 24 (by omega)]
  simp only [bigEndian, List.foldl_cons, List.foldl_nil, BitVec.toNat_ofNat]
  omega

/-! ## The constants -/

example : primes.length = 64 := by decide +kernel

theorem primes_eq : primes = [
      2, 3, 5, 7, 11, 13, 17, 19, 23, 29, 31, 37, 41, 43, 47, 53, 59, 61, 67, 71, 73, 79, 83, 89,
      97, 101, 103, 107, 109, 113, 127, 131, 137, 139, 149, 151, 157, 163, 167, 173, 179, 181,
      191, 193, 197, 199, 211, 223, 227, 229, 233, 239, 241, 251, 257, 263, 269, 271, 277, 281,
      283, 293, 307, 311] := by
  decide +kernel

theorem toBitVec_sha256K : ∀ t < 64, (sha256K.getD t 0).toBitVec = roundConstant t := by
  have hbounds : ∀ t < 64, ∃ q < 7,
      (q * 2 ^ 32 + (sha256K.getD t 0).toBitVec.toNat) ^ 3 ≤ primes.getD t 0 * 2 ^ (32 * 3) ∧
        primes.getD t 0 * 2 ^ (32 * 3) < (q * 2 ^ 32 + (sha256K.getD t 0).toBitVec.toNat + 1) ^ 3 := by
    simp only [primes_eq]
    decide +kernel
  intro t ht
  obtain ⟨q, -, hle, hlt⟩ := hbounds t ht
  exact (rootFraction_eq (by decide) hle hlt).symm

/-- A state of eight words. -/
def state (s : List UInt32) : Words where
  a := (s.getD 0 0).toBitVec
  b := (s.getD 1 0).toBitVec
  c := (s.getD 2 0).toBitVec
  d := (s.getD 3 0).toBitVec
  e := (s.getD 4 0).toBitVec
  f := (s.getD 5 0).toBitVec
  g := (s.getD 6 0).toBitVec
  h := (s.getD 7 0).toBitVec

theorem state_sha256Init : state sha256Init = initial := by
  simp only [initial, primes_eq]
  decide +kernel

/-! ## The schedule -/

/-- The first `n` words of the schedule of a block. -/
structure Scheduled (block : List UInt8) (w : List UInt32) (n : Nat) : Prop where
  length : w.length = 64
  word : ∀ t < n, (w.getD t 0).toBitVec = messageWord block t

theorem Scheduled.set {block : List UInt8} {w : List UInt32} {n : Nat} (h : Scheduled block w n)
    (hn : n < 64) {x : UInt32} (hx : x.toBitVec = messageWord block n) :
    Scheduled block (w.set n x) (n + 1) where
  length := by rw [List.length_set, h.length]
  word := by
    intro t ht
    rw [getD_set, h.length]
    split
    next heq => rw [← heq.1, hx]
    next hne => exact h.word t (by omega)

theorem scheduled_loaded {data : Bytes} {b : Nat} (hb : b + 64 ≤ data.length) {n : Nat} (hn : n ≤ 16) :
    Scheduled ((data.drop b).take 64)
      ((List.range n).foldl (fun w t => w.set t (wordAt data (b + 4 * t))) (List.replicate 64 0)) n := by
  induction n with
  | zero => exact ⟨List.length_replicate, fun t ht => absurd ht (Nat.not_lt_zero t)⟩
  | succ n ih =>
    rw [List.range_succ, List.foldl_append]
    apply (ih (by omega)).set (by omega)
    rw [messageWord_of_lt (by omega), toBitVec_wordAt _ _ (by omega), blockWord, List.drop_take,
      List.drop_drop, List.take_take, Nat.min_eq_left (by omega)]

theorem Scheduled.extend {block : List UInt8} {w : List UInt32} {t : Nat} (h : Scheduled block w t)
    (h16 : 16 ≤ t) (ht : t < 64) : Scheduled block (extendWords w t) (t + 1) := by
  apply h.set ht
  have h15 := h.word (t - 15) (by omega)
  have h2 := h.word (t - 2) (by omega)
  rw [UInt32.toBitVec_add, UInt32.toBitVec_add, UInt32.toBitVec_add, h.word (t - 16) (by omega),
    h.word (t - 7) (by omega), messageWord_of_ge h16]
  have hs0 : (rotr (w.getD (t - 15) 0) 7 ^^^ rotr (w.getD (t - 15) 0) 18 ^^^
      (w.getD (t - 15) 0 >>> 3)).toBitVec = smallSigma0 (messageWord block (t - 15)) := by
    rw [smallSigma0, ← h15, ← toBitVec_rotr _ (by decide) (by decide),
      ← toBitVec_rotr _ (by decide) (by decide)]
    rfl
  have hs1 : (rotr (w.getD (t - 2) 0) 17 ^^^ rotr (w.getD (t - 2) 0) 19 ^^^
      (w.getD (t - 2) 0 >>> 10)).toBitVec = smallSigma1 (messageWord block (t - 2)) := by
    rw [smallSigma1, ← h2, ← toBitVec_rotr _ (by decide) (by decide),
      ← toBitVec_rotr _ (by decide) (by decide)]
    rfl
  rw [hs0, hs1]
  ac_rfl

theorem Scheduled.extendAll {block : List UInt8} {w : List UInt32} (h : Scheduled block w 16) {n : Nat}
    (hn : n ≤ 48) : Scheduled block ((List.range' 16 n).foldl extendWords w) (16 + n) := by
  induction n with
  | zero => exact h
  | succ n ih =>
    rw [List.range'_concat, List.foldl_append, Nat.one_mul]
    exact (ih (by omega)).extend (by omega) (by omega)

theorem scheduled_blockWords {data : Bytes} {b : Nat} (hb : b + 64 ≤ data.length) :
    Scheduled ((data.drop b).take 64) (blockWords data b) 64 := by
  unfold blockWords
  have hloaded := scheduled_loaded hb (le_refl 16)
  revert hloaded
  generalize (List.range 16).foldl (fun w t => w.set t (wordAt data (b + 4 * t)))
    (List.replicate 64 0) = w
  intro hloaded
  exact hloaded.extendAll (le_refl 48)

/-! ## Rounds and blocks -/

theorem state_sha256Round {block : List UInt8} {w : List UInt32} (h : Scheduled block w 64)
    (s : List UInt32) {t : Nat} (ht : t < 64) :
    state (sha256Round w s t) = (state s).round t (messageWord block t) := by
  have hrot : ∀ (x : UInt32) (n : Nat), 0 < n → n < 32 →
      x.toBitVec.rotateRight n = (rotr x (UInt32.ofNat n)).toBitVec :=
    fun x n h0 hn => (toBitVec_rotr x h0 hn).symm
  unfold Words.round bigSigma0 bigSigma1 ch maj
  simp only [state]
  rw [← toBitVec_sha256K t ht, ← h.word t ht, hrot _ 6 (by decide) (by decide),
    hrot _ 11 (by decide) (by decide), hrot _ 25 (by decide) (by decide),
    hrot _ 2 (by decide) (by decide), hrot _ 13 (by decide) (by decide),
    hrot _ 22 (by decide) (by decide)]
  rfl

theorem state_rounds {block : List UInt8} {w : List UInt32} (h : Scheduled block w 64)
    (s : List UInt32) {n : Nat} (hn : n ≤ 64) :
    state ((List.range n).foldl (sha256Round w) s) = rounds block (state s) n := by
  induction n with
  | zero => rfl
  | succ n ih =>
    rw [List.range_succ, List.foldl_append, rounds, ← ih (by omega)]
    exact state_sha256Round h _ (by omega)

theorem length_sha256Block (h : List UInt32) (data : Bytes) (b : Nat) :
    (sha256Block h data b).length = h.length := by
  simp [sha256Block, List.range_succ]

/-- One block of the code is the compression function on the bytes where the block lies. -/
theorem state_sha256Block {h : List UInt32} (hlen : h.length = 8) {data : Bytes} {b : Nat}
    (hb : b + 64 ≤ data.length) :
    state (sha256Block h data b) = compress (state h) ((data.drop b).take 64) := by
  rw [compress, ← state_rounds (scheduled_blockWords hb) h le_rfl]
  unfold sha256Block
  generalize (List.range 64).foldl (sha256Round (blockWords data b)) h = s
  match h, hlen with
  | [h0, h1, h2, h3, h4, h5, h6, h7], _ =>
    simp only [List.range_succ, List.range_zero, List.nil_append, List.cons_append, List.foldl_cons,
      List.foldl_nil, List.set_cons_zero, List.set_cons_succ, List.getD_cons_zero,
      List.getD_cons_succ, state, Words.add, UInt32.toBitVec_add, BitVec.add_comm]

theorem state_blocks {h : List UInt32} (hlen : h.length = 8) {data : Bytes} {n : Nat}
    (hn : 64 * n ≤ data.length) :
    ((List.range' 0 n 64).foldl (fun h i => sha256Block h data i) h).length = 8 ∧
      state ((List.range' 0 n 64).foldl (fun h i => sha256Block h data i) h) =
        foldBlocks (state h) (data.take (64 * n)) := by
  induction n with
  | zero => exact ⟨hlen, (foldBlocks_of_lt (by simp)).symm⟩
  | succ n ih =>
    obtain ⟨ihlen, ih⟩ := ih (by omega)
    have hblock : ((data.drop (64 * n)).take 64).length = 64 := by
      rw [List.length_take, List.length_drop]
      omega
    have hsplit : data.take (64 * (n + 1)) = data.take (64 * n) ++ (data.drop (64 * n)).take 64 := by
      rw [Nat.mul_add, Nat.mul_one, List.take_add]
    rw [List.range'_concat, List.foldl_append, Nat.zero_add, List.foldl_cons, List.foldl_nil]
    refine ⟨(length_sha256Block _ _ _).trans ihlen, ?_⟩
    rw [state_sha256Block ihlen (by omega), ih, hsplit,
      foldBlocks_append n (by rw [List.length_take]; omega)]
    conv_rhs => rw [← List.append_nil (List.take 64 (List.drop (64 * n) data)),
      foldBlocks_append_block hblock, foldBlocks_of_lt (by simp)]

/-! ## The tail -/

variable {bytes : Bytes}

theorem rest_eq (bytes : Bytes) : rest bytes = bytes.length % 64 := by
  unfold rest whole
  have := Nat.mod_le bytes.length 64
  omega

theorem tailSize_eq (bytes : Bytes) : tailSize bytes = rest bytes + 1 + zeroCount bytes.length + 8 := by
  unfold tailSize zeroCount
  rw [rest_eq]
  split <;> omega

/-- The loop that writes the length writes the last eight bytes of the tail. -/
theorem getD_foldl_set (f : Nat → UInt8) (l : Bytes) {size : Nat} (hsize : size ≤ l.length) (j : Nat)
    {n : Nat} (hn : n ≤ size) :
    ((List.range n).foldl (fun tail i => tail.set (size - 1 - i) (f i)) l).length = l.length ∧
      ((List.range n).foldl (fun tail i => tail.set (size - 1 - i) (f i)) l).getD j 0 =
        if size - n ≤ j ∧ j < size then f (size - 1 - j) else l.getD j 0 := by
  induction n with
  | zero =>
    rw [if_neg (by omega)]
    exact ⟨rfl, rfl⟩
  | succ n ih =>
    obtain ⟨ihlen, ih⟩ := ih (by omega)
    rw [List.range_succ, List.foldl_append, List.foldl_cons, List.foldl_nil]
    refine ⟨by rw [List.length_set, ihlen], ?_⟩
    rw [getD_set, ihlen]
    by_cases hj : size - 1 - n = j ∧ j < l.length
    · have hback : size - 1 - j = n := by omega
      rw [if_pos hj, if_pos (by omega), hback]
    · rw [if_neg hj, ih]
      by_cases hin : size - n ≤ j ∧ j < size
      · rw [if_pos hin, if_pos (by omega)]
      · rw [if_neg hin, if_neg (by omega)]

/-- The tail before the length is written: the rest and a 1 bit. -/
theorem getD_copied (bytes : Bytes) (j : Nat) :
    ((bytes.drop (whole bytes) ++ (List.replicate 128 (0 : UInt8)).drop (rest bytes)).set (rest bytes)
      0x80).getD j 0 = if j < rest bytes then bytes.getD (whole bytes + j) 0
        else if j = rest bytes then 0x80 else 0 := by
  have hrest : rest bytes < 64 := by
    rw [rest_eq]
    omega
  have hdrop : (bytes.drop (whole bytes)).length = rest bytes := List.length_drop
  have hlen : (bytes.drop (whole bytes) ++ (List.replicate 128 (0 : UInt8)).drop (rest bytes)).length =
      128 := by
    rw [List.length_append, hdrop, List.drop_replicate, List.length_replicate]
    omega
  rw [getD_set, hlen, List.drop_replicate, getD_append_ite, hdrop]
  by_cases hj : j < rest bytes
  · rw [if_neg (by omega), if_pos hj, if_pos hj, List.getD_eq_getElem?_getD, List.getElem?_drop,
      List.getD_eq_getElem?_getD]
  · rw [if_neg hj, if_neg hj, getD_replicate_self]
    by_cases heq : j = rest bytes
    · rw [if_pos ⟨heq.symm, by omega⟩, if_pos heq]
    · rw [if_neg fun he => heq he.1.symm, if_neg heq]

theorem length_copied (bytes : Bytes) :
    ((bytes.drop (whole bytes) ++ (List.replicate 128 (0 : UInt8)).drop (rest bytes)).set (rest bytes)
      0x80).length = 128 := by
  have hrest : rest bytes < 64 := by
    rw [rest_eq]
    omega
  have hdrop : (bytes.drop (whole bytes)).length = rest bytes := List.length_drop
  rw [List.length_set, List.length_append, hdrop, List.drop_replicate, List.length_replicate]
  omega

theorem tailSize_le (bytes : Bytes) : 8 ≤ tailSize bytes ∧ tailSize bytes ≤ 128 := by
  unfold tailSize
  split <;> omega

theorem length_tail (bytes : Bytes) : (tail bytes).length = 128 := by
  have hsize := tailSize_le bytes
  unfold tail
  refine (getD_foldl_set (fun i => UInt8.ofNat (size64 (bytes.length * 8) >>> (8 * i))) _ ?_ 0
    hsize.1).1.trans (length_copied bytes)
  rw [length_copied]
  exact hsize.2

theorem getD_tail (bytes : Bytes) (j : Nat) : (tail bytes).getD j 0 =
    if tailSize bytes - 8 ≤ j ∧ j < tailSize bytes then
      UInt8.ofNat (size64 (bytes.length * 8) >>> (8 * (tailSize bytes - 1 - j)))
    else if j < rest bytes then bytes.getD (whole bytes + j) 0
    else if j = rest bytes then 0x80 else 0 := by
  have hsize := tailSize_le bytes
  rw [← getD_copied]
  unfold tail
  refine (getD_foldl_set (fun i => UInt8.ofNat (size64 (bytes.length * 8) >>> (8 * i))) _ ?_ j
    hsize.1).2
  rw [length_copied]
  exact hsize.2

/-- The tail is the rest of the message, padded as the whole message is. -/
theorem take_tail (h : bytes.length < 2 ^ 61) :
    (tail bytes).take (tailSize bytes) = bytes.drop (whole bytes) ++ [0x80] ++
      List.replicate (zeroCount bytes.length) 0 ++ lengthBytes (8 * bytes.length) := by
  have hsize := tailSize_eq bytes
  have hle := tailSize_le bytes
  have hdrop : (bytes.drop (whole bytes)).length = rest bytes := List.length_drop
  have hlen : (bytes.drop (whole bytes) ++ [0x80] ++ List.replicate (zeroCount bytes.length) 0 ++
      lengthBytes (8 * bytes.length)).length = tailSize bytes := by
    rw [List.length_append, List.length_append, List.length_append, hdrop, List.length_singleton,
      List.length_replicate, length_lengthBytes, hsize]
  -- byte by byte: the rest of the message, the tag, zeros, and the length
  apply List.ext_getElem
  · rw [hlen, List.length_take, length_tail]
    omega
  intro j hj hj'
  rw [hlen] at hj'
  have hlt : j < (tail bytes).length := by
    rw [length_tail]
    omega
  rw [List.getElem_take, ← List.getD_eq_getElem (tail bytes) 0 hlt,
    ← List.getD_eq_getElem _ 0 (by rw [hlen]; exact hj'), getD_tail, getD_append_ite, getD_append_ite,
    getD_append_ite, List.length_append, List.length_append, hdrop, List.length_singleton,
    List.length_replicate]
  by_cases htag : tailSize bytes - 8 ≤ j
  · -- the length, the last byte first in the code
    have hk : j - (rest bytes + 1 + zeroCount bytes.length) < 8 := by omega
    have hpow : ∀ k, (256 : Nat) ^ k = 2 ^ (8 * k) := fun k => (Nat.pow_mul 2 8 k).symm
    have hback : 7 - (j - (rest bytes + 1 + zeroCount bytes.length)) = tailSize bytes - 1 - j := by
      clear * - hsize htag
      omega
    rw [if_pos ⟨htag, hj'⟩, if_neg (by omega), lengthBytes, getD_map_range, if_pos hk,
      size64_of_lt (by omega), Nat.shiftRight_eq_div_pow, hpow, hback, Nat.mul_comm 8 bytes.length]
  · rw [if_neg fun he => htag he.1, if_pos (show j < rest bytes + 1 + zeroCount bytes.length by omega)]
    by_cases hrest : j < rest bytes
    · rw [if_pos hrest, if_pos (by omega), if_pos hrest, List.getD_eq_getElem?_getD,
        List.getD_eq_getElem?_getD, List.getElem?_drop]
    · rw [if_neg hrest]
      by_cases heq : j = rest bytes
      · subst heq
        rw [if_pos rfl, if_pos (by omega), if_neg hrest, Nat.sub_self]
        rfl
      · rw [if_neg heq, if_neg (by omega), getD_replicate_self]

theorem pad_eq (h : bytes.length < 2 ^ 61) :
    pad bytes = bytes.take (whole bytes) ++ (tail bytes).take (tailSize bytes) := by
  rw [take_tail h, pad, ← List.append_assoc, ← List.append_assoc, ← List.append_assoc,
    List.take_append_drop]

/-! ## The digest -/

theorem hexDigit_eq : ∀ d < 16, hexDigit d = hexDigits.getD d 0 := by decide

theorem hex8_eq (w : UInt32) : hex8 w = (wordBytes w.toBitVec).flatMap hexByte := by
  have hbyte : ∀ k, hexByte (UInt8.ofNat (w.toNat / 256 ^ k)) =
      [hexDigit (w.toNat / 16 ^ (2 * k + 1) % 16), hexDigit (w.toNat / 16 ^ (2 * k) % 16)] := by
    intro k
    have hpow : (16 : Nat) ^ (2 * k) = 256 ^ k := Nat.pow_mul 16 2 k
    have hhigh : w.toNat / 256 ^ k % 256 / 16 = w.toNat / 256 ^ k / 16 % 16 := by omega
    have hlow : w.toNat / 256 ^ k % 256 % 16 = w.toNat / 256 ^ k % 16 := by omega
    rw [Nat.pow_succ, hpow, ← Nat.div_div_eq_div_mul, ← hhigh, ← hlow]
    have hlt : w.toNat / 256 ^ k % 256 / 16 < 16 := by omega
    rw [hexByte, UInt8.toNat_ofNat', hexDigit_eq _ hlt, hexDigit_eq _ (Nat.mod_lt _ (by decide))]
  change _ = ((List.range 4).map fun i => UInt8.ofNat (w.toNat / 256 ^ (3 - i))).flatMap hexByte
  simp only [hex8, List.range_succ, List.range_zero, List.nil_append, List.cons_append,
    List.map_cons, List.map_nil, List.flatMap_cons, List.flatMap_nil, hbyte]

theorem flatMap_hex8 {h : List UInt32} (hlen : h.length = 8) :
    h.flatMap hex8 = ([(state h).a, (state h).b, (state h).c, (state h).d, (state h).e, (state h).f,
      (state h).g, (state h).h].flatMap wordBytes).flatMap hexByte := by
  match h, hlen with
  | [h0, h1, h2, h3, h4, h5, h6, h7], _ =>
    rw [List.flatMap_assoc]
    simp only [state, List.flatMap_cons, List.flatMap_nil, List.getD_cons_zero,
      List.getD_cons_succ, ← hex8_eq]

/-- `sha256_hex` is SHA-256: its digits are those of the standard's hash. -/
theorem sha256Hex_eq_hexDigest (h : bytes.length < 2 ^ 61) : sha256Hex bytes = hexDigest bytes := by
  have hwhole : 64 * (whole bytes / 64) = whole bytes := by
    unfold whole
    omega
  have htail : 64 * (tailSize bytes / 64) = tailSize bytes := by
    unfold tailSize
    split <;> rfl
  have hinit : sha256Init.length = 8 := rfl
  -- the blocks of the message where they lie, and those of the tail
  have hblocks := state_blocks hinit (show 64 * (whole bytes / 64) ≤ bytes.length by
    rw [hwhole, whole]
    exact Nat.sub_le _ _)
  have hpadded := state_blocks hblocks.1 (show 64 * (tailSize bytes / 64) ≤ (tail bytes).length by
    rw [htail, length_tail]
    exact (tailSize_le bytes).2)
  have hstate := hpadded.2
  rw [hblocks.2, hwhole, htail, state_sha256Init, ← foldBlocks_append (whole bytes / 64) (by
    rw [hwhole, List.length_take, whole]
    omega), ← pad_eq h] at hstate
  rw [hexDigest, digest, SecureHash.hash, ← hstate]
  exact flatMap_hex8 hpadded.1

/-- The digest of `abc`. -/
theorem sha256Hex_eq_hexDigest_abc : sha256Hex (ascii "abc") = hexDigest (ascii "abc") ∧
    sha256Hex (ascii "abc") =
      ascii "ba7816bf8f01cfea414140de5dae2223b00361a396177a9cb410ff61f20015ad" :=
  ⟨sha256Hex_eq_hexDigest (by decide), by decide +kernel⟩

end Sha256

end CudaqQec
