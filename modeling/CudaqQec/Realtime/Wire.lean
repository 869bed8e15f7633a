import CudaqQec.Basic
import Mathlib.Tactic.IntervalCases

/-!
# Requests of the decoding server

A request slot is a header and the bytes behind it, as many as the slot has. Each request is read into
a view only if what its header announces is there; the syndromes and the corrections travel as bits,
the lowest of each byte first.

* `parseEnqueue`, `parseGetCorrections`, `parseGetLogicalMeasurements`, `parseReset`.
* `unpackBits`, `packBits`: bits on the wire and a byte for each bit.
-/

namespace CudaqQec.Realtime

inductive RpcStatus where
  | ok
  | invalidDecoder
  | badRequest
  | internalError
  | notReady
  | busy
  | syndromesDropped
  deriving DecidableEq

def enqueueSyndromesFunctionId : UInt32 := 0x7ED8BE82
def getCorrectionsFunctionId : UInt32 := 0x882D5BA1
def resetDecoderFunctionId : UInt32 := 0x977A59CF
def getLogicalMeasurementsFunctionId : UInt32 := 0x3056A149

def maxSyndromeBits : Nat := 2 ^ 20

/-- `RPCHeader`; of the magic word only whether it is that of a request. -/
structure RpcHeader where
  isRequest : Bool
  functionId : UInt32
  argLen : Nat
  requestId : UInt32
  ptpTimestamp : UInt64

/-- A request slot: the header and the bytes that physically follow it. -/
structure Slot where
  header : RpcHeader
  payload : List UInt8

def bitPackedBytes (numBits : Nat) : Nat := (numBits + 7) % 2 ^ 64 / 8

/-- The number that bytes hold, the lowest byte first. -/
@[grind =] def littleEndian : List UInt8 → Nat
  | [] => 0
  | b :: bs => b.toNat + 256 * littleEndian bs

/-- An `int64_t` from its bits. -/
def int64 (n : Nat) : Int := if n < 2 ^ 63 then n else n - 2 ^ 64

def field (payload : List UInt8) (offset size : Nat) : Nat :=
  littleEndian ((payload.drop offset).take size)

/-! ## Views -/

structure EnqueueView where
  decoderId : Nat
  counter : Nat
  syndromeMappingId : Nat
  numSyndromes : Nat
  byteCount : Nat
  packedBits : List UInt8

/-- `read_u64`: the number at the offset, and the offset behind it. -/
def readU64 (slot : Slot) (offset : Nat) : Option (Nat × Nat) :=
  if slot.header.argLen < offset ∨ slot.header.argLen - offset < 8 then none
  else some (field slot.payload offset 8, offset + 8)

def parseEnqueue (slot : Slot) : Option EnqueueView :=
  if ¬ slot.header.isRequest ∨ slot.header.functionId ≠ enqueueSyndromesFunctionId then none
  else if slot.payload.length < slot.header.argLen then none
  else do
    let (decoderId, offset) ← readU64 slot 0
    let (counter, offset) ← readU64 slot offset
    let (syndromeMappingId, offset) ← readU64 slot offset
    let (numSyndromes, offset) ← readU64 slot offset
    let byteCount := bitPackedBytes numSyndromes
    if numSyndromes = 0 ∨ maxSyndromeBits < numSyndromes ∨ slot.header.argLen < offset ∨
        slot.header.argLen - offset < byteCount then none
    else some ⟨decoderId, counter, syndromeMappingId, numSyndromes, byteCount,
      (slot.payload.drop offset).take byteCount⟩

/-- `parse_fixed`: the payload of `size` bytes of a request. -/
def parseFixed (slot : Slot) (functionId : UInt32) (size : Nat) : Option (List UInt8) :=
  if ¬ slot.header.isRequest ∨ slot.header.functionId ≠ functionId then none
  else if slot.header.argLen < size ∨ slot.payload.length < slot.header.argLen then none
  else some (slot.payload.take size)

/-- What a read asks for: `return_size` bits from `first`. -/
structure ResultView where
  decoderId : Int
  first : Int
  returnSize : Int
  reset : Bool

/-- `parse_get_corrections`; the corrections are read from 0. -/
def parseGetCorrections (slot : Slot) : Option ResultView :=
  (parseFixed slot getCorrectionsFunctionId 17).map fun payload =>
    { decoderId := int64 (field payload 0 8)
      first := 0
      returnSize := int64 (field payload 8 8)
      reset := field payload 16 1 ≠ 0 }

def parseGetLogicalMeasurements (slot : Slot) : Option ResultView :=
  (parseFixed slot getLogicalMeasurementsFunctionId 25).map fun payload =>
    { decoderId := int64 (field payload 0 8)
      first := int64 (field payload 8 8)
      returnSize := int64 (field payload 16 8)
      reset := field payload 24 1 ≠ 0 }

def parseResultRequest (logical : Bool) (slot : Slot) : Option ResultView :=
  if logical then parseGetLogicalMeasurements slot else parseGetCorrections slot

/-- `parse_reset`: the decoder's id. -/
def parseReset (slot : Slot) : Option Int :=
  (parseFixed slot resetDecoderFunctionId 8).map fun payload => int64 (field payload 0 8)

/-! ## Bits -/

def unpackBits (packed : List UInt8) (n : Nat) : List UInt8 :=
  (List.range n).map fun i => (packed.getD (i / 8) 0 >>> UInt8.ofNat (i % 8)) &&& 1

@[grind =] def packBits (bits : List UInt8) (size : Nat) : Nat → List UInt8
  | 0 => List.replicate size 0
  | n + 1 =>
    let out := packBits bits size n
    if bits.getD n 0 &&& 1 ≠ 0 then out.modify (n / 8) fun b => b ||| (1 <<< UInt8.ofNat (n % 8))
    else out

def bitAt (bytes : List UInt8) (i : Nat) : Bool := (bytes.getD (i / 8) 0).toNat.testBit (i % 8)

/-- The bytes are as many as `n` bits need and hold the lowest bit of each of `bits`; what is left of the
last byte is zero. -/
def Carries (bytes bits : List UInt8) (n : Nat) : Prop :=
  bytes.length = (n + 7) / 8 ∧
    ∀ i < 8 * bytes.length, bitAt bytes i = (decide (i < n) && (bits.getD i 0).toNat.testBit 0)

theorem testBit_or_shift (b : UInt8) {j k : Nat} (hk : k < 8) :
    (b ||| (1 <<< UInt8.ofNat k)).toNat.testBit j = (b.toNat.testBit j || decide (k = j)) := by
  have hshift : ((1 : UInt8) <<< UInt8.ofNat k).toNat = 2 ^ k := by
    interval_cases k <;> rfl
  rw [UInt8.toNat_or, hshift, Nat.testBit_or, Nat.testBit_two_pow]

theorem and_one_ne_zero_iff (b : UInt8) : b &&& 1 ≠ 0 ↔ b.toNat.testBit 0 = true := by
  rw [Nat.testBit_zero, decide_eq_true_eq, ← Nat.and_one_is_mod, ne_eq, ← UInt8.toNat_inj,
    UInt8.toNat_and]
  change ¬ b.toNat &&& 1 = 0 ↔ _
  rw [Nat.and_one_is_mod]
  omega

/-- The loop that packs, into `size` bytes, the bits of the first `n` values for which `isSet` holds. -/
@[grind =] def packWhere (isSet : UInt8 → Prop) [DecidablePred isSet] (bits : List UInt8) (size : Nat) :
    Nat → List UInt8
  | 0 => List.replicate size 0
  | n + 1 =>
    let out := packWhere isSet bits size n
    if isSet (bits.getD n 0) then out.modify (n / 8) fun b => b ||| (1 <<< UInt8.ofNat (n % 8))
    else out

section Packing

variable (isSet : UInt8 → Prop) [DecidablePred isSet] (bits : List UInt8)

@[simp] theorem length_packWhere (size n : Nat) : (packWhere isSet bits size n).length = size := by
  induction n with
  | zero => exact List.length_replicate
  | succ n ih =>
    unfold packWhere
    split
    · rw [List.length_modify, ih]
    · exact ih

/-- The loop has packed the first `n` bits. -/
theorem bitAt_packWhere {size n i : Nat} (hn : n ≤ 8 * size) :
    bitAt (packWhere isSet bits size n) i = (decide (i < n) && decide (isSet (bits.getD i 0))) := by
  induction n with
  | zero =>
    have hzero : (List.replicate size (0 : UInt8)).getD (i / 8) 0 = 0 := by
      rw [List.getD_eq_getElem?_getD, List.getElem?_replicate]
      split <;> rfl
    simp only [bitAt, packWhere, hzero]
    simp
  | succ n ih =>
    have hrest := ih (by omega)
    have hlen := length_packWhere isSet bits size n
    unfold packWhere
    -- bit `n` touches one bit of one byte, and only where it is set
    by_cases hbit : isSet (bits.getD n 0)
    · rw [if_pos hbit]
      unfold bitAt at hrest ⊢
      rw [List.getD_eq_getElem?_getD, List.getElem?_modify]
      by_cases hbyte : n / 8 = i / 8
      · have hlt : i / 8 < (packWhere isSet bits size n).length := by omega
        rw [List.getD_eq_getElem?_getD, List.getElem?_eq_getElem hlt, Option.getD_some] at hrest
        simp only [hbyte, if_true, List.getElem?_eq_getElem hlt, Option.map_eq_map, Option.map_some,
          Option.getD_some]
        rw [testBit_or_shift _ (Nat.mod_lt _ (by decide)), hrest]
        by_cases hi : i = n
        · subst hi
          rw [decide_eq_true hbit]
          simp
        · have hmod : ¬ n % 8 = i % 8 := by omega
          have hlt' : i < n + 1 ↔ i < n := by omega
          simp [hmod, hlt']
      · have hlt' : i < n + 1 ↔ i < n := by
          constructor
          · intro h
            by_contra hnot
            have : i = n := by omega
            exact hbyte (by rw [this])
          · omega
        simp only [hbyte, if_false, Option.map_eq_map, Option.map_id']
        rw [← List.getD_eq_getElem?_getD, hrest]
        simp only [hlt']
    · rw [if_neg hbit, hrest]
      by_cases hi : i = n
      · subst hi
        rw [decide_eq_false hbit, Bool.and_false, Bool.and_false]
      · have hlt' : i < n + 1 ↔ i < n := by omega
        simp only [hlt']

end Packing

theorem packBits_eq_packWhere (bits : List UInt8) (size n : Nat) :
    packBits bits size n = packWhere (fun b => b &&& 1 ≠ 0) bits size n := by
  induction n with
  | zero => rfl
  | succ n ih =>
    unfold packBits packWhere
    rw [ih]

@[simp] theorem length_packBits (bits : List UInt8) (size n : Nat) :
    (packBits bits size n).length = size := by
  rw [packBits_eq_packWhere, length_packWhere]

theorem bitAt_packBits (bits : List UInt8) {size n i : Nat} (hn : n ≤ 8 * size) :
    bitAt (packBits bits size n) i = (decide (i < n) && (bits.getD i 0).toNat.testBit 0) := by
  rw [packBits_eq_packWhere, bitAt_packWhere _ bits hn]
  simp only [and_one_ne_zero_iff, Bool.decide_eq_true]

theorem carries_packBits (bits : List UInt8) {n : Nat} (hn : n < 2 ^ 63) :
    Carries (packBits bits (bitPackedBytes n) n) bits n := by
  have hsize : bitPackedBytes n = (n + 7) / 8 := by
    unfold bitPackedBytes
    rw [Nat.mod_eq_of_lt (by omega)]
  refine ⟨?_, fun i _ => bitAt_packBits bits ?_⟩
  · rw [length_packBits, hsize]
  · omega

/-! ## Numbers -/

theorem littleEndian_lt (bytes : List UInt8) : littleEndian bytes < 256 ^ bytes.length := by
  induction bytes with
  | nil => exact Nat.one_pos
  | cons b bs ih =>
    have := b.toNat_lt
    unfold littleEndian
    rw [List.length_cons, Nat.pow_succ]
    omega

theorem field_lt (payload : List UInt8) (offset size : Nat) : field payload offset size < 256 ^ size := by
  refine Nat.lt_of_lt_of_le (littleEndian_lt _) ?_
  exact Nat.pow_le_pow_right (by decide) (List.length_take_le ..)

theorem int64_lt {n : Nat} (h : n < 2 ^ 64) : int64 n < 2 ^ 63 := by
  unfold int64
  split <;> omega

end CudaqQec.Realtime
