import CudaqQec.Realtime.Wire
import Mathlib.Data.List.GetD

/-!
# Frames

The frames that a playback sends, byte by byte, and the slots that the server reads. A frame is a packed
header, a packed payload and, behind an enqueue, its bits. The header carries the length of the payload,
a read or a reset only its fixed fields; how many bytes of bits there are is told by their number alone.

* `frames_round_trip`: what is sent is what is read, and nothing is read outside a slot.
-/

namespace CudaqQec.Realtime

/-! ## Bytes -/

@[grind =] def bytesOf : Nat → Nat → List UInt8
  | 0, _ => []
  | size + 1, n => UInt8.ofNat n :: bytesOf size (n / 256)

/-- The bytes of an `int64_t`. -/
def int64Bytes (x : Int64) : List UInt8 := bytesOf 8 x.toUInt64.toNat

@[simp] theorem length_bytesOf (size n : Nat) : (bytesOf size n).length = size := by
  induction size generalizing n with
  | zero => rfl
  | succ size ih => rw [bytesOf, List.length_cons, ih]

@[simp] theorem length_int64Bytes (x : Int64) : (int64Bytes x).length = 8 := length_bytesOf ..

theorem littleEndian_bytesOf (size n : Nat) : littleEndian (bytesOf size n) = n % 256 ^ size := by
  induction size generalizing n with
  | zero => rw [bytesOf, littleEndian, Nat.pow_zero, Nat.mod_one]
  | succ size ih =>
    have hpow : 256 ^ (size + 1) = 256 * 256 ^ size := Nat.pow_succ'
    rw [bytesOf, littleEndian, ih, UInt8.toNat_ofNat', hpow, Nat.mod_mul]

/-- A number at the front. -/
theorem field_bytesOf (size n : Nat) (rest : List UInt8) :
    field (bytesOf size n ++ rest) 0 size = n % 256 ^ size := by
  have htake : (bytesOf size n ++ rest).take size = bytesOf size n :=
    List.take_left' (length_bytesOf size n)
  rw [field, List.drop_zero, htake, littleEndian_bytesOf]

/-- A number behind other bytes. -/
theorem field_append_of_le {front rest : List UInt8} {offset : Nat} (h : front.length ≤ offset)
    (size : Nat) : field (front ++ rest) offset size = field rest (offset - front.length) size := by
  rw [field, field, List.drop_append, List.drop_eq_nil_of_le h, List.nil_append]

theorem int64_toNat (x : Int64) : int64 x.toUInt64.toNat = x.toInt := by
  change int64 x.toBitVec.toNat = x.toBitVec.toInt
  rw [int64, BitVec.toInt_eq_toNat_cond]
  split <;> split <;> omega

/-! ## Frames -/

inductive Operation where
  | reset
  | stream
  | enqueueData
  | getCorrections
  | getLogicalMeasurements
  deriving DecidableEq

structure Event where
  decoderId : UInt64
  op : Operation
  first : UInt32
  reset : Bool

def rpcMagicRequest : Nat := 0x43555152

/-- `sizeof(RPCHeader)`. -/
def headerSize : Nat := 24

def headerBytes (functionId argLen requestId : UInt32) (ptpTimestamp : UInt64) : List UInt8 :=
  bytesOf 4 rpcMagicRequest ++ (bytesOf 4 functionId.toNat ++ (bytesOf 4 argLen.toNat ++
    (bytesOf 4 requestId.toNat ++ bytesOf 8 ptpTimestamp.toNat)))

def appendPackedBits (buf bits : List UInt8) : List UInt8 :=
  buf ++ packWhere (fun b => b ≠ 0) bits (bitPackedBytes bits.length) bits.length

def buildFrame (functionId requestId : UInt32) (payload : List UInt8) (bits : Option (List UInt8)) :
    List UInt8 :=
  let trailing := match bits with
    | some bits => bitPackedBytes bits.length
    | none => 0
  let buf := headerBytes functionId (.ofNat (payload.length + trailing)) requestId 0 ++ payload
  match bits with
  | some bits => appendPackedBits buf bits
  | none => buf

def buildResetFrame (decoderId : UInt64) (rid : UInt32) : List UInt8 :=
  buildFrame resetDecoderFunctionId rid (int64Bytes decoderId.toInt64) none

def Event.mappingId (e : Event) (finalMappingId : Int64) : Int64 :=
  if e.op = .enqueueData then finalMappingId else 0

def buildEnqueueFrame (e : Event) (finalMappingId : Int64) (rid : UInt32) (bits : List UInt8) :
    List UInt8 :=
  buildFrame enqueueSyndromesFunctionId rid
    (int64Bytes e.decoderId.toInt64 ++ (int64Bytes 0 ++ (int64Bytes (e.mappingId finalMappingId) ++
      int64Bytes (.ofNat bits.length)))) (some bits)

def buildReadFrame (e : Event) (returnSize : Int64) (rid : UInt32) : List UInt8 :=
  let reset : List UInt8 := [if e.reset then 1 else 0]
  if e.op = .getCorrections then
    buildFrame getCorrectionsFunctionId rid
      (int64Bytes e.decoderId.toInt64 ++ (int64Bytes returnSize ++ reset)) none
  else
    buildFrame getLogicalMeasurementsFunctionId rid
      (int64Bytes e.decoderId.toInt64 ++ (int64Bytes (.ofNat e.first.toNat) ++
        (int64Bytes returnSize ++ reset))) none

/-! ## Slots -/

/-- The header and the payload of the bytes of a slot. -/
def slotOf (bytes : List UInt8) : Option Slot :=
  if bytes.length < headerSize then none
  else some {
    header := {
      isRequest := field bytes 0 4 = rpcMagicRequest
      functionId := .ofNat (field bytes 4 4)
      argLen := field bytes 8 4
      requestId := .ofNat (field bytes 12 4)
      ptpTimestamp := .ofNat (field bytes 16 8) }
    payload := bytes.drop headerSize }

/-- `peek_decoder_id`: the payload may be shorter than the header announces. -/
def peekDecoderId (slot : Slot) : Option Nat :=
  if ¬ slot.header.isRequest then none
  else if slot.header.argLen < 8 ∨ slot.payload.length < 8 then none
  else some (field slot.payload 0 8)

/-- `size` bytes of the payload that the slot has, and that its header announces. -/
def Inside (bytes : List UInt8) (offset size : Nat) : Prop :=
  headerSize + offset + size ≤ bytes.length ∧ offset + size ≤ field bytes 8 4

/-! ## What is sent is what is read -/

theorem field_int64 (x : Int64) (rest : List UInt8) :
    field (int64Bytes x ++ rest) 0 8 = x.toUInt64.toNat := by
  rw [int64Bytes, field_bytesOf]
  exact Nat.mod_eq_of_lt x.toUInt64.toNat_lt

theorem slotOf_headerBytes (functionId argLen requestId : UInt32) (ptpTimestamp : UInt64)
    (body : List UInt8) :
    slotOf (headerBytes functionId argLen requestId ptpTimestamp ++ body) =
      some ⟨⟨true, functionId, argLen.toNat, requestId, ptpTimestamp⟩, body⟩ := by
  have hstamp : field (bytesOf 8 ptpTimestamp.toNat ++ body) 0 8 = ptpTimestamp.toNat := by
    rw [field_bytesOf]
    exact Nat.mod_eq_of_lt ptpTimestamp.toNat_lt
  have hword (x : UInt32) : x.toNat % 256 ^ 4 = x.toNat := Nat.mod_eq_of_lt x.toNat_lt
  have hmagic : rpcMagicRequest % 256 ^ 4 = rpcMagicRequest := rfl
  have hlen : ¬ (headerBytes functionId argLen requestId ptpTimestamp ++ body).length < headerSize := by
    simp only [headerBytes, headerSize, List.length_append, length_bytesOf]
    omega
  have hbody : (headerBytes functionId argLen requestId ptpTimestamp ++ body).drop headerSize = body :=
    List.drop_left' (by simp [headerBytes, headerSize])
  rw [slotOf, if_neg hlen, hbody]
  simp only [headerBytes, List.append_assoc, field_bytesOf, field_append_of_le, length_bytesOf, Nat.le_refl,
    Nat.reduceLeDiff, Nat.reduceSub, Nat.sub_self, hword, hstamp, hmagic, decide_true,
    UInt32.ofNat_toNat, UInt64.ofNat_toNat]

/-- A frame with fixed fields only. -/
theorem slotOf_buildFrame_none {payload : List UInt8} (h : payload.length < 2 ^ 32)
    (functionId requestId : UInt32) :
    slotOf (buildFrame functionId requestId payload none) =
      some ⟨⟨true, functionId, payload.length, requestId, 0⟩, payload⟩ := by
  change slotOf (headerBytes functionId (.ofNat (payload.length + 0)) requestId 0 ++ payload) = _
  rw [slotOf_headerBytes, UInt32.toNat_ofNat', Nat.add_zero, Nat.mod_eq_of_lt h]

theorem parseFixed_payload (payload : List UInt8) (functionId requestId : UInt32) :
    parseFixed ⟨⟨true, functionId, payload.length, requestId, 0⟩, payload⟩ functionId payload.length =
      some payload := by
  simp [parseFixed]

theorem parseReset_buildResetFrame (decoderId : UInt64) (rid : UInt32) :
    (slotOf (buildResetFrame decoderId rid)).bind parseReset = some decoderId.toInt64.toInt := by
  have hlen := length_int64Bytes decoderId.toInt64
  rw [buildResetFrame, slotOf_buildFrame_none (by omega), Option.bind_some, parseReset]
  have hfixed := parseFixed_payload (int64Bytes decoderId.toInt64) resetDecoderFunctionId rid
  rw [hlen] at hfixed ⊢
  rw [hfixed, Option.map_some]
  have hfield := field_int64 decoderId.toInt64 []
  rw [List.append_nil] at hfield
  rw [hfield, int64_toNat]

theorem field_flag (b : Bool) : decide (field [if b then 1 else 0] 0 1 ≠ 0) = b := by
  cases b <;> rfl

theorem parseGetCorrections_buildReadFrame {e : Event} (h : e.op = .getCorrections)
    (returnSize : Int64) (rid : UInt32) :
    (slotOf (buildReadFrame e returnSize rid)).bind parseGetCorrections =
      some ⟨e.decoderId.toInt64.toInt, 0, returnSize.toInt, e.reset⟩ := by
  have hlen : (int64Bytes e.decoderId.toInt64 ++ (int64Bytes returnSize ++
      [if e.reset then (1 : UInt8) else 0])).length = 17 := by simp
  have hfixed := parseFixed_payload (int64Bytes e.decoderId.toInt64 ++
    (int64Bytes returnSize ++ [if e.reset then (1 : UInt8) else 0])) getCorrectionsFunctionId rid
  rw [buildReadFrame, if_pos h, slotOf_buildFrame_none (by omega), Option.bind_some,
    parseGetCorrections]
  rw [hlen] at hfixed ⊢
  rw [hfixed, Option.map_some]
  simp only [field_int64, field_append_of_le, length_int64Bytes, Nat.le_refl, Nat.reduceLeDiff,
    Nat.reduceSub, Nat.sub_self, int64_toNat, field_flag]

theorem parseGetLogicalMeasurements_buildReadFrame {e : Event} (h : e.op ≠ .getCorrections)
    (returnSize : Int64) (rid : UInt32) :
    (slotOf (buildReadFrame e returnSize rid)).bind parseGetLogicalMeasurements =
      some ⟨e.decoderId.toInt64.toInt, e.first.toNat, returnSize.toInt, e.reset⟩ := by
  have hlen : (int64Bytes e.decoderId.toInt64 ++ (int64Bytes (.ofNat e.first.toNat) ++
      (int64Bytes returnSize ++ [if e.reset then (1 : UInt8) else 0]))).length = 25 := by simp
  have hfixed := parseFixed_payload (int64Bytes e.decoderId.toInt64 ++
    (int64Bytes (.ofNat e.first.toNat) ++ (int64Bytes returnSize ++
      [if e.reset then (1 : UInt8) else 0]))) getLogicalMeasurementsFunctionId rid
  have hfirst : (Int64.ofNat e.first.toNat).toInt = e.first.toNat :=
    Int64.toInt_ofNat_of_lt (lt_trans e.first.toNat_lt (by decide))
  rw [buildReadFrame, if_neg h, slotOf_buildFrame_none (by omega), Option.bind_some,
    parseGetLogicalMeasurements]
  rw [hlen] at hfixed ⊢
  rw [hfixed, Option.map_some]
  simp only [field_int64, field_append_of_le, length_int64Bytes, Nat.le_refl, Nat.reduceLeDiff,
    Nat.reduceSub, Nat.sub_self, int64_toNat, field_flag, hfirst]

/-! ### Rounds -/

theorem shiftRight_and_one (b : UInt8) {k : Nat} (hk : k < 8) :
    (b >>> UInt8.ofNat k) &&& 1 = if b.toNat.testBit k then 1 else 0 := by
  apply UInt8.toNat_inj.mp
  have hshift : (UInt8.ofNat k).toNat % 8 = k := by
    rw [UInt8.toNat_ofNat']
    omega
  rw [UInt8.toNat_and, UInt8.toNat_shiftRight, hshift, UInt8.toNat_one, Nat.and_one_is_mod,
    Nat.shiftRight_eq_div_pow]
  have hbit := Nat.testBit_eq_decide_div_mod_eq (x := b.toNat) (i := k)
  rw [hbit]
  split
  · next h => exact decide_eq_true_eq.mp h
  · next h =>
    have hne : ¬ b.toNat / 2 ^ k % 2 = 1 := by simpa using h
    change b.toNat / 2 ^ k % 2 = 0
    omega

theorem unpackBits_packWhere {bits : List UInt8} (h : bits.length < 2 ^ 63) :
    unpackBits (packWhere (fun b => b ≠ 0) bits (bitPackedBytes bits.length) bits.length)
      bits.length = bits.map fun b => if b ≠ 0 then 1 else 0 := by
  have hsize : bitPackedBytes bits.length = (bits.length + 7) / 8 := by
    rw [bitPackedBytes, Nat.mod_eq_of_lt (by omega)]
  apply List.ext_getElem
  · simp [unpackBits]
  · intro i hi _
    have hlt : i < bits.length := by simpa [unpackBits] using hi
    have hbit := bitAt_packWhere (fun b => b ≠ 0) bits (i := i)
      (show bits.length ≤ 8 * bitPackedBytes bits.length by omega)
    simp only [unpackBits, List.getElem_map, List.getElem_range]
    rw [shiftRight_and_one _ (Nat.mod_lt _ (by decide))]
    rw [bitAt, List.getD_eq_getElem _ _ hlt] at hbit
    rw [hbit]
    simp [hlt]

theorem slotOf_buildEnqueueFrame (e : Event) (finalMappingId : Int64) (rid : UInt32)
    {bits : List UInt8} (h : bits.length ≤ maxSyndromeBits) :
    slotOf (buildEnqueueFrame e finalMappingId rid bits) =
      some ⟨⟨true, enqueueSyndromesFunctionId, 32 + bitPackedBytes bits.length, rid, 0⟩,
        int64Bytes e.decoderId.toInt64 ++ (int64Bytes 0 ++ (int64Bytes (e.mappingId finalMappingId) ++
          (int64Bytes (.ofNat bits.length) ++
            packWhere (fun b => b ≠ 0) bits (bitPackedBytes bits.length) bits.length)))⟩ := by
  have hsize : 32 + bitPackedBytes bits.length < 2 ^ 32 := by
    unfold bitPackedBytes maxSyndromeBits at *
    omega
  change slotOf ((headerBytes enqueueSyndromesFunctionId (.ofNat (_ + bitPackedBytes bits.length)) rid 0 ++
    _) ++ packWhere (fun b => b ≠ 0) bits (bitPackedBytes bits.length) bits.length) = _
  rw [List.append_assoc, slotOf_headerBytes, UInt32.toNat_ofNat']
  simp only [List.length_append, length_int64Bytes, Nat.reduceAdd, List.append_assoc]
  rw [Nat.mod_eq_of_lt hsize]

theorem parseEnqueue_buildEnqueueFrame (e : Event) (finalMappingId : Int64) (rid : UInt32)
    {bits : List UInt8} (hpos : 1 ≤ bits.length) (hmax : bits.length ≤ maxSyndromeBits) :
    (slotOf (buildEnqueueFrame e finalMappingId rid bits)).bind parseEnqueue =
      some ⟨e.decoderId.toNat, 0, (e.mappingId finalMappingId).toUInt64.toNat, bits.length,
        bitPackedBytes bits.length,
        packWhere (fun b => b ≠ 0) bits (bitPackedBytes bits.length) bits.length⟩ := by
  have hcount : (Int64.ofNat bits.length).toUInt64.toNat = bits.length := by
    rw [Int64.toUInt64_ofNat', UInt64.toNat_ofNat']
    unfold maxSyndromeBits at hmax
    omega
  rw [slotOf_buildEnqueueFrame e finalMappingId rid hmax, Option.bind_some]
  generalize hpacked : packWhere (fun b => b ≠ 0) bits (bitPackedBytes bits.length) bits.length = packed
  have hlen : packed.length = bitPackedBytes bits.length := by rw [← hpacked, length_packWhere]
  unfold parseEnqueue
  rw [if_neg (by simp)]
  rw [if_neg (by
    simp only [List.length_append, length_int64Bytes, hlen]
    omega)]
  have hbounds : ∀ offset, offset + 8 ≤ 32 →
      ¬ (32 + bitPackedBytes bits.length < offset ∨ 32 + bitPackedBytes bits.length - offset < 8) := by
    omega
  have hlast : ¬ (bits.length = 0 ∨ maxSyndromeBits < bits.length ∨
      32 + bitPackedBytes bits.length < 32 ∨
      32 + bitPackedBytes bits.length - 32 < bitPackedBytes bits.length) := by
    omega
  simp only [readU64, hbounds, Nat.reduceAdd, Nat.reduceLeDiff, if_false, field_int64, field_append_of_le,
    length_int64Bytes, Nat.le_refl, Nat.reduceSub, Nat.sub_self, hcount, Option.bind_eq_bind,
    Option.bind_some, hlast]
  have hbits : ((int64Bytes e.decoderId.toInt64 ++ (int64Bytes 0 ++
      (int64Bytes (e.mappingId finalMappingId) ++ (int64Bytes (.ofNat bits.length) ++ packed)))).drop
        32).take (bitPackedBytes bits.length) = packed := by
    simp only [← List.append_assoc]
    rw [List.drop_left' (by simp only [List.length_append, length_int64Bytes]), ← hlen,
      List.take_length]
  rw [hbits]
  rfl

/-! ## What is read is inside the slot -/

section Inside

variable {bytes : List UInt8} {slot : Slot}

theorem slotOf_eq_some (h : slotOf bytes = some slot) :
    headerSize ≤ bytes.length ∧ slot.header.argLen = field bytes 8 4 ∧
      slot.payload = bytes.drop headerSize := by
  unfold slotOf at h
  split at h
  · cases h
  · next hlen =>
    cases h
    exact ⟨not_lt.mp hlen, rfl, rfl⟩

/-- A part of the payload that both lengths leave room for. -/
theorem inside_of_le (h : slotOf bytes = some slot) {offset size : Nat}
    (hargs : offset + size ≤ slot.header.argLen) (hroom : offset + size ≤ slot.payload.length) :
    Inside bytes offset size := by
  obtain ⟨hlen, harg, hpayload⟩ := slotOf_eq_some h
  rw [hpayload, List.length_drop] at hroom
  rw [harg] at hargs
  exact ⟨by omega, hargs⟩

theorem readU64_eq_some {offset value next : Nat} (h : readU64 slot offset = some (value, next)) :
    value = field slot.payload offset 8 ∧ next = offset + 8 ∧ offset + 8 ≤ slot.header.argLen := by
  unfold readU64 at h
  split at h
  · cases h
  · next hroom =>
    cases h
    exact ⟨rfl, rfl, by omega⟩

theorem parseEnqueue_inside (h : slotOf bytes = some slot) {view : EnqueueView}
    (hparse : parseEnqueue slot = some view) :
    Inside bytes 0 32 ∧ Inside bytes 32 view.byteCount ∧
      view.decoderId = field (bytes.drop headerSize) 0 8 ∧
      view.counter = field (bytes.drop headerSize) 8 8 ∧
      view.syndromeMappingId = field (bytes.drop headerSize) 16 8 ∧
      view.numSyndromes = field (bytes.drop headerSize) 24 8 ∧
      view.byteCount = (view.numSyndromes + 7) / 8 ∧
      view.packedBits = ((bytes.drop headerSize).drop 32).take view.byteCount := by
  obtain ⟨-, -, hpayload⟩ := slotOf_eq_some h
  unfold parseEnqueue at hparse
  split at hparse
  · cases hparse
  split at hparse
  · cases hparse
  next hslot =>
  simp only [Option.bind_eq_bind, Option.bind_eq_some_iff, Prod.exists] at hparse
  obtain ⟨_, _, hfirst, _, _, hsecond, _, _, hthird, _, _, hfourth, hview⟩ := hparse
  obtain ⟨rfl, rfl, -⟩ := readU64_eq_some hfirst
  obtain ⟨rfl, rfl, -⟩ := readU64_eq_some hsecond
  obtain ⟨rfl, rfl, -⟩ := readU64_eq_some hthird
  obtain ⟨rfl, rfl, hfixed⟩ := readU64_eq_some hfourth
  split at hview
  · cases hview
  next hbits =>
  cases hview
  simp only [not_or, Nat.reduceAdd, not_lt] at hbits hfixed hslot
  obtain ⟨-, hmax, -, hroom⟩ := hbits
  have hbytes : 32 + bitPackedBytes (field slot.payload 24 8) ≤ slot.header.argLen := by omega
  refine ⟨inside_of_le h hfixed (hfixed.trans hslot), inside_of_le h hbytes (hbytes.trans hslot), ?_, ?_,
    ?_, ?_, ?_, ?_⟩
  · rw [hpayload]
  · rw [hpayload]
  · rw [hpayload]
  · rw [hpayload]
  · -- a count that the limit lets through does not wrap
    change bitPackedBytes (field slot.payload 24 8) = (field slot.payload 24 8 + 7) / 8
    unfold bitPackedBytes
    unfold maxSyndromeBits at hmax
    rw [Nat.mod_eq_of_lt (by omega)]
  · rw [hpayload]

theorem parseFixed_inside (h : slotOf bytes = some slot) {functionId : UInt32} {size : Nat}
    {payload : List UInt8} (hparse : parseFixed slot functionId size = some payload) :
    Inside bytes 0 size ∧ payload = (bytes.drop headerSize).take size := by
  obtain ⟨-, -, hpayload⟩ := slotOf_eq_some h
  unfold parseFixed at hparse
  split at hparse
  · cases hparse
  split at hparse
  · cases hparse
  next hroom =>
  cases hparse
  exact ⟨inside_of_le h (by omega) (by omega), by rw [hpayload]⟩

theorem parseGetCorrections_inside (h : slotOf bytes = some slot) {view : ResultView}
    (hparse : parseGetCorrections slot = some view) : Inside bytes 0 17 := by
  obtain ⟨payload, hfixed, -⟩ := Option.map_eq_some_iff.mp hparse
  exact (parseFixed_inside h hfixed).1

theorem parseGetLogicalMeasurements_inside (h : slotOf bytes = some slot) {view : ResultView}
    (hparse : parseGetLogicalMeasurements slot = some view) : Inside bytes 0 25 := by
  obtain ⟨payload, hfixed, -⟩ := Option.map_eq_some_iff.mp hparse
  exact (parseFixed_inside h hfixed).1

theorem parseReset_inside (h : slotOf bytes = some slot) {decoderId : Int}
    (hparse : parseReset slot = some decoderId) : Inside bytes 0 8 := by
  obtain ⟨payload, hfixed, -⟩ := Option.map_eq_some_iff.mp hparse
  exact (parseFixed_inside h hfixed).1

theorem peekDecoderId_inside (h : slotOf bytes = some slot) {decoderId : Nat}
    (hparse : peekDecoderId slot = some decoderId) :
    Inside bytes 0 8 ∧ decoderId = field (bytes.drop headerSize) 0 8 := by
  obtain ⟨-, -, hpayload⟩ := slotOf_eq_some h
  unfold peekDecoderId at hparse
  split at hparse
  · cases hparse
  split at hparse
  · cases hparse
  next hroom =>
  cases hparse
  exact ⟨inside_of_le h (by omega) (by omega), by rw [hpayload]⟩

end Inside

/-- What a frame carries is what its parser reads, and whatever bytes a slot has, a parser that accepts
it has read nothing but the payload that its header announces and that is there. -/
theorem frames_round_trip :
    (∀ (e : Event) (finalMappingId : Int64) (rid : UInt32) (bits : List UInt8), 1 ≤ bits.length →
      bits.length ≤ maxSyndromeBits → (∀ b ∈ bits, b = 0 ∨ b = 1) →
      ∃ view, (slotOf (buildEnqueueFrame e finalMappingId rid bits)).bind parseEnqueue = some view ∧
        view.decoderId = e.decoderId.toNat ∧
        int64 view.syndromeMappingId = (e.mappingId finalMappingId).toInt ∧
        view.numSyndromes = bits.length ∧ unpackBits view.packedBits view.numSyndromes = bits) ∧
    (∀ (e : Event) (returnSize : Int64) (rid : UInt32),
      (e.op = .getCorrections → (slotOf (buildReadFrame e returnSize rid)).bind parseGetCorrections =
        some ⟨e.decoderId.toInt64.toInt, 0, returnSize.toInt, e.reset⟩) ∧
      (e.op ≠ .getCorrections →
        (slotOf (buildReadFrame e returnSize rid)).bind parseGetLogicalMeasurements =
          some ⟨e.decoderId.toInt64.toInt, e.first.toNat, returnSize.toInt, e.reset⟩)) ∧
    (∀ (decoderId : UInt64) (rid : UInt32),
      (slotOf (buildResetFrame decoderId rid)).bind parseReset = some decoderId.toInt64.toInt) ∧
    ∀ (bytes : List UInt8) (slot : Slot), slotOf bytes = some slot →
      (∀ view, parseEnqueue slot = some view → Inside bytes 0 32 ∧ Inside bytes 32 view.byteCount ∧
        view.packedBits = ((bytes.drop headerSize).drop 32).take view.byteCount) ∧
      (∀ view, parseGetCorrections slot = some view → Inside bytes 0 17) ∧
      (∀ view, parseGetLogicalMeasurements slot = some view → Inside bytes 0 25) ∧
      (∀ decoderId, parseReset slot = some decoderId → Inside bytes 0 8) ∧
      (∀ functionId size payload, parseFixed slot functionId size = some payload →
        Inside bytes 0 size ∧ payload = (bytes.drop headerSize).take size) ∧
      ∀ decoderId, peekDecoderId slot = some decoderId → Inside bytes 0 8 := by
  refine ⟨?_, ?_, parseReset_buildResetFrame, ?_⟩
  -- an enqueue frame packs its bits and is unpacked to them
  -- an enqueue frame packs its bits and is unpacked to them
  · intro e finalMappingId rid bits hpos hmax hbits
    refine ⟨_, parseEnqueue_buildEnqueueFrame e finalMappingId rid hpos hmax, rfl, int64_toNat _, rfl,
      ?_⟩
    have hlt : bits.length < 2 ^ 63 := lt_of_le_of_lt hmax (by decide)
    refine (unpackBits_packWhere hlt).trans ?_
    conv_rhs => rw [← List.map_id bits]
    apply List.map_congr_left
    intro b hb
    rcases hbits b hb with rfl | rfl
    · rfl
    · rfl
  · intro e returnSize rid
    exact ⟨fun h => parseGetCorrections_buildReadFrame h returnSize rid,
      fun h => parseGetLogicalMeasurements_buildReadFrame h returnSize rid⟩
  -- whatever the bytes, a parser reads only what its check of the sizes has seen
  -- whatever the bytes, a parser reads only what its check of the sizes has seen
  · intro bytes slot h
    refine ⟨fun view hview => ?_, fun _ => parseGetCorrections_inside h,
      fun _ => parseGetLogicalMeasurements_inside h, fun _ => parseReset_inside h,
      fun _ _ _ => parseFixed_inside h, fun _ hid => (peekDecoderId_inside h hid).1⟩
    obtain ⟨hfixed, hbits, -, -, -, -, -, hpacked⟩ := parseEnqueue_inside h hview
    exact ⟨hfixed, hbits, hpacked⟩

/-- Nine bits to decoder 3, and a read of its corrections. -/
theorem frames_round_trip_nine :
    (∃ slot view, slotOf (buildEnqueueFrame ⟨3, .enqueueData, 0, true⟩ (-1) 7
        [1, 0, 1, 1, 0, 0, 0, 0, 1]) = some slot ∧ parseEnqueue slot = some view ∧
      view.decoderId = 3 ∧ int64 view.syndromeMappingId = -1 ∧ view.numSyndromes = 9 ∧
      unpackBits view.packedBits view.numSyndromes = [1, 0, 1, 1, 0, 0, 0, 0, 1] ∧
      Inside (buildEnqueueFrame ⟨3, .enqueueData, 0, true⟩ (-1) 7
        [1, 0, 1, 1, 0, 0, 0, 0, 1]) 32 view.byteCount) ∧
    (slotOf (buildReadFrame ⟨3, .getCorrections, 0, false⟩ 5 8)).bind parseGetCorrections =
      some ⟨3, 0, 5, false⟩ ∧
    (slotOf (buildReadFrame ⟨3, .getLogicalMeasurements, 2, false⟩ 5 8)).bind
      parseGetLogicalMeasurements = some ⟨3, 2, 5, false⟩ := by
  obtain ⟨view, hview, hid, hmapping, hcount, hbits⟩ := frames_round_trip.1
    ⟨3, .enqueueData, 0, true⟩ (-1) 7 [1, 0, 1, 1, 0, 0, 0, 0, 1] (by decide) (by decide)
    (by simp)
  obtain ⟨slot, hslot, hparse⟩ := Option.bind_eq_some_iff.mp hview
  refine ⟨⟨slot, view, hslot, hparse, hid, hmapping, hcount, hbits, ?_⟩, ?_, ?_⟩
  · exact ((frames_round_trip.2.2.2 _ slot hslot).1 view hparse).2.1
  · exact (frames_round_trip.2.1 ⟨3, .getCorrections, 0, false⟩ 5 8).1 rfl
  · exact (frames_round_trip.2.1 ⟨3, .getLogicalMeasurements, 2, false⟩ 5 8).2 (by decide)

end CudaqQec.Realtime
