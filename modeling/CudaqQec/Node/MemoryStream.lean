import CudaqQec.Node.MemoryModels
import CudaqQec.Lib.Slots
import Mathlib.Logic.Function.Iterate

/-!
# What a memory window reads

The ring holds the rounds of a window and the one before it whenever a window is decoded.

* `RingHolds`: the rounds that the ring has, out of the bytes delivered so far.
* `gather_eq`: a window reads its rounds and the one before, as they were delivered.
* `commit_eq_ok`: when a window commits, and what.
-/

namespace CudaqQec

open Checked SparseBinaryMatrix

/-! ## Rounds of a shot -/

def stretch (w : Nat) (b : List UInt8) (i j : Nat) : List UInt8 := (b.drop (i * w)).take ((j - i) * w)

theorem stretch_self (w : Nat) (b : List UInt8) (i : Nat) : stretch w b i i = [] := by
  simp [stretch]

theorem stretch_append (w : Nat) (b : List UInt8) {i j k : Nat} (hij : i ≤ j) (hjk : j ≤ k) :
    stretch w b i j ++ stretch w b j k = stretch w b i k := by
  obtain ⟨c, rfl⟩ := Nat.exists_eq_add_of_le hij
  obtain ⟨d, rfl⟩ := Nat.exists_eq_add_of_le hjk
  unfold stretch
  rw [show i + c - i = c by omega, show i + c + d - (i + c) = d by omega,
    show i + c + d - i = c + d by omega, Nat.add_mul i c w, Nat.add_mul c d w, List.take_add,
    List.drop_drop]

/-- Bytes that follow do not change a round. -/
theorem stretch_append_left {w : Nat} {b : List UInt8} (data : List UInt8) {i j : Nat}
    (h : j * w ≤ b.length) : stretch w (b ++ data) i j = stretch w b i j := by
  unfold stretch
  rcases Nat.lt_or_ge j i with hji | hij
  · rw [show j - i = 0 by omega, Nat.zero_mul, List.take_zero, List.take_zero]
  · have hi : i * w ≤ j * w := Nat.mul_le_mul_right w hij
    rw [List.drop_append_of_le_length (by omega), List.take_append_of_le_length]
    rw [List.length_drop, Nat.sub_mul]
    omega

theorem flatten_stretch (w : Nat) (b : List UInt8) (a c : Nat) :
    ((List.range c).map fun i => stretch w b (a + i) (a + i + 1)).flatten =
      stretch w b a (a + c) := by
  induction c with
  | zero => simp [stretch]
  | succ c ih =>
    rw [List.range_succ, List.map_append, List.flatten_append, ih]
    rw [List.map_singleton, List.flatten_singleton]
    exact stretch_append w b (by omega) (by omega)

namespace MemoryNode

variable {σ : Type} {n : MemoryNode σ} {st : MemoryState σ} {b data : List UInt8}

/-! ## The ring -/

theorem ringSize_pos (n : MemoryNode σ) : 0 < n.ringSize := Nat.succ_pos _

theorem nextSlot_mod (n : MemoryNode σ) (a : Nat) :
    n.nextSlot (a % n.ringSize) = (a + 1) % n.ringSize := by
  have hlt := Nat.mod_lt a n.ringSize_pos
  rw [nextSlot, ← Nat.mod_add_mod]
  split
  · next h => rw [h, Nat.mod_self]
  · next h => exact (Nat.mod_eq_of_lt (by omega)).symm

/-- The slots of a window's rounds are those of the rounds. -/
theorem slotAt_eq (n : MemoryNode σ) (start i : Nat) :
    n.slotAt start i = (start + i) % n.ringSize := by
  unfold slotAt
  induction i with
  | zero => simp
  | succ i ih => rw [Function.iterate_succ_apply', ih, nextSlot_mod, Nat.add_assoc]

/-- The rounds that the ring has. A round stays until the first byte of the one that takes its
slot. -/
structure RingHolds (n : MemoryNode σ) (st : MemoryState σ) (b : List UInt8) : Prop where
  holds : ∀ j < st.rounds, st.rounds ≤ j + n.ringSize →
    st.partialBytes = 0 ∨ st.rounds < j + n.ringSize →
    (st.ring (j % n.ringSize)).width = n.bulkWidth ∧
      (st.ring (j % n.ringSize)).measurements.take n.bulkWidth = stretch n.bulkWidth b j (j + 1)
  current : 0 < st.partialBytes → (st.ring (st.rounds % n.ringSize)).width = n.bulkWidth ∧
    (st.ring (st.rounds % n.ringSize)).measurements.take st.partialBytes =
      b.drop (st.rounds * n.bulkWidth)
  sized : ∀ slot, (st.ring slot).measurements.length = n.widest
  bytes : st.rounds * n.bulkWidth + st.partialBytes = b.length

theorem Accepted.nextWidth (ha : n.Accepted) (st : MemoryState σ) : n.nextWidth st = n.bulkWidth := by
  unfold MemoryNode.nextWidth
  split
  · next h =>
    rw [List.getD_eq_getElem _ _ h]
    exact ha.prefixWidths _ (List.getElem_mem h)
  · rfl

theorem RingHolds.receive (h : n.RingHolds st b) (ha : n.Accepted) (data : List UInt8)
    (hlen : st.partialBytes + data.length ≤ n.bulkWidth) :
    n.RingHolds (n.receive st data) (b ++ data) := by
  have hwide := ha.widest
  have hlast := h.sized (st.rounds % n.ringSize)
  refine ⟨fun j hj hle hfree => ?_, fun hpos => ?_, fun slot => ?_, ?_⟩
  · -- the slot of `j` is another one, or the chunk is empty and comes first
    simp only [MemoryNode.receive] at hj hle hfree ⊢
    have hround : (j + 1) * n.bulkWidth ≤ b.length := by
      have := Nat.mul_le_mul_right n.bulkWidth (show j + 1 ≤ st.rounds by omega)
      have := h.bytes
      omega
    rw [stretch_append_left data hround]
    rcases Nat.lt_or_ge st.rounds (j + n.ringSize) with hnear | hfar
    · have hne : j % n.ringSize ≠ st.rounds % n.ringSize := Slots.mod_ne_of_near hj hnear
      rw [Function.update_of_ne hne]
      exact h.holds j hj hle (.inr hnear)
    · have hsame : j % n.ringSize = st.rounds % n.ringSize := by
        rw [show st.rounds = j + n.ringSize by omega, Nat.add_mod_right]
      have hempty : st.partialBytes = 0 ∧ data = [] := by
        rcases hfree with hzero | hlt
        · exact ⟨by omega, List.length_eq_zero_iff.mp (by omega)⟩
        · omega
      rw [hsame, Function.update_self]
      have hold := h.holds j hj hle (.inl hempty.1)
      rw [hsame] at hold
      rw [hempty.2, if_pos hempty.1, hempty.1]
      simp only [List.take_zero, List.nil_append, List.length_nil, Nat.add_zero, List.drop_zero]
      exact ⟨ha.nextWidth st, hold.2⟩
  -- the round being received: what its slot held, and the new bytes behind it
  · simp only [MemoryNode.receive] at hpos ⊢
    rw [Function.update_self]
    have hbytes := h.bytes
    have hdrop : (b ++ data).drop (st.rounds * n.bulkWidth) =
        b.drop (st.rounds * n.bulkWidth) ++ data :=
      List.drop_append_of_le_length (by omega)
    have hold : (st.ring (st.rounds % n.ringSize)).measurements.take st.partialBytes =
        b.drop (st.rounds * n.bulkWidth) := by
      by_cases hzero : st.partialBytes = 0
      · rw [hzero, List.take_zero, List.drop_of_length_le (by omega)]
      · exact (h.current (by omega)).2
    have hwritten : ∀ m : List UInt8, m.length = n.widest →
        (m.take st.partialBytes ++ data ++ m.drop (st.partialBytes + data.length)).take
          (st.partialBytes + data.length) = m.take st.partialBytes ++ data := by
      intro m hm
      rw [List.take_append_of_le_length, List.take_of_length_le]
      · rw [List.length_append, List.length_take]
        omega
      · rw [List.length_append, List.length_take]
        omega
    rw [hdrop]
    split
    · next hzero => exact ⟨ha.nextWidth st, by rw [hwritten _ hlast, hold]⟩
    · next hzero => exact ⟨(h.current (by omega)).1, by rw [hwritten _ hlast, hold]⟩
  · simp only [MemoryNode.receive]
    by_cases hs : slot = st.rounds % n.ringSize
    · subst hs
      rw [Function.update_self]
      have hsized : ∀ m : List UInt8, m.length = n.widest →
          (m.take st.partialBytes ++ data ++ m.drop (st.partialBytes + data.length)).length =
            n.widest := by
        intro m hm
        simp only [List.length_append, List.length_take, List.length_drop]
        omega
      split
      · exact hsized _ hlast
      · exact hsized _ hlast
    · rw [Function.update_of_ne hs]
      exact h.sized slot
  · simp only [MemoryNode.receive, List.length_append]
    have := h.bytes
    omega

theorem RingHolds.complete (h : n.RingHolds st b) (ha : n.Accepted)
    (hfull : st.partialBytes = n.bulkWidth) :
    n.RingHolds { st with rounds := st.rounds + 1, partialBytes := 0 } b := by
  have hbytes := h.bytes
  have hpos := ha.pos
  refine ⟨fun j hj hle _ => ?_, fun hpos => absurd hpos (by simp), h.sized, ?_⟩
  · simp only at hj hle ⊢
    rcases Nat.lt_or_ge j st.rounds with hlt | hge
    · exact h.holds j hlt (by omega) (.inr (by omega))
    · obtain rfl : j = st.rounds := by omega
      obtain ⟨hw, hm⟩ := h.current (by omega)
      refine ⟨hw, ?_⟩
      rw [← hfull, hm, stretch, Nat.add_sub_cancel_left, Nat.one_mul, ← hfull,
        List.take_of_length_le]
      rw [List.length_drop, hfull]
      omega
  · simp only [Nat.add_mul, Nat.one_mul, Nat.add_zero]
    omega

/-! ## Reading a window -/

/-- The slots that a window reads, and the round before it, are still held. -/
theorem RingHolds.context_eq (h : n.RingHolds st b) (hzero : st.partialBytes = 0) {m : MemoryModel σ}
    {key : ModelKey} (hm : m.Fits n.toMemoryRecipe key) (ha : n.Accepted) {start : Nat}
    (hkey : key.startPhase = min start (n.prefixPhases.length + 1)) (hstart : start ≤ st.rounds)
    (hring : st.rounds < start + n.ringSize) :
    n.contextOf st m start = .ok (stretch n.bulkWidth b (start - 1) start) := by
  have hcontext : m.measurementOffsets.headD 0 = n.previousWidth key.startPhase := by
    rw [hm.measurementOffsets, List.range_succ_eq_map]
    simp
  have hpos := ha.pos
  simp only [contextOf, hcontext]
  rcases Nat.eq_zero_or_pos start with rfl | hs
  · have hzero : n.previousWidth key.startPhase = 0 := by simp [MemoryRecipe.previousWidth, hkey]
    rw [if_pos hzero, stretch_self]
  · have hwidth : n.previousWidth key.startPhase = n.bulkWidth := by
      unfold MemoryRecipe.previousWidth
      rw [if_neg (by omega)]
      split
      · next hle =>
        rw [List.getD_eq_getElem _ _ (by omega)]
        exact ha.prefixWidths _ (List.getElem_mem _)
      · rfl
    obtain ⟨hw, hbytes⟩ := h.holds (start - 1) (by omega) (by omega) (.inl hzero)
    rw [hwidth, if_neg (by omega), hw, throwIf_of_not (by simp), ok_bind, hbytes,
      Nat.sub_add_cancel hs]
    rfl

theorem RingHolds.inputOf_eq (h : n.RingHolds st b) (hzero : st.partialBytes = 0) {m : MemoryModel σ}
    {key : ModelKey} (hm : m.Fits n.toMemoryRecipe key) {start i : Nat} (hi : i < key.rounds)
    (hend : start + key.rounds ≤ st.rounds) (hring : st.rounds < start + n.ringSize) :
    n.inputOf st m start i = .ok (stretch n.bulkWidth b (start + i) (start + i + 1)) := by
  obtain ⟨hw, hbytes⟩ := h.holds (start + i) (by omega) (by omega) (.inl hzero)
  have hoff : m.measurementOffsets.getD (i + 1) 0 - m.measurementOffsets.getD i 0 = n.bulkWidth := by
    rw [hm.measurementOffsets, getD_map_range, getD_map_range, if_pos (by omega),
      if_pos (by omega), Nat.add_mul, Nat.one_mul]
    omega
  rw [inputOf, slotAt_eq, hoff, hw, throwIf_of_not (by simp), ok_bind, hbytes]
  rfl

def windowRounds (n : MemoryNode σ) (st : MemoryState σ) (terminal : Bool) : Nat × Nat :=
  let windowEnd := if terminal then st.rounds else st.rounds - n.tailLookahead
  (if terminal ∧ st.committed = 0 then windowEnd else min windowEnd n.schedule.size, windowEnd)

def windowKey (n : MemoryNode σ) (st : MemoryState σ) (terminal : Bool) : ModelKey :=
  let w := n.windowRounds st terminal
  ⟨min (w.2 - w.1) (n.prefixPhases.length + 1), terminal, w.1⟩

/-- A window whose model was prepared reads its rounds and the one before, as they were
delivered. -/
theorem gather_eq (h : n.RingHolds st b) (ha : n.Accepted) (hzero : st.partialBytes = 0)
    {terminal : Bool} (hkey : n.windowKey st terminal ∈ n.preparedKeys) {rounds windowEnd : Nat}
    (hw : n.windowRounds st terminal = (rounds, windowEnd))
    (hring : st.rounds + rounds < windowEnd + n.ringSize) :
    ∃ m, n.modelAt (n.windowKey st terminal) = .ok m ∧
      m.Fits n.toMemoryRecipe (n.windowKey st terminal) ∧
      n.gather st terminal = .ok ⟨n.windowKey st terminal, m, windowEnd - rounds, windowEnd,
        stretch n.bulkWidth b (windowEnd - rounds - 1) windowEnd,
        n.residualOf st m (windowEnd - rounds) rounds
          (stretch n.bulkWidth b (windowEnd - rounds - 1) windowEnd)⟩ := by
  obtain ⟨m, hm, hfits⟩ := ha.modelAt _ hkey
  refine ⟨m, hm, hfits, ?_⟩
  have hle : rounds ≤ windowEnd ∧ windowEnd ≤ st.rounds := by
    simp only [windowRounds, Prod.mk.injEq] at hw
    obtain ⟨rfl, rfl⟩ := hw
    split <;> split <;> omega
  have hrounds : (n.windowKey st terminal).rounds = rounds := by
    rw [windowKey, hw]
  have hstart : (n.windowKey st terminal).startPhase =
      min (windowEnd - rounds) (n.prefixPhases.length + 1) := by
    rw [windowKey, hw]
  have hcontext := h.context_eq hzero hfits ha hstart (by omega) (by omega)
  -- every round of the window is still in its slot
  have hinputs : (List.range rounds).mapM (n.inputOf st m (windowEnd - rounds)) =
      .ok ((List.range rounds).map fun i =>
        stretch n.bulkWidth b (windowEnd - rounds + i) (windowEnd - rounds + i + 1)) := by
    apply mapM_eq_ok_map
    intro i hi
    apply h.inputOf_eq hzero hfits _ (by omega) (by omega)
    rw [hrounds]
    exact List.mem_range.mp hi
  have hall : stretch n.bulkWidth b (windowEnd - rounds - 1) (windowEnd - rounds) ++
      stretch n.bulkWidth b (windowEnd - rounds) (windowEnd - rounds + rounds) =
        stretch n.bulkWidth b (windowEnd - rounds - 1) windowEnd := by
    rw [Nat.sub_add_cancel hle.1]
    exact stretch_append _ _ (by omega) (by omega)
  -- with the window's bounds known, `gather` is the model, the context and the inputs
  have hgather : n.gather st terminal = (do
      let m ← n.modelAt (n.windowKey st terminal)
      let context ← n.contextOf st m (windowEnd - rounds)
      let inputs ← (List.range rounds).mapM (n.inputOf st m (windowEnd - rounds))
      let measurements := context ++ inputs.flatten
      return ⟨n.windowKey st terminal, m, windowEnd - rounds, windowEnd, measurements,
        n.residualOf st m (windowEnd - rounds) rounds measurements⟩) := by
    simp only [windowRounds, Prod.mk.injEq] at hw
    obtain ⟨rfl, rfl⟩ := hw
    rfl
  rw [hgather, hm, ok_bind, hcontext, ok_bind, hinputs, ok_bind, flatten_stretch, hall]
  rfl

/-! ## Committing -/

theorem commit_eq_ok {w : MemoryWindow σ} {result : List SoftValue} {p : MemoryState σ × Fire} :
    n.commit st w result = .ok p ↔ result.length = w.model.faultOffsets.getLastD 0 ∧
      w.start ≤ st.committed ∧ st.committed < n.commitEnd st w ∧
      ∃ lo hi, w.model.faultOffsets[st.committed - w.start]? = some lo ∧
        w.model.faultOffsets[n.commitEnd st w - w.start]? = some hi ∧
        p = n.commitColumns st w result lo hi := by
  simp only [commit, bind_eq_ok, throwIf_eq_ok, elementAt_eq_ok, not_not, not_or, Nat.not_lt,
    Nat.not_le]
  constructor
  · rintro ⟨-, hlen, -, ⟨hstart, hend⟩, lo, hlo, hi, hhi, hp⟩
    exact ⟨hlen, hstart, hend, lo, hi, hlo, hhi, (Except.ok.inj hp).symm⟩
  · rintro ⟨hlen, hstart, hend, lo, hi, hlo, hhi, rfl⟩
    exact ⟨(), hlen, (), ⟨hstart, hend⟩, lo, hlo, hi, hhi, rfl⟩

end MemoryNode

end CudaqQec
