import CudaqQec.Node.MemoryStream

/-!
# Coverage of a memory window

A shot of any length is committed round by round: the regular windows commit one core each, and the
window of `flush` commits what is left. Every window finds its model, since the schedule fixes where
a window starts, and starts no later than the rounds committed before it end, since the leading guard
is at least as long as the terminal phases that were waited for.

The sum of the two guards is checked as a `uint32_t`. Guards whose sum wraps around pass, and the
second window then starts after the rounds that the first one committed.

* `covers_iff`: a node commits every shot exactly when the sum of its guards does not wrap around.
-/

namespace CudaqQec

open Checked SparseBinaryMatrix

@[grind =] def Tile : Nat → List Fire → Nat → Prop
  | a, [], b => a = b
  | a, f :: fs, b => f.beginRound = a ∧ f.beginRound < f.endRound ∧ Tile f.endRound fs b

theorem Tile.append {a b c : Nat} {fs gs : List Fire} (h : Tile a fs b) (h' : Tile b gs c) :
    Tile a (fs ++ gs) c := by
  induction fs generalizing a with
  | nil =>
    cases h
    exact h'
  | cons f fs ih => exact ⟨h.1, h.2.1, ih h.2.2⟩

namespace MemoryNode

variable {σ : Type} {n : MemoryNode σ} {st st' : MemoryState σ} {b data : List UInt8} {k N : Nat}

/-! ## Decoding a window -/

def answerOf (st : MemoryState σ) (w : MemoryWindow σ) : σ × List SoftValue :=
  w.model.dec.decode (st.dec w.key) w.residual

def answered (st : MemoryState σ) (w : MemoryWindow σ) : MemoryState σ :=
  { st with dec := Function.update st.dec w.key (answerOf st w).1 }

theorem decodeWindow_eq_ok {terminal : Bool} {fire : Fire} :
    n.decodeWindow st terminal = (st', .ok fire) ↔ ∃ w, n.gather st terminal = .ok w ∧
      (answerOf st w).2.length = w.model.faultOffsets.getLastD 0 ∧
      w.start ≤ st.committed ∧ st.committed < n.commitEnd st w ∧
      ∃ lo hi, w.model.faultOffsets[st.committed - w.start]? = some lo ∧
        w.model.faultOffsets[n.commitEnd st w - w.start]? = some hi ∧
        (st', fire) = n.commitColumns (answered st w) w (answerOf st w).2 lo hi := by
  unfold decodeWindow
  cases hg : n.gather st terminal with
  | error e => simp
  | ok w =>
    simp only [Except.ok.injEq, exists_eq_left']
    have hcommit : n.commit (answered st w) w (answerOf st w).2 = .ok (st', fire) ↔ _ := commit_eq_ok
    have hend : n.commitEnd (answered st w) w = n.commitEnd st w := rfl
    have hcommitted : (answered st w).committed = st.committed := rfl
    rw [hend, hcommitted] at hcommit
    rw [← hcommit]
    unfold answered answerOf
    cases n.commit { st with
      dec := Function.update st.dec w.key (w.model.dec.decode (st.dec w.key) w.residual).1 } w
      (w.model.dec.decode (st.dec w.key) w.residual).2 with
    | error e => simp
    | ok p => simp [Prod.ext_iff]

theorem foldl_toggleCarry (m : MemoryModel σ) (first : Nat) (ds : List Nat)
    (ring : Nat → RoundBuffer) (slot : Nat) :
    (ds.foldl (n.toggleCarry m first) ring slot).measurements = (ring slot).measurements ∧
      (ds.foldl (n.toggleCarry m first) ring slot).width = (ring slot).width := by
  induction ds generalizing ring with
  | nil => exact ⟨rfl, rfl⟩
  | cons d ds ih =>
    rw [List.foldl_cons]
    obtain ⟨hm, hw⟩ := ih (n.toggleCarry m first ring d)
    rw [hm, hw]
    unfold toggleCarry
    dsimp only
    by_cases hs : slot = n.targetSlot first (m.detectorRounds.getD d 0)
    · rw [hs, Function.update_self]
      exact ⟨rfl, rfl⟩
    · rw [Function.update_of_ne hs]
      exact ⟨rfl, rfl⟩

theorem RingHolds.commitColumns (h : n.RingHolds st b) (w : MemoryWindow σ) (result : List SoftValue)
    (lo hi : Nat) : n.RingHolds (n.commitColumns (answered st w) w result lo hi).1 b := by
  have hring : ∀ slot, ((n.commitColumns (answered st w) w result lo hi).1.ring slot).measurements =
      (st.ring slot).measurements ∧
      ((n.commitColumns (answered st w) w result lo hi).1.ring slot).width =
        (st.ring slot).width := by
    intro slot
    simp only [MemoryNode.commitColumns]
    split
    · exact ⟨rfl, rfl⟩
    · exact foldl_toggleCarry _ _ _ _ _
  refine ⟨fun j hj hle hfree => ?_, fun hpos => ?_, fun slot => ?_, h.bytes⟩
  · rw [(hring _).1, (hring _).2]
    exact h.holds j hj hle hfree
  · rw [(hring _).1, (hring _).2]
    exact h.current hpos
  · rw [(hring slot).1]
    exact h.sized slot

/-! ## Prepared models -/

theorem mem_preparedKeys_regular (n : MemoryNode σ) (k : Nat) :
    (⟨min (k * n.schedule.stride) (n.prefixPhases.length + 1), false, n.schedule.size⟩ : ModelKey) ∈
      n.preparedKeys := by
  apply List.mem_append_left
  refine List.mem_flatMap.mpr ⟨min (k * n.schedule.stride) (n.prefixPhases.length + 1),
    List.mem_range.mpr (Nat.lt_succ_of_le (Nat.min_le_right _ _)), ?_⟩
  apply List.mem_append_left
  rw [if_pos]
  · exact List.mem_singleton_self _
  · rcases Nat.le_total (k * n.schedule.stride) (n.prefixPhases.length + 1) with h | h
    · rw [Nat.min_eq_left h, Nat.mul_mod_left]
      exact .inl rfl
    · exact .inr (Nat.min_eq_right h)

theorem mem_preparedKeys_terminal (n : MemoryNode σ) (start : Nat) :
    (⟨min start (n.prefixPhases.length + 1), true, n.schedule.size⟩ : ModelKey) ∈
      n.preparedKeys := by
  apply List.mem_append_left
  refine List.mem_flatMap.mpr ⟨min start (n.prefixPhases.length + 1),
    List.mem_range.mpr (Nat.lt_succ_of_le (Nat.min_le_right _ _)), ?_⟩
  exact List.mem_append_right _ (List.mem_singleton_self _)

theorem mem_preparedKeys_short (n : MemoryNode σ) (hmin : n.spec.minimumRounds ≤ N)
    (hN : N ≤ n.schedule.size + n.tailLookahead) : (⟨0, true, N⟩ : ModelKey) ∈ n.preparedKeys := by
  by_cases hsize : N = n.schedule.size
  · subst hsize
    simpa using mem_preparedKeys_terminal n 0
  · apply List.mem_append_right
    refine List.mem_map.mpr ⟨N, List.mem_filter.mpr ⟨List.mem_range.mpr (by omega), ?_⟩, rfl⟩
    simp [hmin, hsize]

/-! ## The schedule -/

def committedAfter (n : MemoryNode σ) (k : Nat) : Nat :=
  if k = 0 then 0 else n.schedule.size + (k - 1) * n.schedule.stride - n.schedule.endGuard

theorem committedAfter_succ (n : MemoryNode σ) (k : Nat) : n.committedAfter (k + 1) =
    n.schedule.size + k * n.schedule.stride - n.schedule.endGuard := by
  simp [committedAfter]

theorem Accepted.stride_add (ha : n.Accepted) : n.schedule.stride +
    u32 (n.schedule.startGuard + n.schedule.endGuard) = n.schedule.size := by
  have hg := ha.guards
  have hs := n.schedule.size_lt
  have h1 := n.schedule.startGuard_lt
  have h2 := n.schedule.endGuard_lt
  rw [ha.stride_eq, WindowSpec.core, sub32, sub32]
  unfold u32 at *
  omega

theorem Accepted.stride_pos (ha : n.Accepted) : 0 < n.schedule.stride := by
  have h := ha.stride_add
  have hg := ha.guards
  omega

/-- Guards whose sum does not wrap around. -/
theorem Accepted.guards_eq (ha : n.Accepted)
    (hfit : n.schedule.startGuard + n.schedule.endGuard < 2 ^ 32) :
    n.schedule.stride + (n.schedule.startGuard + n.schedule.endGuard) = n.schedule.size := by
  have h := ha.stride_add
  rwa [u32_of_lt hfit] at h

/-- With guards that do not wrap around, a window starts no later than the commits before it end. -/
theorem Accepted.start_le_committed (ha : n.Accepted)
    (hfit : n.schedule.startGuard + n.schedule.endGuard < 2 ^ 32) (k : Nat) :
    k * n.schedule.stride + (if k = 0 then 0 else n.tailLookahead) ≤ n.committedAfter k := by
  have hg := ha.guards_eq hfit
  have hl := ha.lookahead
  cases k with
  | zero => simp
  | succ k =>
    rw [committedAfter_succ, if_neg (by omega), Nat.add_mul, Nat.one_mul]
    omega

/-! ## During a shot -/

/-- During a shot: `b` has been delivered, and `k` regular windows were decoded. -/
structure Mid (n : MemoryNode σ) (b : List UInt8) (k : Nat) (st : MemoryState σ) : Prop
    extends n.RingHolds st b where
  partial_lt : st.partialBytes < n.bulkWidth
  nextFire : st.nextFire = n.schedule.size + n.tailLookahead + k * n.schedule.stride
  before : st.rounds < st.nextFire
  after : 0 < k → st.nextFire ≤ st.rounds + n.schedule.stride
  terminalComplete : st.terminalComplete = false
  flushed : st.flushed = false
  failed : st.failed = false
  committed : st.committed = n.committedAfter k

/-- A regular window is due: its last round is complete. -/
structure Due (n : MemoryNode σ) (b : List UInt8) (k : Nat) (st : MemoryState σ) : Prop
    extends n.RingHolds st b where
  partialBytes : st.partialBytes = 0
  nextFire : st.nextFire = n.schedule.size + n.tailLookahead + k * n.schedule.stride
  rounds : st.rounds = st.nextFire
  terminalComplete : st.terminalComplete = false
  flushed : st.flushed = false
  failed : st.failed = false
  committed : st.committed = n.committedAfter k

/-- A window that read its rounds and the one before, as they were delivered. -/
def Fire.Reads (f : Fire) (w : Nat) (b : List UInt8) : Prop :=
  (f.start + f.key.rounds) * w ≤ b.length ∧
    f.measurements = stretch w b (f.start - 1) (f.start + f.key.rounds)

theorem mid_initialState (n : MemoryNode σ) (ha : n.Accepted) (dec : ModelKey → σ) :
    n.Mid [] 0 (n.initialState dec) where
  holds := fun j hj => absurd hj (by simp [initialState])
  current := fun h => absurd h (by simp [initialState])
  sized := fun slot => by simp [initialState]
  bytes := by simp [initialState]
  partial_lt := ha.pos
  nextFire := by simp [initialState]
  before := by
    have := ha.stride_lt
    simp only [initialState]
    omega
  after := fun h => absurd h (by omega)
  terminalComplete := rfl
  flushed := rfl
  failed := rfl
  committed := rfl

theorem Mid.rawChunkLimit (h : n.Mid b k st) (ha : n.Accepted) :
    n.rawChunkLimit st = n.bulkWidth - st.partialBytes := by
  simp [MemoryNode.rawChunkLimit, h.terminalComplete, ha.nextWidth]

/-- `enqueue` on an open node whose next record the chunk fits. -/
theorem enqueue_eq {type : RoundType} (hfailed : st.failed = false) (hflushed : st.flushed = false)
    (hopen : st.terminalComplete = false) (hdata : data ≠ [] ∨ type = .bulk)
    (hlen : data.length ≤ n.rawChunkLimit st) : n.enqueue st data type =
      if (n.receive st data).partialBytes ≠ ((n.receive st data).ring (st.rounds % n.ringSize)).width then
        if type = .final then
          ({ n.receive st data with failed := true },
            .error (.thrown (.invalidArgument "memory window: truncated final phase")))
        else (n.receive st data, .ok none)
      else n.completeRound (n.receive st data) type := by
  have hempty : ¬ (data.length = 0 ∧ type = .final) := by
    rintro ⟨hd, ht⟩
    rcases hdata with hne | hb
    · exact hne (List.length_eq_zero_iff.mp hd)
    · rw [hb] at ht
      cases ht
  unfold enqueue
  rw [if_neg (by simp [hfailed]), if_neg (by simp [hflushed, hopen]), if_neg hempty,
    if_neg (by omega)]

theorem receive_width (ha : n.Accepted) (h : n.RingHolds st b) :
    ((n.receive st data).ring (st.rounds % n.ringSize)).width = n.bulkWidth := by
  simp only [MemoryNode.receive, Function.update_self]
  split
  · exact ha.nextWidth st
  · next hpos => exact (h.current (by omega)).1

/-- The bookkeeping that a chunk does not touch. -/
theorem receive_frame (n : MemoryNode σ) (st : MemoryState σ) (data : List UInt8) :
    (n.receive st data).rounds = st.rounds ∧
      (n.receive st data).partialBytes = st.partialBytes + data.length ∧
      (n.receive st data).nextFire = st.nextFire ∧
      (n.receive st data).terminalComplete = st.terminalComplete ∧
      (n.receive st data).flushed = st.flushed ∧ (n.receive st data).failed = st.failed ∧
      (n.receive st data).committed = st.committed := ⟨rfl, rfl, rfl, rfl, rfl, rfl, rfl⟩

/-- What `enqueue` makes of a window that was due. -/
def fired (n : MemoryNode σ) (p : MemoryState σ × Except Fault Fire) :
    MemoryState σ × Except Fault (Option Fire) :=
  match p with
  | (st, .error e) => ({ st with failed := true }, .error e)
  | (st, .ok fire) => ({ st with nextFire := st.nextFire + n.schedule.stride }, .ok (some fire))

/-- A chunk within the limit stays inside its round, completes it, or completes a window. -/
theorem Mid.enqueue (h : n.Mid b k st) (ha : n.Accepted) (hlen : data.length ≤ n.rawChunkLimit st) :
    (∃ st', n.enqueue st data .bulk = (st', .ok none) ∧ n.Mid (b ++ data) k st') ∨
      ∃ st₁, n.Due (b ++ data) k st₁ ∧
        n.enqueue st data .bulk = n.fired (n.decodeWindow st₁ false) := by
  rw [enqueue_eq h.failed h.flushed h.terminalComplete (.inr rfl) hlen, receive_width ha h.toRingHolds]
  rw [h.rawChunkLimit ha] at hlen
  have hpartial := h.partial_lt
  have hring := h.toRingHolds.receive ha data (by omega)
  obtain ⟨hrounds, hbytes, hnext, hopen, hflushed, hfailed, hcommitted⟩ := receive_frame n st data
  by_cases hfull : (n.receive st data).partialBytes = n.bulkWidth
  · rw [if_neg (by simpa using hfull), completeRound, if_neg (by simp)]
    have hdone := hring.complete ha hfull
    by_cases hdue : (n.receive st data).rounds + 1 = (n.receive st data).nextFire
    · right
      refine ⟨{ n.receive st data with rounds := (n.receive st data).rounds + 1, partialBytes := 0 },
        ⟨hdone, rfl, hnext.trans h.nextFire, hdue, hopen.trans h.terminalComplete,
          hflushed.trans h.flushed, hfailed.trans h.failed, hcommitted.trans h.committed⟩, ?_⟩
      rw [if_pos hdue]
      rfl
    · left
      refine ⟨_, if_neg hdue, ⟨hdone, ha.pos, hnext.trans h.nextFire, ?_, fun hk => ?_,
        hopen.trans h.terminalComplete, hflushed.trans h.flushed, hfailed.trans h.failed,
        hcommitted.trans h.committed⟩⟩
      · have := h.before
        simp only
        omega
      · have := h.after hk
        simp only
        omega
  · left
    rw [if_pos hfull, if_neg (by simp)]
    refine ⟨_, rfl, ⟨hring, by omega, hnext.trans h.nextFire, ?_, fun hk => ?_,
      hopen.trans h.terminalComplete, hflushed.trans h.flushed, hfailed.trans h.failed,
      hcommitted.trans h.committed⟩⟩
    · rw [hrounds, hnext]
      exact h.before
    · rw [hrounds, hnext]
      exact h.after hk

/-! ## Regular windows -/

theorem Due.window (h : n.Due b k st) : n.windowRounds st false =
    (n.schedule.size, n.schedule.size + k * n.schedule.stride) := by
  have hr := h.rounds
  have hn := h.nextFire
  simp only [windowRounds, Bool.false_eq_true, false_and, if_false, Prod.mk.injEq]
  omega

/-- The `k`-th regular window. -/
def regularWindow (n : MemoryNode σ) (st : MemoryState σ) (m : MemoryModel σ) (b : List UInt8)
    (k : Nat) : MemoryWindow σ :=
  let start := k * n.schedule.stride
  let measurements := stretch n.bulkWidth b (start - 1) (n.schedule.size + start)
  { key := ⟨min start (n.prefixPhases.length + 1), false, n.schedule.size⟩
    model := m
    start := start
    windowEnd := n.schedule.size + start
    measurements := measurements
    residual := n.residualOf st m start n.schedule.size measurements }

theorem Due.gather (h : n.Due b k st) (ha : n.Accepted) : ∃ m,
    m.Fits n.toMemoryRecipe (n.regularWindow st m b k).key ∧
      n.gather st false = .ok (n.regularWindow st m b k) := by
  have hkey : n.windowKey st false = ⟨min (k * n.schedule.stride) (n.prefixPhases.length + 1), false,
      n.schedule.size⟩ := by
    rw [windowKey, h.window, Nat.add_sub_cancel_left]
  have hr := h.rounds
  have hn := h.nextFire
  obtain ⟨m, -, hfits, hg⟩ := gather_eq h.toRingHolds ha h.partialBytes
    (by rw [hkey]; exact mem_preparedKeys_regular n k) h.window (by unfold ringSize; omega)
  rw [Nat.add_sub_cancel_left, hkey] at hg
  rw [hkey] at hfits
  exact ⟨m, hfits, hg⟩

/-- Where the commit of a regular window ends, as long as its model has that round. -/
theorem commitEnd_regular {m : MemoryModel σ}
    (hle : n.commitEnd st (n.regularWindow st m b k) ≤ n.schedule.size + k * n.schedule.stride ∨
      n.schedule.endGuard ≤ n.schedule.size) :
    n.commitEnd st (n.regularWindow st m b k) = n.committedAfter (k + 1) ∧
      n.schedule.endGuard ≤ n.schedule.size + k * n.schedule.stride := by
  have hg := n.schedule.endGuard_lt
  have hend : n.commitEnd st (n.regularWindow st m b k) =
      sizeT ((n.schedule.size + k * n.schedule.stride : Nat) - (n.schedule.endGuard : Int)) := rfl
  rw [hend] at hle
  rw [committedAfter_succ, hend]
  unfold sizeT at hle ⊢
  by_cases hs : n.schedule.endGuard ≤ n.schedule.size + k * n.schedule.stride
  · rw [if_pos (by omega)]
    omega
  · rw [if_neg (by omega)] at hle
    omega

/-- A window that was decoded: it committed the next core, and started inside what was committed. -/
theorem Due.fire (h : n.Due b k st) (ha : n.Accepted) {fire : Fire}
    (hd : n.decodeWindow st false = (st', .ok fire)) :
    n.Mid b (k + 1) { st' with nextFire := st'.nextFire + n.schedule.stride } ∧
      fire.beginRound = n.committedAfter k ∧ fire.endRound = n.committedAfter (k + 1) ∧
      fire.beginRound < fire.endRound ∧ Fire.Reads fire n.bulkWidth b ∧
      k * n.schedule.stride ≤ n.committedAfter k := by
  obtain ⟨m, hfits, hg⟩ := h.gather ha
  obtain ⟨w, hw, -, hstart, hlt, lo, hi, -, hhi, hp⟩ := decodeWindow_eq_ok.mp hd
  obtain rfl := Except.ok.inj (hg.symm.trans hw)
  have hbound : n.commitEnd st (n.regularWindow st m b k) - k * n.schedule.stride <
      n.schedule.size + 1 := by
    have := (List.getElem?_eq_some_iff.mp hhi).1
    exact this.trans_eq hfits.length_faultOffsets
  -- a regular window commits up to where the next one starts to
  have hend : n.commitEnd st (n.regularWindow st m b k) = n.committedAfter (k + 1) :=
    (commitEnd_regular (.inl (by omega))).1
  rw [hend, h.committed] at hlt
  rw [h.committed] at hstart
  have hr := h.rounds
  have hnf := h.nextFire
  have hpos := ha.stride_pos
  obtain ⟨rfl, rfl⟩ := Prod.mk.inj hp
  have hring := h.toRingHolds.commitColumns (n.regularWindow st m b k)
    (answerOf st (n.regularWindow st m b k)).2 lo hi
  refine ⟨⟨⟨hring.holds, hring.current, hring.sized, hring.bytes⟩, ?_, ?_, ?_, ?_, ?_, ?_, ?_, ?_⟩,
    ?_, ?_, ?_, ?_, hstart⟩
  · change st.partialBytes < n.bulkWidth
    rw [h.partialBytes]
    exact ha.pos
  · change st.nextFire + n.schedule.stride = _
    rw [h.nextFire, Nat.add_mul, Nat.one_mul]
    omega
  · change st.rounds < st.nextFire + n.schedule.stride
    omega
  · intro _
    change st.nextFire + n.schedule.stride ≤ st.rounds + n.schedule.stride
    omega
  · exact h.terminalComplete
  · exact h.flushed
  · exact h.failed
  · exact hend
  · exact h.committed
  · exact hend
  · change st.committed < n.commitEnd st (n.regularWindow st m b k)
    rw [hend, h.committed]
    exact hlt
  · have hbytes := h.bytes
    have hle := Nat.mul_le_mul_right n.bulkWidth
      (show k * n.schedule.stride + n.schedule.size ≤ st.rounds by omega)
    refine ⟨show (k * n.schedule.stride + n.schedule.size) * n.bulkWidth ≤ b.length by omega, ?_⟩
    change stretch n.bulkWidth b (k * n.schedule.stride - 1)
        (n.schedule.size + k * n.schedule.stride) =
      stretch n.bulkWidth b (k * n.schedule.stride - 1)
        (k * n.schedule.stride + n.schedule.size)
    rw [Nat.add_comm]

/-- With guards that do not wrap around, a window that is due is decoded. -/
theorem Due.exists_fire (h : n.Due b k st) (ha : n.Accepted)
    (hfit : n.schedule.startGuard + n.schedule.endGuard < 2 ^ 32) :
    ∃ st' fire, n.decodeWindow st false = (st', .ok fire) := by
  obtain ⟨m, hfits, hg⟩ := h.gather ha
  have hguards := ha.guards_eq hfit
  have hend : n.commitEnd st (n.regularWindow st m b k) = n.committedAfter (k + 1) :=
    (commitEnd_regular (.inr (by omega))).1
  have hstart : k * n.schedule.stride ≤ st.committed := by
    have := ha.start_le_committed hfit k
    rw [h.committed]
    omega
  have hlt : st.committed < n.committedAfter (k + 1) := by
    rw [h.committed, committedAfter_succ]
    unfold committedAfter
    have hpos := ha.stride_pos
    split
    · omega
    · next hk =>
      obtain ⟨j, rfl⟩ := Nat.exists_eq_succ_of_ne_zero hk
      rw [Nat.succ_sub_one, Nat.succ_mul]
      omega
  have hle : n.committedAfter (k + 1) ≤ k * n.schedule.stride + n.schedule.size := by
    rw [committedAfter_succ]
    omega
  have hlen : (n.regularWindow st m b k).model.faultOffsets.length = n.schedule.size + 1 :=
    hfits.length_faultOffsets
  have hbegin : (n.regularWindow st m b k).start = k * n.schedule.stride := rfl
  refine ⟨_, _, decodeWindow_eq_ok.mpr ⟨_, hg, ?_, hstart, by rw [hend]; exact hlt, _, _,
    List.getElem?_eq_getElem (by omega), List.getElem?_eq_getElem (by rw [hend]; omega), rfl⟩⟩
  exact (m.dec.length_result hfits.resultType _ _).trans hfits.blockSize

/-! ## Delivering a shot -/

def bytesOf (chunks : List Chunk) : List UInt8 := chunks.flatMap (·.data)

/-- Each chunk is within `raw_chunk_limit` when it is delivered. -/
@[grind =] def WithinLimits (n : MemoryNode σ) (st : MemoryState σ) : List Chunk → Prop
  | [] => True
  | c :: cs => c.data.length ≤ n.rawChunkLimit st ∧
    ∀ st' fire, n.enqueue st c.data c.type = (st', .ok fire) → WithinLimits n st' cs

/-- A window that was read early in a shot was read out of the whole shot. -/
theorem Fire.Reads.append {f : Fire} {w : Nat} {b : List UInt8} (h : Fire.Reads f w b)
    (data : List UInt8) : Fire.Reads f w (b ++ data) := by
  refine ⟨by rw [List.length_append]; exact Nat.le_add_right_of_le h.1, ?_⟩
  rw [stretch_append_left data h.1]
  exact h.2

/-- Windows that were fired: what they committed and read. -/
structure Fired (n : MemoryNode σ) (b : List UInt8) (k k' : Nat) (fires : List Fire) : Prop where
  tile : Tile (n.committedAfter k) fires (n.committedAfter k')
  reads : ∀ f ∈ fires, Fire.Reads f n.bulkWidth b
  starts : ∀ i, k ≤ i → i < k' → i * n.schedule.stride ≤ n.committedAfter i

theorem deliver_cons_ok {c : Chunk} {cs : List Chunk} {fires : List Fire} :
    n.deliver st (c :: cs) = (st', .ok fires) ↔ ∃ st₁ fire fires',
      n.enqueue st c.data c.type = (st₁, .ok fire) ∧ n.deliver st₁ cs = (st', .ok fires') ∧
      fires = fire.toList ++ fires' := by
  rw [deliver]
  split
  · next e he =>
    simp [he]
  · next st₁ fire he =>
    rw [he]
    split
    · next e hd => simp [hd]
    · next st₂ fires' hd =>
      simp only [Prod.mk.injEq, Except.ok.injEq]
      constructor
      · rintro ⟨rfl, rfl⟩
        exact ⟨st₁, fire, fires', ⟨rfl, rfl⟩, hd, rfl⟩
      · rintro ⟨_, _, fires'', ⟨rfl, rfl⟩, hd', rfl⟩
        rw [hd, Prod.mk.injEq, Except.ok.injEq] at hd'
        exact ⟨hd'.1, by rw [hd'.2]⟩

theorem Fired.refl (n : MemoryNode σ) (b : List UInt8) (k : Nat) : n.Fired b k k [] :=
  ⟨rfl, by simp, fun i h1 h2 => by omega⟩

theorem Fired.append {k₁ k₂ : Nat} {fs gs : List Fire} (h : n.Fired b k k₁ fs)
    (h' : n.Fired (b ++ data) k₁ k₂ gs) : n.Fired (b ++ data) k k₂ (fs ++ gs) where
  tile := h.tile.append h'.tile
  reads := by
    intro f hf
    rcases List.mem_append.mp hf with hf | hf
    · exact (h.reads f hf).append data
    · exact h'.reads f hf
  starts := by
    intro i hk hk₂
    rcases Nat.lt_or_ge i k₁ with hlt | hge
    · exact h.starts i hk hlt
    · exact h'.starts i hge hk₂

theorem Mid.step (h : n.Mid b k st) (ha : n.Accepted) (hlen : data.length ≤ n.rawChunkLimit st)
    {fire : Option Fire} (he : n.enqueue st data .bulk = (st', .ok fire)) :
    ∃ k', n.Mid (b ++ data) k' st' ∧ n.Fired (b ++ data) k k' fire.toList := by
  rcases h.enqueue ha hlen with ⟨st₁, hst₁, hmid⟩ | ⟨st₁, hdue, hst₁⟩
  · obtain ⟨rfl, hfire⟩ := Prod.mk.inj (hst₁.symm.trans he)
    obtain rfl := Except.ok.inj hfire
    exact ⟨k, hmid, .refl n _ k⟩
  · rw [hst₁] at he
    cases hd : n.decodeWindow st₁ false with
    | mk st₂ answer =>
      rw [hd] at he
      cases answer with
      | error e => simp [fired] at he
      | ok f =>
        obtain ⟨rfl, hfire⟩ := Prod.mk.inj he
        obtain rfl := Except.ok.inj hfire
        obtain ⟨hmid, hbegin, hend, hlt, hreads, hstart⟩ := hdue.fire ha hd
        refine ⟨k + 1, hmid, ⟨⟨hbegin, hlt, hend⟩, ?_, fun i h1 h2 => ?_⟩⟩
        · intro g hg
          obtain rfl := List.mem_singleton.mp hg
          exact hreads
        · obtain rfl : i = k := by omega
          exact hstart

theorem Mid.exists_step (h : n.Mid b k st) (ha : n.Accepted)
    (hfit : n.schedule.startGuard + n.schedule.endGuard < 2 ^ 32)
    (hlen : data.length ≤ n.rawChunkLimit st) :
    ∃ st' fire, n.enqueue st data .bulk = (st', .ok fire) := by
  rcases h.enqueue ha hlen with ⟨st₁, hst₁, -⟩ | ⟨st₁, hdue, hst₁⟩
  · exact ⟨st₁, none, hst₁⟩
  · obtain ⟨st₂, f, hd⟩ := hdue.exists_fire ha hfit
    rw [hst₁, hd]
    exact ⟨_, _, rfl⟩

theorem bytesOf_cons (c : Chunk) (cs : List Chunk) : bytesOf (c :: cs) = c.data ++ bytesOf cs := rfl

theorem Mid.deliver (h : n.Mid b k st) (ha : n.Accepted) {cs : List Chunk} {fires : List Fire}
    (hbulk : ∀ c ∈ cs, c.type = .bulk) (hlim : n.WithinLimits st cs)
    (hd : n.deliver st cs = (st', .ok fires)) :
    ∃ k', n.Mid (b ++ bytesOf cs) k' st' ∧ n.Fired (b ++ bytesOf cs) k k' fires := by
  induction cs generalizing b k st fires with
  | nil =>
    obtain ⟨rfl, hfires⟩ := Prod.mk.inj hd
    obtain rfl := Except.ok.inj hfires
    rw [show b ++ bytesOf [] = b from List.append_nil b]
    exact ⟨k, h, .refl n b k⟩
  | cons c cs ih =>
    obtain ⟨st₁, fire, fires', he, hd', rfl⟩ := deliver_cons_ok.mp hd
    rw [hbulk c (by simp)] at he
    obtain ⟨k₁, hmid₁, hfired₁⟩ := h.step ha hlim.1 he
    obtain ⟨k₂, hmid₂, hfired₂⟩ := ih hmid₁ (fun x hx => hbulk x (by simp [hx]))
      (hlim.2 st₁ fire (by rw [hbulk c (by simp)]; exact he)) hd'
    rw [bytesOf_cons, ← List.append_assoc]
    exact ⟨k₂, hmid₂, hfired₁.append hfired₂⟩

/-- With guards that do not wrap around, chunks within the limits are accepted. -/
theorem Mid.exists_deliver (h : n.Mid b k st) (ha : n.Accepted)
    (hfit : n.schedule.startGuard + n.schedule.endGuard < 2 ^ 32) {cs : List Chunk}
    (hbulk : ∀ c ∈ cs, c.type = .bulk) (hlim : n.WithinLimits st cs) :
    ∃ st' fires, n.deliver st cs = (st', .ok fires) := by
  induction cs generalizing b k st with
  | nil => exact ⟨st, [], rfl⟩
  | cons c cs ih =>
    obtain ⟨st₁, fire, he⟩ := h.exists_step ha hfit hlim.1
    obtain ⟨k₁, hmid₁, -⟩ := h.step ha hlim.1 he
    rw [← hbulk c (by simp)] at he
    obtain ⟨st₂, fires, hd⟩ := ih hmid₁ (fun x hx => hbulk x (by simp [hx])) (hlim.2 st₁ fire he)
    exact ⟨st₂, fire.toList ++ fires, deliver_cons_ok.mpr ⟨st₁, fire, fires, he, hd, rfl⟩⟩

/-! ## The end of a shot -/

/-- All `N` rounds of a shot are complete. -/
structure Ended (n : MemoryNode σ) (b : List UInt8) (k N : Nat) (st : MemoryState σ) : Prop
    extends n.RingHolds st b where
  partialBytes : st.partialBytes = 0
  rounds : st.rounds = N
  flushed : st.flushed = false
  failed : st.failed = false
  committed : st.committed = n.committedAfter k
  before : N ≤ n.schedule.size + n.tailLookahead + k * n.schedule.stride
  after : 0 < k → n.schedule.size + n.tailLookahead + k * n.schedule.stride ≤ N + n.schedule.stride

theorem Mid.ended (h : n.Mid b k st) (ha : n.Accepted) (hb : b.length = N * n.bulkWidth) :
    n.Ended b k N st := by
  have hbytes := h.bytes
  have hpartial := h.partial_lt
  have hpos := ha.pos
  have hrounds : st.rounds = N := by
    rcases Nat.lt_trichotomy st.rounds N with hlt | heq | hgt
    · have := Nat.mul_le_mul_right n.bulkWidth (show st.rounds + 1 ≤ N from hlt)
      rw [Nat.add_mul, Nat.one_mul] at this
      omega
    · exact heq
    · have := Nat.mul_le_mul_right n.bulkWidth (show N + 1 ≤ st.rounds from hgt)
      rw [Nat.add_mul, Nat.one_mul] at this
      omega
  have hb' := h.before
  have hn := h.nextFire
  refine ⟨h.toRingHolds, by rw [hrounds] at hbytes; omega, hrounds, h.flushed, h.failed, h.committed,
    by omega, fun hk => ?_⟩
  have := h.after hk
  omega

/-- A shot whose last chunk is tagged. -/
theorem Mid.final (h : n.Mid b k st) (ha : n.Accepted) (hlen : data.length ≤ n.rawChunkLimit st)
    (hne : data ≠ []) (hb : (b ++ data).length = N * n.bulkWidth) :
    ∃ st', n.enqueue st data .final = (st', .ok none) ∧ n.Ended (b ++ data) k N st' := by
  rw [enqueue_eq h.failed h.flushed h.terminalComplete (.inl hne) hlen, receive_width ha h.toRingHolds]
  rw [h.rawChunkLimit ha] at hlen
  have hpartial := h.partial_lt
  have hbytes := h.bytes
  have hpos := List.length_pos_iff.mpr hne
  rw [List.length_append] at hb
  have hring := h.toRingHolds.receive ha data (by omega)
  -- the bytes are those of whole rounds, so the chunk completes the one that is being received
  have hN : st.rounds + 1 = N := by
    rcases Nat.lt_trichotomy (st.rounds + 1) N with hlt | heq | hgt
    · have := Nat.mul_le_mul_right n.bulkWidth (show st.rounds + 1 + 1 ≤ N from hlt)
      rw [Nat.add_mul, Nat.add_mul, Nat.one_mul] at this
      omega
    · exact heq
    · have := Nat.mul_le_mul_right n.bulkWidth (show N ≤ st.rounds by omega)
      omega
  have hfull : (n.receive st data).partialBytes = n.bulkWidth := by
    have : (st.rounds + 1) * n.bulkWidth = N * n.bulkWidth := by rw [hN]
    rw [Nat.add_mul, Nat.one_mul] at this
    change st.partialBytes + data.length = n.bulkWidth
    omega
  have hdone := hring.complete ha hfull
  have hb' := h.before
  have hn := h.nextFire
  refine ⟨{ n.receive st data with
      rounds := st.rounds + 1
      partialBytes := 0
      terminalComplete := true }, ?_,
    ⟨⟨hdone.holds, hdone.current, hdone.sized, hdone.bytes⟩, rfl, hN, h.flushed, h.failed,
      h.committed, by omega, fun hk => ?_⟩⟩
  · rw [if_neg (by simpa using hfull), completeRound, if_pos rfl]
    rfl
  · have := h.after hk
    omega

/-- The window of `flush`: the last `c` rounds of a shot. -/
def finalWindow (n : MemoryNode σ) (st : MemoryState σ) (m : MemoryModel σ) (b : List UInt8)
    (c N : Nat) : MemoryWindow σ :=
  let measurements := stretch n.bulkWidth b (N - c - 1) N
  { key := ⟨min (N - c) (n.prefixPhases.length + 1), true, c⟩
    model := m
    start := N - c
    windowEnd := N
    measurements := measurements
    residual := n.residualOf st m (N - c) c measurements }

/-- With guards that do not wrap around, the window of `flush` has a model and begins inside what
was committed. -/
theorem Ended.gather (h : n.Ended b k N st) (ha : n.Accepted)
    (hfit : n.schedule.startGuard + n.schedule.endGuard < 2 ^ 32)
    (hmin : n.spec.minimumRounds ≤ N) : ∃ c m, c ≤ N ∧ N - c ≤ n.committedAfter k ∧
      n.committedAfter k < N ∧ m.Fits n.toMemoryRecipe (n.finalWindow st m b c N).key ∧
      n.gather st true = .ok (n.finalWindow st m b c N) := by
  have hstart := ha.start_le_committed hfit k
  have hend := ha.endGuard
  have hstride := ha.stride_pos
  have hbefore := h.before
  have hrounds := h.rounds
  have hpos : 0 < N := by
    unfold DemChunksSpec.minimumRounds at hmin
    omega
  -- the whole shot if no regular window was decoded, and as many rounds as a window has otherwise
  obtain ⟨c, hwindow, hcN, hkey, hring, hc, hlt⟩ : ∃ c, n.windowRounds st true = (c, N) ∧ c ≤ N ∧
      n.windowKey st true ∈ n.preparedKeys ∧ st.rounds + c < N + n.ringSize ∧
      N - c ≤ n.committedAfter k ∧ n.committedAfter k < N := by
    rcases Nat.eq_zero_or_pos k with rfl | hk
    · have hzero : n.committedAfter 0 = 0 := rfl
      have hwindow : n.windowRounds st true = (N, N) := by
        simp [windowRounds, h.committed, hzero, hrounds]
      refine ⟨N, hwindow, Nat.le_refl N, ?_, by unfold ringSize; omega, by omega, by omega⟩
      rw [windowKey, hwindow, Nat.sub_self, Nat.zero_min]
      exact mem_preparedKeys_short n hmin (by omega)
    · obtain ⟨j, rfl⟩ : ∃ j, k = j + 1 := ⟨k - 1, by omega⟩
      have hcom := committedAfter_succ n j
      have hmul : (j + 1) * n.schedule.stride = j * n.schedule.stride + n.schedule.stride :=
        Nat.succ_mul j n.schedule.stride
      have hafter := h.after hk
      rw [if_neg (by omega)] at hstart
      have hsize : n.schedule.size ≤ N := by omega
      have hne : n.committedAfter (j + 1) ≠ 0 := by omega
      have hwindow : n.windowRounds st true = (n.schedule.size, N) := by
        simp [windowRounds, h.committed, hne, hrounds, hsize]
      refine ⟨n.schedule.size, hwindow, hsize, ?_, by unfold ringSize; omega, by omega, by omega⟩
      rw [windowKey, hwindow]
      exact mem_preparedKeys_terminal n (N - n.schedule.size)
  obtain ⟨m, -, hfits, hg⟩ := gather_eq h.toRingHolds ha h.partialBytes hkey hwindow hring
  have hkey : n.windowKey st true = (n.finalWindow st m b c N).key := by
    rw [windowKey, hwindow]
    rfl
  rw [hkey] at hfits hg
  exact ⟨c, m, hcN, hc, hlt, hfits, hg⟩

theorem Ended.commitEnd_eq (h : n.Ended b k N st) (m : MemoryModel σ) (c : Nat) :
    n.commitEnd st (n.finalWindow st m b c N) = N := h.rounds

/-- With guards that do not wrap around, `flush` commits the rest of the shot. -/
theorem Ended.exists_flush (h : n.Ended b k N st) (ha : n.Accepted)
    (hfit : n.schedule.startGuard + n.schedule.endGuard < 2 ^ 32)
    (hmin : n.spec.minimumRounds ≤ N) :
    ∃ st' fire, n.flush st = (st', .ok (some fire)) ∧ fire.beginRound = n.committedAfter k ∧
      fire.endRound = N ∧ fire.beginRound < fire.endRound ∧ Fire.Reads fire n.bulkWidth b ∧
      st'.flushed = true ∧ ∀ slot, (st'.ring slot).measurements.length = n.widest := by
  obtain ⟨c, m, hcN, hc, hlt, hfits, hg⟩ := h.gather ha hfit hmin
  have hrounds := h.rounds
  have hend := h.commitEnd_eq m c
  have hbegin : (n.finalWindow st m b c N).start = N - c := rfl
  have hlen : (n.finalWindow st m b c N).model.faultOffsets.length = c + 1 :=
    hfits.length_faultOffsets
  -- the last window is decoded as any other, over the rounds that are left
  obtain ⟨st₁, fire, hd⟩ : ∃ st₁ fire, n.decodeWindow st true = (st₁, .ok fire) := by
    refine ⟨_, _, decodeWindow_eq_ok.mpr ⟨_, hg, ?_, by rw [h.committed]; exact hc,
      by rw [hend, h.committed]; exact hlt, _, _,
      List.getElem?_eq_getElem (by rw [h.committed]; omega),
      List.getElem?_eq_getElem (by rw [hend]; omega), rfl⟩⟩
    exact (m.dec.length_result hfits.resultType _ _).trans hfits.blockSize
  obtain ⟨w, hw, -, -, -, lo, hi, -, -, hp⟩ := decodeWindow_eq_ok.mp hd
  obtain rfl := Except.ok.inj (hg.symm.trans hw)
  obtain ⟨rfl, rfl⟩ := Prod.mk.inj hp
  have hsized := (h.toRingHolds.commitColumns (n.finalWindow st m b c N)
    (answerOf st (n.finalWindow st m b c N)).2 lo hi).sized
  have hbytes := h.bytes
  refine ⟨{ (n.commitColumns (answered st (n.finalWindow st m b c N)) (n.finalWindow st m b c N)
    (answerOf st (n.finalWindow st m b c N)).2 lo hi).1 with flushed := true },
    (n.commitColumns (answered st (n.finalWindow st m b c N)) (n.finalWindow st m b c N)
      (answerOf st (n.finalWindow st m b c N)).2 lo hi).2, ?_, h.committed, hend, ?_, ⟨?_, ?_⟩, rfl,
    hsized⟩
  · unfold flush
    rw [if_neg (by simp [h.failed]), if_neg (by simp [h.flushed]),
      if_neg (by rw [h.partialBytes, hrounds]; omega), hd]
    rfl
  · change st.committed < n.commitEnd st (n.finalWindow st m b c N)
    rw [hend, h.committed]
    exact hlt
  · change (N - c + c) * n.bulkWidth ≤ b.length
    rw [Nat.sub_add_cancel hcN, ← hrounds]
    omega
  · change stretch n.bulkWidth b (N - c - 1) N = stretch n.bulkWidth b (N - c - 1) (N - c + c)
    rw [Nat.sub_add_cancel hcN]

/-! ## Shots -/

/-- A shot of `N` rounds: chunks within the limits, of which only the last may be tagged. -/
structure LegalShot (n : MemoryNode σ) (st : MemoryState σ) (N : Nat) (chunks : List Chunk) : Prop where
  within : n.WithinLimits st chunks
  length_bytes : (bytesOf chunks).length = N * n.bulkWidth
  untagged : ∀ c ∈ chunks.dropLast, c.type = .bulk
  tagged : ∀ c, chunks.getLast? = some c → c.type = .final → c.data ≠ []
  long : n.spec.minimumRounds ≤ N

/-- The states between two shots: as constructed, or after a shot and `clear_corrections`. -/
inductive Between (n : MemoryNode σ) : MemoryState σ → Prop
  | initial (dec : ModelKey → σ) : Between n (n.initialState dec)
  | next {st st' : MemoryState σ} {N : Nat} {chunks : List Chunk} {fires : List Fire} :
    Between n st → n.LegalShot st N chunks → n.runShot st chunks = (st', .ok fires) →
      Between n (n.clearCorrections st')

/-- No call of a shot throws, the windows commit all of its rounds one after the other, and each of
them reads the rounds that were delivered. -/
def Covers (n : MemoryNode σ) (st : MemoryState σ) (N : Nat) (chunks : List Chunk) : Prop :=
  ∃ st' fires, n.runShot st chunks = (st', .ok fires) ∧ Tile 0 fires N ∧
    ∀ f ∈ fires, Fire.Reads f n.bulkWidth (bytesOf chunks)

/-- Every shot, after any shots before it, is covered. -/
def CoversEveryShot (n : MemoryNode σ) : Prop :=
  ∀ st, n.Between st → ∀ N chunks, n.LegalShot st N chunks → n.Covers st N chunks

theorem withinLimits_append {cs cs' : List Chunk} (h : n.WithinLimits st (cs ++ cs')) :
    n.WithinLimits st cs ∧
      ∀ st' fires, n.deliver st cs = (st', .ok fires) → n.WithinLimits st' cs' := by
  induction cs generalizing st with
  | nil =>
    refine ⟨trivial, fun st' fires hd => ?_⟩
    obtain ⟨rfl, -⟩ := Prod.mk.inj hd
    exact h
  | cons c cs ih =>
    refine ⟨⟨h.1, fun st₁ fire he => (ih (h.2 st₁ fire he)).1⟩, fun st' fires hd => ?_⟩
    obtain ⟨st₁, fire, fires', he, hd', -⟩ := deliver_cons_ok.mp hd
    exact (ih (h.2 st₁ fire he)).2 st' fires' hd'

theorem deliver_append {cs cs' : List Chunk} {st₁ st₂ : MemoryState σ} {fires fires' : List Fire}
    (h : n.deliver st cs = (st₁, .ok fires)) (h' : n.deliver st₁ cs' = (st₂, .ok fires')) :
    n.deliver st (cs ++ cs') = (st₂, .ok (fires ++ fires')) := by
  induction cs generalizing st fires with
  | nil =>
    obtain ⟨rfl, hf⟩ := Prod.mk.inj h
    obtain rfl := Except.ok.inj hf
    exact h'
  | cons c cs ih =>
    obtain ⟨st₃, fire, fires₃, he, hd, rfl⟩ := deliver_cons_ok.mp h
    exact deliver_cons_ok.mpr ⟨st₃, fire, fires₃ ++ fires', he, ih hd, by rw [List.append_assoc]⟩

/-- With guards that do not wrap around, the chunks of a shot are accepted. -/
theorem LegalShot.exists_ended {chunks : List Chunk} (h : n.LegalShot st N chunks) (ha : n.Accepted)
    (hfit : n.schedule.startGuard + n.schedule.endGuard < 2 ^ 32) (hmid : n.Mid [] 0 st) :
    ∃ st' fires k, n.deliver st chunks = (st', .ok fires) ∧ n.Ended (bytesOf chunks) k N st' ∧
      n.Fired (bytesOf chunks) 0 k fires := by
  rcases List.eq_nil_or_concat chunks with rfl | ⟨cs, c, rfl⟩
  · exact ⟨st, [], 0, rfl, hmid.ended ha h.length_bytes, .refl n _ 0⟩
  · rw [List.concat_eq_append] at h ⊢
    have hbulk : ∀ x ∈ cs, x.type = .bulk := by simpa using h.untagged
    obtain ⟨hlim, hlast⟩ := withinLimits_append h.within
    obtain ⟨st₁, fires, hd⟩ := hmid.exists_deliver ha hfit hbulk hlim
    obtain ⟨k, hmid₁, hfired₁⟩ := hmid.deliver ha hbulk hlim hd
    have hlen := (hlast st₁ fires hd).1
    have hb : bytesOf (cs ++ [c]) = bytesOf cs ++ c.data := by simp [bytesOf]
    have hbytes := h.length_bytes
    rw [hb] at hbytes ⊢
    rw [List.nil_append] at hmid₁ hfired₁
    cases htype : c.type with
    | bulk =>
      obtain ⟨st₂, fire, he⟩ := hmid₁.exists_step ha hfit hlen
      obtain ⟨k', hmid₂, hfired₂⟩ := hmid₁.step ha hlen he
      refine ⟨st₂, fires ++ (fire.toList ++ []), k', deliver_append hd ?_, hmid₂.ended ha hbytes, ?_⟩
      · exact deliver_cons_ok.mpr ⟨st₂, fire, [], by rw [htype]; exact he, rfl, rfl⟩
      · rw [List.append_nil]
        exact hfired₁.append hfired₂
    | final =>
      have hne := h.tagged c (by simp) htype
      obtain ⟨st₂, he, hended⟩ := hmid₁.final ha hlen hne hbytes
      refine ⟨st₂, fires ++ (none.toList ++ []), k, deliver_append hd ?_, hended, ?_⟩
      · exact deliver_cons_ok.mpr ⟨st₂, none, [], by rw [htype]; exact he, rfl, rfl⟩
      · exact hfired₁.append (.refl n _ k)

/-- With guards that do not wrap around, a shot is covered, and leaves the node flushed. -/
theorem LegalShot.covers {chunks : List Chunk} (h : n.LegalShot st N chunks) (ha : n.Accepted)
    (hfit : n.schedule.startGuard + n.schedule.endGuard < 2 ^ 32) (hmid : n.Mid [] 0 st) :
    ∃ st' fires, n.runShot st chunks = (st', .ok fires) ∧ Tile 0 fires N ∧
      (∀ f ∈ fires, Fire.Reads f n.bulkWidth (bytesOf chunks)) ∧ st'.flushed = true ∧
      ∀ slot, (st'.ring slot).measurements.length = n.widest := by
  obtain ⟨st₁, fires, k, hd, hended, hfired⟩ := h.exists_ended ha hfit hmid
  obtain ⟨st₂, fire, hflush, hbegin, hend, hlt, hreads, hflushed, hsized⟩ :=
    hended.exists_flush ha hfit h.long
  refine ⟨st₂, fires ++ [fire], by simp [runShot, hd, hflush], ?_, ?_, hflushed, hsized⟩
  · exact hfired.tile.append ⟨hbegin, hlt, hend⟩
  · intro f hf
    rcases List.mem_append.mp hf with hf | hf
    · exact hfired.reads f hf
    · rw [List.mem_singleton.mp hf]
      exact hreads

/-- A flushed node is opened again for a new shot. -/
theorem mid_clearCorrections (ha : n.Accepted) (hflushed : st.flushed = true)
    (hsized : ∀ slot, (st.ring slot).measurements.length = n.widest) :
    n.Mid [] 0 (n.clearCorrections st) := by
  rw [clearCorrections, if_pos hflushed]
  have hstride := ha.stride_lt
  exact {
    holds := fun j hj => absurd hj (by simp [resetStreamingState])
    current := fun h => absurd h (by simp [resetStreamingState])
    sized := hsized
    bytes := by simp [resetStreamingState]
    partial_lt := ha.pos
    nextFire := by simp [resetStreamingState]
    before := by
      simp only [resetStreamingState]
      omega
    after := fun h => absurd h (by omega)
    terminalComplete := rfl
    flushed := rfl
    failed := rfl
    committed := rfl }

theorem Between.mid (h : n.Between st) (ha : n.Accepted)
    (hfit : n.schedule.startGuard + n.schedule.endGuard < 2 ^ 32) : n.Mid [] 0 st := by
  induction h with
  | initial dec => exact mid_initialState n ha dec
  | next hbetween hlegal hrun ih =>
    obtain ⟨st₁, fires, hrun₁, -, -, hflushed, hsized⟩ := hlegal.covers ha hfit ih
    obtain ⟨rfl, -⟩ := Prod.mk.inj (hrun.symm.trans hrun₁)
    exact mid_clearCorrections ha hflushed hsized

/-! ## Guards that wrap around -/

def zeroRounds (n : MemoryNode σ) (N : Nat) : List Chunk :=
  List.replicate N ⟨List.replicate n.bulkWidth 0, .bulk⟩

theorem length_bytesOf_zeroRounds (n : MemoryNode σ) (N : Nat) :
    (bytesOf (n.zeroRounds N)).length = N * n.bulkWidth := by
  induction N with
  | zero => simp [zeroRounds, bytesOf]
  | succ N ih =>
    rw [zeroRounds, List.replicate_succ, bytesOf_cons, List.length_append, Nat.add_mul, Nat.one_mul,
      List.length_replicate]
    rw [zeroRounds] at ih
    omega

theorem Mid.withinLimits_zeroRounds (h : n.Mid b k st) (ha : n.Accepted) {j : Nat}
    (hb : b.length = j * n.bulkWidth) (N : Nat) : n.WithinLimits st (n.zeroRounds N) := by
  induction N generalizing b k st j with
  | zero => trivial
  | succ N ih =>
    have hzero := (h.ended ha hb).partialBytes
    have hlen : (List.replicate n.bulkWidth (0 : UInt8)).length ≤ n.rawChunkLimit st := by
      rw [h.rawChunkLimit ha, hzero, List.length_replicate, Nat.sub_zero]
    refine ⟨hlen, fun st' fire he => ?_⟩
    obtain ⟨k', hmid, -⟩ := h.step ha hlen he
    refine ih hmid (j := j + 1) ?_
    rw [List.length_append, List.length_replicate, hb, Nat.add_mul, Nat.one_mul]

theorem legalShot_zeroRounds (ha : n.Accepted) (dec : ModelKey → σ)
    (hmin : n.spec.minimumRounds ≤ N) : n.LegalShot (n.initialState dec) N (n.zeroRounds N) where
  within := (mid_initialState n ha dec).withinLimits_zeroRounds ha (j := 0) (by simp) N
  length_bytes := length_bytesOf_zeroRounds n N
  untagged := by
    intro c hc
    rw [List.eq_of_mem_replicate (List.mem_of_mem_dropLast hc)]
  tagged := by
    intro c hc htype
    rw [List.eq_of_mem_replicate (List.mem_of_getLast? hc)] at htype
    cases htype
  long := hmin

/-- A second window that was decoded shows that the guards do not wrap around. -/
theorem guards_fit_of_covers (ha : n.Accepted) (dec : ModelKey → σ)
    (hmin : n.spec.minimumRounds ≤ N)
    (hN : n.schedule.size + n.tailLookahead + n.schedule.stride ≤ N)
    (hcovers : n.Covers (n.initialState dec) N (n.zeroRounds N)) :
    n.schedule.startGuard + n.schedule.endGuard < 2 ^ 32 := by
  have hlegal := legalShot_zeroRounds ha dec hmin
  obtain ⟨st', fires, hrun, -⟩ := hcovers
  have hmid := mid_initialState n ha dec
  obtain ⟨st₁, fires₁, hd⟩ : ∃ st₁ fires₁, n.deliver (n.initialState dec) (n.zeroRounds N) =
      (st₁, .ok fires₁) := by
    cases hd : n.deliver (n.initialState dec) (n.zeroRounds N) with
    | mk st₁ answer =>
      cases answer with
      | error e => simp [runShot, hd] at hrun
      | ok fires₁ => exact ⟨st₁, fires₁, rfl⟩
  obtain ⟨k, hmid', hfired⟩ := hmid.deliver ha
    (fun c hc => by rw [List.eq_of_mem_replicate hc]) hlegal.within hd
  have hended := hmid'.ended ha (N := N) (by simpa using hlegal.length_bytes)
  have hk : 1 < k := by
    have hb := hmid'.before
    rw [hended.rounds, hmid'.nextFire] at hb
    by_contra hle
    have := Nat.mul_le_mul_right n.schedule.stride (show k ≤ 1 by omega)
    omega
  have hone := hfired.starts 1 (by omega) hk
  rw [Nat.one_mul, show n.committedAfter 1 = _ from committedAfter_succ n 0, Nat.zero_mul,
    Nat.add_zero] at hone
  have hstride := ha.stride_add
  have hpos := ha.stride_pos
  have hs := n.schedule.startGuard_lt
  have he := n.schedule.endGuard_lt
  unfold u32 at hstride
  omega

end MemoryNode

/-! ## Main result -/

/-- A memory window commits every shot exactly when the sum of its guards does not wrap around. -/
theorem MemoryNode.coversEveryShot_iff {σ τ : Type} [Inhabited σ] {ctx : MemoryContext σ τ}
    {schedule : WindowSpec} {n : MemoryNode σ} (h : MemoryNode.create ctx schedule = .ok n) :
    n.CoversEveryShot ↔ schedule.startGuard + schedule.endGuard < 2 ^ 32 := by
  obtain ⟨ha, rfl, -, -⟩ := accepted_of_create h
  constructor
  · intro hall
    have hmin : n.spec.minimumRounds ≤
        max n.spec.minimumRounds (n.schedule.size + n.tailLookahead + n.schedule.stride) :=
      Nat.le_max_left _ _
    exact guards_fit_of_covers ha (fun _ => default) hmin (Nat.le_max_right _ _)
      (hall _ (.initial _) _ _ (legalShot_zeroRounds ha _ hmin))
  · intro hfit st hbetween N chunks hlegal
    obtain ⟨st', fires, hrun, htile, hreads, -⟩ := hlegal.covers ha hfit (hbetween.mid ha hfit)
    exact ⟨st', fires, hrun, htile, hreads⟩

/-! ## A memory window of five rounds -/

namespace FiveRounds

def roundsMatrix : SparseBinaryMatrix :=
  .ofGroups .csr 5 5 [[0], [0, 1], [1, 2], [2, 3], [3, 4]]

def observableMatrix : SparseBinaryMatrix := .ofGroups .csr 1 5 [[0, 1, 2, 3, 4]]

/-- A decoder of the whole five rounds, which no stream asks. -/
def wholeDecoder : InnerDecoder Unit where
  resultType := .errors
  syndromeSize := 5
  blockSize := 5
  blockSize_lt := by decide
  decode := fun s _ => (s, some (List.replicate 5 (.finite 0)))
  length_result := by
    rintro - s dets r h
    cases h
    rfl

/-- A decoder that finds no error. -/
def quietDecoder (init : ModelInit) : FaultDecoder Unit where
  resultType := .errors
  syndromeSize := init.h.numRows
  blockSize := init.h.numCols
  cudaDeviceId := 0
  decode := fun s _ => (s, List.replicate init.h.numCols (.finite 0))
  length_result := by
    rintro - s dets
    exact List.length_replicate

def context : MemoryContext Unit Unit where
  D := roundsMatrix
  O := observableMatrix
  dec := wholeDecoder
  cudaDeviceId := 0
  spr := 1
  spr_lt := one_lt_uint32
  numMeasurements := 0
  memorySpec := flippingSpec
  decoderType := "single_error_lut"
  decoderParams := []
  getDecoder := fun init => .ok (quietDecoder init)

def plainSchedule : WindowSpec := .ofCounts 5 4 0 1

/-- Guards whose sum is one, as a `uint32_t`. -/
def wrappedSchedule : WindowSpec := .ofCounts 5 4 4294967295 2

theorem create_plain : (MemoryNode.create context plainSchedule).isOk = true := by decide +kernel

/-- One terminal phase is not waited for. -/
theorem create_wrapped :
    ∃ n, MemoryNode.create context wrappedSchedule = .ok n ∧ n.tailLookahead = 0 := by
  have hlook : (MemoryNode.create context wrappedSchedule).toOption.map (·.tailLookahead) = some 0 := by
    decide +kernel
  cases hn : MemoryNode.create context wrappedSchedule with
  | error e =>
    rw [hn] at hlook
    cases hlook
  | ok n =>
    rw [hn] at hlook
    exact ⟨n, rfl, Option.some.inj hlook⟩

end FiveRounds

open FiveRounds

theorem MemoryNode.coversEveryShot_iff_fiveRounds :
    ∃ n, MemoryNode.create context plainSchedule = .ok n ∧ (n.CoversEveryShot ↔ 0 + 1 < 2 ^ 32) := by
  obtain ⟨n, hn⟩ := exists_eq_ok create_plain
  exact ⟨n, hn, coversEveryShot_iff hn⟩

/-- The first window withholds two rounds, but the second one starts four rounds after it. -/
theorem MemoryNode.not_coversEveryShot_wrapped :
    ∃ n, MemoryNode.create context wrappedSchedule = .ok n ∧
      n.LegalShot (n.initialState fun _ => ()) 9 (n.zeroRounds 9) ∧
      ¬ n.Covers (n.initialState fun _ => ()) 9 (n.zeroRounds 9) ∧ ¬ n.CoversEveryShot := by
  obtain ⟨n, hn, hlook⟩ := create_wrapped
  obtain ⟨ha, hschedule, hspec, -⟩ := accepted_of_create hn
  have hmin : n.spec.minimumRounds ≤ 9 := by
    rw [hspec]
    decide
  have hlegal := legalShot_zeroRounds ha (fun _ => ()) hmin
  have hnot : ¬ n.Covers (n.initialState fun _ => ()) 9 (n.zeroRounds 9) := by
    intro hcovers
    have hfit := guards_fit_of_covers ha _ hmin (by rw [hlook, hschedule]; decide) hcovers
    rw [hschedule] at hfit
    exact absurd hfit (by decide)
  exact ⟨n, hn, hlegal, hnot, fun hall => hnot (hall _ (.initial _) 9 _ hlegal)⟩

end CudaqQec
