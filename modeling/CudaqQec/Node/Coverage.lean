import CudaqQec.Node.Tails

/-!
# Rounds of a guarded shot

A shot from a reset fires whenever the buffer is full, fire `k` on the rounds from `k * stride` on.
The first fire commits everything but its trailing guard, later ones their core, and the flush the
trailing guard of the last one: together every round once.

* `Receiving`: what a node holds after a prefix of a shot.
* `guarded_window_commits`: each round is committed once, and each tail at most once in the runs
  without a stale flush.
-/

namespace CudaqQec

open Checked SparseBinaryMatrix Toggle

variable {σ : Type}

namespace WindowNode

variable (n : WindowNode σ)

/-! ## Events by the rounds they commit -/

/-- The first round of the window that an event commits from: fire `k` decodes the rounds from
`k * stride` on, and a flush commits from the window of the last fire before it. -/
def windowStart (events : List WindowEvent) (i : Nat) : Nat :=
  n.ws.stride * ((events.take (i + 1)).countP WindowEvent.isFired - 1)

/-- Round `g` of the shot lies in the window of event `i`. -/
def InWindow (events : List WindowEvent) (i g : Nat) : Prop :=
  n.windowStart events i ≤ g ∧ g < n.windowStart events i + n.ws.size

/-- A fault column of round `g` in the window of event `i`. -/
def RoundColumn (faultOffsets : List Nat) (events : List WindowEvent) (i g column : Nat) : Prop :=
  n.InWindow events i g ∧
    faultOffsets.getD (g - n.windowStart events i) 0 ≤ column ∧
    column < faultOffsets.getD (g - n.windowStart events i + 1) 0 ∧ column < n.dec.blockSize

/-- Event `i` commits all fault columns of round `g`, and no other event commits one. -/
def CommitsOnly (faultOffsets : List Nat) (events : List WindowEvent) (i g : Nat) : Prop :=
  n.InWindow events i g ∧
  (∀ e, events[i]? = some e → ∀ column, n.RoundColumn faultOffsets events i g column →
    e.Covers column) ∧
  ∀ j e, j ≠ i → events[j]? = some e → ∀ column, n.RoundColumn faultOffsets events j g column →
    ¬ e.Covers column

def windowBytes (bytes : List UInt8) (k : Nat) : List UInt8 :=
  (bytes.drop (k * (n.ws.stride * n.spr))).take n.bufSize

/-! ## Shots -/

@[grind =] def Fits : WindowState σ → List (List UInt8) → Prop
  | _, [] => True
  | st, chunk :: chunks =>
    st.bytesIn + chunk.length ≤ st.buf.length ∧ Fits (n.enqueue st chunk).1 chunks

def corrections (events : List WindowEvent) : List Bool :=
  events.foldl (fun corr e => xorBits corr (e.flips n.O)) (List.replicate n.O.numRows false)

def fireEvents (bytes : List UInt8) (results : List (List SoftValue)) : List WindowEvent :=
  results.mapIdx fun k result =>
    .fired (detectInto n.D (n.windowBytes bytes k)) result (if k = 0 then 0 else n.loCol) n.hiCol

/-! ## Windows that are received -/

/-- A node that has received the bytes `seen` since a reset, and has decoded `results`. -/
structure Receiving (seen : List UInt8) (results : List (List SoftValue)) (st : WindowState σ) :
    Prop where
  flushed : st.flushed = false
  length_buf : st.buf.length = n.bufSize
  fires : st.firesSinceReset = results.length
  bytesIn_add : st.bytesIn + results.length * (n.ws.stride * n.spr) = seen.length
  bytesIn_lt : st.bytesIn < n.bufSize
  keep_le : 0 < results.length → n.bufSize ≤ st.bytesIn + n.ws.stride * n.spr
  buf : st.buf.take st.bytesIn = seen.drop (results.length * (n.ws.stride * n.spr))
  length_result : ∀ r ∈ results, r.length = n.dec.blockSize
  valid : 0 < results.length → st.lastResultValid = decide (n.hiCol < n.dec.blockSize)
  last : st.lastResultValid = true → some st.lastResult = results.getLast?
  corr : st.corr = n.corrections (n.fireEvents seen results)

variable {n} {faultOffsets : List Nat}

/-- The sizes of a node whose buffer is the window that `D` reads. -/
structure Sized (n : WindowNode σ) : Prop where
  spr_pos : 0 < n.spr
  bytes_lt : n.ws.size * n.spr < 2 ^ 32

namespace Accepted

variable (acc : n.Accepted faultOffsets) (sized : n.Sized)

include acc sized

omit sized in
theorem stride_mul_le : n.ws.stride * n.spr ≤ n.bufSize := by
  rw [acc.bufSize_eq]
  exact Nat.mul_le_mul_right _ acc.stride_lt.le

theorem keep_eq : n.ws.keep n.spr = n.bufSize - n.ws.stride * n.spr := by
  have hsub : sub32 n.ws.size n.ws.stride = n.ws.size - n.ws.stride :=
    sub32_of_le acc.stride_lt.le n.ws.size_lt
  have hmul : (n.ws.size - n.ws.stride) * n.spr = n.bufSize - n.ws.stride * n.spr := by
    rw [acc.bufSize_eq, Nat.sub_mul]
  have hlt : (n.ws.size - n.ws.stride) * n.spr < 2 ^ 32 :=
    lt_of_le_of_lt (Nat.mul_le_mul_right _ (Nat.sub_le _ _)) sized.bytes_lt
  rw [WindowSpec.keep, hsub, u32_of_lt hlt, hmul]

theorem stride_mul_u32 : u32 (n.ws.stride * n.spr) = n.ws.stride * n.spr := by
  apply u32_of_lt
  exact lt_of_le_of_lt (Nat.mul_le_mul_right _ acc.stride_lt.le) sized.bytes_lt

theorem stride_mul_pos : 0 < n.ws.stride * n.spr := Nat.mul_pos acc.stride_pos sized.spr_pos

end Accepted

/-! ## Window by window -/

/-- Windows that are full already do not change when more bytes arrive. -/
theorem windowBytes_append {seen more : List UInt8} {k : Nat}
    (h : k * (n.ws.stride * n.spr) + n.bufSize ≤ seen.length) :
    n.windowBytes (seen ++ more) k = n.windowBytes seen k := by
  unfold windowBytes
  rw [List.drop_append_of_le_length (by omega), List.take_append_of_le_length]
  rw [List.length_drop]
  omega

/-- All windows decoded so far lie in what has arrived. -/
theorem Receiving.window_le {seen : List UInt8} {results : List (List SoftValue)}
    {st : WindowState σ} (h : n.Receiving seen results st) {k : Nat} (hk : k < results.length) :
    k * (n.ws.stride * n.spr) + n.bufSize ≤ seen.length := by
  have hkeep := h.keep_le (by omega)
  have hbytes := h.bytesIn_add
  have hmul : (k + 1) * (n.ws.stride * n.spr) ≤ results.length * (n.ws.stride * n.spr) :=
    Nat.mul_le_mul_right _ hk
  rw [Nat.succ_mul] at hmul
  omega

theorem fireEvents_append {seen more : List UInt8} {results : List (List SoftValue)}
    {st : WindowState σ} (h : n.Receiving seen results st) :
    n.fireEvents (seen ++ more) results = n.fireEvents seen results := by
  apply List.ext_getElem (by simp [fireEvents])
  intro k hk _
  have hk' : k < results.length := by simpa [fireEvents] using hk
  simp only [fireEvents, List.getElem_mapIdx]
  rw [windowBytes_append (h.window_le hk')]

theorem fireEvents_concat (seen : List UInt8) (results : List (List SoftValue))
    (r : List SoftValue) :
    n.fireEvents seen (results ++ [r]) = n.fireEvents seen results ++
      [.fired (detectInto n.D (n.windowBytes seen results.length)) r
        (if results.length = 0 then 0 else n.loCol) n.hiCol] := by
  simp [fireEvents, List.mapIdx_append]

theorem corrections_concat (events : List WindowEvent) (e : WindowEvent) :
    n.corrections (events ++ [e]) = xorBits (n.corrections events) (e.flips n.O) := by
  simp [corrections, List.foldl_append]

/-! ## One chunk -/

section Chunk

variable (acc : n.Accepted faultOffsets) (sized : n.Sized) {seen chunk : List UInt8}
  {results : List (List SoftValue)} {st : WindowState σ}

theorem length_append_buf (hfit : st.bytesIn + chunk.length ≤ st.buf.length) :
    (append st chunk).buf.length = st.buf.length := by
  simp only [append, List.length_append, List.length_take, List.length_drop]
  omega

/-- What the buffer holds after a chunk is what has arrived. -/
theorem Receiving.take_append (h : n.Receiving seen results st)
    (hfit : st.bytesIn + chunk.length ≤ st.buf.length) :
    (append st chunk).buf.take (st.bytesIn + chunk.length) =
      (seen ++ chunk).drop (results.length * (n.ws.stride * n.spr)) := by
  have hlen : (st.buf.take st.bytesIn).length = st.bytesIn := by
    rw [List.length_take]
    omega
  have hle : results.length * (n.ws.stride * n.spr) ≤ seen.length := by
    have := h.bytesIn_add
    omega
  rw [List.drop_append_of_le_length hle, ← h.buf]
  simp only [append]
  rw [List.take_append_of_le_length (by rw [List.length_append, hlen]), List.take_of_length_le]
  rw [List.length_append, hlen]

theorem enqueue_of_fits (h : n.Receiving seen results st)
    (hfit : st.bytesIn + chunk.length ≤ st.buf.length) :
    n.enqueue st chunk =
      if st.bytesIn + chunk.length < n.bufSize then (append st chunk, .returned false none)
      else
        match n.fire (append st chunk) (detectInto n.D (append st chunk).buf) with
        | (st, .threw e) => (st, .threw e)
        | (st, .returned _ event) => (n.slide st, .returned true event) := by
  have hopen : ¬ st.flushed = true := by simp [h.flushed]
  rw [enqueue, if_neg hopen, if_neg (by omega)]
  simp only [length_append_buf hfit, h.length_buf]
  rfl

/-- A chunk that leaves room. -/
theorem Receiving.append_chunk (h : n.Receiving seen results st)
    (hfit : st.bytesIn + chunk.length ≤ st.buf.length)
    (hroom : st.bytesIn + chunk.length < n.bufSize) :
    n.Receiving (seen ++ chunk) results (append st chunk) where
  flushed := h.flushed
  length_buf := by rw [length_append_buf hfit, h.length_buf]
  fires := h.fires
  bytesIn_add := by
    have := h.bytesIn_add
    rw [List.length_append]
    change st.bytesIn + chunk.length + _ = _
    omega
  bytesIn_lt := hroom
  keep_le := by
    intro hpos
    have := h.keep_le hpos
    change _ ≤ st.bytesIn + chunk.length + _
    omega
  buf := h.take_append hfit
  length_result := h.length_result
  valid := h.valid
  last := h.last
  corr := by
    rw [fireEvents_append h]
    exact h.corr

include acc sized

/-- A chunk that fills the buffer: a fire on the window that has arrived. -/
theorem Receiving.fire_chunk (h : n.Receiving seen results st)
    (hfull : st.bytesIn + chunk.length = n.bufSize) {s : σ} {r : List SoftValue}
    (hdec : n.dec.decode st.dec (detectInto n.D (append st chunk).buf) = (s, some r)) :
    n.Receiving (seen ++ chunk) (results ++ [r])
        (n.slide (n.fire (append st chunk) (detectInto n.D (append st chunk).buf)).1) ∧
      (append st chunk).buf = n.windowBytes (seen ++ chunk) results.length := by
  have hfit : st.bytesIn + chunk.length ≤ st.buf.length := by rw [h.length_buf, hfull]
  have hbuf : (append st chunk).buf =
      (seen ++ chunk).drop (results.length * (n.ws.stride * n.spr)) := by
    rw [← h.take_append hfit, List.take_of_length_le]
    rw [length_append_buf hfit, h.length_buf, hfull]
  have hlen : (append st chunk).buf.length = n.bufSize := by
    rw [length_append_buf hfit, h.length_buf]
  have hwindow : (append st chunk).buf = n.windowBytes (seen ++ chunk) results.length := by
    unfold windowBytes
    rw [← hbuf, List.take_of_length_le hlen.le]
  have hkeep := acc.keep_eq sized
  have hstride := acc.stride_mul_u32 sized
  have hle := acc.stride_mul_le
  have hpos := acc.stride_mul_pos sized
  have hadd := h.bytesIn_add
  have hr : r.length = n.dec.blockSize :=
    n.dec.length_result acc.errors _ _ r (by rw [hdec])
  have hdec' : n.dec.decode (append st chunk).dec (detectInto n.D (append st chunk).buf) =
      (s, some r) := hdec
  -- the part of the buffer that stays
  have hmoved : ((append st chunk).buf.drop (n.ws.stride * n.spr)).length = n.ws.keep n.spr := by
    rw [List.length_drop, hlen, hkeep]
  refine ⟨?_, hwindow⟩
  rw [fire_of_some acc _ hdec']
  exact {
    flushed := h.flushed
    length_buf := by
      simp only [slide, WindowState.slide, hstride, List.length_append, List.length_take,
        List.length_drop, hlen, hkeep]
      clear * -
      omega
    fires := by
      simp only [slide, WindowState.slide, List.length_append, List.length_singleton]
      exact congrArg (· + 1) h.fires
    bytesIn_add := by
      simp only [slide, WindowState.slide, hkeep, List.length_append, List.length_singleton,
        Nat.add_mul, Nat.one_mul]
      omega
    bytesIn_lt := by
      simp only [slide, WindowState.slide, hkeep]
      omega
    keep_le := by
      intro _
      simp only [slide, WindowState.slide, hkeep]
      omega
    buf := by
      simp only [slide, WindowState.slide, hstride]
      rw [List.take_append_of_le_length (by rw [List.length_take, hmoved, Nat.min_self]),
        List.take_take, Nat.min_self, List.take_of_length_le hmoved.le, hbuf, List.drop_drop,
        List.length_append, List.length_singleton, Nat.add_mul, Nat.one_mul]
    length_result := by
      intro r' hr'
      rcases List.mem_append.mp hr' with hr' | hr'
      · exact h.length_result r' hr'
      · rw [List.mem_singleton.mp hr', hr]
    valid := by
      intro _
      simp only [slide, WindowState.slide, hr]
    last := by
      intro hv
      simp only [slide, WindowState.slide, decide_eq_true_eq] at hv
      simp only [slide, WindowState.slide, hv, if_true, List.getLast?_append,
        List.getLast?_singleton, Option.some_or]
    corr := by
      have hfires : (append st chunk).firesSinceReset = results.length := h.fires
      rw [fireEvents_concat, corrections_concat, fireEvents_append h, ← h.corr, ← hwindow]
      simp only [slide, WindowState.slide, hfires]
      rfl }

/-- What one call adds to a shot. -/
theorem Receiving.enqueue (hdecoded : ∀ s dets, (n.dec.decode s dets).2.isSome = true)
    (h : n.Receiving seen results st) (hfit : st.bytesIn + chunk.length ≤ st.buf.length) :
    ∃ new, n.Receiving (seen ++ chunk) (results ++ new) (n.enqueue st chunk).1 ∧
      n.fireEvents (seen ++ chunk) (results ++ new) =
        n.fireEvents seen results ++ (n.enqueue st chunk).2.event.toList := by
  rw [enqueue_of_fits h hfit]
  split
  · next hroom =>
    refine ⟨[], ?_, ?_⟩
    · rw [List.append_nil]
      exact h.append_chunk hfit hroom
    · rw [List.append_nil, fireEvents_append h]
      simp [Outcome.event]
  · next hfull =>
    have hfull' : st.bytesIn + chunk.length = n.bufSize := by
      have := h.length_buf
      omega
    cases hdec : n.dec.decode st.dec (detectInto n.D (append st chunk).buf) with
    | mk s decoded =>
      have hsome := hdecoded st.dec (detectInto n.D (append st chunk).buf)
      rw [hdec] at hsome
      obtain ⟨r, rfl⟩ := Option.isSome_iff_exists.mp hsome
      have hdec' : n.dec.decode (append st chunk).dec (detectInto n.D (append st chunk).buf) =
          (s, some r) := hdec
      obtain ⟨hrec, hwindow⟩ := h.fire_chunk acc sized hfull' hdec
      have hfires : (append st chunk).firesSinceReset = results.length := h.fires
      refine ⟨[r], ?_, ?_⟩
      · rw [fire_of_some acc _ hdec'] at hrec ⊢
        exact hrec
      · rw [fireEvents_concat, fireEvents_append h, ← hwindow, fire_of_some acc _ hdec', hfires]
        rfl

/-- What the chunks of a shot add to it. -/
theorem Receiving.run (hdecoded : ∀ s dets, (n.dec.decode s dets).2.isSome = true)
    (chunks : List (List UInt8)) (h : n.Receiving seen results st) (hfits : n.Fits st chunks) :
    ∃ new, n.Receiving (seen ++ chunks.flatten) (results ++ new)
        (n.run st (chunks.map .enqueue)).1 ∧
      n.fireEvents (seen ++ chunks.flatten) (results ++ new) =
        n.fireEvents seen results ++ (n.run st (chunks.map .enqueue)).2 := by
  induction chunks generalizing seen results st with
  | nil => exact ⟨[], by simpa [WindowNode.run] using h, by simp [WindowNode.run]⟩
  | cons chunk chunks ih =>
    obtain ⟨new, hrec, hevents⟩ := h.enqueue acc sized hdecoded hfits.1
    obtain ⟨new', hrec', hevents'⟩ := ih hrec hfits.2
    refine ⟨new ++ new', ?_, ?_⟩
    · simp only [List.flatten_cons, ← List.append_assoc]
      exact hrec'
    · simp only [List.flatten_cons, ← List.append_assoc, hevents', hevents, List.map_cons,
        WindowNode.run, step]

end Chunk

/-! ## A whole shot -/

theorem run_append (st : WindowState σ) (calls calls' : List WindowCall) :
    n.run st (calls ++ calls') =
      ((n.run (n.run st calls).1 calls').1,
        (n.run st calls).2 ++ (n.run (n.run st calls).1 calls').2) := by
  induction calls generalizing st with
  | nil => rfl
  | cons call calls ih => simp only [List.cons_append, run, ih, List.append_assoc]

/-- The buffers of a state have the sizes they are allocated with. -/
structure Buffers (n : WindowNode σ) (st : WindowState σ) : Prop where
  length_buf : st.buf.length = n.bufSize
  length_corr : st.corr.length = n.O.numRows

section Shot

variable (acc : n.Accepted faultOffsets) (sized : n.Sized)

include acc

theorem length_xorBits_projectInto {corr : List Bool} (h : corr.length = n.O.numRows)
    (errors : List SoftValue) : (xorBits corr (projectInto n.O errors)).length = n.O.numRows := by
  have hlen : (projectInto n.O errors).length = n.O.numRows := by
    rw [projectInto, List.length_map, n.O.length_groups_csr acc.layout_O]
  rw [length_xorBits (h.trans hlen.symm), h]

theorem Buffers.fire {st : WindowState σ} (h : n.Buffers st) (dets : List UInt8) :
    n.Buffers (n.fire st dets).1 := by
  cases hdec : n.dec.decode st.dec dets with
  | mk s decoded =>
    cases decoded with
    | none =>
      simp only [WindowNode.fire, hdec]
      exact ⟨h.length_buf, h.length_corr⟩
    | some r =>
      rw [fire_of_some acc st hdec]
      exact ⟨h.length_buf, length_xorBits_projectInto acc h.length_corr _⟩

include sized

theorem Buffers.step {st : WindowState σ} (h : n.Buffers st) (call : WindowCall) :
    n.Buffers (n.step st call).1 := by
  cases call with
  | enqueue chunk =>
    simp only [WindowNode.step, WindowNode.enqueue]
    split
    · exact h
    split
    · exact h
    next hopen hfit =>
    have happend : n.Buffers (append st chunk) :=
      ⟨(length_append_buf (by omega)).trans h.length_buf, h.length_corr⟩
    split
    · exact happend
    have hfire := happend.fire acc (detectInto n.D (append st chunk).buf)
    generalize n.fire (append st chunk) (detectInto n.D (append st chunk).buf) = fired at hfire ⊢
    obtain ⟨st', outcome⟩ := fired
    cases outcome with
    | threw e => exact hfire
    | returned value event =>
      have hst : n.Buffers st' := hfire
      constructor
      · simp only [slide, WindowState.slide, acc.stride_mul_u32 sized, acc.keep_eq sized, List.length_append,
          List.length_take, List.length_drop, hst.length_buf, Nat.min_self]
        exact Nat.add_sub_of_le (Nat.sub_le _ _)
      · exact hst.length_corr
  | flush =>
    simp only [WindowNode.step, WindowNode.flush]
    split
    · exact h
    · exact ⟨h.length_buf, length_xorBits_projectInto acc h.length_corr _⟩
  | clearCorrections =>
    exact ⟨h.length_buf, by simpa [WindowNode.step, clearCorrections] using h.length_corr⟩
  | resetStreamingState =>
    refine ⟨?_, ?_⟩
    · simpa [WindowNode.step, resetStreamingState, clearCorrections] using h.length_buf
    · simpa [WindowNode.step, resetStreamingState, clearCorrections] using h.length_corr

theorem Buffers.run {st : WindowState σ} (h : n.Buffers st) (calls : List WindowCall) :
    n.Buffers (n.run st calls).1 := by
  induction calls generalizing st with
  | nil => exact h
  | cons call calls ih => exact ih (h.step acc sized call)

theorem receiving_reset {st : WindowState σ} (h : n.Buffers st) :
    n.Receiving [] [] (resetStreamingState st) where
  flushed := rfl
  length_buf := by simpa [resetStreamingState, clearCorrections] using h.length_buf
  fires := rfl
  bytesIn_add := by simp [resetStreamingState, clearCorrections]
  bytesIn_lt := by
    have hpos := acc.stride_mul_pos sized
    have hle := acc.stride_mul_le
    change 0 < n.bufSize
    omega
  keep_le := by simp
  buf := by simp [resetStreamingState, clearCorrections]
  length_result := by simp
  valid := by simp
  last := by
    intro hv
    cases hv
  corr := by simp [resetStreamingState, clearCorrections, corrections, fireEvents, h.length_corr]

theorem Receiving.length_results {seen : List UInt8} {results : List (List SoftValue)}
    {st : WindowState σ} (h : n.Receiving seen results st) {m : Nat}
    (hlen : seen.length = (n.ws.size + m * n.ws.stride) * n.spr) : results.length = m + 1 := by
  have hadd := h.bytesIn_add
  have hlt := h.bytesIn_lt
  have hpos := acc.stride_mul_pos sized
  have hbytes : seen.length = n.bufSize + m * (n.ws.stride * n.spr) := by
    rw [hlen, acc.bufSize_eq, Nat.add_mul, Nat.mul_assoc]
  have hgt : m < results.length := by
    apply Nat.lt_of_mul_lt_mul_right (a := n.ws.stride * n.spr)
    omega
  have hkeep := h.keep_le (by omega)
  have hle : results.length ≤ m + 1 := by
    apply Nat.le_of_mul_le_mul_right _ hpos
    rw [Nat.succ_mul]
    omega
  omega

/-- The events of a shot: a fire for each window, and the flush of the last one's tail. -/
theorem shot_events (hdecoded : ∀ s dets, (n.dec.decode s dets).2.isSome = true)
    {st : WindowState σ} (h : n.Buffers st) {chunks : List (List UInt8)} {m : Nat}
    (hlen : chunks.flatten.length = (n.ws.size + m * n.ws.stride) * n.spr)
    (hfits : n.Fits (resetStreamingState st) chunks) :
    ∃ results : List (List SoftValue), results.length = m + 1 ∧
      (n.run (resetStreamingState st) (chunks.map .enqueue ++ [.flush])).2 =
        n.fireEvents chunks.flatten results ++
          (if n.hiCol < n.dec.blockSize then
            [.flushed (results.getLastD []) n.hiCol sizeMax] else []) ∧
      (n.run (resetStreamingState st) (chunks.map .enqueue ++ [.flush])).1.corr =
        n.corrections (n.run (resetStreamingState st) (chunks.map .enqueue ++ [.flush])).2 := by
  obtain ⟨results, hrec, hevents⟩ :=
    (receiving_reset acc sized h).run acc sized hdecoded chunks hfits
  rw [List.nil_append, List.nil_append] at hrec hevents
  have hcount := hrec.length_results acc sized hlen
  have hfired : (n.run (resetStreamingState st) (chunks.map .enqueue)).2 =
      n.fireEvents chunks.flatten results := by
    rw [hevents]
    simp [fireEvents]
  have hvalid := hrec.valid (by omega)
  refine ⟨results, hcount, ?_⟩
  rw [run_append, hfired]
  generalize (n.run (resetStreamingState st) (chunks.map .enqueue)).1 = st' at hrec hvalid ⊢
  simp only [run, WindowNode.step, List.append_nil]
  by_cases htail : n.hiCol < n.dec.blockSize
  · have hlast : st'.lastResult = results.getLastD [] := by
      have := hrec.last (by rw [hvalid]; exact decide_eq_true htail)
      rw [List.getLastD_eq_getLast?, ← this]
      rfl
    rw [if_pos htail, flush_of_valid hrec.flushed (by rw [hvalid]; exact decide_eq_true htail)
      (by rw [hrec.fires]; omega), hlast]
    refine ⟨rfl, ?_⟩
    simp only [Outcome.event, Option.toList_some]
    rw [corrections_concat, ← hrec.corr]
  · rw [if_neg htail, flush_of_not (.inr (.inr (by rw [hvalid]; exact decide_eq_false htail)))]
    refine ⟨rfl, ?_⟩
    simp only [Outcome.event, Option.toList_none, List.append_nil]
    exact hrec.corr

end Shot

/-! ## Every round once -/

section Rounds

variable {bytes : List UInt8} {results : List (List SoftValue)} {m : Nat}

/-- The events of a shot of `m + 1` windows, as `shot_events` gives them. -/
def shotEvents (n : WindowNode σ) (bytes : List UInt8) (results : List (List SoftValue)) :
    List WindowEvent :=
  n.fireEvents bytes results ++
    (if n.hiCol < n.dec.blockSize then [.flushed (results.getLastD []) n.hiCol sizeMax] else [])

/-! ## Where an event starts -/

theorem length_fireEvents : (n.fireEvents bytes results).length = results.length := by
  simp [fireEvents]

theorem isFired_of_mem_fireEvents {e : WindowEvent} (h : e ∈ n.fireEvents bytes results) :
    e.isFired = true := by
  obtain ⟨k, hk, rfl⟩ := List.getElem_of_mem h
  simp [fireEvents, WindowEvent.isFired]

theorem countP_take_fireEvents {i : Nat} (hi : i ≤ results.length) :
    ((n.fireEvents bytes results).take i).countP WindowEvent.isFired = i := by
  rw [List.countP_eq_length.mpr fun e he => isFired_of_mem_fireEvents (List.mem_of_mem_take he),
    List.length_take, length_fireEvents, Nat.min_eq_left hi]

theorem windowStart_fire {i : Nat} (hi : i < results.length) :
    n.windowStart (n.shotEvents bytes results) i = n.ws.stride * i := by
  rw [windowStart, shotEvents, List.take_append_of_le_length (by rw [length_fireEvents]; omega),
    countP_take_fireEvents (by omega), Nat.add_sub_cancel]

theorem windowStart_flush {i : Nat} (hi : results.length = i) (htail : n.hiCol < n.dec.blockSize) :
    n.windowStart (n.shotEvents bytes results) i = n.ws.stride * (i - 1) := by
  have hcount : ((n.shotEvents bytes results).take (i + 1)).countP WindowEvent.isFired = i := by
    rw [List.take_of_length_le (by simp [shotEvents, length_fireEvents, htail, hi]), shotEvents,
      if_pos htail, List.countP_append]
    have hall : (n.fireEvents bytes results).countP WindowEvent.isFired = i := by
      rw [List.countP_eq_length.mpr fun e he => isFired_of_mem_fireEvents he, length_fireEvents, hi]
    rw [hall]
    rfl
  rw [windowStart, hcount]

theorem getElem?_fire {i : Nat} (hi : i < results.length) :
    ∃ dets r, (n.shotEvents bytes results)[i]? =
      some (.fired dets r (if i = 0 then 0 else n.loCol) n.hiCol) := by
  rw [shotEvents, List.getElem?_append_left (by rw [length_fireEvents]; exact hi)]
  simp [fireEvents, hi]

theorem getElem?_flush {i : Nat} (hi : results.length = i) (htail : n.hiCol < n.dec.blockSize) :
    (n.shotEvents bytes results)[i]? = some (.flushed (results.getLastD []) n.hiCol sizeMax) := by
  rw [shotEvents, List.getElem?_append_right (by rw [length_fireEvents, hi]), length_fireEvents, hi,
    Nat.sub_self, if_pos htail]
  rfl

/-! ## The rounds an event takes -/

/-- The guards and the core make up the window, and the offsets say where rounds start. -/
structure Tiles (n : WindowNode σ) (faultOffsets : List Nat) : Prop where
  size_eq : n.ws.size = n.ws.stride + n.ws.startGuard + n.ws.endGuard
  stride_pos : 0 < n.ws.stride
  loCol_eq : n.loCol = faultOffsets.getD n.ws.startGuard 0
  hiCol_eq : n.hiCol = faultOffsets.getD (n.ws.stride + n.ws.startGuard) 0
  mono : ∀ i j, i ≤ j → j ≤ n.ws.size → faultOffsets.getD i 0 ≤ faultOffsets.getD j 0

/-- The rounds that event `j` of a shot of `m + 1` windows commits, as rounds of the shot. -/
def Takes (n : WindowNode σ) (m j g : Nat) : Prop :=
  if j ≤ m then (j = 0 ∨ n.ws.stride * j + n.ws.startGuard ≤ g) ∧
    g < n.ws.stride * j + n.ws.stride + n.ws.startGuard
  else j = m + 1 ∧ n.ws.stride * m + n.ws.stride + n.ws.startGuard ≤ g

variable (tiles : n.Tiles faultOffsets)

include tiles

/-- An event covers the fault columns of the rounds it takes, and no others. -/
theorem covers_iff_takes (hm : results.length = m + 1) {j g column : Nat} {e : WindowEvent}
    (he : (n.shotEvents bytes results)[j]? = some e)
    (hcol : n.RoundColumn faultOffsets (n.shotEvents bytes results) j g column) :
    e.Covers column ↔ n.Takes m j g := by
  obtain ⟨⟨hfirst, hlast⟩, hlo, hhi, hblock⟩ := hcol
  have hblock_lt := n.dec.blockSize_lt
  have hsize := tiles.size_eq
  by_cases hj : j ≤ m
  · rw [windowStart_fire (by omega)] at hfirst hlast hlo hhi
    obtain ⟨dets, r, hfire⟩ : ∃ dets r, (n.shotEvents bytes results)[j]? =
      some (.fired dets r (if j = 0 then 0 else n.loCol) n.hiCol) := getElem?_fire (by omega)
    rw [he, Option.some.injEq] at hfire
    subst hfire
    -- a fired window covers from its first committed column to the one where its guard begins
    rw [Takes, if_pos hj]
    refine and_congr ?_ ?_
    · by_cases hzero : j = 0
      · simp [hzero]
      · rw [if_neg hzero, tiles.loCol_eq]
        constructor
        · intro hle
          right
          by_contra hlt
          have := tiles.mono (g - n.ws.stride * j + 1) n.ws.startGuard (by omega) (by omega)
          omega
        · rintro (h | hle)
          · exact absurd h hzero
          · have := tiles.mono n.ws.startGuard (g - n.ws.stride * j) (by omega) (by omega)
            omega
    · rw [tiles.hiCol_eq]
      constructor
      · intro hlt
        by_contra hge
        have := tiles.mono (n.ws.stride + n.ws.startGuard) (g - n.ws.stride * j) (by omega)
          (by omega)
        omega
      · intro hlt
        have := tiles.mono (g - n.ws.stride * j + 1) (n.ws.stride + n.ws.startGuard) (by omega)
          (by omega)
        omega
  · -- the flush, which has an event only where columns are withheld
    have htail : n.hiCol < n.dec.blockSize := by
      by_contra htail
      rw [shotEvents, if_neg htail, List.append_nil, List.getElem?_eq_none] at he
      · cases he
      · rw [length_fireEvents]
        omega
    have hlen : (n.shotEvents bytes results).length = m + 2 := by
      simp [shotEvents, length_fireEvents, htail, hm]
    have hjm : j = m + 1 := by
      have := (List.getElem?_eq_some_iff.mp he).1
      omega
    subst hjm
    rw [windowStart_flush hm htail, Nat.add_sub_cancel] at hfirst hlast hlo hhi
    rw [getElem?_flush hm htail, Option.some.injEq] at he
    subst he
    rw [Takes, if_neg hj]
    have hmax : column < sizeMax := by
      unfold sizeMax
      omega
    simp only [WindowEvent.Covers, hmax, and_true, true_and]
    rw [tiles.hiCol_eq]
    constructor
    · intro hle
      by_contra hlt
      have := tiles.mono (g - n.ws.stride * m + 1) (n.ws.stride + n.ws.startGuard) (by omega)
        (by omega)
      omega
    · intro hle
      have := tiles.mono (n.ws.stride + n.ws.startGuard) (g - n.ws.stride * m) (by omega) (by omega)
      omega

omit tiles in
/-- No round is taken twice. -/
theorem Takes.unique {i j g : Nat} (hi : n.Takes m i g) (hj : n.Takes m j g) : i = j := by
  -- an earlier event takes earlier rounds
  have hlt : ∀ a b, a < b → n.Takes m a g → n.Takes m b g → False := by
    intro a b hab ha hb
    have hstep : ∀ c d, c < d → n.ws.stride * c + n.ws.stride ≤ n.ws.stride * d := by
      intro c d hcd
      have := Nat.mul_le_mul_left n.ws.stride (show c + 1 ≤ d from hcd)
      rwa [Nat.mul_succ] at this
    unfold Takes at ha hb
    by_cases hb' : b ≤ m
    · rw [if_pos (by omega)] at ha
      rw [if_pos hb'] at hb
      have := hstep a b hab
      omega
    · rw [if_neg hb'] at hb
      rw [if_pos (by omega)] at ha
      have : n.ws.stride * a ≤ n.ws.stride * m := Nat.mul_le_mul_left _ (by omega)
      omega
  rcases Nat.lt_trichotomy i j with h | h | h
  · exact (hlt i j h hi hj).elim
  · exact h
  · exact (hlt j i h hj hi).elim

/-- Every round of the shot is taken, inside the window of the event that takes it. -/
theorem exists_takes {g : Nat} (hg : g < n.ws.size + m * n.ws.stride) :
    ∃ i ≤ m + 1, n.Takes m i g ∧
      n.ws.stride * min i m ≤ g ∧ g < n.ws.stride * min i m + n.ws.size := by
  have hpos := tiles.stride_pos
  have hsize := tiles.size_eq
  have hcomm : m * n.ws.stride = n.ws.stride * m := Nat.mul_comm _ _
  by_cases hfirst : g < n.ws.stride + n.ws.startGuard
  · refine ⟨0, by omega, ?_, ?_⟩
    · rw [Takes, if_pos (by omega)]
      exact ⟨.inl rfl, by omega⟩
    · simp only [Nat.zero_min, Nat.mul_zero]
      omega
  by_cases hlast : n.ws.stride * m + n.ws.stride + n.ws.startGuard ≤ g
  · refine ⟨m + 1, le_rfl, ?_, ?_⟩
    · rw [Takes, if_neg (by omega)]
      exact ⟨rfl, hlast⟩
    · rw [Nat.min_eq_right (by omega)]
      omega
  · -- the fire whose core holds the round
    obtain ⟨k, hk⟩ : ∃ k, k = (g - n.ws.startGuard) / n.ws.stride := ⟨_, rfl⟩
    have hdiv := Nat.div_add_mod (g - n.ws.startGuard) n.ws.stride
    have hmod := Nat.mod_lt (g - n.ws.startGuard) hpos
    rw [← hk] at hdiv
    have hkm : k ≤ m := by
      by_contra hlt
      have := Nat.mul_le_mul_left n.ws.stride (show m + 1 ≤ k by omega)
      rw [Nat.mul_succ] at this
      omega
    refine ⟨k, by omega, ?_, ?_⟩
    · rw [Takes, if_pos hkm]
      exact ⟨.inr (by omega), by omega⟩
    · rw [Nat.min_eq_left hkm]
      omega

/-! ## Each round by one event -/

/-- Each round of a shot is committed by one event. -/
theorem exists_commitsOnly (hm : results.length = m + 1) {g : Nat}
    (hg : g < n.ws.size + m * n.ws.stride) :
    ∃ i < (n.shotEvents bytes results).length,
      n.CommitsOnly faultOffsets (n.shotEvents bytes results) i g := by
  obtain ⟨i, hi, htakes, hfirst, hlast⟩ := exists_takes tiles hg
  have hothers : ∀ j e, j ≠ i → (n.shotEvents bytes results)[j]? = some e →
      ∀ column, n.RoundColumn faultOffsets (n.shotEvents bytes results) j g column →
        ¬ e.Covers column := by
    intro j e hne he column hcol hcov
    exact hne (Takes.unique ((covers_iff_takes tiles hm he hcol).mp hcov) htakes)
  -- the round is taken by a window that fires, or by the flush
  by_cases hfire : i ≤ m
  · have hstart : n.windowStart (n.shotEvents bytes results) i = n.ws.stride * i :=
      windowStart_fire (by omega)
    rw [Nat.min_eq_left hfire] at hfirst hlast
    refine ⟨i, ?_, ⟨?_, ?_⟩, ?_, hothers⟩
    · rw [shotEvents, List.length_append, length_fireEvents]
      omega
    · rw [hstart]
      exact hfirst
    · rw [hstart]
      exact hlast
    · intro e he column hcol
      exact (covers_iff_takes tiles hm he hcol).mpr htakes
  · obtain rfl : i = m + 1 := by omega
    rw [Nat.min_eq_right (by omega)] at hfirst hlast
    by_cases htail : n.hiCol < n.dec.blockSize
    · have hstart : n.windowStart (n.shotEvents bytes results) (m + 1) = n.ws.stride * m := by
        rw [windowStart_flush hm htail, Nat.add_sub_cancel]
      refine ⟨m + 1, ?_, ⟨?_, ?_⟩, ?_, hothers⟩
      · simp [shotEvents, length_fireEvents, htail, hm]
      · rw [hstart]
        exact hfirst
      · rw [hstart]
        exact hlast
      · intro e he column hcol
        exact (covers_iff_takes tiles hm he hcol).mpr htakes
    · -- the decoder predicts nothing for this round
      have hstart : n.windowStart (n.shotEvents bytes results) m = n.ws.stride * m :=
        windowStart_fire (by omega)
      refine ⟨m, ?_, ⟨?_, ?_⟩, ?_, ?_⟩
      · rw [shotEvents, List.length_append, length_fireEvents]
        omega
      · rw [hstart]
        exact hfirst
      · rw [hstart]
        exact hlast
      · rintro e he column ⟨-, hlo, -, hblock⟩
        rw [hstart] at hlo
        rw [Takes, if_neg hfire] at htakes
        have hsize := tiles.size_eq
        have := tiles.mono (n.ws.stride + n.ws.startGuard) (g - n.ws.stride * m) (by omega)
          (by omega)
        rw [← tiles.hiCol_eq] at this
        omega
      · intro j e _ he column hcol
        refine hothers j e ?_ he column hcol
        rintro rfl
        have := (List.getElem?_eq_some_iff.mp he).1
        rw [shotEvents, if_neg htail, List.append_nil, length_fireEvents] at this
        omega

end Rounds

/-! ## Guarded windows -/

theorem Accepted.tiles (acc : n.Accepted faultOffsets)
    (hsum : n.ws.startGuard + n.ws.endGuard < 2 ^ 32) (hmono : faultOffsets.Pairwise (· ≤ ·)) :
    n.Tiles faultOffsets := by
  have hguards : n.ws.startGuard + n.ws.endGuard < n.ws.size := by
    have := acc.guards_lt
    rwa [u32_of_lt hsum] at this
  have hlt := n.ws.size_lt
  have hcore : n.ws.core = n.ws.size - n.ws.startGuard - n.ws.endGuard := by
    rw [WindowSpec.core, sub32_of_le (by omega) hlt, sub32_of_le (by omega) (by omega)]
  have hstride := acc.stride_eq
  rw [hcore] at hstride
  have hend : sub32 n.ws.size n.ws.endGuard = n.ws.stride + n.ws.startGuard := by
    rw [sub32_of_le (by omega) hlt]
    omega
  have hlo := acc.loCol_eq
  have hhi := acc.hiCol_eq
  rw [hend] at hhi
  constructor
  · omega
  · exact acc.stride_pos
  · rw [List.getD_eq_getElem?_getD, hlo, Option.getD_some]
  · rw [List.getD_eq_getElem?_getD, hhi, Option.getD_some]
  · intro i j hij hj
    have hlen := acc.length_offsets
    rw [List.getD_eq_getElem _ _ (by omega), List.getD_eq_getElem _ _ (by omega)]
    rcases Nat.lt_or_eq_of_le hij with h | h
    · exact List.pairwise_iff_getElem.mp hmono i j (by omega) (by omega) h
    · subst h
      exact le_rfl

/-- Arguments of which a shot is committed as it should be: `D` reads no byte past the window, which has
at least one for each round, the guards do not wrap around and the fault offsets are cumulative. -/
structure ReadsWindow (D : SparseBinaryMatrix) (spr : Nat) (ws : WindowSpec)
    (faultOffsets : List Nat) : Prop where
  numCols_le : D.numCols ≤ ws.size * spr
  bytes_lt : ws.size * spr < 2 ^ 32
  spr_pos : 0 < spr
  guards_lt : ws.startGuard + ws.endGuard < 2 ^ 32
  offsets : faultOffsets.Pairwise (· ≤ ·)

/-- A guarded window commits every round of a shot once, and every tail at most once in exactly the
runs without a stale flush. -/
theorem guarded_window_commits {D O : SparseBinaryMatrix} {dec : InnerDecoder σ} {spr : Nat}
    {ws : WindowSpec} {numMeasurements : Nat}
    (hcreate : create D O dec spr ws faultOffsets numMeasurements = .ok n) (hguard : ws.Guarded)
    (s : σ) :
    (∀ (before : List WindowCall) (rounds : Nat) (chunks : List (List UInt8)),
      ReadsWindow D spr ws faultOffsets →
      (∀ s dets, (dec.decode s dets).2.isSome = true) →
      ws.size ≤ rounds → ws.stride ∣ rounds - ws.size →
      chunks.flatten.length = rounds * spr →
      n.Fits (resetStreamingState (n.run (n.initialState s) before).1) chunks →
      let shot := n.run (resetStreamingState (n.run (n.initialState s) before).1)
        (chunks.map .enqueue ++ [.flush])
      (∀ g < rounds, ∃ i < shot.2.length, n.CommitsOnly faultOffsets shot.2 i g) ∧
      (∀ i dets result lo hi, shot.2[i]? = some (.fired dets result lo hi) →
        dets = detectInto n.D (n.windowBytes chunks.flatten i)) ∧
      shot.1.corr = n.corrections shot.2) ∧
    ∀ calls, (flushedFires 0 (n.run (n.initialState s) calls).2).Nodup ↔
      n.NoStaleFlush false (n.initialState s) calls := by
  obtain ⟨acc, rfl, rfl, rfl, hn⟩ := accepted_of_create hcreate hguard
  refine ⟨?_, nodup_flushedFires_iff acc s⟩
  intro before rounds chunks hreads hdecoded hrounds hdvd hlen hfits
  have sized : n.Sized := ⟨hreads.spr_pos, hreads.bytes_lt⟩
  have tiles := acc.tiles hreads.guards_lt hreads.offsets
  obtain ⟨m, hm⟩ := hdvd
  have hrounds' : rounds = n.ws.size + m * n.ws.stride := by
    rw [Nat.mul_comm m]
    omega
  -- whatever was called before, the buffers have kept their widths
  have hbuffers : n.Buffers (n.run (n.initialState s) before).1 := by
    apply Buffers.run acc sized
    exact ⟨by simp [initialState], by simp [initialState]⟩
  rw [hrounds'] at hlen
  -- the shot fires once for each window that fits, and once more at the flush
  obtain ⟨results, hcount, hevents, hcorr⟩ := shot_events acc sized hdecoded hbuffers hlen hfits
  refine ⟨?_, ?_, hcorr⟩
  · intro g hg
    rw [hevents]
    exact exists_commitsOnly tiles hcount (hrounds' ▸ hg)
  · intro i dets result lo hi hi'
    rw [hevents] at hi'
    by_cases hfire : i < results.length
    · rw [List.getElem?_append_left (by rw [length_fireEvents]; exact hfire)] at hi'
      simp only [fireEvents, List.getElem?_mapIdx, List.getElem?_eq_getElem hfire, Option.map_some,
        Option.some.injEq, WindowEvent.fired.injEq] at hi'
      exact hi'.1.symm
    · rw [List.getElem?_append_right (by rw [length_fireEvents]; omega)] at hi'
      have hmem := List.mem_of_getElem? hi'
      split at hmem
      · cases List.mem_singleton.mp hmem
      · cases hmem

/-! ## Four rounds -/

def guardedSpec : WindowSpec := .ofCounts 3 1 1 1

/-- A decoder that finds an error in every round. -/
def everyRound : InnerDecoder Unit where
  resultType := .errors
  syndromeSize := 1
  blockSize := 3
  blockSize_lt := by decide
  decode := fun s _ => (s, some [.finite 1, .finite 1, .finite 1])
  length_result := by
    rintro - s dets r h
    cases h
    rfl

def rowOfThree : SparseBinaryMatrix := .ofGroups .csr 1 3 [[0, 1, 2]]

def guardedNode : WindowNode Unit where
  D := rowOfThree
  O := rowOfThree
  dec := everyRound
  spr := 1
  ws := guardedSpec
  loCol := 1
  hiCol := 2
  bufSize := 3

theorem create_guardedNode :
    create rowOfThree rowOfThree everyRound 1 guardedSpec [0, 1, 2, 3] 0 = .ok guardedNode := rfl

theorem guarded_window_commits_four :
    (∀ g < 4, ∃ i < (guardedNode.run (resetStreamingState (guardedNode.initialState ()))
      ([.enqueue [1, 0, 1], .enqueue [1], .flush])).2.length,
        guardedNode.CommitsOnly [0, 1, 2, 3]
          (guardedNode.run (resetStreamingState (guardedNode.initialState ()))
            ([.enqueue [1, 0, 1], .enqueue [1], .flush])).2 i g) ∧
      guardedNode.NoStaleFlush false (guardedNode.initialState ()) [.enqueue [1, 0, 1], .flush] := by
  obtain ⟨hshot, hruns⟩ := guarded_window_commits create_guardedNode (.inl (by decide)) ()
  refine ⟨?_, ?_⟩
  · exact (hshot [] 4 [[1, 0, 1], [1]] ⟨by decide, by decide, by decide, by decide, by decide⟩
      (fun _ _ => rfl) (by decide) ⟨1, rfl⟩ rfl ⟨by decide, by decide, trivial⟩).1
  · rw [← hruns]
    decide

/-- The tail of one fire, flushed before and after `clear_corrections`. -/
theorem tail_flushed_twice :
    create rowOfThree rowOfThree everyRound 1 guardedSpec [0, 1, 2, 3] 0 = .ok guardedNode ∧
      guardedSpec.Guarded ∧
      ¬ (flushedFires 0 (guardedNode.run (guardedNode.initialState ())
        [.enqueue [1, 0, 1], .flush, .clearCorrections, .flush]).2).Nodup :=
  ⟨create_guardedNode, .inl (by decide), by decide⟩

end WindowNode

end CudaqQec
