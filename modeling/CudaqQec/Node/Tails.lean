import CudaqQec.Node.Window

/-!
# Tails of guarded windows

What a guarded window withholds at its end is committed by `flush`, once for each fire: a flush sets
`flushed`, and the node takes no more data until it is cleared. But `clear_corrections` opens the
node again and leaves the snapshot valid, so a flush after it finds the same tail a second time,
unless a fire or a reset comes between.

* `Accepted`: what the constructor has checked of a guarded window.
* `nodup_flushedFires_iff`: when a run commits every tail at most once.
-/

namespace CudaqQec

open Checked SparseBinaryMatrix Toggle

variable {σ : Type}

/-! ## What the constructor checks -/

/-- What is known of a guarded window after its constructor. -/
structure WindowNode.Accepted (n : WindowNode σ) (faultOffsets : List Nat) : Prop where
  errors : n.dec.resultType = .errors
  layout_O : n.O.layout = .csr
  numCols_le : n.O.numCols ≤ n.dec.blockSize
  stride_pos : 0 < n.ws.stride
  stride_lt : n.ws.stride < n.ws.size
  guards_lt : u32 (n.ws.startGuard + n.ws.endGuard) < n.ws.size
  stride_eq : n.ws.stride = n.ws.core
  bufSize_eq : n.bufSize = n.ws.size * n.spr
  length_offsets : faultOffsets.length = n.ws.size + 1
  loCol_eq : faultOffsets[n.ws.startGuard]? = some n.loCol
  hiCol_eq : faultOffsets[sub32 n.ws.size n.ws.endGuard]? = some n.hiCol

namespace WindowNode

variable {D O : SparseBinaryMatrix} {dec : InnerDecoder σ} {spr : Nat} {ws : WindowSpec}
  {faultOffsets : List Nat} {numMeasurements : Nat} {n : WindowNode σ}

theorem guardColumns_eq_ok {columns : Nat × Nat}
    (h : guardColumns dec ws faultOffsets = .ok columns) :
    dec.resultType = .errors ∧ ws.stride < ws.size ∧ u32 (ws.startGuard + ws.endGuard) < ws.size ∧
      ws.stride = ws.core ∧ faultOffsets.length = ws.size + 1 ∧
      faultOffsets[ws.startGuard]? = some columns.1 ∧
      faultOffsets[sub32 ws.size ws.endGuard]? = some columns.2 := by
  unfold guardColumns at h
  obtain ⟨_, htype, h⟩ := bind_eq_ok.mp h
  obtain ⟨_, hstride, h⟩ := bind_eq_ok.mp h
  obtain ⟨_, hguards, h⟩ := bind_eq_ok.mp h
  obtain ⟨_, hcore, h⟩ := bind_eq_ok.mp h
  obtain ⟨_, hlen, h⟩ := bind_eq_ok.mp h
  obtain ⟨lo, hlo, h⟩ := bind_eq_ok.mp h
  obtain ⟨hi, hhi, h⟩ := bind_eq_ok.mp h
  cases h
  rw [throwIf_eq_ok] at htype hstride hguards hcore hlen
  refine ⟨?_, by omega, by omega, not_not.mp hcore, not_not.mp hlen, elementAt_eq_ok.mp hlo,
    elementAt_eq_ok.mp hhi⟩
  cases htypes : dec.resultType with
  | errors => rfl
  | observables => exact absurd htypes htype

theorem accepted_of_create (h : create D O dec spr ws faultOffsets numMeasurements = .ok n)
    (hguard : ws.Guarded) :
    n.Accepted faultOffsets ∧ n.ws = ws ∧ n.spr = spr ∧ n.dec = dec ∧ n.D = D.toCsr := by
  unfold create at h
  obtain ⟨_, hstride, h⟩ := bind_eq_ok.mp h
  obtain ⟨columns, hcolumns, h⟩ := bind_eq_ok.mp h
  obtain ⟨_, hsyndrome, h⟩ := bind_eq_ok.mp h
  obtain ⟨_, hblock, h⟩ := bind_eq_ok.mp h
  obtain ⟨_, hwidths, h⟩ := bind_eq_ok.mp h
  cases h
  rw [committedColumns, if_pos hguard] at hcolumns
  rw [throwIf_eq_ok] at hstride hblock hwidths
  obtain ⟨herr, hlt, hguards, hcore, hlen, hlo, hhi⟩ := guardColumns_eq_ok hcolumns
  have hcols : O.numCols ≤ dec.blockSize := by
    by_contra hc
    exact hblock ⟨by rw [herr]; decide, by omega⟩
  have hmeas : numMeasurements = 0 := by
    by_contra hc
    exact hwidths ⟨hc, hlt.ne⟩
  refine ⟨?_, rfl, rfl, rfl, rfl⟩
  exact {
    errors := herr
    layout_O := O.toCsr_layout
    numCols_le := by
      rw [O.toCsr_numCols]
      exact hcols
    stride_pos := by
      change 0 < ws.stride
      omega
    stride_lt := hlt
    guards_lt := hguards
    stride_eq := hcore
    bufSize_eq := by rw [if_neg (not_not.mpr hmeas)]
    length_offsets := hlen
    loCol_eq := hlo
    hiCol_eq := hhi }

/-! ## What a call does to the snapshot -/

section Calls

variable (acc : n.Accepted faultOffsets) (st : WindowState σ)

include acc

/-- A result of the decoder of a guarded window is committed without an exception. -/
theorem fire_of_some {dets : List UInt8} {s : σ} {result : List SoftValue}
    (h : n.dec.decode st.dec dets = (s, some result)) :
    n.fire st dets =
      ({ st with
          dec := s
          lastResultValid := decide (n.hiCol < result.length)
          lastResult := if n.hiCol < result.length then result else st.lastResult
          corr := xorBits st.corr (projectInto n.O (maskGuardRange result
            (if st.firesSinceReset = 0 then 0 else n.loCol) n.hiCol))
          firesSinceReset := st.firesSinceReset + 1 },
        .returned true (some (.fired dets result
          (if st.firesSinceReset = 0 then 0 else n.loCol) n.hiCol))) := by
  have hlen : result.length = n.dec.blockSize :=
    n.dec.length_result acc.errors st.dec dets result (by rw [h])
  have hfits : ¬ result.length < n.O.numCols := by
    have := acc.numCols_le
    omega
  simp only [fire, h, commitInto, commitColumns, acc.errors, throwIf_of_not hfits, ok_bind,
    decide_eq_true_eq]
  rfl

/-- A call that commits nothing leaves the snapshot and its flags as they are. -/
def SameTail (st st' : WindowState σ) : Prop :=
  st'.flushed = st.flushed ∧ st'.lastResultValid = st.lastResultValid ∧
    st'.firesSinceReset = st.firesSinceReset

omit acc in
theorem SameTail.refl : SameTail st st := ⟨rfl, rfl, rfl⟩

/-- `enqueue` commits nothing, or it is the commit of a fire on a node that is open. -/
theorem enqueue_cases (chunk : List UInt8) :
    ((n.enqueue st chunk).2.event = none ∧ SameTail st (n.enqueue st chunk).1) ∨
      ((n.enqueue st chunk).1.flushed = false ∧
        ∃ dets result lo, (n.enqueue st chunk).2.event = some (.fired dets result lo n.hiCol)) := by
  by_cases hflushed : st.flushed = true
  · left
    rw [enqueue, if_pos hflushed]
    exact ⟨rfl, .refl st⟩
  have hopen : st.flushed = false := by simpa using hflushed
  rw [enqueue, if_neg hflushed]
  split
  · exact .inl ⟨rfl, .refl st⟩
  simp only []
  split
  · exact .inl ⟨rfl, rfl, rfl, rfl⟩
  -- the buffer is full
  cases hdec : n.dec.decode (append st chunk).dec (detectInto n.D (append st chunk).buf) with
  | mk s decoded =>
    cases decoded with
    | none =>
      left
      have hfire : n.fire (append st chunk) (detectInto n.D (append st chunk).buf) =
          ({ append st chunk with dec := s }, .returned false none) := by
        simp only [fire, hdec]
      rw [hfire]
      exact ⟨rfl, rfl, rfl, rfl⟩
    | some result =>
      right
      rw [fire_of_some acc (append st chunk) hdec]
      exact ⟨hopen, _, _, _, rfl⟩

end Calls

/-! ## Runs -/

/-- The fires whose tails are flushed, by number; `k` of them came before. -/
@[grind =] def flushedFires : Nat → List WindowEvent → List Nat
  | _, [] => []
  | k, .fired .. :: events => flushedFires (k + 1) events
  | k, .flushed .. :: events => k :: flushedFires k events

theorem le_of_mem_flushedFires {k i : Nat} {events : List WindowEvent}
    (h : i ∈ flushedFires k events) : k ≤ i := by
  induction events generalizing k with
  | nil => cases h
  | cons e events ih =>
    cases e with
    | fired =>
      have := ih (show i ∈ flushedFires (k + 1) events from h)
      omega
    | flushed =>
      rcases List.mem_cons.mp h with rfl | h
      · exact le_rfl
      · exact ih h

variable (n)

/-- No `flush` is called on a node that `clear_corrections` has opened again with no fire and no
reset since. `stale` says whether the node is in such a state. -/
@[grind =] def NoStaleFlush : Bool → WindowState σ → List WindowCall → Prop
  | _, _, [] => True
  | stale, st, .enqueue chunk :: calls =>
    NoStaleFlush (stale && (n.enqueue st chunk).2.event.isNone) (n.enqueue st chunk).1 calls
  | stale, st, .flush :: calls => stale = false ∧ NoStaleFlush stale (n.flush st).1 calls
  | stale, st, .clearCorrections :: calls =>
    NoStaleFlush (stale || st.flushed) (clearCorrections st) calls
  | _, st, .resetStreamingState :: calls => NoStaleFlush false (resetStreamingState st) calls

variable {n}

/-- What the flags say about the last tail: `done` when it has been committed. -/
structure TailInv (st : WindowState σ) (stale done : Bool) : Prop where
  closed : st.flushed = true ∨ stale = true →
    done = true ∧ st.lastResultValid = true ∧ 0 < st.firesSinceReset
  opened : done = true → st.lastResultValid = true → 0 < st.firesSinceReset →
    st.flushed = true ∨ stale = true
  stale_open : stale = true → st.flushed = false

theorem TailInv.of_sameTail {st st' : WindowState σ} {stale done : Bool} (h : TailInv st stale done)
    (hsame : SameTail st st') : TailInv st' stale done := by
  obtain ⟨hf, hv, hn⟩ := hsame
  constructor
  · rw [hf, hv, hn]
    exact h.closed
  · rw [hf, hv, hn]
    exact h.opened
  · rw [hf]
    exact h.stale_open

/-- A flush commits exactly when the node is open and a valid snapshot is there. -/
theorem flush_of_valid {st : WindowState σ} (hopen : st.flushed = false)
    (hvalid : st.lastResultValid = true) (hfires : 0 < st.firesSinceReset) :
    n.flush st = ({ st with
        flushed := true
        corr := xorBits st.corr ((WindowEvent.flushed st.lastResult n.hiCol sizeMax).flips n.O) },
      .returned true (some (.flushed st.lastResult n.hiCol sizeMax))) := by
  have hcond : ¬ (st.flushed = true ∨ st.firesSinceReset = 0 ∨ st.lastResultValid = false) := by
    simp [hopen, hvalid]
    omega
  rw [flush, if_neg hcond]

theorem flush_of_not {st : WindowState σ}
    (h : st.flushed = true ∨ st.firesSinceReset = 0 ∨ st.lastResultValid = false) :
    n.flush st = (st, .returned false none) := by
  rw [flush, if_pos h]

/-- The run lemma: every tail once, from any state that the flags describe. -/
theorem flushedFires_run_iff (acc : n.Accepted faultOffsets) (calls : List WindowCall)
    {st : WindowState σ} {stale done : Bool} (k : Nat) (h : TailInv st stale done) :
    ((done = true → k ∉ flushedFires k (n.run st calls).2) ∧
        (flushedFires k (n.run st calls).2).Nodup) ↔ n.NoStaleFlush stale st calls := by
  induction calls generalizing st stale done k with
  | nil => simp [run, flushedFires, NoStaleFlush]
  | cons call calls ih =>
    cases call with
    | enqueue chunk =>
      simp only [run, step, NoStaleFlush]
      rcases enqueue_cases acc st chunk with ⟨hnone, hsame⟩ | ⟨hopen, dets, result, lo, hsome⟩
      · rw [hnone]
        simp only [Option.toList_none, List.nil_append, Option.isNone_none, Bool.and_true]
        exact ih k (h.of_sameTail hsame)
      · rw [hsome]
        simp only [Option.toList_some, List.singleton_append, Option.isNone_some, Bool.and_false,
          flushedFires]
        -- a new tail, which no flush has committed
        have hinv : TailInv (n.enqueue st chunk).1 false false := by
          constructor
          · simp [hopen]
          · simp
          · simp
        have hfresh : k ∉ flushedFires (k + 1) (n.run (n.enqueue st chunk).1 calls).2 := by
          intro hmem
          have := le_of_mem_flushedFires hmem
          clear * - this
          omega
        rw [← ih (k + 1) hinv]
        simp [hfresh]
    | flush =>
      simp only [run, step, NoStaleFlush]
      by_cases hcond : st.flushed = true ∨ st.firesSinceReset = 0 ∨ st.lastResultValid = false
      · have hstale : stale = false := by
          by_contra hs
          have hs' : stale = true := by simpa using hs
          obtain ⟨-, hvalid, hfires⟩ := h.closed (.inr hs')
          have hopen := h.stale_open hs'
          rcases hcond with hc | hc | hc
          · rw [hopen] at hc
            cases hc
          · omega
          · rw [hvalid] at hc
            cases hc
        rw [flush_of_not hcond]
        simp only [Outcome.event, Option.toList_none, List.nil_append, hstale, true_and]
        exact ih k (hstale ▸ h)
      · simp only [not_or, Bool.not_eq_true, Bool.not_eq_false] at hcond
        obtain ⟨hopen, hfires, hvalid⟩ := hcond
        have hdone : done = false ↔ stale = false := by
          constructor
          · intro hd
            by_contra hs
            have := (h.closed (.inr (by simpa using hs))).1
            rw [hd] at this
            cases this
          · intro hs
            by_contra hd
            have := h.opened (by simpa using hd) hvalid (by omega)
            rw [hopen, hs] at this
            simp at this
        rw [flush_of_valid hopen hvalid (by omega)]
        simp only [Outcome.event, Option.toList_some, List.singleton_append, flushedFires,
          List.nodup_cons, List.mem_cons, true_or, not_true_eq_false, imp_false,
          Bool.not_eq_true, hdone]
        apply and_congr_right
        intro hs
        have hinv : TailInv { st with
            flushed := true
            corr := xorBits st.corr
              ((WindowEvent.flushed st.lastResult n.hiCol sizeMax).flips n.O) } stale true := by
          constructor
          · intro _
            exact ⟨rfl, hvalid, by simpa using Nat.pos_of_ne_zero hfires⟩
          · intro _ _ _
            exact .inl rfl
          · intro hs'
            rw [hs] at hs'
            cases hs'
        rw [← ih k hinv]
        simp
    | clearCorrections =>
      simp only [run, step, NoStaleFlush, Outcome.event, Option.toList_none, List.nil_append]
      apply ih
      constructor
      · intro hc
        apply h.closed
        simpa [clearCorrections, or_comm] using hc
      · intro hd hv hf
        right
        simpa [or_comm] using h.opened hd hv hf
      · intro _
        rfl
    | resetStreamingState =>
      simp only [run, step, NoStaleFlush, Outcome.event, Option.toList_none, List.nil_append]
      apply ih
      constructor
      · intro hc
        rcases hc with hc | hc
        · cases hc
        · cases hc
      · intro _ hv _
        cases hv
      · intro hs
        cases hs

/-- Every run of a new node commits each tail at most once exactly when it has no stale flush. -/
theorem nodup_flushedFires_iff (acc : n.Accepted faultOffsets) (s : σ) (calls : List WindowCall) :
    (flushedFires 0 (n.run (n.initialState s) calls).2).Nodup ↔
      n.NoStaleFlush false (n.initialState s) calls := by
  have hinv : TailInv (n.initialState s) false false := by
    constructor
    · simp [initialState]
    · simp
    · simp
  rw [← flushedFires_run_iff acc calls 0 hinv]
  simp

end WindowNode

end CudaqQec
