import CudaqQec.SlidingWindow.Decoder

/-!
# Shots do not leak into each other

What the windows make of one element is a function of that element's layers alone (`elementState`).
`Streaming` says that this is all a decoder keeps: whatever was decoded before, between two calls its
state is a function of the layers of the block that is under way.

* `SlidingWindow.pushLayer_outcome`: one layer keeps this, or ends the block.
* `SlidingWindow.Reaches.inv`: so does every run of calls.
-/

namespace CudaqQec.SlidingWindow

open Checked

variable (d : SlidingWindow) (inner : Nat → List ℚ → DecoderResult) (stops : Nat → Bool)

/-! ## One element -/

@[grind =] def elementState (layers : List (List ℚ)) : Nat → List Bool × DecoderResult
  | 0 => (List.replicate d.syndromeSize false, ⟨true, List.replicate d.blockSize 0⟩)
  | w + 1 =>
    let before := elementState layers w
    let innerResult :=
      inner w (d.windowSyndrome w ((layers.drop (w * d.stepSize)).take d.windowSize) before.1)
    let r := d.commitWindow w innerResult.result.length innerResult before.2
    (d.backOutWindow w r.result before.1, r)

def elementLayers (s : Nat) (ls : List (List (List ℚ))) : List (List ℚ) := ls.map (·.getD s [])

def blockResults (n : Nat) (ls : List (List (List ℚ))) : List DecoderResult :=
  (List.range n).map fun s =>
    d.handBack (d.elementState inner (elementLayers s ls) d.numWindows).2

def Sized : Prop := ∀ w < d.numWindows, ∀ syn, (inner w syn).result.length = d.numColumns w

variable {d inner stops}

/-- The first windows read the first layers only. -/
theorem elementState_append {layers : List (List ℚ)} (more : List (List ℚ)) {w : Nat}
    (h : w = 0 ∨ (w - 1) * d.stepSize + d.windowSize ≤ layers.length) :
    d.elementState inner (layers ++ more) w = d.elementState inner layers w := by
  induction w with
  | zero => rfl
  | succ w ih =>
    have hle : w * d.stepSize + d.windowSize ≤ layers.length := by simpa using h
    have hprev : w = 0 ∨ (w - 1) * d.stepSize + d.windowSize ≤ layers.length := by
      have := Nat.mul_le_mul_right d.stepSize (Nat.sub_le w 1)
      omega
    have hwin : ((layers ++ more).drop (w * d.stepSize)).take d.windowSize =
        (layers.drop (w * d.stepSize)).take d.windowSize := by
      rw [List.drop_append_of_le_length (by omega), List.take_append_of_le_length]
      rw [List.length_drop]
      omega
    rw [elementState, elementState, ih hprev, hwin]

/-! ## Between two calls -/

variable (d inner) in
/-- A block of `n` elements is under way and `ls` are its layers. -/
structure Streaming (n : Nat) (ls : List (List (List ℚ))) (st : St) : Prop where
  rounds : st.roundsSinceLastReset = ls.length
  batchSize : st.batchSize = n
  batch : ∀ l ∈ ls, l.length = n
  widths : ∀ r (h : r < ls.length), ∀ row ∈ ls[r], row.length = d.layout.roundWidth r
  windows : st.numWindowsDecoded < d.numWindows
  begun : st.numWindowsDecoded = 0 ∨
    (st.numWindowsDecoded - 1) * d.stepSize + d.windowSize ≤ ls.length
  waiting : ls.length < st.numWindowsDecoded * d.stepSize + d.windowSize
  buffered : st.windowRounds = ls.drop (st.numWindowsDecoded * d.stepSize)
  mods : st.syndromeMods = (List.range n).map fun s =>
    (d.elementState inner (elementLayers s ls) st.numWindowsDecoded).1
  results : st.rwResults = (List.range n).map fun s =>
    (d.elementState inner (elementLayers s ls) st.numWindowsDecoded).2

/-- A block begins with nothing kept from the one before it. -/
theorem streaming_initializeWindow (hd : d.Accepted) (n : Nat) :
    Streaming d inner n [] (d.initializeWindow n) := by
  have hW := hd.windowSize_pos
  have hn := hd.windows_pos
  constructor
  · rfl
  · rfl
  · simp
  · simp
  · exact hn
  · exact .inl rfl
  · simp only [initializeWindow, List.length_nil]
    omega
  · simp [initializeWindow]
  · simp [initializeWindow, elementState]
  · simp [initializeWindow, elementState]

theorem elementLayers_append (s : Nat) (ls : List (List (List ℚ))) (syns : List (List ℚ)) :
    elementLayers s (ls ++ [syns]) = elementLayers s ls ++ [syns.getD s []] := by
  simp [elementLayers]

section
variable {n : Nat} {ls : List (List (List ℚ))} {st : St} {syns : List (List ℚ)}

/-- Another layer changes nothing of what the windows before it have made. -/
theorem Streaming.elementState_append (h : Streaming d inner n ls st) (s : Nat) :
    d.elementState inner (elementLayers s (ls ++ [syns])) st.numWindowsDecoded =
      d.elementState inner (elementLayers s ls) st.numWindowsDecoded := by
  rw [elementLayers_append]
  apply SlidingWindow.elementState_append
  simpa [elementLayers] using h.begun

/-- A window that was not stopped takes every element one window further. -/
theorem Streaming.decodeWindow (h : Streaming d inner n ls st) (hd : d.Accepted)
    (hsz : d.Sized inner) (hn : 0 < n)
    (hfull : ls.length + 1 = st.numWindowsDecoded * d.stepSize + d.windowSize)
    (hstop : stops st.numWindowsDecoded = false) :
    d.decodeWindow inner stops (buffer syns st) = some { buffer syns st with
      rwResults := (List.range n).map fun s =>
        (d.elementState inner (elementLayers s (ls ++ [syns])) (st.numWindowsDecoded + 1)).2
      syndromeMods := (List.range n).map fun s =>
        (d.elementState inner (elementLayers s (ls ++ [syns])) (st.numWindowsDecoded + 1)).1 } := by
  have hW := hd.windowSize_pos
  have hlayers : ∀ s, ((st.windowRounds ++ [syns]).take d.windowSize).map (·.getD s []) =
      ((elementLayers s (ls ++ [syns])).drop (st.numWindowsDecoded * d.stepSize)).take d.windowSize := by
    intro s
    rw [h.buffered, ← List.drop_append_of_le_length (by omega), elementLayers, List.map_take,
      List.map_drop]
  have hmods : ∀ s < n, st.syndromeMods.getD s [] =
      (d.elementState inner (elementLayers s (ls ++ [syns])) st.numWindowsDecoded).1 := by
    intro s hs
    rw [h.mods, getD_map_range, if_pos hs, h.elementState_append]
  have hres : ∀ s < n, st.rwResults.getD s {} =
      (d.elementState inner (elementLayers s (ls ++ [syns])) st.numWindowsDecoded).2 := by
    intro s hs
    rw [h.results, getD_map_range, if_pos hs, h.elementState_append]
  have hlen : ∀ syn, (convertVecSoftToHard (inner st.numWindowsDecoded syn).result).length =
      d.numColumns st.numWindowsDecoded := fun syn => (List.length_map _).trans (hsz _ h.windows syn)
  -- element `s`: what the inner decoder was given, then what was committed
  have hinner : ∀ s < n, ((d.windowSyndromes (buffer syns st)).map
      (inner st.numWindowsDecoded)).getD s {} =
      inner st.numWindowsDecoded (d.windowSyndrome st.numWindowsDecoded
        (((elementLayers s (ls ++ [syns])).drop (st.numWindowsDecoded * d.stepSize)).take d.windowSize)
        (d.elementState inner (elementLayers s (ls ++ [syns])) st.numWindowsDecoded).1) := by
    intro s hs
    have hs' : s < (buffer syns st).batchSize := h.batchSize ▸ hs
    rw [windowSyndromes, List.map_map, getD_map_range, if_pos hs', Function.comp_apply]
    simp only [buffer, hlayers, hmods s hs]
  have hcommit : (List.range n).map (fun s => d.commitWindow st.numWindowsDecoded
      (convertVecSoftToHard (((d.windowSyndromes (buffer syns st)).map
        (inner st.numWindowsDecoded)).getD 0 {}).result).length
      (((d.windowSyndromes (buffer syns st)).map (inner st.numWindowsDecoded)).getD s {})
      (st.rwResults.getD s {})) = (List.range n).map fun s =>
        (d.elementState inner (elementLayers s (ls ++ [syns])) (st.numWindowsDecoded + 1)).2 := by
    apply List.map_congr_left
    intro s hs
    have hs := List.mem_range.mp hs
    rw [hinner 0 hn, hinner s hs, hlen, hres s hs, elementState, hsz _ h.windows]
  have hw : (buffer syns st).numWindowsDecoded = st.numWindowsDecoded := rfl
  have hb : (buffer syns st).batchSize = n := h.batchSize
  have hr : (buffer syns st).rwResults = st.rwResults := rfl
  have hm : (buffer syns st).syndromeMods = st.syndromeMods := rfl
  unfold SlidingWindow.decodeWindow
  simp only [hw, hb, hr, hm, hstop, hcommit, Bool.false_eq_true, if_false, Option.some.injEq,
    St.mk.injEq, true_and, and_true]
  apply List.map_congr_left
  intro s hs
  have hs := List.mem_range.mp hs
  rw [getD_map_range, if_pos hs, hmods s hs, elementState]

variable (d inner stops) in
/-- What a call with one more layer comes to: the block was abandoned, is still under way, or is
complete. -/
inductive Outcome (n : Nat) (ls : List (List (List ℚ))) : Option (List DecoderResult) × St → Prop where
  | abandoned {st : St} {w : Nat} (idle : st.roundsSinceLastReset = 0) (stop : stops w = true) :
    Outcome n ls (none, st)
  | waiting {st : St} (rounds : ls.length < d.layout.numRounds) (streaming : Streaming d inner n ls st) :
    Outcome n ls (some [], st)
  | completed {st : St} (rounds : ls.length = d.layout.numRounds) (batch : ∀ l ∈ ls, l.length = n)
    (widths : ∀ r (h : r < ls.length), ∀ row ∈ ls[r], row.length = d.layout.roundWidth r)
    (idle : st.roundsSinceLastReset = 0) :
    Outcome n ls (some (d.blockResults inner n ls), st)

/-- The layers of a block, one more with them. -/
theorem Streaming.widths_append (h : Streaming d inner n ls st)
    (hwidth : ∀ row ∈ syns, row.length = d.layout.roundWidth ls.length) :
    ∀ r (hr : r < (ls ++ [syns]).length), ∀ row ∈ (ls ++ [syns])[r],
      row.length = d.layout.roundWidth r := by
  intro r hr row hrow
  by_cases hlt : r < ls.length
  · rw [List.getElem_append_left hlt] at hrow
    exact h.widths r hlt row hrow
  · obtain rfl : r = ls.length := by
      rw [List.length_append, List.length_singleton] at hr
      omega
    rw [List.getElem_concat_length rfl] at hrow
    exact hwidth row hrow

theorem Streaming.batch_append (h : Streaming d inner n ls st) (hlen : syns.length = n) :
    ∀ l ∈ ls ++ [syns], l.length = n := by
  intro l hl
  rcases List.mem_append.mp hl with hl | hl
  · exact h.batch l hl
  · rw [List.mem_singleton.mp hl]
    exact hlen

/-- A layer that does not fill a window is only kept. -/
theorem Streaming.buffer (h : Streaming d inner n ls st) (hlen : syns.length = n)
    (hwidth : ∀ row ∈ syns, row.length = d.layout.roundWidth ls.length)
    (hwait : ls.length + 1 < st.numWindowsDecoded * d.stepSize + d.windowSize)
    (hle : st.numWindowsDecoded * d.stepSize ≤ ls.length) :
    Streaming d inner n (ls ++ [syns]) (buffer syns st) := by
  have hl : (ls ++ [syns]).length = ls.length + 1 := by simp
  constructor
  · show st.roundsSinceLastReset + 1 = (ls ++ [syns]).length
    rw [h.rounds, hl]
  · exact h.batchSize
  · exact h.batch_append hlen
  · exact h.widths_append hwidth
  · exact h.windows
  · show st.numWindowsDecoded = 0 ∨
      (st.numWindowsDecoded - 1) * d.stepSize + d.windowSize ≤ (ls ++ [syns]).length
    have := h.begun
    omega
  · show (ls ++ [syns]).length < st.numWindowsDecoded * d.stepSize + d.windowSize
    omega
  · show st.windowRounds ++ [syns] = (ls ++ [syns]).drop (st.numWindowsDecoded * d.stepSize)
    rw [h.buffered, List.drop_append_of_le_length hle]
  · refine h.mods.trans (List.map_congr_left fun s _ => ?_)
    exact congrArg Prod.fst (h.elementState_append s).symm
  · refine h.results.trans (List.map_congr_left fun s _ => ?_)
    exact congrArg Prod.snd (h.elementState_append s).symm

/-- The buffered layers never start before the window that waits for them. -/
theorem Streaming.start_le (h : Streaming d inner n ls st) (hd : d.Accepted) :
    st.numWindowsDecoded * d.stepSize ≤ ls.length := by
  have hstep := hd.stepSize_le
  rcases h.begun with h0 | hle
  · simp [h0]
  · obtain ⟨w, hw⟩ : ∃ w, st.numWindowsDecoded = w + 1 ∨ st.numWindowsDecoded = 0 :=
      ⟨st.numWindowsDecoded - 1, by omega⟩
    rcases hw with hw | hw
    · rw [hw, Nat.add_sub_cancel] at hle
      rw [hw, Nat.succ_mul]
      omega
    · simp [hw]

/-- One layer keeps the state a function of the block's layers, or ends the block. -/
theorem pushLayer_outcome (hd : d.Accepted) (hsz : d.Sized inner) (h : Streaming d inner n ls st)
    (hn : 0 < n) (hlen : syns.length = n)
    (hwidth : ∀ row ∈ syns, row.length = d.layout.roundWidth ls.length) :
    Outcome d inner stops n (ls ++ [syns]) (d.pushLayer inner stops syns st) := by
  have hl : (ls ++ [syns]).length = ls.length + 1 := by simp
  have hle := h.start_le hd
  have hwait := h.waiting
  have hwin := h.windows
  have hrounds := hd.rounds
  have hstep := hd.stepSize_pos
  have hbuf : (SlidingWindow.buffer syns st).windowRounds.length =
      ls.length - st.numWindowsDecoded * d.stepSize + 1 := by
    simp [SlidingWindow.buffer, h.buffered]
  have hlast : st.numWindowsDecoded * d.stepSize ≤ (d.numWindows - 1) * d.stepSize :=
    Nat.mul_le_mul_right _ (by omega)
  unfold pushLayer
  simp only
  split
  · next hshort => exact .waiting (by omega) (h.buffer hlen hwidth (by omega) hle)
  · next hfull =>
    have hfull : ls.length + 1 = st.numWindowsDecoded * d.stepSize + d.windowSize := by omega
    -- the window is full: it is decoded, unless the decoder was stopped
    cases hstop : stops st.numWindowsDecoded with
    | true =>
      have hnone : d.decodeWindow inner stops (SlidingWindow.buffer syns st) = none := by
        simp [SlidingWindow.decodeWindow, SlidingWindow.buffer, hstop]
      rw [hnone]
      exact .abandoned rfl hstop
    | false =>
      rw [h.decodeWindow hd hsz hn hfull hstop]
      simp only
      split
      -- that was the last window: the block is complete and its results are handed back
      · next hdone =>
        have hdone : st.numWindowsDecoded + 1 = d.numWindows := hdone
        have hblock : List.map d.handBack ((List.range n).map fun s =>
            (d.elementState inner (elementLayers s (ls ++ [syns])) (st.numWindowsDecoded + 1)).2) =
            d.blockResults inner n (ls ++ [syns]) := by
          rw [List.map_map, hdone]
          rfl
        rw [hblock]
        refine .completed ?_ (h.batch_append hlen) (h.widths_append hwidth) rfl
        rw [hl, hfull, hrounds, ← hdone, Nat.add_sub_cancel]
        omega
      -- another window follows: the buffer drops the rounds that no later one reads
      · next hmore =>
        have hmore : st.numWindowsDecoded + 1 ≠ d.numWindows := hmore
        have hnext : (st.numWindowsDecoded + 1) * d.stepSize ≤ (d.numWindows - 1) * d.stepSize :=
          Nat.mul_le_mul_right _ (by omega)
        have hsucc : (st.numWindowsDecoded + 1) * d.stepSize =
            st.numWindowsDecoded * d.stepSize + d.stepSize := Nat.succ_mul _ _
        refine .waiting (by omega) ⟨?_, h.batchSize, h.batch_append hlen, h.widths_append hwidth, ?_, ?_,
          ?_, ?_, rfl, rfl⟩
        · show st.roundsSinceLastReset + 1 = (ls ++ [syns]).length
          rw [h.rounds, hl]
        · show st.numWindowsDecoded + 1 < d.numWindows
          omega
        · refine .inr ?_
          show (st.numWindowsDecoded + 1 - 1) * d.stepSize + d.windowSize ≤ (ls ++ [syns]).length
          rw [Nat.add_sub_cancel]
          omega
        · show (ls ++ [syns]).length < (st.numWindowsDecoded + 1) * d.stepSize + d.windowSize
          omega
        · show (st.windowRounds ++ [syns]).drop d.stepSize =
            (ls ++ [syns]).drop ((st.numWindowsDecoded + 1) * d.stepSize)
          rw [h.buffered, ← List.drop_append_of_le_length hle, List.drop_drop, hsucc]

/-! ## Calls -/

variable (d inner) in
/-- Between two calls: no block is under way, or `ls` are the layers of the one that is. -/
def Inv (ls : List (List (List ℚ))) (st : St) : Prop :=
  ls = [] ∧ st.roundsSinceLastReset = 0 ∨ ls ≠ [] ∧ ∃ n, 0 < n ∧ Streaming d inner n ls st

variable (d) in
def begin (n : Nat) (st : St) : St := if st.roundsSinceLastReset = 0 then d.initializeWindow n else st

/-- A layer of the batch's size is added to a block that is under way, if only just. -/
theorem Inv.streaming (h : Inv d inner ls st) (hd : d.Accepted)
    (hlen : n = (d.begin n st).batchSize) : Streaming d inner n ls (d.begin n st) := by
  rcases h with ⟨rfl, h0⟩ | ⟨hne, m, -, hs⟩
  · rw [begin, if_pos h0]
    exact streaming_initializeWindow hd n
  · have hpos := List.length_pos_of_ne_nil hne
    have hrounds := hs.rounds
    rw [begin, if_neg (by omega)] at hlen ⊢
    rw [hlen, hs.batchSize]
    exact hs

theorem decodeLayer_eq_ok {out : Option (List DecoderResult) × St} :
    d.decodeLayer inner stops syns st = .ok out ↔
      syns.length = (d.begin syns.length st).batchSize ∧
      (∀ row ∈ syns, row.length =
        d.layout.roundWidth (d.begin syns.length st).roundsSinceLastReset) ∧
      d.pushLayer inner stops syns (d.begin syns.length st) = out := by
  simp only [decodeLayer, begin, bind_eq_ok, throwIf_eq_ok, forM_eq_ok, pure, Except.pure,
    Except.ok.injEq, ne_eq, not_not]
  constructor
  · rintro ⟨_, h1, _, h2, h3⟩
    exact ⟨h1, h2, h3⟩
  · rintro ⟨h1, h2, h3⟩
    exact ⟨(), h1, (), h2, h3⟩

/-- A layer call that did not throw. -/
theorem decodeLayer_outcome (hd : d.Accepted) (hsz : d.Sized inner) (h : Inv d inner ls st)
    (hne : syns ≠ []) {out : Option (List DecoderResult) × St}
    (hok : d.decodeLayer inner stops syns st = .ok out) :
    Outcome d inner stops syns.length (ls ++ [syns]) out := by
  obtain ⟨h1, h2, rfl⟩ := decodeLayer_eq_ok.mp hok
  have hs := h.streaming hd h1
  rw [hs.rounds] at h2
  exact pushLayer_outcome hd hsz hs (List.length_pos_of_ne_nil hne) rfl h2

/-- A layer call with rows of the width that is due does not throw. -/
theorem exists_decodeLayer (h : Inv d inner ls st) (hbatch : ∀ l ∈ ls, l.length = syns.length)
    (hwidth : ∀ row ∈ syns, row.length = d.layout.roundWidth ls.length) :
    ∃ out, d.decodeLayer inner stops syns st = .ok out := by
  refine ⟨_, decodeLayer_eq_ok.mpr ⟨?_, ?_, rfl⟩⟩
  · rcases h with ⟨rfl, h0⟩ | ⟨hne, m, -, hs⟩
    · rw [begin, if_pos h0]
      rfl
    · have hpos := List.length_pos_of_ne_nil hne
      have hrounds := hs.rounds
      rw [begin, if_neg (by omega), hs.batchSize]
      have hmem := List.getElem_mem hpos
      rw [← hbatch _ hmem, hs.batch _ hmem]
  · rcases h with ⟨rfl, h0⟩ | ⟨hne, m, -, hs⟩
    · rw [begin, if_pos h0]
      exact hwidth
    · have hpos := List.length_pos_of_ne_nil hne
      have hrounds := hs.rounds
      rw [begin, if_neg (by omega), hrounds]
      exact hwidth

/-! ## Whole blocks -/

variable (d) in
def blockLayers (syns : List (List ℚ)) (k : Nat) : List (List (List ℚ)) :=
  (List.range k).map (d.layerOf syns)

theorem blockLayers_succ (k : Nat) :
    d.blockLayers syns (k + 1) = d.blockLayers syns k ++ [d.layerOf syns k] := by
  simp [blockLayers, List.range_succ]

/-- A block that was fed layer by layer was abandoned or is complete. -/
theorem decodeRounds_outcome (hd : d.Accepted) (hsz : d.Sized inner) (hne : syns ≠ [])
    (hall : ∀ s ∈ syns, s.length = d.syndromeSize) {m k : Nat} (hm : 0 < m)
    (hk : k + m = d.layout.numRounds) (h : Inv d inner (d.blockLayers syns k) st)
    (results : Option (List DecoderResult)) :
    ∃ out, d.decodeRounds inner stops syns (List.range' k m) results st = .ok out ∧
      out.2.roundsSinceLastReset = 0 ∧
      ((out.1 = none ∧ ∃ w, stops w = true) ∨
        out.1 = some (d.blockResults inner syns.length (d.blockLayers syns d.layout.numRounds))) := by
  induction m generalizing k st results with
  | zero => omega
  | succ m ih =>
    have hrow : ∀ row ∈ d.layerOf syns k, row.length = d.layout.roundWidth k := by
      intro row hrow
      obtain ⟨s, hs, rfl⟩ := List.mem_map.mp hrow
      have hw := hd.fits.roundStart_add_width (show k < d.layout.numRounds by omega)
      have hle := hd.fits.roundStart_le_numRows (show k + 1 ≤ d.layout.numRounds by omega)
      have hsize := hall s hs
      rw [syndromeSize, hd.numRows] at hsize
      rw [List.length_take, List.length_drop]
      omega
    have hlen : (d.blockLayers syns k).length = k := by simp [blockLayers]
    have hn : (d.layerOf syns k).length = syns.length := by simp [layerOf]
    have hne' : d.layerOf syns k ≠ [] := by simpa [layerOf] using hne
    have hbatch : ∀ l ∈ d.blockLayers syns k, l.length = (d.layerOf syns k).length := by
      intro l hl
      obtain ⟨r, -, rfl⟩ := List.mem_map.mp hl
      simp [layerOf]
    obtain ⟨⟨res, st'⟩, hok⟩ : ∃ out, d.decodeLayer inner stops (d.layerOf syns k) st = .ok out :=
      exists_decodeLayer h hbatch (by rwa [hlen])
    have hout := decodeLayer_outcome hd hsz h hne' hok
    rw [← blockLayers_succ, hn] at hout
    rw [List.range'_succ, decodeRounds, hok, ok_bind]
    -- the block is given up, goes on with the next layer, or ends with this one
    cases hout with
    | abandoned idle stop => exact ⟨_, rfl, idle, .inl ⟨rfl, _, stop⟩⟩
    | waiting rounds streaming =>
      have hpos : 0 < syns.length := List.length_pos_of_ne_nil hne
      simp only [blockLayers, List.length_map, List.length_range] at rounds
      refine ih (by omega) (by omega) (.inr ⟨?_, _, hpos, streaming⟩) _
      simp [blockLayers]
    | completed rounds _ _ idle =>
      simp only [blockLayers, List.length_map, List.length_range] at rounds
      obtain rfl : m = 0 := by omega
      rw [← rounds]
      exact ⟨_, rfl, idle, .inr rfl⟩

variable (d) in
def layersOf (syn : List ℚ) : List (List ℚ) :=
  (List.range d.layout.numRounds).map fun r =>
    (syn.drop (d.layout.roundStart r)).take (d.layout.roundWidth r)

theorem elementLayers_blockLayers {s : Nat} (hs : s < syns.length) :
    elementLayers s (d.blockLayers syns d.layout.numRounds) = d.layersOf (syns.getD s []) := by
  simp [elementLayers, blockLayers, layersOf, layerOf, List.getD_eq_getElem?_getD, hs]

theorem decode_fresh (hd : d.Accepted) (hsz : d.Sized inner) {syn : List ℚ}
    (hsyn : syn.length = d.syndromeSize) :
    d.decode inner syn {} =
      .ok (d.handBack (d.elementState inner (d.layersOf syn) d.numWindows).2) := by
  have hpos := hd.fits.two_le_numRounds
  have hcheck : (forM [syn] fun s => d.checkSyndromeSize s.length) = .ok () :=
    d.forM_checkSyndromeSize.mpr (by simpa using hsyn)
  obtain ⟨⟨res, st'⟩, hok, -, hres⟩ : ∃ out, d.decodeRounds inner (fun _ => false) [syn]
      (List.range' 0 d.layout.numRounds) none {} = .ok out ∧ _ :=
    decodeRounds_outcome hd hsz (by simp) (by simpa using hsyn) (by omega) (Nat.zero_add _)
      (.inl ⟨rfl, rfl⟩) none
  rcases hres with ⟨-, w, hstop⟩ | hres
  · exact absurd hstop (by simp)
  · rw [decode, decodeBatch, if_pos hsyn, hcheck, ok_bind, List.range_eq_range', hok, ok_bind]
    simp only at hres
    rw [hres, List.length_singleton, blockResults, List.range_one, List.map_singleton,
      elementLayers_blockLayers (by simp)]
    rfl

/-! ## Runs -/

section
variable {xs : List (List ℚ)} (hd : d.Accepted) (hlen : xs.length = d.layout.numRounds)
  (hwidth : ∀ r (h : r < xs.length), xs[r].length = d.layout.roundWidth r)

include hd hlen hwidth

theorem length_flatten_take {r : Nat} (hr : r ≤ xs.length) :
    (xs.take r).flatten.length = d.layout.roundStart r := by
  induction r with
  | zero => simp [RoundLayout.Whole.roundStart_zero]
  | succ r ih =>
    have := hd.fits.roundStart_add_width (show r < d.layout.numRounds by omega)
    rw [List.take_add_one, List.getElem?_eq_getElem (by omega), List.flatten_append,
      List.length_append, ih (by omega)]
    simpa [hwidth r (by omega)] using this

theorem length_flatten : xs.flatten.length = d.syndromeSize := by
  have h := length_flatten_take hd hlen hwidth (le_refl _)
  rw [List.take_length, hlen, hd.fits.roundStart_numRounds, ← hd.numRows] at h
  exact h

/-- Layers of the widths they should have are cut out of their concatenation again. -/
theorem layersOf_flatten : d.layersOf xs.flatten = xs := by
  apply List.ext_getElem (by simp [layersOf, hlen])
  intro r hr hr'
  simp only [layersOf, List.getElem_map, List.getElem_range]
  rw [← length_flatten_take hd hlen hwidth hr'.le, ← hwidth r hr']
  have hsplit : xs.flatten = (xs.take r).flatten ++ (xs[r] ++ (xs.drop (r + 1)).flatten) := by
    rw [← List.flatten_cons, ← List.drop_eq_getElem_cons hr', ← List.flatten_append,
      List.take_append_drop]
  rw [hsplit, List.drop_left, List.take_left]

end

variable (d) in
/-- Whether `decode_batch` takes its rows for whole syndromes. -/
def IsWhole (syns : List (List ℚ)) : Prop := (syns.headD []).length = d.syndromeSize

variable (d) in
instance (syns : List (List ℚ)) : Decidable (d.IsWhole syns) := by
  unfold IsWhole
  infer_instance

variable (d) in
/-- Whether a call with `syns`, not stopped, hands a whole block to the windows: all of it at once, or the
last layer of the block under way. -/
def EndsBlock (ls : List (List (List ℚ))) (syns : List (List ℚ)) : Prop :=
  syns ≠ [] ∧ (d.IsWhole syns ∨ ls.length + 1 = d.layout.numRounds)

variable (d) in
instance (ls : List (List (List ℚ))) (syns : List (List ℚ)) : Decidable (d.EndsBlock ls syns) := by
  unfold EndsBlock
  infer_instance

variable (d) in
/-- The layers of the block that is under way after a call with `syns`; `none` is a call that was
stopped. -/
def streamedAfter (ls : List (List (List ℚ))) (syns : List (List ℚ)) :
    Option (List DecoderResult) → List (List (List ℚ))
  | none => []
  | some _ => if syns = [] then ls else if d.EndsBlock ls syns then [] else ls ++ [syns]

variable (d inner) in
/-- The states of a decoder between calls, with the layers of the block that is under way: fresh, reset
at any point, or after a call that returned. A call with whole syndromes is made while no block is under
way. -/
inductive Reaches : St → List (List (List ℚ)) → Prop where
  | fresh : Reaches {} []
  | reset {st : St} {ls : List (List (List ℚ))} (h : Reaches st ls) : Reaches (resetStream st) []
  | call {st st' : St} {ls : List (List (List ℚ))} {stops : Nat → Bool} {syns : List (List ℚ)}
      {results : Option (List DecoderResult)} (h : Reaches st ls) (whole : d.IsWhole syns → ls = [])
      (ok : d.decodeBatch inner stops syns st = .ok (results, st')) :
      Reaches st' (d.streamedAfter ls syns results)

variable (d) in
def blockOf (ls : List (List (List ℚ))) (syns : List (List ℚ)) : List (List ℚ) :=
  if d.IsWhole syns then syns
  else (List.range syns.length).map fun s => (elementLayers s (ls ++ [syns])).flatten

/-- What one call does: nothing on an empty batch, a whole block, or one layer. -/
theorem decodeBatch_cases (hd : d.Accepted) (hsz : d.Sized inner) (h : Inv d inner ls st)
    (whole : d.IsWhole syns → ls = []) {results : Option (List DecoderResult)} {st' : St}
    (hok : d.decodeBatch inner stops syns st = .ok (results, st')) :
    (syns = [] ∧ results = some [] ∧ st' = st) ∨
    (syns ≠ [] ∧ d.IsWhole syns ∧ (∀ s ∈ syns, s.length = d.syndromeSize) ∧
      st'.roundsSinceLastReset = 0 ∧ (results = none ∨
        results = some (d.blockResults inner syns.length (d.blockLayers syns d.layout.numRounds)))) ∨
    (syns ≠ [] ∧ ¬ d.IsWhole syns ∧
      Outcome d inner stops syns.length (ls ++ [syns]) (results, st')) := by
  cases syns with
  | nil =>
    simp only [decodeBatch, Except.ok.injEq, Prod.mk.injEq] at hok
    exact .inl ⟨rfl, hok.1.symm, hok.2.symm⟩
  | cons s rest =>
    by_cases hw : d.IsWhole (s :: rest)
    · obtain rfl := whole hw
      have hw' : s.length = d.syndromeSize := hw
      rw [decodeBatch, if_pos hw', bind_eq_ok] at hok
      obtain ⟨_, hall, hok⟩ := hok
      have hall := d.forM_checkSyndromeSize.mp hall
      have hpos := hd.fits.two_le_numRounds
      obtain ⟨out, hout, hidle, hres⟩ : ∃ out, d.decodeRounds inner stops (s :: rest)
          (List.range' 0 d.layout.numRounds) none st = .ok out ∧ _ :=
        decodeRounds_outcome hd hsz (by simp) hall (by omega) (Nat.zero_add _) (by simpa [blockLayers] using h)
          none
      rw [List.range_eq_range', hout, Except.ok.injEq] at hok
      subst hok
      exact .inr (.inl ⟨by simp, hw, hall, hidle, hres.imp (fun h => h.1) id⟩)
    · have hw' : ¬ s.length = d.syndromeSize := hw
      rw [decodeBatch, if_neg hw'] at hok
      exact .inr (.inr ⟨by simp, hw, decodeLayer_outcome hd hsz h (by simp) hok⟩)

/-- Along every run the state is a function of the block that is under way. -/
theorem Reaches.inv (hd : d.Accepted) (hsz : d.Sized inner) (h : Reaches d inner st ls) :
    Inv d inner ls st := by
  induction h with
  | fresh => exact .inl ⟨rfl, rfl⟩
  | reset h ih => exact .inl ⟨rfl, rfl⟩
  | @call st st' ls stops syns results h whole ok ih =>
    rcases decodeBatch_cases hd hsz ih whole ok with ⟨rfl, rfl, rfl⟩ | ⟨hne, hw, -, hidle, hres⟩ |
      ⟨hne, hw, hout⟩
    · simpa [streamedAfter] using ih
    · have hends : d.EndsBlock ls syns := ⟨hne, .inl hw⟩
      refine .inl ⟨?_, hidle⟩
      rcases hres with rfl | rfl
      · rfl
      · rw [streamedAfter, if_neg hne, if_pos hends]
    · cases hout with
      | abandoned idle stop => exact .inl ⟨rfl, idle⟩
      | waiting rounds streaming =>
        have hmore : ¬ d.EndsBlock ls syns := by
          rintro ⟨-, hwhole | hlast⟩
          · exact hw hwhole
          · rw [List.length_append, List.length_singleton] at rounds
            omega
        rw [streamedAfter, if_neg hne, if_neg hmore]
        exact .inr ⟨by simp, _, List.length_pos_of_ne_nil hne, streaming⟩
      | completed rounds _ _ idle =>
        rw [List.length_append, List.length_singleton] at rounds
        have hends : d.EndsBlock ls syns := ⟨hne, .inr rounds⟩
        refine .inl ⟨?_, idle⟩
        rw [streamedAfter, if_neg hne, if_pos hends]

end

def blameFirst (_ : Nat) (syn : List ℚ) : DecoderResult := ⟨true, [syn.getD 0 0, 0]⟩

theorem sized_blameFirst : twoRoundDecoder.Sized blameFirst := by
  intro w hw syn
  obtain rfl | rfl : w = 0 ∨ w = 1 := by
    have : w < 2 := hw
    omega
  · rfl
  · rfl

def afterFirst : St where
  windowRounds := []
  roundsSinceLastReset := 1
  batchSize := 1
  numWindowsDecoded := 1
  syndromeMods := [[false, false]]
  rwResults := [⟨true, [1, 0, 0]⟩]

end CudaqQec.SlidingWindow
