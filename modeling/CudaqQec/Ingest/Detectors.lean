import CudaqQec.Ingest.Shots
import CudaqQec.Template.Expanded
import CudaqQec.Window.Measurements

/-!
# Three maps to detectors

A window's `m2d`, `form_detectors` of the ingest core and `dem_chunks_to_d_sparse` walk the phases'
`D_sparse` each on its own, or apply the memory convention where there is none. Each of them is
compared with the rounds of the stream (`roundRows`).

* `parity_walk`: a walk over `D_sparse` that places its indices right gives the round's detectors.
* `detectorMaps_agree`: the three maps give a window the same detectors.
-/

namespace CudaqQec

open Checked Slots Parity ExtendedDem

/-! ## Walks over `D_sparse` -/

/-- A walk that closes a row at each `-1` and appends a position for every other value. -/
theorem parity_walk {push : DRow → Int → Except Error DRow} {bytes reads : Nat → UInt8}
    {d : List Int} {acc acc' : DRow}
    (hend : ∀ acc : DRow, push acc (-1) = .ok ⟨acc.rows ++ [acc.row], []⟩)
    (hpush : ∀ v ∈ d, v ≠ -1 → ∀ acc acc' : DRow, push acc v = .ok acc' →
      ∃ i, acc' = ⟨acc.rows, acc.row ++ [i]⟩ ∧ bytes i = reads (sizeT v))
    (h : d.foldlM push acc = .ok acc') :
    acc'.rows.map (parity bytes) =
      acc.rows.map (parity bytes) ++ detectorRows reads d (parity bytes acc.row) := by
  induction d generalizing acc with
  | nil =>
    cases h
    simp [detectorRows]
  | cons v d ih =>
    rw [List.foldlM_cons, bind_eq_ok] at h
    obtain ⟨acc₁, h1, h2⟩ := h
    have ih := ih (fun w hw => hpush w (by simp [hw])) h2
    unfold detectorRows
    by_cases hv : v = -1
    · rw [hv, hend] at h1
      cases h1
      rw [if_pos hv, ih]
      simp
    · obtain ⟨i, rfl, hi⟩ := hpush v (by simp) hv acc acc₁ h1
      rw [if_neg hv, ih]
      simp [hi]

namespace IngestCore

variable (c : IngestCore)

theorem spec_onChain : c.t.spec.OnChain := c.context.onChain_of_room c.onChain

/-! ## The rounds of a stream -/

theorem length_roundRows {r R : Nat} (hr : r < R) (bytes : Nat → UInt8) :
    (c.roundRows (some R) bytes r).length = (c.kindOf (some R) r).1 := by
  have hlt : ∀ R' ∈ some R, r < R' := by simpa using hr
  unfold roundRows
  cases hD : c.hasD with
  | true =>
    simp only [if_true, length_detectorRows]
    exact c.count_kindOf hD hlt
  | false => simp

theorem length_rounds {r R : Nat} (hr : r ≤ R) (bytes : Nat → UInt8) :
    ((List.range r).flatMap (c.roundRows (some R) bytes)).length = c.rowsBefore (some R) r := by
  induction r with
  | zero => rfl
  | succ r ih =>
    rw [List.range_succ, List.flatMap_append, List.length_append, ih (by omega), rowsBefore,
      List.flatMap_singleton, c.length_roundRows (by omega)]

/-- The detectors of `n` rounds from `b` on stand behind those of the rounds before. -/
theorem slice_rounds {b n R : Nat} (h : b + n ≤ R) (bytes : Nat → UInt8) :
    (((List.range R).flatMap (c.roundRows (some R) bytes)).drop (c.rowsBefore (some R) b)).take
      (c.rowsBefore (some R) (b + n) - c.rowsBefore (some R) b) =
      (List.range n).flatMap fun i => c.roundRows (some R) bytes (b + i) := by
  have hb := c.length_rounds (show b ≤ R by omega) bytes
  have hn := c.length_rounds h bytes
  have hsplit : ∀ m, (List.range (b + m)).flatMap (c.roundRows (some R) bytes) =
      (List.range b).flatMap (c.roundRows (some R) bytes) ++
        (List.range m).flatMap fun i => c.roundRows (some R) bytes (b + i) := by
    intro m
    rw [List.range_add, List.flatMap_append, List.flatMap_map]
  rw [hsplit, List.length_append, hb] at hn
  have hall := hsplit (n + (R - (b + n)))
  rw [show b + (n + (R - (b + n))) = R by omega, List.range_add, List.flatMap_append] at hall
  rw [hall, List.drop_left' hb, ← hn, Nat.add_sub_cancel_left, List.take_left' rfl]

/-! ## `dem_chunks_to_d_sparse` -/

/-- Every measurement that a round of the shot reads has a `uint32_t` index. -/
structure Named (R r : Nat) : Prop where
  index : c.hasD = true → ∀ v ∈ dOf c.t r R, v ≠ -1 → c.forwardOffset (r - 1) + sizeT v < 2 ^ 32
  rows : c.hasD = false → ∀ j < (c.kindOf (some R) r).1, c.forwardOffset r + j < 2 ^ 32

/-- What the walk over the rounds keeps before round `i`. -/
structure DWalk (R : Nat) (bytes : Nat → UInt8) (i : Nat) (acc : DState) : Prop where
  start : i < R → acc.start = c.forwardOffset i
  previous : acc.previousStart = c.forwardOffset (i - 1)
  count : i < R → acc.previousCount = if i = 0 then 0 else c.forwardWidth (i - 1)
  rows : acc.rows.map (parity bytes) = (List.range i).flatMap (c.roundRows (some R) bytes)
  named : ∀ q < i, c.Named R q

/-- A value of a round's `D_sparse` is a row's end or an index. -/
theorem nonneg_of_mem_dOf {r R : Nat} {v : Int} (hv : v ∈ dOf c.t r R) (hne : v ≠ -1) : 0 ≤ v := by
  have hval := c.context.built_steps.1
  simp only [DemChunksSpec.validate, bind_eq_ok, forM_eq_ok] at hval
  obtain ⟨_, -, _, -, _, -, _, -, _, hphases, -⟩ := hval
  unfold dOf TemplateData.phaseSpec at hv
  cases hf : c.t.spec.phases.find? fun e => e.id = c.t.phase r R with
  | none => simp [hf] at hv
  | some e =>
    rw [hf] at hv
    have he := hphases e (List.mem_of_find?_eq_some hf)
    simp only [DemChunkSpec.validate, bind_eq_ok, forM_eq_ok, throwIf_eq_ok] at he
    obtain ⟨_, -, _, -, _, -, _, -, _, -, _, -, _, -, _, hd, -⟩ := he
    have := hd v hv
    omega

theorem forwardOffset_add (r : Nat) : c.forwardOffset (r - 1) +
    (if r = 0 then 0 else c.forwardWidth (r - 1)) = c.forwardOffset r := by
  split
  · next h0 => rw [h0]; rfl
  · rw [← c.forwardOffset_succ, show r - 1 + 1 = r by omega]

theorem getPhase_round {r R : Nat} (hR : c.t.Admits R) (hr : r < R) (hD : c.hasD = true) :
    ∃ phase, (c.t.spec.withRounds R).getPhase (c.t.phase r R) = .ok phase ∧
      phase.dSparse = dOf c.t r R ∧
      (c.t.spec.withRounds R).measurementsOf phase = .ok (widthOf c.t r R) := by
  obtain ⟨e, -, -, hget, -⟩ := c.context.exists_phase c.spec_onChain hR hr
  have hm := (c.context.phase_sizes c.spec_onChain hR hr).2.2.2
  have hD' : c.context.spec.hasDSparse = true := hD
  rw [DemChunksSpec.phaseMeasurements, hget, ok_bind, if_pos hD'] at hm
  refine ⟨e.spec, hget, ?_, ?_⟩
  · rw [dOf, IngestSetup.t, TemplateData.phaseSpec_eq hget]
  · rw [c.widthOf_eq hR hr]
    exact hm

variable {c} {R i : Nat} {bytes : Nat → UInt8}

/-- Every index is placed where its round, or the one before, has it. -/
theorem pushDValue_placed {count : Nat} {context : String} {acc acc' : DRow} {v : Int}
    (hv : v ∈ dOf c.t i R) (hne : v ≠ -1)
    (h : pushDValue (c.forwardOffset (i - 1)) (if i = 0 then 0 else c.forwardWidth (i - 1))
      (c.forwardOffset i) count context acc v = .ok acc') :
    c.forwardOffset (i - 1) + sizeT v < 2 ^ 32 ∧
      acc' = ⟨acc.rows, acc.row ++ [c.forwardOffset (i - 1) + sizeT v]⟩ := by
  have hoff := c.forwardOffset_add i
  have hnat : sizeT v = v.toNat := if_pos (c.nonneg_of_mem_dOf hv hne)
  generalize (if i = 0 then 0 else c.forwardWidth (i - 1)) = before at h hoff
  rw [pushDValue, if_neg hne] at h
  simp only [bind_eq_ok, throwIf_eq_ok] at h
  obtain ⟨_, -, _, hmax, hok⟩ := h
  have hplace : (if before ≤ v.toNat then c.forwardOffset i + (v.toNat - before)
      else c.forwardOffset (i - 1) + v.toNat) = c.forwardOffset (i - 1) + v.toNat := by
    split
    · omega
    · rfl
  rw [hplace] at hmax hok
  have hlt : c.forwardOffset (i - 1) + v.toNat < 2 ^ 32 := by
    unfold uint32Max at hmax
    omega
  rw [u32_of_lt hlt] at hok
  rw [hnat]
  exact ⟨hlt, (Except.ok.inj hok).symm⟩

/-- One round of the walk. -/
theorem DWalk.step {acc acc' : DState} {detectors : List (PhaseId × Nat)} (hR : c.t.Admits R)
    (hi : i < R) (hD : c.hasD = true) (h : c.DWalk R bytes i acc)
    (hpush : pushDRound (c.t.spec.withRounds R) detectors acc (c.t.phase i R, i) = .ok acc') :
    c.DWalk R bytes (i + 1) acc' := by
  obtain ⟨phase, hphase, hd, hcount⟩ := c.getPhase_round hR hi hD
  rw [pushDRound, hphase, ok_bind, hcount, ok_bind] at hpush
  simp only [bind_eq_ok, hd] at hpush
  obtain ⟨dacc, hwalk, _, -, hok⟩ := hpush
  obtain rfl := Except.ok.inj hok
  rw [h.start hi, h.previous, h.count hi] at hwalk
  have hrows : dacc.rows.map (parity bytes) = acc.rows.map (parity bytes) ++
      detectorRows (fun j => bytes (c.forwardOffset (i - 1) + j)) (dOf c.t i R) 0 :=
    parity_walk (fun _ => rfl)
      (fun v hv hne acc acc' hok => ⟨_, (pushDValue_placed hv hne hok).2, rfl⟩) hwalk
  refine ⟨fun hlt => ?_, ?_, fun hlt => ?_, ?_, fun q hq => ?_⟩
  · show acc.start + _ = _
    rw [h.start hi, c.forwardOffset_succ, c.width_eq hR hi, if_neg (by omega)]
  · exact h.start hi
  · show widthOf c.t i R = _
    rw [if_neg (by omega), Nat.add_sub_cancel, c.width_eq hR hi, if_neg (by omega)]
  · show dacc.rows.map (parity bytes) = _
    rw [hrows, h.rows, List.range_succ, List.flatMap_append, List.flatMap_singleton, roundRows,
      if_pos hD, c.kindOf_eq hR hi]
  · rcases Nat.lt_succ_iff_lt_or_eq.mp hq with hlt | rfl
    · exact h.named q hlt
    · refine ⟨fun _ v hv hne => ?_, fun hn => by simp [hD] at hn⟩
      obtain ⟨a, a', ha⟩ := exists_of_foldlM_eq_ok hwalk hv
      exact (pushDValue_placed hv hne ha).1

theorem DWalk.run {acc : DState} {detectors : List (PhaseId × Nat)} (hR : c.t.Admits R)
    (hD : c.hasD = true) (hi : i ≤ R)
    (h : ((List.range i).map fun i => (c.t.phase i R, i)).foldlM
      (pushDRound (c.t.spec.withRounds R) detectors) ⟨[], 0, 0, 0⟩ = .ok acc) :
    c.DWalk R bytes i acc := by
  induction i generalizing acc with
  | zero =>
    cases h
    exact ⟨fun _ => rfl, rfl, fun _ => rfl, rfl, fun q hq => absurd hq (Nat.not_lt_zero q)⟩
  | succ i ih =>
    rw [List.range_succ, List.map_append, List.foldlM_append, bind_eq_ok] at h
    obtain ⟨acc₁, h1, h2⟩ := h
    simp only [List.map_cons, List.map_nil, List.foldlM_cons, List.foldlM_nil, bind_eq_ok] at h2
    obtain ⟨acc₂, h2, hok⟩ := h2
    obtain rfl := Except.ok.inj hok
    exact (ih (by omega) h1).step hR (by omega) hD h2

/-- Without `D_sparse` all rounds are as wide as the first, and have a detector for each
measurement. -/
theorem uniform_rounds (hR : c.t.Admits R) (hD : c.hasD = false) (hi : i < R) :
    widthOf c.t i R = widthOf c.t 0 R ∧ (c.kindOf (some R) i).1 = widthOf c.t 0 R ∧
      c.forwardOffset i = i * widthOf c.t 0 R := by
  have hrows : ∀ q < R, (c.kindOf (some R) q).1 = widthOf c.t q R := by
    intro q hq
    rw [c.kindOf_eq hR hq]
    exact ((c.round_measured hR hq).rows hD).1
  induction i with
  | zero => exact ⟨rfl, hrows 0 hi, by simp⟩
  | succ i ih =>
    obtain ⟨h1, -, h3⟩ := ih (by omega)
    have hw := ((c.round_measured hR hi).rows hD).2 (by omega)
    rw [Nat.add_sub_cancel, h1] at hw
    refine ⟨hw.symm, (hrows _ hi).trans hw.symm, ?_⟩
    have hf := c.width_eq hR (show i < R by omega)
    rw [if_neg (by omega)] at hf
    rw [c.forwardOffset_succ, h3, ← hf, h1, Nat.add_mul, Nat.one_mul]

theorem one_le_widthOf (hR : c.t.Admits R) : 1 ≤ widthOf c.t 0 R := by
  have htwo := c.two_le hR
  rw [c.width_eq hR (by omega), if_neg (by omega)]
  apply c.one_le_forwardWidth
  intro hrep
  rw [(c.fixed_eq hR hrep).1]
  omega

/-- The chunks of the shot count one round each, as wide as the first. -/
theorem roundsOf_chunk (hR : c.t.Admits R) (hD : c.hasD = false) (hi : i < R) :
    roundsOf c.t.spec.seam.fromSeam c.t.spec.seam.toSeam (c.t.chunk i R) = 1 ∧
      chunkSeamWidth (c.t.chunk i R) c.t.spec.seam.fromSeam c.t.spec.seam.toSeam =
        widthOf c.t 0 R := by
  obtain ⟨hto, hint⟩ := c.context.chunk_toSeam c.spec_onChain hR hi
  have hrows := (uniform_rounds hR hD hi).2.1
  rw [c.kindOf_eq hR hi, c.rowsOfRound_eq hR hi] at hrows
  have hto' : (c.t.chunk i R).seamRowsOrZero c.t.spec.seam.toSeam = widthOf c.t 0 R :=
    hto.trans hrows
  have hint' : (c.t.chunk i R).numInteriorRows = 0 := hint
  have hpos := one_le_widthOf hR
  unfold roundsOf chunkSeamWidth
  rw [hto', hint', if_pos (by omega), if_pos (by omega), Nat.zero_div]
  exact ⟨rfl, rfl⟩

/-! ## A round of the memory -/

theorem parity_memoryRound (hR : c.t.Admits R) (hD : c.hasD = false) (hi : i < R)
    (hbits : R * widthOf c.t 0 R ≤ 2 ^ 32) :
    (memoryRound (widthOf c.t 0 R) i).map (parity bytes) = c.roundRows (some R) bytes i := by
  obtain ⟨-, hkind, hoff⟩ := uniform_rounds hR hD hi
  rw [roundRows, if_neg (by simp [hD]), hkind, memoryRound, List.map_map]
  apply List.map_congr_left
  intro k hk
  have hk := List.mem_range.mp hk
  rw [Function.comp_apply]
  split
  · next h0 =>
    subst h0
    simp
  · next h0 =>
    obtain ⟨-, -, hprev⟩ := uniform_rounds hR hD (show i - 1 < R by omega)
    have hle : (i + 1) * widthOf c.t 0 R ≤ R * widthOf c.t 0 R := Nat.mul_le_mul_right _ hi
    have hsub : i * widthOf c.t 0 R = (i - 1) * widthOf c.t 0 R + widthOf c.t 0 R := by
      rw [← Nat.succ_mul, Nat.succ_eq_add_one, Nat.sub_add_cancel (by omega)]
    rw [Nat.succ_mul] at hle
    rw [u32_of_lt (by omega), u32_of_lt (by omega), hoff, hprev, xor_and_one, parity_cons,
      parity_cons, parity_nil, UInt8.xor_zero, UInt8.xor_comm]

/-- The memory convention gives the rounds of the stream. -/
theorem memory_rounds {rows : List (List Nat)} (hR : c.t.Admits R) (hD : c.hasD = false)
    (h : demChunksToDSparseSpec (c.t.spec.withRounds R) = .ok rows) :
    rows.map (parity bytes) = (List.range R).flatMap (c.roundRows (some R) bytes) ∧
      ∀ q < R, c.Named R q := by
  have htwo := c.two_le hR
  have hD' : (c.t.spec.withRounds R).hasDSparse = false := hD
  have hexp := expandedDSparse_of_spec hD' (rfl : _ = some R) h
  rw [expandedDSparse, show demChunksFromSpec (c.t.spec.withRounds R) = _ from
    c.context.chunks_eq c.spec_onChain hR, ok_bind, demChunksToDSparse_eq_ok] at hexp
  obtain ⟨hchain, hrows⟩ := hexp
  have hbits := hchain.bits
  have hone : ∀ i ∈ List.range R, (roundsOf (c.t.spec.withRounds R).seam.fromSeam
      (c.t.spec.withRounds R).seam.toSeam ∘ fun i => c.context.chunk i R) i = 1 :=
    fun i hi => (roundsOf_chunk hR hD (List.mem_range.mp hi)).1
  have hsum : (((List.range R).map fun i => c.context.chunk i R).map
      (roundsOf (c.t.spec.withRounds R).seam.fromSeam (c.t.spec.withRounds R).seam.toSeam)).sum =
      R := by
    rw [List.map_map, List.map_congr_left hone, List.map_const', List.sum_replicate_nat,
      List.length_range, Nat.mul_one]
  have hhead : chunkSeamWidth (((List.range R).map fun i => c.context.chunk i R).headD .empty)
      (c.t.spec.withRounds R).seam.fromSeam (c.t.spec.withRounds R).seam.toSeam =
      widthOf c.t 0 R := by
    rw [List.headD_eq_head?_getD, List.head?_map, List.head?_range, if_neg (by omega)]
    exact (roundsOf_chunk hR hD (show 0 < R by omega)).2
  rw [hsum, hhead] at hbits hrows
  refine ⟨?_, fun q hq => ⟨fun hn => by simp [hD] at hn, fun _ j hj => ?_⟩⟩
  · rw [hrows, List.map_flatMap]
    exact List.flatMap_congr fun r hr => parity_memoryRound hR hD (List.mem_range.mp hr) hbits
  · obtain ⟨-, hkind, hoff⟩ := uniform_rounds hR hD hq
    have hle : (q + 1) * widthOf c.t 0 R ≤ R * widthOf c.t 0 R := Nat.mul_le_mul_right _ hq
    rw [Nat.succ_mul] at hle
    rw [hkind] at hj
    omega

/-- What `dem_chunks_to_d_sparse` returns gives the rounds of the stream. -/
theorem dSparse_rounds {rows : List (List Nat)} (hR : c.t.Admits R)
    (h : demChunksToDSparseSpec (c.t.spec.withRounds R) = .ok rows) :
    rows.map (parity bytes) = (List.range R).flatMap (c.roundRows (some R) bytes) ∧
      ∀ q < R, c.Named R q := by
  cases hD : c.hasD with
  | false => exact memory_rounds hR hD h
  | true =>
    have hD' : (c.t.spec.withRounds R).hasDSparse = true := hD
    rw [demChunksToDSparseSpec, if_pos hD'] at h
    simp only [bind_eq_ok] at h
    obtain ⟨_, -, seq, hseq, detectors, -, acc, hacc, hok⟩ := h
    obtain rfl := Except.ok.inj hok
    rw [show (c.t.spec.withRounds R).phaseSequence = _ from
      c.context.phases_eq c.spec_onChain hR] at hseq
    obtain rfl := Except.ok.inj hseq
    have hzip : ((List.range R).map fun i => c.context.phase i R).zipIdx =
        (List.range R).map fun i => (c.t.phase i R, i) := by
      apply List.ext_getElem
      · simp
      · intro i _ _
        simp [IngestSetup.t]
    rw [hzip] at hacc
    have hwalk : c.DWalk R bytes R acc := DWalk.run hR hD (le_refl R) hacc
    exact ⟨hwalk.rows, hwalk.named⟩

/-! ## `m2d` -/

/-- One round's rows of `m2d`, over inputs that begin at `base` in the stream. -/
theorem parity_m2dRound {r base prevStart prevWidth start width : Nat} {rows : List (List Nat)}
    (hR : c.t.Admits R) (hr : r < R) (hnamed : c.Named R r)
    (hprev : base + prevStart = c.forwardOffset (r - 1))
    (hstart : base + start = c.forwardOffset r)
    (hwidth : prevWidth = if r = 0 then 0 else c.forwardWidth (r - 1))
    (h : m2dRound c.t r R prevStart prevWidth start width = .ok rows) :
    rows.map (parity fun j => bytes (base + j)) = c.roundRows (some R) bytes r := by
  have hoff := c.forwardOffset_add r
  rw [← hwidth] at hoff
  have hkind := c.kindOf_eq hR hr
  unfold m2dRound at h
  cases hD : c.hasD with
  | true =>
    have hD' : c.t.spec.hasDSparse = true := hD
    rw [if_pos hD'] at h
    simp only [bind_eq_ok] at h
    obtain ⟨acc, hwalk, _, -, hok⟩ := h
    obtain rfl := Except.ok.inj hok
    have hpush : ∀ v ∈ dOf c.t r R, v ≠ -1 → ∀ acc acc' : DRow,
        pushM2dValue r prevStart prevWidth start width acc v = .ok acc' →
        ∃ i, acc' = ⟨acc.rows, acc.row ++ [i]⟩ ∧
          bytes (base + i) = (fun j => bytes (c.forwardOffset (r - 1) + j)) (sizeT v) := by
      intro v hv hne acc acc' hok
      have hlt := hnamed.index hD v hv hne
      rw [pushM2dValue, if_neg hne] at hok
      -- Both branches place the index behind the measurements of the round before.
      have hplace : acc' = ⟨acc.rows, acc.row ++ [u32 (prevStart + sizeT v)]⟩ := by
        split at hok
        · exact (Except.ok.inj hok).symm
        · split at hok
          · rw [← Except.ok.inj hok, show start + sizeT v - prevWidth = prevStart + sizeT v by omega]
          · cases hok
      rw [u32_of_lt (by omega)] at hplace
      refine ⟨_, hplace, ?_⟩
      simp only
      congr 1
      omega
    have hrows : acc.rows.map (parity fun j => bytes (base + j)) = [] ++
        detectorRows (fun j => bytes (c.forwardOffset (r - 1) + j)) (dOf c.t r R) 0 :=
      parity_walk (fun _ => rfl) hpush hwalk
    rw [roundRows, if_pos hD, hkind]
    exact hrows
  | false =>
    have hD' : ¬ c.t.spec.hasDSparse = true := by
      show ¬ c.hasD = true
      simp [hD]
    rw [if_neg hD'] at h
    obtain rfl := Except.ok.inj h
    rw [roundRows, if_neg (by simp [hD]), List.map_map]
    have hlen : c.t.roundDetectors r R = (c.kindOf (some R) r).1 := by
      rw [hkind]
      rfl
    rw [hlen]
    apply List.map_congr_left
    intro j hj
    have hlt := hnamed.rows hD j (List.mem_range.mp hj)
    rw [Function.comp_apply, parity_cons, u32_of_lt (by omega), ← Nat.add_assoc, hstart, xor_and_one]
    congr 1
    by_cases h0 : r = 0
    · simp [h0]
    · rw [if_pos (by omega), if_neg h0, parity_cons, parity_nil, UInt8.xor_zero,
        u32_of_lt (by omega), ← Nat.add_assoc, hprev]

/-- The inputs of a window from round `b` on: the measurements of the round before it, and then those
of its rounds. -/
def inputBase (c : IngestCore) (b : Nat) : Nat := c.forwardOffset (b - 1)

section
variable {rounds : RoundRange} {b n : Nat}

theorem layout_width (hi : i < rounds.size) :
    (layoutMeasurements c.t rounds R).width.getD i 0 = widthOf c.t (rounds.begin.toNat + i) R := by
  rw [layoutMeasurements, getD_map_range, if_pos hi]
  rfl

theorem layout_vIn (hR : c.t.Admits R) (hb : rounds.begin = b) (hlt : b < R) :
    (layoutMeasurements c.t rounds R).vIn = if b = 0 then 0 else c.forwardWidth (b - 1) := by
  show (if 0 < rounds.begin then c.t.roundWidth (rounds.begin - 1).toNat R else 0) = _
  by_cases h0 : b = 0
  · rw [if_neg (by omega), if_pos h0]
  · rw [if_pos (by omega), if_neg h0, show (rounds.begin - 1).toNat = b - 1 by omega]
    have hw := c.width_eq hR (show b - 1 < R by omega)
    rw [if_neg (by omega)] at hw
    exact hw

theorem layout_start (hR : c.t.Admits R) (hb : rounds.begin = b) (hle : b + rounds.size ≤ R)
    (hi : i < rounds.size) : c.inputBase b + (layoutMeasurements c.t rounds R).start.getD i 0 =
      c.forwardOffset (b + i) := by
  have hvin := layout_vIn hR hb (show b < R by omega)
  have hstart : (layoutMeasurements c.t rounds R).start =
      (layoutMeasurements c.t rounds R).width.scanl (· + ·)
        (layoutMeasurements c.t rounds R).vIn := rfl
  have hlen : (layoutMeasurements c.t rounds R).width.length = rounds.size := by
    simp [layoutMeasurements]
  rw [hstart, getD_scanl_add _ _ (by omega), hvin, ← Nat.add_assoc, inputBase, c.forwardOffset_add]
  induction i with
  | zero => simp
  | succ i ih =>
    have hi' : i < (layoutMeasurements c.t rounds R).width.length := by omega
    have hw := layout_width (c := c) (R := R) (show i < rounds.size by omega)
    rw [List.getD_eq_getElem _ _ hi', show rounds.begin.toNat = b by omega,
      c.width_eq hR (by omega), if_neg (by omega)] at hw
    rw [List.sum_take_succ _ _ hi', hw, ← Nat.add_assoc, ih (by omega), ← c.forwardOffset_succ]
    rfl

/-- The own rows of a window's `m2d` give its rounds of the stream. -/
theorem own_rounds {w : WindowPlacement} {map : AffineMap} (hR : c.t.Admits w.shotRounds)
    (hb : w.rounds.begin = b) (hle : b + w.rounds.size ≤ w.shotRounds)
    (hnamed : ∀ q < w.shotRounds, c.Named w.shotRounds q)
    (h : buildM2d c.t w (layoutMeasurements c.t w.rounds w.shotRounds) = .ok map) :
    map.own (fun j => bytes (c.inputBase b + j)) =
      (List.range w.rounds.size).flatMap fun i => c.roundRows (some w.shotRounds) bytes (b + i) := by
  obtain ⟨own, hown, happly⟩ := buildM2d_own h fun j => bytes (c.inputBase b + j)
  rw [happly]
  obtain ⟨hlen, hround⟩ := (forall₂_range []).mp hown
  rw [← map_getD_range own [], List.flatMap_map, hlen]
  apply List.flatMap_congr
  intro i hi
  have hi := List.mem_range.mp hi
  have hstart := layout_start hR hb hle hi
  have hrow := hround i hi
  rw [m2dOwnRound, show w.rounds.begin.toNat = b by omega] at hrow
  refine parity_m2dRound hR (by omega) (hnamed _ (by omega)) ?_ hstart ?_ hrow
  · by_cases h0 : i = 0
    · subst h0
      rw [if_pos rfl]
      rfl
    · rw [if_neg h0, layout_start hR hb hle (show i - 1 < w.rounds.size by omega),
        show b + (i - 1) = b + i - 1 by omega]
  · by_cases h0 : i = 0
    · subst h0
      rw [if_pos rfl, layout_vIn hR hb (by omega)]
      rfl
    · rw [if_neg h0, if_neg (by omega), layout_width (by omega),
        show w.rounds.begin.toNat + (i - 1) = b + i - 1 by omega, c.width_eq hR (by omega),
        if_neg (by omega)]

end

/-! ## The three maps -/

/-- The inputs of a window's `m2d` in a stream: `v_in`, the measurements of the round before it, and
then those of its rounds. -/
def windowInput (c : IngestCore) (w : WindowPlacement) (bytes : Nat → UInt8) (i : Nat) : UInt8 :=
  let vIn := (layoutMeasurements c.t w.rounds w.shotRounds).vIn
  if i < vIn then
    bytes ((c.t.measurementOffset (w.rounds.begin - 1).toNat w.shotRounds).toNat + i)
  else bytes ((c.t.measurementOffset w.rounds.begin.toNat w.shotRounds).toNat + (i - vIn))

theorem windowInput_eq {w : WindowPlacement} {b : Nat} (hR : c.t.Admits w.shotRounds)
    (hb : w.rounds.begin = b) (hlt : b < w.shotRounds) :
    c.windowInput w bytes = fun j => bytes (c.inputBase b + j) := by
  funext j
  have hvin := layout_vIn hR hb hlt
  have hoff := c.forwardOffset_add b
  unfold windowInput inputBase
  rw [hvin, show (w.rounds.begin - 1).toNat = b - 1 by omega, show w.rounds.begin.toNat = b by omega,
    c.measurementOffset_eq hR (by omega), c.measurementOffset_eq hR hlt, Int.toNat_natCast,
    Int.toNat_natCast]
  generalize (if b = 0 then 0 else c.forwardWidth (b - 1)) = before at hoff
  dsimp only
  split
  · rfl
  · congr 1
    omega

end IngestCore

/-- A window's detectors are the same over each of the three maps: the own rows of its `m2d`, applied
to `v_in` and its rounds' measurements; its rows of what `dem_chunks_to_d_sparse` returns for the shot;
and its rounds as `form_detectors` left them in the ring, whenever in a shot over the stream they are
read. Each of its rounds can be read after some call of the shot. -/
theorem detectorMaps_agree (c : IngestCore) (bytes : Nat → UInt8) {R : Nat} {request : WindowRequest}
    {k : Int} {w : WindowPlacement} {map : AffineMap} {rows : List (List Nat)}
    (hw : placeWindow c.t request k R = .ok w)
    (hmap : buildM2d c.t w (layoutMeasurements c.t w.rounds R) = .ok map)
    (hrows : demChunksToDSparseSpec (c.t.spec.withRounds R) = .ok rows) :
    map.own (c.windowInput w bytes) =
      ((rows.drop (c.t.rowOffset w.rounds.begin.toNat R).toNat).take
        (c.t.rowOffset w.rounds.stop.toNat R - c.t.rowOffset w.rounds.begin.toNat R).toNat).map
          (parity bytes) ∧
    ∀ (n : Nat) (s : IngestState) (earlier : List IngestState),
      c.ShotStates bytes n (s :: earlier) → s.shotRounds = some R →
      (∀ i < w.rounds.size, ∃ s' ∈ s :: earlier, ∃ ds, c.detectors s' (w.rounds.begin + i) = .ok ds) ∧
      ∀ formed : Nat → List UInt8,
        (∀ i < w.rounds.size, ∃ s' ∈ s :: earlier,
          c.detectors s' (w.rounds.begin + i) = .ok (formed i)) →
        map.own (c.windowInput w bytes) = (List.range w.rounds.size).flatMap formed := by
  obtain ⟨hb, hlt, hle⟩ := placedWindow_bounds hw
  obtain ⟨-, hR, -, -, rfl⟩ := placeWindow_eq_ok.mp hw
  set w := placed c.t request k R
  have hshot : w.shotRounds = R := rfl
  have hsize : w.rounds.begin.toNat + w.rounds.size = w.rounds.stop.toNat := by
    unfold RoundRange.size
    omega
  have hbegin : w.rounds.begin = (w.rounds.begin.toNat : Int) := by omega
  have hround : ∀ i : Nat, w.rounds.begin + i = ((w.rounds.begin.toNat + i : Nat) : Int) := by
    intro i
    omega
  obtain ⟨hd, hnamed⟩ :
      rows.map (parity bytes) = (List.range R).flatMap (c.roundRows (some R) bytes) ∧
        ∀ q < R, c.Named R q := IngestCore.dSparse_rounds hR hrows
  -- the rows of the window's map are those of its rounds, read where the window's input starts
  have hown : map.own (fun j => bytes (c.inputBase w.rounds.begin.toNat + j)) = _ :=
    IngestCore.own_rounds hR hbegin (by omega) hnamed hmap
  rw [← IngestCore.windowInput_eq hR hbegin (by omega)] at hown
  refine ⟨?_, fun n s earlier hstates hs => ?_⟩
  · rw [hown, c.rowOffset_eq hR (by omega), c.rowOffset_eq hR (by omega), ← hsize, List.map_take,
      List.map_drop, hd, Int.toNat_natCast, Int.toNat_sub, c.slice_rounds (by omega), hshot]
  -- in the state that knows the shot's length every round was formed, in this state or before
  · obtain ⟨hfinished, hn⟩ := (hstates.inShot s rfl).closed R hs
    refine ⟨fun i hi => ?_, fun formed hformed => ?_⟩
    · rw [hround]
      exact hstates.exists_detectors s rfl _ (by rw [hfinished.formed]; omega)
    · rw [hown]
      apply List.flatMap_congr
      intro i hi
      obtain ⟨s', hs', hread⟩ := hformed i (List.mem_range.mp hi)
      rw [hround] at hread
      refine (hstates.detectors_eq hR hn.le ?_ s' hs' hread).symm
      rintro s'' ⟨rfl⟩ R' hR'
      exact Option.some.inj ((Option.mem_def.mp hR').symm.trans hs)

/-! ## Four rounds of a memory -/

def memoryCore : IngestCore where
  context := memoryTemplate
  layers := [⟨oneRoundRequest, 2⟩]
  checked := by decide +kernel

def thirdBit (i : Nat) : UInt8 := if i = 2 then 1 else 0

def memoryState (n : Nat) : IngestState :=
  (List.range n).foldl (fun s i =>
    (memoryCore.enqueue s { data := [thirdBit i], final := i = 3 }).1) memoryCore.initial

theorem memoryState_succ (n : Nat) : memoryState (n + 1) =
    (memoryCore.enqueue (memoryState n) { data := [thirdBit n], final := n = 3 }).1 := by
  rw [memoryState, List.range_succ, List.foldl_append]
  rfl

/-- The last two of four rounds, which the core has once the FINAL record is taken. -/
theorem detectorMaps_agree_memory : ∃ w map earlier,
    placeWindow memoryCore.t oneRoundRequest 2 4 = .ok w ∧
    buildM2d memoryCore.t w (layoutMeasurements memoryCore.t w.rounds 4) = .ok map ∧
    demChunksToDSparseSpec (memoryCore.t.spec.withRounds 4) = .ok [[0], [0, 1], [1, 2], [2, 3]] ∧
    memoryCore.ShotStates thirdBit 4 (memoryState 4 :: earlier) ∧
    (memoryState 4).shotRounds = some 4 ∧
    map.own (memoryCore.windowInput w thirdBit) = [1, 1] ∧
    memoryCore.detectors (memoryState 4) 2 = .ok [1] ∧
    memoryCore.detectors (memoryState 4) 3 = .ok [1] := by
  have hw : placeWindow memoryCore.t oneRoundRequest 2 4 =
      .ok (placed memoryCore.t oneRoundRequest 2 4) := by decide +kernel
  have hrows : demChunksToDSparseSpec (memoryCore.t.spec.withRounds 4) =
      .ok [[0], [0, 1], [1, 2], [2, 3]] := by decide +kernel
  have htaken : ∀ n < 4, (memoryCore.enqueue (memoryState n)
      { data := [thirdBit n], final := n = 3 }).2 = .ok .accepted := by decide +kernel
  -- each record is taken, so the states of the four of them are states of one shot
  have hstates : ∀ n ≤ 4, ∃ earlier, memoryCore.ShotStates thirdBit n (memoryState n :: earlier) := by
    intro n hn
    induction n with
    | zero => exact ⟨[], .first⟩
    | succ n ih =>
      obtain ⟨earlier, hbefore⟩ := ih (by omega)
      have hdata : IngestCore.Carries thirdBit n [thirdBit n] := by
        intro i hi
        obtain rfl : i = 0 := Nat.lt_one_iff.mp hi
        rfl
      rw [memoryState_succ]
      exact ⟨_, .record { data := [thirdBit n], final := n = 3 } hbefore hdata (htaken n (by omega))⟩
  obtain ⟨earlier, hstates⟩ := hstates 4 (le_refl 4)
  have hshot : (memoryState 4).shotRounds = some 4 := by decide +kernel
  have hread : memoryCore.detectors (memoryState 4) 2 = .ok [1] ∧
      memoryCore.detectors (memoryState 4) 3 = .ok [1] := by decide +kernel
  -- the map exists, and the theorem applies to the two rounds of the window
  cases hmap : buildM2d memoryCore.t (placed memoryCore.t oneRoundRequest 2 4)
      (layoutMeasurements memoryCore.t (placed memoryCore.t oneRoundRequest 2 4).rounds 4) with
  | error e =>
    have hok : (buildM2d memoryCore.t (placed memoryCore.t oneRoundRequest 2 4)
      (layoutMeasurements memoryCore.t (placed memoryCore.t oneRoundRequest 2 4).rounds 4)).isOk =
        true := by decide +kernel
    rw [hmap] at hok
    cases hok
  | ok map =>
    have h := (detectorMaps_agree memoryCore thirdBit hw hmap hrows).2 4 _ _ hstates hshot
    have hsize : (placed memoryCore.t oneRoundRequest 2 4).rounds.size = 2 := by decide +kernel
    have hbegin : (placed memoryCore.t oneRoundRequest 2 4).rounds.begin = 2 := by decide +kernel
    have hown := h.2 (fun _ => [1]) (by
      rw [hsize, hbegin]
      intro i hi
      refine ⟨_, List.mem_cons_self, ?_⟩
      rcases Nat.lt_succ_iff_lt_or_eq.mp hi with hi | rfl
      · obtain rfl := Nat.lt_one_iff.mp hi
        exact hread.1
      · exact hread.2)
    rw [hsize] at hown
    exact ⟨_, map, earlier, hw, hmap, hrows, hstates, hshot, hown, hread⟩

end CudaqQec
