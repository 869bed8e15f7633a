import CudaqQec.Node.Memory

/-!
# The prepared models of a memory window

What the constructor checks, and what holds of every model it prepares.

* `MemoryNode.Accepted`: the schedule, the widths and the models of a node that was constructed.
* `accepted_of_create`: the constructor returns nothing else.
-/

namespace CudaqQec

open Checked SparseBinaryMatrix

variable {σ τ : Type} {ctx : MemoryContext σ τ} {schedule : WindowSpec} {r : MemoryRecipe}
  {key : ModelKey} {n : MemoryNode σ} {m : MemoryModel σ}

/-! ## Models -/

/-- The rounds of a window have one width, and its columns belong to its rounds. -/
structure MemoryModel.Fits (m : MemoryModel σ) (r : MemoryRecipe) (key : ModelKey) : Prop where
  measurementOffsets : m.measurementOffsets =
    (List.range (key.rounds + 1)).map fun i => r.previousWidth key.startPhase + i * r.bulkWidth
  length_faultOffsets : m.faultOffsets.length = key.rounds + 1
  resultType : m.dec.resultType = .errors
  blockSize : m.dec.blockSize = m.faultOffsets.getLastD 0

namespace MemoryRecipe

/-- Every phase has the width of a round. -/
structure Uniform (r : MemoryRecipe) : Prop where
  length_prefixWidths : r.prefixWidths.length = r.prefixPhases.length
  prefixWidths : ∀ w ∈ r.prefixWidths, w = r.bulkWidth
  pos : 0 < r.bulkWidth
  widthOf : ∀ id phase, (id ∈ r.prefixPhases ∨ id = r.bulkPhase ∨ id ∈ r.finalPhases) →
    r.spec.getPhase id = .ok phase → measurementWidth r.spec r.bulkWidth phase = r.bulkWidth

theorem phaseAt_mem (i : Nat) (hi : i < key.rounds) :
    r.phaseAt key i ∈ r.prefixPhases ∨ r.phaseAt key i = r.bulkPhase ∨
      r.phaseAt key i ∈ r.finalPhases := by
  unfold phaseAt
  dsimp only
  split
  · next h =>
    right; right
    have hlt : i - sizeT ((key.rounds : Int) - r.finalPhases.length) < r.finalPhases.length := by
      have := h.2
      unfold sizeT at this ⊢
      split at this <;> rename_i hs
      · rw [if_pos hs]
        omega
      · rw [if_neg hs]
        omega
    rw [List.getD_eq_getElem _ _ hlt]
    exact List.getElem_mem hlt
  · split
    · next h =>
      left
      rw [List.getD_eq_getElem _ _ h]
      exact List.getElem_mem h
    · exact .inr (.inl rfl)

theorem addRound_eq_ok {b b' : ModelBuild} {i : Nat} (h : r.addRound ctx key b i = .ok b') :
    ∃ phase chunk, r.spec.getPhase (r.phaseAt key i) = .ok phase ∧
      b'.chunks = b.chunks ++ [chunk] ∧
      b'.start = b.start + measurementWidth r.spec r.bulkWidth phase ∧
      b'.measurementOffsets = b.measurementOffsets ++ [b'.start] := by
  simp only [addRound, bind_eq_ok] at h
  obtain ⟨phase, hphase, -, -, chunk, -, -, -, acc, -, -, -, hb⟩ := h
  cases hb
  exact ⟨phase, chunk, hphase, rfl, rfl, rfl⟩

/-- The first rounds of a window, in a model. -/
theorem foldlM_addRound (hu : r.Uniform) {j : Nat} {b : ModelBuild} (hj : j ≤ key.rounds)
    (h : (List.range j).foldlM (r.addRound ctx key)
      (.initial (r.previousWidth key.startPhase)) = .ok b) :
    b.chunks.length = j ∧ b.start = r.previousWidth key.startPhase + j * r.bulkWidth ∧
      b.measurementOffsets =
        (List.range (j + 1)).map fun i => r.previousWidth key.startPhase + i * r.bulkWidth := by
  induction j generalizing b with
  | zero =>
    cases h
    simp [ModelBuild.initial]
  | succ j ih =>
    rw [List.range_succ, List.foldlM_append, bind_eq_ok] at h
    obtain ⟨b₁, h₁, h₂⟩ := h
    rw [List.foldlM_cons, bind_eq_ok] at h₂
    obtain ⟨b₂, h₂, hb⟩ := h₂
    cases hb
    obtain ⟨hlen, hstart, hoff⟩ := ih (by omega) h₁
    obtain ⟨phase, chunk, hphase, hc, hs, hm⟩ := addRound_eq_ok h₂
    have hw : measurementWidth r.spec r.bulkWidth phase = r.bulkWidth :=
      hu.widthOf _ phase (phaseAt_mem j (by omega)) hphase
    refine ⟨by rw [hc, List.length_append, hlen]; rfl, ?_, ?_⟩
    · rw [hs, hstart, hw, Nat.add_mul, Nat.one_mul]
      omega
    · rw [hm, hoff, List.range_succ (n := j + 1), List.map_append, hs, hstart, hw]
      simp only [List.map_cons, List.map_nil, Nat.add_mul, Nat.one_mul, Nat.add_assoc]

theorem length_demChunksToFaultOffsets (chunks : List ExtendedDem) :
    (demChunksToFaultOffsets chunks).length = chunks.length + 1 := by
  have hfrom : ∀ (cs : List ExtendedDem) (offsets : List Nat),
      (cs.foldl (fun offsets c => offsets ++ [offsets.getLastD 0 + c.numFaults]) offsets).length =
        cs.length + offsets.length := by
    intro cs
    induction cs with
    | nil => simp
    | cons c cs ih =>
      intro offsets
      rw [List.foldl_cons, ih]
      simp
      omega
  exact hfrom chunks [0]

theorem compileModel_fits (hu : r.Uniform) (h : r.compileModel ctx key = .ok m) : m.Fits r key := by
  simp only [compileModel, bind_eq_ok] at h
  obtain ⟨-, -, b, hb, hm⟩ := h
  obtain ⟨hlen, -, hoff⟩ := foldlM_addRound hu (Nat.le_refl _) hb
  simp only [finishModel, bind_eq_ok, throwIf_eq_ok] at hm
  obtain ⟨-, -, d, -, h, -, rows, -, o, -, -, -, dec, -, -, hdec, hm⟩ := hm
  cases hm
  simp only [not_or, not_not] at hdec
  refine ⟨hoff, by rw [length_demChunksToFaultOffsets, hlen], ?_, hdec.2.2.1⟩
  cases htype : dec.resultType with
  | errors => rfl
  | observables => exact absurd htype hdec.1

end MemoryRecipe

/-! ## Nodes -/

/-- What the constructor leaves. -/
structure MemoryNode.Accepted (n : MemoryNode σ) : Prop extends n.toMemoryRecipe.Uniform where
  stride_lt : n.schedule.stride < n.schedule.size
  guards : u32 (n.schedule.startGuard + n.schedule.endGuard) < n.schedule.size
  endGuard : 0 < n.schedule.endGuard
  stride_eq : n.schedule.stride = n.schedule.core
  lookahead : n.tailLookahead ≤ n.schedule.startGuard
  widest : n.bulkWidth ≤ n.widest
  modelAt : ∀ key ∈ n.preparedKeys, ∃ m, n.modelAt key = .ok m ∧ m.Fits n.toMemoryRecipe key

theorem DemChunksSpec.phaseSequence_ne_nil {s : DemChunksSpec} {seq : List PhaseId}
    (h : s.phaseSequence = .ok seq) : seq ≠ [] := by
  have hlen := length_phaseSequence h
  simp only [phaseSequence, bind_eq_ok, throwIf_eq_ok] at h
  obtain ⟨_, -, _, -, _, -, _, -, _, hrounds, -⟩ := h
  rw [← List.length_pos_iff, hlen]
  split
  · omega
  · next hself =>
    have hsome : s.selfLoops.head?.isSome = true := by
      cases hs : s.selfLoops with
      | nil => exact absurd hs hself
      | cons a l => rfl
    by_contra hzero
    exact hrounds ⟨hsome, by omega⟩

theorem MemoryRecipe.widthOf_of_mapM {spec : DemChunksSpec} {w : Nat} {ids : List PhaseId}
    {widths : List Nat} (h : ids.mapM (widthOf spec w) = .ok widths) (hall : ∀ x ∈ widths, x = w)
    {id : PhaseId} (hid : id ∈ ids) {phase : DemChunkSpec} (hphase : spec.getPhase id = .ok phase) :
    measurementWidth spec w phase = w := by
  obtain ⟨i, hi, rfl⟩ := List.getElem_of_mem hid
  have hf := mapM_eq_ok.mp h
  have hlen := hf.length_eq
  have hx := hf.get hi (by omega)
  simp only [List.get_eq_getElem, widthOf, hphase, ok_bind] at hx
  exact (Except.ok.inj hx).trans (hall _ (List.getElem_mem _))

/-- The checks of the schedule, the phases and the widths. -/
theorem MemoryRecipe.create_eq_ok (h : MemoryRecipe.create ctx schedule = .ok r) :
    r.schedule = schedule ∧ r.spec = ctx.memorySpec ∧ r.Uniform ∧ r.finalPhases ≠ [] ∧
      r.bulkWidth = ctx.spr ∧ schedule.stride < schedule.size ∧
      u32 (schedule.startGuard + schedule.endGuard) < schedule.size ∧ 0 < schedule.endGuard ∧
      schedule.stride = schedule.core ∧ r.tailLookahead ≤ schedule.startGuard := by
  simp only [MemoryRecipe.create, checkSchedule, bind_eq_ok, throwIf_eq_ok] at h
  obtain ⟨span, hspan, -, hphases, -, -, -, -, -, hsched, seq, hseq, bulk, -, -, hlook, -, -,
    pws, hpws, bw, hbw, fw, hfw, -, hpos, fws, hfws, -, hwidths, hr⟩ := h
  cases hr
  have hne := DemChunksSpec.phaseSequence_ne_nil hseq
  have hseqpos : 0 < seq.length := List.length_pos_iff.mpr hne
  simp only [List.any_eq_true, decide_eq_true_eq, not_or, not_exists, not_and, not_not] at hwidths
  obtain ⟨hb, -, hf, hp⟩ := hwidths
  simp only [not_or, Nat.not_le, Nat.not_lt, not_not, ← Nat.pos_iff_ne_zero] at hsched
  obtain ⟨hstride, -, hguards, hend, hcore⟩ := hsched
  refine ⟨rfl, rfl, ⟨?_, hp, ?_, ?_⟩, ?_, rfl, hstride, hguards, hend, hcore,
    Nat.not_lt.mp hlook⟩
  · exact (mapM_eq_ok.mp hpws).length_eq.symm
  · exact Nat.pos_of_ne_zero fun hzero => hpos (.inl hzero)
  · rintro id phase (hid | rfl | hid) hphase
    · exact widthOf_of_mapM hpws hp hid hphase
    · simp only [widthOf, hphase, ok_bind] at hbw
      exact (Except.ok.inj hbw).trans hb
    · exact widthOf_of_mapM hfws hf hid hphase
  · rw [← List.length_pos_iff, List.length_drop]
    omega

/-- A key that was prepared is found. -/
theorem MemoryNode.modelAt_of_mapM {keys : List ModelKey} {f : ModelKey → Except Error (MemoryModel σ)}
    {models : List (ModelKey × MemoryModel σ)}
    (h : keys.mapM (fun key => do
      let m ← f key
      return (key, m)) = .ok models) {key : ModelKey} (hkey : key ∈ keys) :
    ∃ p, models.find? (fun p => p.1 = key) = some p ∧ f key = .ok p.2 := by
  induction keys generalizing models with
  | nil => cases hkey
  | cons k keys ih =>
    rw [List.mapM_cons, bind_eq_ok] at h
    obtain ⟨p, hp, h⟩ := h
    obtain ⟨ps, hps, hmodels⟩ := bind_eq_ok.mp h
    obtain ⟨m, hm, hpm⟩ := bind_eq_ok.mp hp
    cases hmodels
    cases hpm
    by_cases hk : k = key
    · subst hk
      exact ⟨(k, m), by simp, hm⟩
    · obtain ⟨p, hfind, hf⟩ := ih hps ((List.mem_cons.mp hkey).resolve_left fun he => hk he.symm)
      exact ⟨p, by simp [hk, hfind], hf⟩

theorem MemoryNode.accepted_of_create (h : MemoryNode.create ctx schedule = .ok n) :
    n.Accepted ∧ n.schedule = schedule ∧ n.spec = ctx.memorySpec ∧ n.bulkWidth = ctx.spr := by
  simp only [MemoryNode.create, bind_eq_ok, thrown_eq_ok] at h
  obtain ⟨-, -, r, hr, models, hmodels, hn⟩ := h
  cases hn
  obtain ⟨hsched, hspec, hu, -, hbw, hstride, hguards, hend, hcore, hlook⟩ :=
    MemoryRecipe.create_eq_ok hr
  refine ⟨⟨hu, ?_, ?_, ?_, ?_, ?_, ?_, ?_⟩, hsched, hspec, hbw⟩
  · rw [hsched]
    exact hstride
  · rw [hsched]
    exact hguards
  · rw [hsched]
    exact hend
  · rw [hsched]
    exact hcore
  · rw [hsched]
    exact hlook
  · exact (le_foldl_max (l := r.bulkWidth :: r.finalWidth :: r.prefixWidths)).2 _ (by simp)
  · intro key hkey
    obtain ⟨p, hfind, hcompile⟩ := modelAt_of_mapM hmodels hkey
    exact ⟨p.2, by simp [modelAt, hfind], MemoryRecipe.compileModel_fits hu hcompile⟩

end CudaqQec
