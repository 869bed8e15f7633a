import CudaqQec.Dem.Construction

/-!
# Reading Stim models

`parse_stim_dem` reduces the flattened error instructions that Stim reads from a text to lists of hits,
a column at a time, and `dem_from_stim_text` writes these to dense matrices. Targets are toggled in and
out of a set, so that a target named twice is none. A separator of targets ends a column only if the
suggested decompositions are used.

Stim's parser and its flattening are a parameter.

* `parseStimDem_eq`: the columns are the components of the instructions that do not cancel, in order.
* `demFromStimText_eq`: the model of a text.
-/

namespace CudaqQec

open Checked Toggle

/-! ## What Stim returns -/

inductive DemTarget where
  | detector (id : Nat)
  | observable (id : Nat)
  | separator
  | other
  deriving DecidableEq

/-- `stim::DemInstruction`, an error. -/
structure DemInstruction where
  argData : List ℚ
  targetData : List DemTarget
  deriving DecidableEq

/-- A `stim::DetectorErrorModel`: what it counts, and its errors once it is flattened. -/
structure StimModel where
  countDetectors : Nat
  countObservables : Nat
  errors : List DemInstruction
  deriving DecidableEq

/-! ## The parser -/

/-- `toggle`: a value enters a set or, if it is there, leaves it. -/
def toggle (s : List Nat) (v : Nat) : List Nat :=
  if v ∈ s then s.erase v else s.orderedInsert (· ≤ ·) v

/-- The two sets of a column that is being read. -/
structure Parities where
  dets : List Nat
  obs : List Nat
  deriving DecidableEq

/-- The three lists of `parse_stim_dem`. -/
structure HitLists where
  detectorHits : List (List Nat)
  observableHits : List (List Nat)
  errorRates : List ℚ
  deriving DecidableEq

def pushTarget (instructionIndex : Nat) (p : Parities) : DemTarget → Except Error Parities
  | .detector id => .ok { p with dets := toggle p.dets id }
  | .observable id => .ok { p with obs := toggle p.obs id }
  | _ => .error (.runtimeError ("Stim DEM error instruction (index " ++ toString instructionIndex ++
      ") contains an unsupported target kind; only D* (detector) and " ++
      "L* (observable) targets are supported by the fallback parser"))

/-- `flush`: the sets become a column, unless both are empty. -/
def flush (prob : ℚ) (st : Parities × HitLists) : Parities × HitLists :=
  if st.1.dets ≠ [] ∨ st.1.obs ≠ [] then
    (⟨[], []⟩, ⟨st.2.detectorHits ++ [st.1.dets], st.2.observableHits ++ [st.1.obs],
      st.2.errorRates ++ [prob]⟩)
  else st

section

variable (useDecompSuggestions : Bool)

def readTarget (instructionIndex : Nat) (prob : ℚ) (st : Parities × HitLists) :
    DemTarget → Except Error (Parities × HitLists)
  | .separator => .ok (if useDecompSuggestions then flush prob st else st)
  | target => do
    let p ← pushTarget instructionIndex st.1 target
    return (p, st.2)

/-- The probability of an instruction. -/
def checkProbability (instructionIndex : Nat) (inst : DemInstruction) : Except Error ℚ :=
  match inst.argData with
  | [] => .error (.runtimeError ("Stim DEM error instruction missing probability argument (index " ++
      toString instructionIndex ++ ")"))
  | prob :: _ => do
    throwIf (¬ (0 ≤ prob ∧ prob ≤ 1)) (.runtimeError ("Stim DEM error probability " ++
      Css.toStringFixed prob ++ " out of range [0, 1] at instruction index " ++
      toString instructionIndex))
    return prob

def readInstruction (hits : HitLists) (inst : DemInstruction × Nat) : Except Error HitLists := do
  let prob ← checkProbability inst.2 inst.1
  let st ← inst.1.targetData.foldlM (readTarget useDecompSuggestions inst.2 prob) (⟨[], []⟩, hits)
  return (flush prob st).2

structure ParsedStimDem extends HitLists where
  numDetectors : Nat
  numObservables : Nat

def parseStimDem (stim : String → Except String StimModel) (demText : String) :
    Except Error ParsedStimDem :=
  match stim demText with
  | .error what => .error (.runtimeError ("Stim DEM parse failed: " ++ what))
  | .ok dem => do
    let hits ← dem.errors.zipIdx.foldlM (readInstruction useDecompSuggestions) ⟨[], [], []⟩
    throwIf (hits.detectorHits = [])
      (.runtimeError "Stim DEM contains no error mechanisms after flattening")
    return { hits with
      numDetectors := dem.countDetectors
      numObservables := dem.countObservables }

end

def validateHitIds (parsed : ParsedStimDem) : Except Error Unit := do
  throwIf (∃ hits ∈ parsed.detectorHits, ∃ det ∈ hits, parsed.numDetectors ≤ det)
    (.runtimeError "Stim DEM detector id out of range while extracting H")
  throwIf (∃ hits ∈ parsed.observableHits, ∃ ob ∈ hits, parsed.numObservables ≤ ob)
    (.runtimeError "Stim DEM observable id out of range while extracting O")

def fillColumn (parsed : ParsedStimDem) (dem : Css.Dem) (err : Nat) : Except Fault Css.Dem := do
  let detectors ← dem.detectorErrorMatrix.flipColumn (parsed.detectorHits.getD err []) err
  let observables ← dem.observablesFlipsMatrix.flipColumn (parsed.observableHits.getD err []) err
  return { dem with
    detectorErrorMatrix := detectors
    observablesFlipsMatrix := observables }

def demFromStimText (stim : String → Except String StimModel) (demText : String)
    (useDecompSuggestions : Bool) : Except Fault Css.Dem := do
  let parsed ← thrown (parseStimDem useDecompSuggestions stim demText)
  thrown (validateHitIds parsed)
  let numCols := parsed.detectorHits.length
  (List.range numCols).foldlM (fillColumn parsed) {
    detectorErrorMatrix := .alloc [parsed.numDetectors, numCols]
    observablesFlipsMatrix := .alloc [parsed.numObservables, numCols]
    errorRates := parsed.errorRates }

/-! ## Columns -/

def oddDetectors (targets : List DemTarget) : List Nat :=
  canonicalGroup (targets.filterMap fun | .detector id => some id | _ => none)

def oddObservables (targets : List DemTarget) : List Nat :=
  canonicalGroup (targets.filterMap fun | .observable id => some id | _ => none)

def Cancel (targets : List DemTarget) : Prop := oddDetectors targets = [] ∧ oddObservables targets = []

instance (targets : List DemTarget) : Decidable (Cancel targets) := inferInstanceAs (Decidable (_ ∧ _))

/-- A column of the model: some targets of an instruction, and its probability. -/
structure StimColumn where
  targets : List DemTarget
  rate : ℚ
  deriving DecidableEq

namespace DemInstruction

variable (inst : DemInstruction)

def prob : ℚ := inst.argData.headD 0

def components (useDecompSuggestions : Bool) : List (List DemTarget) :=
  if useDecompSuggestions then inst.targetData.splitOn .separator else [inst.targetData]

def columns (useDecompSuggestions : Bool) : List StimColumn :=
  ((inst.components useDecompSuggestions).filter fun targets => ¬ Cancel targets).map
    fun targets => ⟨targets, inst.prob⟩

end DemInstruction

namespace StimModel

variable (dem : StimModel)

def columns (useDecompSuggestions : Bool) : List StimColumn :=
  dem.errors.flatMap (DemInstruction.columns · useDecompSuggestions)

/-- What Stim's parser promises: an error has a probability, and its targets are separators and
detectors and observables that are counted. -/
structure WellFormed : Prop where
  prob : ∀ inst ∈ dem.errors, ∃ p rest, inst.argData = p :: rest ∧ 0 ≤ p ∧ p ≤ 1
  detector : ∀ inst ∈ dem.errors, ∀ id, .detector id ∈ inst.targetData → id < dem.countDetectors
  observable : ∀ inst ∈ dem.errors, ∀ id, .observable id ∈ inst.targetData → id < dem.countObservables
  other : ∀ inst ∈ dem.errors, .other ∉ inst.targetData

end StimModel

theorem mem_oddDetectors {targets : List DemTarget} {r : Nat} :
    r ∈ oddDetectors targets ↔ targets.count (.detector r) % 2 = 1 := by
  rw [oddDetectors, mem_canonicalGroup]
  suffices h : (targets.filterMap fun | .detector id => some id | _ => none).count r =
      targets.count (.detector r) by rw [h]
  induction targets with
  | nil => rfl
  | cons t targets ih => cases t <;> simp [List.count_cons, ih]

theorem mem_oddObservables {targets : List DemTarget} {r : Nat} :
    r ∈ oddObservables targets ↔ targets.count (.observable r) % 2 = 1 := by
  rw [oddObservables, mem_canonicalGroup]
  suffices h : (targets.filterMap fun | .observable id => some id | _ => none).count r =
      targets.count (.observable r) by rw [h]
  induction targets with
  | nil => rfl
  | cons t targets ih => cases t <;> simp [List.count_cons, ih]

/-! ## Cancelling targets -/

/-- Toggling one more value. -/
theorem toggle_canonicalGroup (ids : List Nat) (v : Nat) :
    toggle (canonicalGroup ids) v = canonicalGroup (ids ++ [v]) := by
  have hlt := (sortedLT_canonicalGroup ids).pairwise
  have hsorted : (toggle (canonicalGroup ids) v).Pairwise (· < ·) := by
    unfold toggle
    split
    · exact hlt.sublist List.erase_sublist
    next hmem =>
      have hle := (hlt.imp fun h => le_of_lt h).orderedInsert v
      have hnodup : ((canonicalGroup ids).orderedInsert (· ≤ ·) v).Nodup :=
        (List.perm_orderedInsert (· ≤ ·) v _).nodup_iff.mpr
          (List.nodup_cons.mpr ⟨hmem, nodup_canonicalGroup ids⟩)
      exact (hle.and hnodup).imp fun h => lt_of_le_of_ne h.1 h.2
  apply hsorted.sortedLT.eq_of_mem_iff (sortedLT_canonicalGroup _)
  intro i
  rw [mem_canonicalGroup, List.count_append, List.count_singleton, toggle]
  split
  next hmem =>
    rw [List.Nodup.mem_erase_iff (nodup_canonicalGroup ids), mem_canonicalGroup]
    rw [mem_canonicalGroup] at hmem
    by_cases hi : v = i
    · subst hi
      simp
      omega
    · simp [hi, Ne.symm hi]
  next hmem =>
    rw [List.mem_orderedInsert, mem_canonicalGroup]
    rw [mem_canonicalGroup] at hmem
    by_cases hi : v = i
    · subst hi
      simp
      omega
    · simp [hi, Ne.symm hi]

/-! ## What the parser returns -/

def paritiesOf (targets : List DemTarget) : Parities := ⟨oddDetectors targets, oddObservables targets⟩

def hitListsOf (columns : List StimColumn) : HitLists where
  detectorHits := columns.map fun c => oddDetectors c.targets
  observableHits := columns.map fun c => oddObservables c.targets
  errorRates := columns.map (·.rate)

def columnsOf (prob : ℚ) (components : List (List DemTarget)) : List StimColumn :=
  (components.filter fun targets => ¬ Cancel targets).map fun targets => ⟨targets, prob⟩

theorem columnsOf_cons (prob : ℚ) (targets : List DemTarget) (components : List (List DemTarget)) :
    columnsOf prob (targets :: components) = columnsOf prob [targets] ++ columnsOf prob components := by
  unfold columnsOf
  rw [← List.map_append, ← List.filter_append, List.singleton_append]

theorem flush_paritiesOf (prob : ℚ) (targets : List DemTarget) (columns : List StimColumn) :
    flush prob (paritiesOf targets, hitListsOf columns) =
      (paritiesOf [], hitListsOf (columns ++ columnsOf prob [targets])) := by
  by_cases hc : Cancel targets
  · obtain ⟨hdets, hobs⟩ := hc
    have hempty : columnsOf prob [targets] = [] := by simp [columnsOf, Cancel, hdets, hobs]
    rw [hempty, List.append_nil, flush, if_neg (by simp [paritiesOf, hdets, hobs])]
    simp only [paritiesOf, hdets, hobs]
    rfl
  · have hone : columnsOf prob [targets] = [⟨targets, prob⟩] := by simp [columnsOf, hc]
    have hset : (paritiesOf targets).dets ≠ [] ∨ (paritiesOf targets).obs ≠ [] := by
      rw [Cancel, not_and_or] at hc
      exact hc
    rw [hone, flush, if_pos hset]
    simp [hitListsOf, paritiesOf, oddDetectors, oddObservables, canonicalGroup]

theorem pushTarget_paritiesOf (index : Nat) (done : List DemTarget) {target : DemTarget}
    (hsep : target ≠ .separator) (hother : target ≠ .other) :
    pushTarget index (paritiesOf done) target = .ok (paritiesOf (done ++ [target])) := by
  cases target with
  | detector id => simp [pushTarget, paritiesOf, oddDetectors, oddObservables, toggle_canonicalGroup]
  | observable id => simp [pushTarget, paritiesOf, oddDetectors, oddObservables, toggle_canonicalGroup]
  | separator => exact absurd rfl hsep
  | other => exact absurd rfl hother

/-! ## The components of an error -/

def componentsFrom (useDecompSuggestions : Bool) (done targets : List DemTarget) :
    List (List DemTarget) :=
  if useDecompSuggestions then (targets.splitOn .separator).modifyHead (done ++ ·)
  else [done ++ targets]

theorem componentsFrom_nil (use : Bool) (targets : List DemTarget) : componentsFrom use [] targets =
    if use then targets.splitOn .separator else [targets] := by
  have hid : (([] : List DemTarget) ++ ·) = id := funext List.nil_append
  rw [componentsFrom, hid, List.modifyHead_id]
  rfl

theorem componentsFrom_cons {use : Bool} (done : List DemTarget) {target : DemTarget}
    (targets : List DemTarget) (hsep : use = true → target ≠ .separator) :
    componentsFrom use done (target :: targets) = componentsFrom use (done ++ [target]) targets := by
  cases use with
  | false => simp [componentsFrom]
  | true =>
    have hne : (target == DemTarget.separator) = false := by simpa using hsep rfl
    simp only [componentsFrom, if_true, List.splitOn, List.splitOnP_cons_eq_if_modifyHead, hne,
      Bool.false_eq_true, if_false, List.modifyHead_modifyHead]
    congr 1
    funext component
    simp

/-- The targets of an instruction, from any point on, leave a column for each component that does not
cancel. The sets hold the component that is being read. -/
theorem foldlM_readTarget {use : Bool} (index : Nat) (prob : ℚ) {targets : List DemTarget}
    (hother : .other ∉ targets) (done : List DemTarget) (columns : List StimColumn) :
    ∃ st, targets.foldlM (readTarget use index prob) (paritiesOf done, hitListsOf columns) = .ok st ∧
      (flush prob st).2 =
        hitListsOf (columns ++ columnsOf prob (componentsFrom use done targets)) := by
  induction targets generalizing done columns with
  | nil =>
    refine ⟨_, rfl, ?_⟩
    rw [flush_paritiesOf]
    cases use <;> simp [componentsFrom]
  | cons target targets ih =>
    rw [List.mem_cons, not_or] at hother
    rw [List.foldlM_cons]
    by_cases hsep : target = .separator
    · subst hsep
      cases use with
      | true =>
        -- the component ends here, and the next is empty so far
        obtain ⟨st, hst, hflush⟩ := ih hother.2 [] (columns ++ columnsOf prob [done])
        have hcomponents : componentsFrom true done (.separator :: targets) =
            done :: componentsFrom true [] targets := by
          rw [componentsFrom_nil]
          simp [componentsFrom, List.splitOn, List.splitOnP_cons_eq_if_modifyHead]
        refine ⟨st, ?_, ?_⟩
        · rw [readTarget, if_pos rfl, flush_paritiesOf, ok_bind, hst]
        · rw [hflush, hcomponents, columnsOf_cons prob done (componentsFrom true [] targets),
            List.append_assoc]
      | false =>
        obtain ⟨st, hst, hflush⟩ := ih hother.2 (done ++ [.separator]) columns
        have hsame : paritiesOf (done ++ [.separator]) = paritiesOf done := by
          simp [paritiesOf, oddDetectors, oddObservables]
        refine ⟨st, ?_, ?_⟩
        · rw [readTarget, if_neg (by decide), ok_bind, ← hsame, hst]
        · rw [hflush, componentsFrom_cons done targets (by simp)]
    · obtain ⟨st, hst, hflush⟩ := ih hother.2 (done ++ [target]) columns
      refine ⟨st, ?_, ?_⟩
      · have hpush := pushTarget_paritiesOf index done hsep (Ne.symm hother.1)
        have hread : readTarget use index prob (paritiesOf done, hitListsOf columns) target =
            .ok (paritiesOf (done ++ [target]), hitListsOf columns) := by
          cases target with
          | separator => exact absurd rfl hsep
          | _ =>
            rw [readTarget, hpush, ok_bind]
            · rfl
            · exact hsep
        rw [hread, ok_bind, hst]
      · rw [hflush, componentsFrom_cons done targets fun _ => hsep]

theorem readInstruction_eq {use : Bool} {inst : DemInstruction} (index : Nat)
    (hprob : ∃ p rest, inst.argData = p :: rest ∧ 0 ≤ p ∧ p ≤ 1) (hother : .other ∉ inst.targetData)
    (columns : List StimColumn) :
    readInstruction use (hitListsOf columns) (inst, index) =
      .ok (hitListsOf (columns ++ inst.columns use)) := by
  obtain ⟨p, rest, hargs, hp⟩ := hprob
  have hinst : inst.prob = p := by rw [DemInstruction.prob, hargs, List.headD_cons]
  obtain ⟨st, hst, hflush⟩ := @foldlM_readTarget use index p _ hother [] columns
  rw [componentsFrom_nil] at hflush
  have hcheck : checkProbability index inst = .ok p := by
    rw [checkProbability, hargs]
    simp only [throwIf_of_not (not_not.mpr hp), ok_bind]
    rfl
  have hstart : (⟨[], []⟩ : Parities) = paritiesOf [] := rfl
  rw [readInstruction]
  simp only [hcheck, ok_bind, hstart, hst]
  rw [DemInstruction.columns, hinst]
  exact congrArg Except.ok hflush

section

variable {stim : String → Except String StimModel} {demText : String} {dem : StimModel} {use : Bool}

theorem foldlM_readInstruction (hdem : dem.WellFormed) :
    dem.errors.zipIdx.foldlM (readInstruction use) ⟨[], [], []⟩ = .ok (hitListsOf (dem.columns use)) := by
  have hfold : dem.errors.zipIdx.foldlM (readInstruction use) (hitListsOf []) =
      .ok (hitListsOf (dem.errors.zipIdx.flatMap fun p => p.1.columns use)) := by
    apply foldlM_eq_ok_of_step
      (s := fun done : List (DemInstruction × Nat) => hitListsOf (done.flatMap fun p => p.1.columns use))
    intro done p rest hp
    have hzip : p ∈ dem.errors.zipIdx := hp ▸ List.mem_append_right done List.mem_cons_self
    have hmem : p.1 ∈ dem.errors := List.fst_mem_of_mem_zipIdx hzip
    have hstep := @readInstruction_eq use _ p.2 (hdem.prob _ hmem) (hdem.other _ hmem)
      (done.flatMap fun p => p.1.columns use)
    rw [List.flatMap_append, List.flatMap_singleton]
    exact hstep
  have hall : (dem.errors.zipIdx.flatMap fun p => p.1.columns use) = dem.columns use := by
    rw [StimModel.columns]
    conv_rhs => rw [← List.zipIdx_map_fst 0 dem.errors, List.flatMap_map]
  rw [← hall]
  exact hfold

def parsedOf (dem : StimModel) (use : Bool) : ParsedStimDem where
  toHitLists := hitListsOf (dem.columns use)
  numDetectors := dem.countDetectors
  numObservables := dem.countObservables

/-- A model with a column is parsed to its columns, and one without is rejected. -/
theorem parseStimDem_eq (hstim : stim demText = .ok dem) (hdem : dem.WellFormed) :
    parseStimDem use stim demText = if dem.columns use = [] then
      .error (.runtimeError "Stim DEM contains no error mechanisms after flattening")
    else .ok (parsedOf dem use) := by
  have hnil : (hitListsOf (dem.columns use)).detectorHits = [] ↔ dem.columns use = [] := List.map_eq_nil_iff
  simp only [parseStimDem, hstim, foldlM_readInstruction hdem, ok_bind]
  split
  next h => rw [throwIf, if_pos (hnil.mpr h), error_bind]
  next h => rw [throwIf_of_not (mt hnil.mp h), ok_bind]; rfl

/-! ## The dense model -/

/-- The components name each target as often as the instruction does. -/
theorem sum_count_components (inst : DemInstruction) {t : DemTarget} (ht : t ≠ .separator) :
    ((inst.components use).map (List.count t)).sum = inst.targetData.count t := by
  cases use with
  | false => simp [DemInstruction.components]
  | true => exact sum_count_splitOn ht inst.targetData

theorem exists_instruction {c : StimColumn} (h : c ∈ dem.columns use) :
    ∃ inst ∈ dem.errors, ∀ t ∈ c.targets, t ≠ .separator → t ∈ inst.targetData := by
  obtain ⟨inst, hinst, hc⟩ := List.mem_flatMap.mp h
  obtain ⟨targets, htargets, rfl⟩ := List.mem_map.mp hc
  refine ⟨inst, hinst, fun t ht hsep => List.count_pos_iff.mp ?_⟩
  rw [← @sum_count_components use inst _ hsep]
  have hle : targets.count t ≤ ((inst.components use).map (List.count t)).sum :=
    List.le_sum_of_mem (List.mem_map.mpr ⟨targets, (List.mem_filter.mp htargets).1, rfl⟩)
  exact lt_of_lt_of_le (List.count_pos_iff.mpr ht) hle

theorem mem_of_mem_oddDetectors {targets : List DemTarget} {r : Nat} (h : r ∈ oddDetectors targets) :
    .detector r ∈ targets := by
  rw [mem_oddDetectors] at h
  exact List.count_pos_iff.mp (by omega)

theorem mem_of_mem_oddObservables {targets : List DemTarget} {r : Nat}
    (h : r ∈ oddObservables targets) : .observable r ∈ targets := by
  rw [mem_oddObservables] at h
  exact List.count_pos_iff.mp (by omega)

theorem hits_lt (hdem : dem.WellFormed) {c : StimColumn} (h : c ∈ dem.columns use) :
    (∀ r ∈ oddDetectors c.targets, r < dem.countDetectors) ∧
      ∀ r ∈ oddObservables c.targets, r < dem.countObservables := by
  obtain ⟨inst, hinst, hmem⟩ := exists_instruction h
  exact ⟨fun r hr => hdem.detector _ hinst _ (hmem _ (mem_of_mem_oddDetectors hr) (by simp)),
    fun r hr => hdem.observable _ hinst _ (hmem _ (mem_of_mem_oddObservables hr) (by simp))⟩

/-! ## Hits in range -/

theorem validateHitIds_eq (hdem : dem.WellFormed) : validateHitIds (parsedOf dem use) = .ok () := by
  rw [validateHitIds, throwIf_of_not, ok_bind, throwIf_of_not]
  · rintro ⟨_, hhits, ob, hob, hle⟩
    obtain ⟨c, hc, rfl⟩ := List.mem_map.mp hhits
    exact absurd ((hits_lt hdem hc).2 ob hob) (not_lt.mpr hle)
  · rintro ⟨_, hhits, det, hdet, hle⟩
    obtain ⟨c, hc, rfl⟩ := List.mem_map.mp hhits
    exact absurd ((hits_lt hdem hc).1 det hdet) (not_lt.mpr hle)

def denseOf (rows : Nat) (columns : List (List Nat)) : BitTensor :=
  let t := BitTensor.alloc [rows, columns.length]
  { t with data := flipAll t.data (BitTensor.positions id columns.length 0 columns) }

def denseUpTo (rows : Nat) (columns : List (List Nat)) (err : Nat) : BitTensor :=
  let t := BitTensor.alloc [rows, columns.length]
  { t with data := flipAll t.data (BitTensor.positions id columns.length 0 (columns.take err)) }

theorem denseUpTo_zero (rows : Nat) (columns : List (List Nat)) :
    denseUpTo rows columns 0 = .alloc [rows, columns.length] := rfl

theorem denseUpTo_of_length {rows n : Nat} {columns : List (List Nat)} (h : columns.length = n) :
    denseUpTo rows columns n = denseOf rows columns := by
  rw [denseUpTo, List.take_of_length_le (le_of_eq h)]
  rfl

theorem flipColumn_denseUpTo {rows : Nat} {columns : List (List Nat)} {err : Nat}
    (hsize : rows * columns.length < 2 ^ 64) (hrows : ∀ c ∈ columns, ∀ i ∈ c, i < rows)
    (herr : err < columns.length) :
    (denseUpTo rows columns err).flipColumn (columns.getD err []) err =
      .ok (denseUpTo rows columns (err + 1)) := by
  have hcol : columns.getD err [] = columns[err] := List.getD_eq_getElem _ _ herr
  rw [hcol, BitTensor.flipColumn_of_lt rfl ?_ (hrows _ (List.getElem_mem herr)) herr]
  · simp only [denseUpTo, ← flipAll_append]
    rw [← List.take_append_getElem herr, BitTensor.positions_concat, List.length_take,
      Nat.min_eq_left herr.le, Nat.zero_add]
    rfl
  · have hprod : [rows, columns.length].prod = rows * columns.length := by simp
    simp only [denseUpTo, BitTensor.alloc, length_flipAll, List.length_replicate, hprod,
      size64_of_lt hsize]
    exact le_refl _

/-- An element of a dense matrix whose columns name each row at most once. -/
theorem get_denseOf {rows : Nat} {columns : List (List Nat)} (hsize : rows * columns.length < 2 ^ 64)
    (hnodup : ∀ c ∈ columns, c.Nodup) {r j : Nat} (hr : r < rows) (hj : j < columns.length) :
    (denseOf rows columns).get r j = decide (r ∈ columns[j]) := by
  have hprod : [rows, columns.length].prod = rows * columns.length := by simp
  have hrow := BitTensor.map_get_positions id (t := denseOf rows columns) (i := r) rfl
    (by rw [denseOf, BitTensor.alloc, hprod, size64_of_lt hsize]; rfl) (by
      have hle := Nat.mul_le_mul_right columns.length (show r + 1 ≤ rows from hr)
      rw [Nat.succ_mul] at hle
      exact hle)
  have hget := congrArg (·[j]?) hrow
  have hcols : (denseOf rows columns).cols = columns.length := rfl
  simp only [hcols, List.getElem?_map, List.getElem?_range hj, Option.map_some,
    List.getElem?_eq_getElem hj, Option.some.injEq, id_eq] at hget
  rw [hget, decide_eq_decide]
  have hone := List.nodup_iff_count_le_one.mp (hnodup _ (List.getElem_mem hj)) r
  rw [← List.count_pos_iff]
  omega

def denseModel (dem : StimModel) (use : Bool) : Css.Dem where
  detectorErrorMatrix := denseOf dem.countDetectors (hitListsOf (dem.columns use)).detectorHits
  observablesFlipsMatrix := denseOf dem.countObservables (hitListsOf (dem.columns use)).observableHits
  errorRates := (dem.columns use).map (·.rate)

/-- All columns. -/
theorem foldlM_fillColumn (hdem : dem.WellFormed) (hdetectors : dem.countDetectors < 2 ^ 32)
    (hobservables : dem.countObservables < 2 ^ 32) (hcolumns : (dem.columns use).length < 2 ^ 32) :
    (List.range (dem.columns use).length).foldlM (fillColumn (parsedOf dem use)) {
      detectorErrorMatrix := .alloc [dem.countDetectors, (dem.columns use).length]
      observablesFlipsMatrix := .alloc [dem.countObservables, (dem.columns use).length]
      errorRates := (dem.columns use).map (·.rate) } = .ok (denseModel dem use) := by
  have hsize {rows : Nat} (h : rows < 2 ^ 32) : rows * (dem.columns use).length < 2 ^ 64 :=
    calc rows * (dem.columns use).length ≤ 2 ^ 32 * (dem.columns use).length :=
          Nat.mul_le_mul_right _ h.le
      _ < 2 ^ 32 * 2 ^ 32 := Nat.mul_lt_mul_of_pos_left hcolumns (by decide)
      _ = 2 ^ 64 := by decide
  have hdetLen : (parsedOf dem use).detectorHits.length = (dem.columns use).length := List.length_map _
  have hobsLen : (parsedOf dem use).observableHits.length = (dem.columns use).length :=
    List.length_map _
  have hdetLt : ∀ c ∈ (parsedOf dem use).detectorHits, ∀ i ∈ c, i < dem.countDetectors := by
    intro _ hmem
    obtain ⟨c, hc, rfl⟩ := List.mem_map.mp hmem
    exact (hits_lt hdem hc).1
  have hobsLt : ∀ c ∈ (parsedOf dem use).observableHits, ∀ i ∈ c, i < dem.countObservables := by
    intro _ hmem
    obtain ⟨c, hc, rfl⟩ := List.mem_map.mp hmem
    exact (hits_lt hdem hc).2
  -- after `err` columns the tensors hold the hits of these columns
  have hloop := foldlM_range_cases (P := fun _ => False) (n := (dem.columns use).length)
    (f := fillColumn (parsedOf dem use))
    (s := fun err => ⟨denseUpTo dem.countDetectors (parsedOf dem use).detectorHits err,
      denseUpTo dem.countObservables (parsedOf dem use).observableHits err,
      (dem.columns use).map (·.rate)⟩)
    fun err herr => .inl (by
      have hdet := flipColumn_denseUpTo (hdetLen ▸ hsize hdetectors) hdetLt (hdetLen.symm ▸ herr)
      have hobs := flipColumn_denseUpTo (hobsLen ▸ hsize hobservables) hobsLt (hobsLen.symm ▸ herr)
      simp only [fillColumn]
      rw [hdet, ok_bind, hobs, ok_bind]
      rfl)
  simp only [denseUpTo_zero, hdetLen, hobsLen] at hloop
  rcases hloop with hok | ⟨_, hfalse, -⟩
  · rw [hok, denseUpTo_of_length hdetLen, denseUpTo_of_length hobsLen]
    rfl
  · exact hfalse.elim

/-- The model of a text with a column left, and the rejection of one without. -/
theorem demFromStimText_eq (hstim : stim demText = .ok dem) (hdem : dem.WellFormed)
    (hdetectors : dem.countDetectors < 2 ^ 32) (hobservables : dem.countObservables < 2 ^ 32)
    (hcolumns : (dem.columns use).length < 2 ^ 32) :
    demFromStimText stim demText use = if dem.columns use = [] then
      .error (.thrown (.runtimeError "Stim DEM contains no error mechanisms after flattening"))
    else .ok (denseModel dem use) := by
  rw [demFromStimText, parseStimDem_eq hstim hdem]
  split
  · rfl
  · have hparsed : thrown (.ok (parsedOf dem use) : Except Error ParsedStimDem) =
        .ok (parsedOf dem use) := rfl
    have hlen : (parsedOf dem use).detectorHits.length = (dem.columns use).length := List.length_map _
    simp only [hparsed, ok_bind, thrown_eq_ok.mpr (validateHitIds_eq hdem), hlen]
    exact foldlM_fillColumn hdem hdetectors hobservables hcolumns

end

end CudaqQec
