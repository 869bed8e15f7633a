import CudaqQec.Window.Request
import CudaqQec.Lib.Documents
import CudaqQec.Lib.Rounding

/-!
# Window requests in YAML

`window_request_to_yaml_str` and `window_request_from_yaml_str`. A request becomes a form, and a form a
document; a range is written as a list, one range of a send as two numbers and several as lists, and
what has its default is left out. The prior is written with six digits.

* `windowRequestFromYaml_windowRequestToYaml`: a request is read back with the prior that was written.
* `fromYaml_toYaml_iff`: it is read back as it was exactly when the prior survives that.
-/

namespace CudaqQec.WindowYaml

open Checked Document Rounding

/-! ## Forms -/

/-- `range_map_form`: `{rounds: [b, e]}`. -/
structure RangeMapForm where
  rounds : List Int := []

/-- `range_form`: a range in either form; a scalar is kept only to be rejected. -/
structure RangeForm where
  map : RangeMapForm := {}
  scalar : String := ""

structure ZonesForm where
  commit : Option RangeForm := none
  buffers : List RangeForm := []

structure InputForm where
  disposition : Option PortDisposition := none
  boundary : Option InputBoundary := none
  prior : Option ℚ := none

structure OutputForm where
  disposition : Option PortDisposition := none
  imports : Option RangeForm := none

structure PortsForm where
  input : InputForm := {}
  output : OutputForm := {}

/-- `round_number`: a number that records that it was read. -/
structure RoundNumber where
  value : Int := 0
  set : Bool := false

/-- `rounds_item`: a number of the one range, or a range. -/
structure RoundsItem where
  number : RoundNumber := {}
  list : List Int := []
  map : RangeMapForm := {}

/-- `send_rounds_form`: one range, or a list of ranges. -/
structure SendRoundsForm where
  items : List RoundsItem := []
  map : RangeMapForm := {}
  scalar : String := ""

structure SendForm where
  id : String
  mode : Option SendMode := none
  rounds : Option SendRoundsForm := none

/-- `request_form`; a required key is optional, so that a missing one is told from its default. The form
of the columns has the fields of `ColumnOptions`. -/
structure RequestForm where
  period : Option Int := none
  offset : Int := 0
  zones : Option ZonesForm := none
  ports : Option PortsForm := none
  sends : List SendForm := []
  columns : ColumnOptions := {}

/-! ## Forms and requests -/

/-- `to_range`: a range form as `[begin, end)`. -/
def toRange (form : RangeForm) : Except Error RoundRange :=
  match form.map.rounds with
  | [b, e] => do
    throwIf (form.scalar ≠ "") (rejectRequest "a round range is [begin, end]")
    return ⟨b, e⟩
  | _ => .error (rejectRequest "a round range is [begin, end]")

def toForm (range : RoundRange) : RangeForm := { map := ⟨[range.begin, range.stop]⟩ }

/-- What `to_ranges` throws. -/
def sendShape : Error := rejectRequest "a send's rounds are [begin, end] or a list of ranges"

/-- `to_ranges`: one range, or a list whose every element is a range. -/
def toRanges (form : SendRoundsForm) : Except Error (List RoundRange) := do
  throwIf (form.scalar ≠ "") sendShape
  if form.map.rounds ≠ [] then
    return [← toRange { map := form.map }]
  let numbers := (form.items.filter fun item => item.number.set).map fun item => item.number.value
  if numbers ≠ [] ∧ numbers.length = form.items.length then
    return [← toRange { map := ⟨numbers⟩ }]
  throwIf (numbers ≠ [] ∨ form.items.length = 0) sendShape
  form.items.mapM fun item => toRange { map := if item.list = [] then item.map else ⟨item.list⟩ }

/-- `to_send_form`: one range as `[begin, end]`, several as a list of them. -/
def toSendForm (rounds : List RoundRange) : SendRoundsForm :=
  match rounds with
  | [r] => { items := [{ number := ⟨r.begin, true⟩ }, { number := ⟨r.stop, true⟩ }] }
  | rounds => { items := rounds.map fun r => { list := [r.begin, r.stop] } }

/-- A send of `request_from_form`. -/
def sendFromForm (send : SendForm) : Except Error SendRequest := do
  let rounds ← match send.rounds with
    | none => pure []
    | some form => toRanges form
  return ⟨send.id, send.mode, rounds⟩

/-- `request_from_form`: field for field; a send's rounds become its list of ranges. -/
def requestFromForm (form : RequestForm) : Except Error WindowRequest :=
  match form.period, form.zones, form.ports with
  | none, _, _ => .error (rejectRequest "missing required key 'period'")
  | some _, none, _ => .error (rejectRequest "missing required key 'zones'")
  | some _, some _, none => .error (rejectRequest "missing required key 'ports'")
  | some period, some zones, some ports => do
    let commit ← zones.commit.mapM toRange
    let buffers ← zones.buffers.mapM toRange
    let imports ← ports.output.imports.mapM toRange
    let sends ← form.sends.mapM sendFromForm
    return ⟨period, form.offset, commit, buffers,
      ⟨ports.input.disposition, ports.input.prior, ports.input.boundary⟩,
      ⟨ports.output.disposition, imports⟩, sends, form.columns⟩

def formFromSend (send : SendRequest) : SendForm :=
  ⟨send.id, send.mode, if send.rounds = [] then none else some (toSendForm send.rounds)⟩

/-- `form_from_request`: every range in list form. -/
def formFromRequest (request : WindowRequest) : RequestForm where
  period := some request.period
  offset := request.offset
  zones := some ⟨request.commit.map toForm, request.buffers.map toForm⟩
  ports := some ⟨⟨request.input.disposition, request.input.boundary, request.input.prior⟩,
    ⟨request.output.disposition, request.output.imports.map toForm⟩⟩
  sends := request.sends.map formFromSend
  columns := request.columns

/-! ## Scalars -/

def invalidYaml : Error := rejectRequest "invalid YAML (Invalid argument)"

def orInvalid {α : Type} : Option α → Except Error α
  | none => .error invalidYaml
  | some a => .ok a

/-- A plain double as `%g` writes it: six digits. -/
def ofDouble (x : ℚ) : Node :=
  .scalar (.decimal (halfEven (x / 10 ^ lastPlace 10 6 x)) (lastPlace 10 6 x))

def writtenPrior (x : ℚ) : ℚ := double (significant 10 6 x)

def double? : Node → Option ℚ
  | .scalar (.decimal digits exponent) => some (double (digits * 10 ^ exponent))
  | .scalar (.text s) => s.toInt?.map fun n => double n
  | _ => none

def portDispositions : List (String × PortDisposition) := [("open", .opened), ("closed", .closed)]

def inputBoundaries : List (String × InputBoundary) := [("columns", .columns), ("truncate", .truncate)]

def sendModes : List (String × SendMode) := [("delta", .delta), ("residual", .residual)]

def parallelResolutions : List (String × ParallelResolution) :=
  [("reject", .reject), ("most_likely", .mostLikely)]

/-! ## Writing -/

def writeInts (xs : List Int) : Node := .seq (xs.map .ofInt)

def writeRange (form : RangeForm) : Node := writeInts form.map.rounds

def writeItem (item : RoundsItem) : Node :=
  if item.number.set then .ofInt item.number.value else writeInts item.list

def writeSendRounds (form : SendRoundsForm) : Node := .seq (form.items.map writeItem)

def elided {α : Type} (write : α → Node) (xs : List α) : Option Node :=
  if xs.isEmpty then none else some (.seq (xs.map write))

def writeZones (form : ZonesForm) : Node :=
  .map (entryOf "commit" (form.commit.map writeRange) ++
    entryOf "buffers" (elided writeRange form.buffers))

def writeInput (form : InputForm) : Node :=
  .map (entryOf "disposition" (form.disposition.map (.ofEnum portDispositions)) ++
    (entryOf "boundary" (form.boundary.map (.ofEnum inputBoundaries)) ++
      entryOf "prior" (form.prior.map ofDouble)))

def writeOutput (form : OutputForm) : Node :=
  .map (entryOf "disposition" (form.disposition.map (.ofEnum portDispositions)) ++
    entryOf "imports" (form.imports.map writeRange))

def writePorts (form : PortsForm) : Node :=
  .map [("input", writeInput form.input), ("output", writeOutput form.output)]

def writeSend (form : SendForm) : Node :=
  .map (entryOf "id" (some (.scalar (.text form.id))) ++
    (entryOf "mode" (form.mode.map (.ofEnum sendModes)) ++
      entryOf "rounds" (form.rounds.map writeSendRounds)))

def writeColumns (columns : ColumnOptions) : Node :=
  .map (entryOf "merge_identical"
      (if columns.mergeIdentical then some (.ofBool columns.mergeIdentical) else none) ++
    entryOf "conflicting_parallel" (if columns.conflictingParallel = .reject then none
      else some (.ofEnum parallelResolutions columns.conflictingParallel)))

def writeRequest (form : RequestForm) : Node :=
  .map (entryOf "period" (form.period.map .ofInt) ++
    (entryOf "offset" (if form.offset = 0 then none else some (.ofInt form.offset)) ++
      (entryOf "zones" (form.zones.map writeZones) ++
        (entryOf "ports" (form.ports.map writePorts) ++
          (entryOf "sends" (elided writeSend form.sends) ++
            entryOf "columns" (if form.columns = {} then none
              else some (writeColumns form.columns)))))))

/-- `window_request_to_yaml_str`, as a document. -/
def windowRequestToYaml (request : WindowRequest) : Node := writeRequest (formFromRequest request)

/-! ## Reading -/

def readInts (node : Node) : Except Error (List Int) := do
  let items ← orInvalid node.items?
  items.mapM fun item => orInvalid item.int?

/-- One key of a range in map form; `occurrences` and `block` are reserved. -/
def RangeMapForm.inputOne (_ : RangeMapForm) (entry : String × Node) : Except Error RangeMapForm :=
  if entry.1 = "rounds" then do
    return ⟨← readInts entry.2⟩
  else if entry.1 = "occurrences" ∨ entry.1 = "block" then
    .error (rejectRequest ("'" ++ entry.1 ++
      "' is reserved for spatial windows, which are not supported yet"))
  else .error (rejectRequest ("unknown key '" ++ entry.1 ++ "' in a round range"))

def readRangeMap (node : Node) : Except Error RangeMapForm := do
  (← orInvalid node.entries?).foldlM RangeMapForm.inputOne {}

/-- `[b, e]` or `{rounds: [b, e]}`; an empty range is rejected first. -/
def readRange (node : Node) : Except Error RangeForm :=
  match node with
  | .null => .error (rejectRequest "a round range is [begin, end]")
  | .scalar s => .ok { scalar := s.string }
  | .seq _ => do return { map := ⟨← readInts node⟩ }
  | .map _ => do return { map := ← readRangeMap node }

def readItem (node : Node) : Except Error RoundsItem :=
  match node with
  | .null => .error sendShape
  | .scalar _ => do return { number := ⟨← orInvalid node.int?, true⟩ }
  | .seq _ => do return { list := ← readInts node }
  | .map _ => do return { map := ← readRangeMap node }

def readSendRounds (node : Node) : Except Error SendRoundsForm :=
  match node with
  | .null => .error sendShape
  | .scalar s => .ok { scalar := s.string }
  | .seq items => do return { items := ← items.mapM readItem }
  | .map _ => do return { map := ← readRangeMap node }

/-- `mapOptional`: a key that may be missing. -/
def readOptional {α : Type} (read : Node → Except Error α) : Option Node → Except Error (Option α)
  | none => .ok none
  | some node => do return some (← read node)

def readDefault {α : Type} (read : Node → Except Error α) (default : α) : Option Node → Except Error α
  | none => .ok default
  | some node => read node

def readList {α : Type} (read : Node → Except Error α) (node : Node) : Except Error (List α) := do
  (← orInvalid node.items?).mapM read

def readEnum {α : Type} (cases : List (String × α)) (node : Node) : Except Error α :=
  orInvalid (node.enum? cases)

def readZones (node : Node) : Except Error ZonesForm := do
  let entries ← orInvalid (node.mapping? ["commit", "buffers"])
  let commit ← readOptional readRange (entries.lookup "commit")
  let buffers ← readDefault (readList readRange) [] (entries.lookup "buffers")
  return ⟨commit, buffers⟩

def readInput (node : Node) : Except Error InputForm := do
  let entries ← orInvalid (node.mapping? ["disposition", "boundary", "prior"])
  let disposition ← readOptional (readEnum portDispositions) (entries.lookup "disposition")
  let boundary ← readOptional (readEnum inputBoundaries) (entries.lookup "boundary")
  let prior ← readOptional (fun node => orInvalid (double? node)) (entries.lookup "prior")
  return ⟨disposition, boundary, prior⟩

def readOutput (node : Node) : Except Error OutputForm := do
  let entries ← orInvalid (node.mapping? ["disposition", "imports"])
  let disposition ← readOptional (readEnum portDispositions) (entries.lookup "disposition")
  let imports ← readOptional readRange (entries.lookup "imports")
  return ⟨disposition, imports⟩

/-- One port; only the temporal ones have a name. -/
def PortsForm.inputOne (form : PortsForm) (entry : String × Node) : Except Error PortsForm :=
  if entry.1 = "input" then do
    return { form with input := ← readInput entry.2 }
  else if entry.1 = "output" then do
    return { form with output := ← readOutput entry.2 }
  else .error (rejectRequest ("port '" ++ entry.1 ++
    "': spatial ports are not supported yet; use input and output"))

def readPorts (node : Node) : Except Error PortsForm := do
  (← orInvalid node.entries?).foldlM PortsForm.inputOne {}

def readSend (node : Node) : Except Error SendForm := do
  let entries ← orInvalid (node.mapping? ["id", "mode", "rounds"])
  let id ← orInvalid ((entries.lookup "id").bind Node.string?)
  let mode ← readOptional (readEnum sendModes) (entries.lookup "mode")
  let rounds ← readOptional readSendRounds (entries.lookup "rounds")
  return ⟨id, mode, rounds⟩

def readColumns (node : Node) : Except Error ColumnOptions := do
  let entries ← orInvalid (node.mapping? ["merge_identical", "conflicting_parallel"])
  let mergeIdentical ← readDefault (fun node => orInvalid node.bool?) false
    (entries.lookup "merge_identical")
  let conflictingParallel ← readDefault (readEnum parallelResolutions) .reject
    (entries.lookup "conflicting_parallel")
  return ⟨mergeIdentical, conflictingParallel⟩

/-- One key of a request; `responsibility` and `soundness_class` are reserved. -/
def RequestForm.inputOne (form : RequestForm) (entry : String × Node) : Except Error RequestForm :=
  if entry.1 = "period" then do
    return { form with period := some (← orInvalid entry.2.int?) }
  else if entry.1 = "offset" then do
    return { form with offset := ← orInvalid entry.2.int? }
  else if entry.1 = "zones" then do
    return { form with zones := some (← readZones entry.2) }
  else if entry.1 = "ports" then do
    return { form with ports := some (← readPorts entry.2) }
  else if entry.1 = "sends" then do
    return { form with sends := ← readList readSend entry.2 }
  else if entry.1 = "columns" then do
    return { form with columns := ← readColumns entry.2 }
  else if entry.1 = "responsibility" ∨ entry.1 = "soundness_class" then
    .error (rejectRequest ("'" ++ entry.1 ++
      "' is reserved for spatial windows, which are not supported yet"))
  else .error (rejectRequest ("unknown key '" ++ entry.1 ++ "'"))

def readRequest (node : Node) : Except Error RequestForm := do
  (← orInvalid node.entries?).foldlM RequestForm.inputOne {}

/-- `window_request_from_yaml_str`, of a document. -/
def windowRequestFromYaml (node : Node) : Except Error WindowRequest := do
  let form ← readRequest node
  let request ← requestFromForm form
  checkRequest request
  return request

/-! ## What is written is read -/

section RoundTrip

/-- Reading element by element what was written element by element. -/
theorem mapM_map_eq_ok {α β γ : Type} {write : α → β} {read : β → Except Error γ} {g : α → γ}
    {xs : List α} (h : ∀ x ∈ xs, read (write x) = .ok (g x)) :
    (xs.map write).mapM read = .ok (xs.map g) := by
  rw [mapM_eq_ok, List.forall₂_map_left_iff, List.forall₂_map_right_iff, List.forall₂_same]
  exact h

theorem readOptional_map {α β : Type} {write : α → Node} {read : Node → Except Error β} {g : α → β}
    {o : Option α} (h : ∀ a ∈ o, read (write a) = .ok (g a)) :
    readOptional read (o.map write) = .ok (o.map g) := by
  cases o with
  | none => rfl
  | some a =>
    rw [Option.map_some, readOptional, h a rfl]
    rfl

/-- A value that comes back as it is. -/
theorem readOptional_map_self {α : Type} {write : α → Node} {read : Node → Except Error α} {o : Option α}
    (h : ∀ a ∈ o, read (write a) = .ok a) : readOptional read (o.map write) = .ok o := by
  have hmap := readOptional_map (g := id) h
  rwa [Option.map_id] at hmap

/-- Values that come back as they are. -/
theorem readDefault_elided {α : Type} {write : α → Node} {read : Node → Except Error α} {xs : List α}
    (h : ∀ x ∈ xs, read (write x) = .ok x) :
    readDefault (readList read) [] (elided write xs) = .ok xs := by
  cases xs with
  | nil => rfl
  | cons x xs =>
    have hmap := mapM_map_eq_ok (g := id) h
    rw [List.map_id] at hmap
    exact hmap

@[simp] theorem orInvalid_some {α : Type} (a : α) : orInvalid (some a) = .ok a := rfl

@[simp] theorem readInts_writeInts (xs : List Int) : readInts (writeInts xs) = .ok xs := by
  have h : (xs.map Node.ofInt).mapM (fun item => orInvalid item.int?) = .ok (xs.map id) :=
    mapM_map_eq_ok fun n _ => by rw [Node.int?_ofInt, orInvalid_some, id]
  rw [List.map_id] at h
  exact h

/-- Words are read back. -/
theorem readEnum_ofEnum {α : Type} [DecidableEq α] {cases : List (String × α)} {a : α}
    (hwords : (cases.map Prod.fst).Nodup) (ha : a ∈ cases.map Prod.snd) :
    readEnum cases (.ofEnum cases a) = .ok a := by
  rw [readEnum, Node.enum?_ofEnum hwords ha, orInvalid_some]

theorem readEnum_portDispositions (d : PortDisposition) :
    readEnum portDispositions (.ofEnum portDispositions d) = .ok d :=
  readEnum_ofEnum (by decide) (by cases d <;> decide)

theorem readEnum_inputBoundaries (b : InputBoundary) :
    readEnum inputBoundaries (.ofEnum inputBoundaries b) = .ok b :=
  readEnum_ofEnum (by decide) (by cases b <;> decide)

theorem readEnum_sendModes (m : SendMode) : readEnum sendModes (.ofEnum sendModes m) = .ok m :=
  readEnum_ofEnum (by decide) (by cases m <;> decide)

/-! ### Ranges -/

@[simp] theorem toRange_toForm (r : RoundRange) : toRange (toForm r) = .ok r := rfl

def RangeForm.Whole (form : RangeForm) : Prop := ∃ r, toForm r = form

theorem readRange_writeRange {form : RangeForm} (h : form.Whole) :
    readRange (writeRange form) = .ok form := by
  obtain ⟨r, rfl⟩ := h
  change (do return { map := ⟨← readInts (writeInts [r.begin, r.stop])⟩ } : Except Error RangeForm) = _
  rw [readInts_writeInts]
  rfl

theorem readItem_ofInt (n : Int) : readItem (.ofInt n) = .ok { number := ⟨n, true⟩ } := by
  change (do return { number := ⟨← orInvalid (Node.ofInt n).int?, true⟩ } : Except Error RoundsItem) = _
  rw [Node.int?_ofInt]
  rfl

/-- Several ranges are a list of lists, one is a list of its two numbers. -/
theorem readSendRounds_writeSendRounds (rounds : List RoundRange) :
    readSendRounds (writeSendRounds (toSendForm rounds)) = .ok (toSendForm rounds) := by
  have hitems : ∀ item ∈ (toSendForm rounds).items, readItem (writeItem item) = .ok item := by
    intro item hitem
    unfold toSendForm at hitem
    split at hitem
    · next r =>
      simp only [List.mem_cons, List.not_mem_nil, or_false] at hitem
      rcases hitem with rfl | rfl
      · exact readItem_ofInt r.begin
      · exact readItem_ofInt r.stop
    · obtain ⟨r, -, rfl⟩ := List.mem_map.mp hitem
      change (do return { list := ← readInts (writeInts [r.begin, r.stop]) } :
        Except Error RoundsItem) = _
      rw [readInts_writeInts]
      rfl
  have hall := mapM_map_eq_ok (g := id) hitems
  rw [List.map_id] at hall
  rw [writeSendRounds, readSendRounds, hall]
  unfold toSendForm
  split <;> rfl

theorem toRanges_toSendForm {rounds : List RoundRange} (h : rounds ≠ []) :
    toRanges (toSendForm rounds) = .ok rounds := by
  match rounds, h with
  | [r], _ => rfl
  | r :: r' :: rounds, _ =>
    -- no element of several is a number
    have hnumbers : (toSendForm (r :: r' :: rounds)).items.filter (fun item => item.number.set) = [] := by
      rw [List.filter_eq_nil_iff]
      intro item hitem
      obtain ⟨q, -, rfl⟩ := List.mem_map.mp hitem
      exact Bool.false_ne_true
    have hitems : (toSendForm (r :: r' :: rounds)).items.mapM
        (fun item => toRange { map := if item.list = [] then item.map else ⟨item.list⟩ }) =
          .ok ((r :: r' :: rounds).map id) :=
      mapM_map_eq_ok fun q _ => rfl
    rw [List.map_id] at hitems
    unfold toRanges
    rw [throwIf_of_not (by simp [toSendForm]), ok_bind, if_neg (by simp [toSendForm]), hnumbers]
    simp only [List.map_nil, ne_eq, not_true_eq_false, false_and, if_false, false_or]
    rw [throwIf_of_not (by simp [toSendForm]), ok_bind]
    exact hitems

/-! ### Forms -/

theorem double?_ofDouble (x : ℚ) : double? (ofDouble x) = some (writtenPrior x) := by
  rw [ofDouble, double?, writtenPrior, significant, roundAt, Nat.cast_ofNat]

theorem whole_of_mem_map_option {o : Option RoundRange} : ∀ form ∈ o.map toForm, form.Whole := by
  intro form hform
  obtain ⟨r, -, hr⟩ := Option.map_eq_some_iff.mp hform
  exact ⟨r, hr⟩

theorem whole_of_mem_map {rs : List RoundRange} : ∀ form ∈ rs.map toForm, form.Whole := by
  intro form hform
  obtain ⟨r, -, hr⟩ := List.mem_map.mp hform
  exact ⟨r, hr⟩

theorem readZones_writeZones {form : ZonesForm} (hcommit : ∀ c ∈ form.commit, c.Whole)
    (hbuffers : ∀ b ∈ form.buffers, b.Whole) : readZones (writeZones form) = .ok form := by
  have hread := readOptional_map_self fun c hc => readRange_writeRange (hcommit c hc)
  have hreads := readDefault_elided fun b hb => readRange_writeRange (hbuffers b hb)
  rw [readZones, writeZones, mapping?_map (by decide) (sublist_entryOf_append sublist_entryOf)]
  simp [lookup_entryOf_append, lookup_entryOf, hread, hreads]

theorem readInput_writeInput (form : InputForm) :
    readInput (writeInput form) = .ok { form with prior := form.prior.map writtenPrior } := by
  have hdisposition := readOptional_map_self (o := form.disposition)
    fun d _ => readEnum_portDispositions d
  have hboundary := readOptional_map_self (o := form.boundary) fun b _ => readEnum_inputBoundaries b
  have hprior : readOptional (fun node => orInvalid (double? node)) (form.prior.map ofDouble) =
      .ok (form.prior.map writtenPrior) :=
    readOptional_map fun p _ => congrArg orInvalid (double?_ofDouble p)
  rw [readInput, writeInput, mapping?_map (by decide)
    (sublist_entryOf_append (sublist_entryOf_append sublist_entryOf))]
  simp [lookup_entryOf_append, lookup_entryOf, hdisposition, hboundary, hprior]

theorem readOutput_writeOutput {form : OutputForm} (h : ∀ i ∈ form.imports, i.Whole) :
    readOutput (writeOutput form) = .ok form := by
  have hdisposition := readOptional_map_self (o := form.disposition)
    fun d _ => readEnum_portDispositions d
  have himports := readOptional_map_self fun i hi => readRange_writeRange (h i hi)
  rw [readOutput, writeOutput, mapping?_map (by decide) (sublist_entryOf_append sublist_entryOf)]
  simp [lookup_entryOf_append, lookup_entryOf, hdisposition, himports]

theorem readPorts_writePorts {form : PortsForm} (h : ∀ i ∈ form.output.imports, i.Whole) :
    readPorts (writePorts form) =
      .ok { form with input.prior := form.input.prior.map writtenPrior } := by
  have hentries : (writePorts form).entries? =
      some [("input", writeInput form.input), ("output", writeOutput form.output)] := rfl
  rw [readPorts, hentries, orInvalid_some, ok_bind]
  simp [PortsForm.inputOne, readInput_writeInput, readOutput_writeOutput h]

def SendForm.Whole (form : SendForm) : Prop := ∀ rounds ∈ form.rounds, ∃ rs, toSendForm rs = rounds

theorem readSend_writeSend {form : SendForm} (h : form.Whole) :
    readSend (writeSend form) = .ok form := by
  have hmode := readOptional_map_self (o := form.mode) fun m _ => readEnum_sendModes m
  have hrounds : readOptional readSendRounds (form.rounds.map writeSendRounds) = .ok form.rounds := by
    apply readOptional_map_self
    intro rounds hmem
    obtain ⟨rs, rfl⟩ := h rounds hmem
    exact readSendRounds_writeSendRounds rs
  rw [readSend, writeSend, mapping?_map (by decide)
    (sublist_entryOf_append (sublist_entryOf_append sublist_entryOf))]
  simp [lookup_entryOf_append, lookup_entryOf, hmode, hrounds]

theorem whole_formFromSend (send : SendRequest) : (formFromSend send).Whole := by
  intro rounds hmem
  by_cases h : send.rounds = []
  · rw [formFromSend, if_pos h] at hmem
    cases hmem
  · rw [formFromSend, if_neg h] at hmem
    exact ⟨send.rounds, Option.some.inj hmem⟩

theorem readColumns_writeColumns (columns : ColumnOptions) :
    readColumns (writeColumns columns) = .ok columns := by
  obtain ⟨merge, parallel⟩ := columns
  rw [readColumns, writeColumns, mapping?_map (by decide) (sublist_entryOf_append sublist_entryOf)]
  cases merge <;> cases parallel <;> rfl

theorem foldlM_inputOne_offset {form : RequestForm} (h : form.offset = 0) (offset : Int) :
    (entryOf "offset" (if offset = 0 then none else some (.ofInt offset))).foldlM
      RequestForm.inputOne form = .ok { form with offset := offset } := by
  obtain ⟨period, start, zones, ports, sends, columns⟩ := form
  by_cases hzero : offset = 0
  · rw [if_pos hzero, hzero]
    cases h
    rfl
  · rw [if_neg hzero]
    simp [foldlM_entryOf, RequestForm.inputOne]

theorem foldlM_inputOne_sends {form : RequestForm} (h : form.sends = []) {sends : List SendForm}
    (hwhole : ∀ send ∈ sends, send.Whole) :
    (entryOf "sends" (elided writeSend sends)).foldlM RequestForm.inputOne form =
      .ok { form with sends := sends } := by
  have hread := readDefault_elided fun send hsend => readSend_writeSend (hwhole send hsend)
  obtain ⟨period, offset, zones, ports, before, columns⟩ := form
  cases sends with
  | nil =>
    cases h
    rfl
  | cons send sends =>
    change readList readSend (.seq ((send :: sends).map writeSend)) = .ok (send :: sends) at hread
    have helided : elided writeSend (send :: sends) = some (.seq ((send :: sends).map writeSend)) := rfl
    rw [helided, foldlM_entryOf]
    simp only [RequestForm.inputOne, String.reduceEq, if_true, if_false, hread, ok_bind]
    rfl

theorem foldlM_inputOne_columns {form : RequestForm} (h : form.columns = {}) (columns : ColumnOptions) :
    (entryOf "columns" (if columns = {} then none else some (writeColumns columns))).foldlM
      RequestForm.inputOne form = .ok { form with columns := columns } := by
  obtain ⟨period, offset, zones, ports, sends, before⟩ := form
  by_cases hdefault : columns = {}
  · rw [if_pos hdefault, hdefault]
    cases h
    rfl
  · rw [if_neg hdefault]
    simp [foldlM_entryOf, RequestForm.inputOne, readColumns_writeColumns]

/-- A form whose zones and sends come back as they are comes back with the ports that come back. -/
theorem readRequest_writeRequest {form : RequestForm} {period : Int} {zones : ZonesForm}
    {ports ports' : PortsForm} (hperiod : form.period = some period) (hzones : form.zones = some zones)
    (hports : form.ports = some ports) (hreadZones : readZones (writeZones zones) = .ok zones)
    (hreadPorts : readPorts (writePorts ports) = .ok ports') (hsends : ∀ send ∈ form.sends, send.Whole) :
    readRequest (writeRequest form) = .ok { form with ports := some ports' } := by
  obtain ⟨_, offset, _, _, sends, columns⟩ := form
  cases hperiod
  cases hzones
  cases hports
  have hkeys : ∀ o₁ o₂ o₃ o₄ o₅ o₆, ((entryOf "period" o₁ ++ (entryOf "offset" o₂ ++
      (entryOf "zones" o₃ ++ (entryOf "ports" o₄ ++ (entryOf "sends" o₅ ++ entryOf "columns" o₆))))).map
        Prod.fst).Nodup := fun _ _ _ _ _ _ =>
    (by decide : ["period", "offset", "zones", "ports", "sends", "columns"].Nodup).sublist
      (sublist_entryOf_append (sublist_entryOf_append (sublist_entryOf_append (sublist_entryOf_append
        (sublist_entryOf_append sublist_entryOf)))))
  rw [readRequest, writeRequest, Node.entries?, if_pos (hkeys _ _ _ _ _ _), orInvalid_some, ok_bind]
  simp only [List.foldlM_append, Option.map_some]
  have hstart : (entryOf "period" (some (.ofInt period))).foldlM RequestForm.inputOne {} =
      .ok { period := some period } := by
    simp [foldlM_entryOf, RequestForm.inputOne]
  rw [hstart, ok_bind, foldlM_inputOne_offset rfl, ok_bind]
  have hmiddle : (entryOf "zones" (some (writeZones zones))).foldlM RequestForm.inputOne
      { period := some period, offset := offset } =
        .ok { period := some period, offset := offset, zones := some zones } := by
    simp [foldlM_entryOf, RequestForm.inputOne, hreadZones]
  have hend : (entryOf "ports" (some (writePorts ports))).foldlM RequestForm.inputOne
      { period := some period, offset := offset, zones := some zones } =
        .ok { period := some period, offset := offset, zones := some zones, ports := some ports' } := by
    simp [foldlM_entryOf, RequestForm.inputOne, hreadPorts]
  rw [hmiddle, ok_bind, hend, ok_bind, foldlM_inputOne_sends rfl hsends, ok_bind,
    foldlM_inputOne_columns rfl]

theorem sendFromForm_formFromSend (send : SendRequest) : sendFromForm (formFromSend send) = .ok send := by
  obtain ⟨id, mode, rounds⟩ := send
  by_cases h : rounds = []
  · rw [formFromSend, if_pos h, h]
    rfl
  · rw [formFromSend, if_neg h, sendFromForm]
    simp [toRanges_toSendForm h]

theorem requestFromForm_formFromRequest (request : WindowRequest) :
    requestFromForm (formFromRequest request) = .ok request := by
  have hcommit : (request.commit.map toForm).mapM toRange = .ok request.commit := by
    cases request.commit <;> rfl
  have himports : (request.output.imports.map toForm).mapM toRange = .ok request.output.imports := by
    cases request.output.imports <;> rfl
  have hbuffers := mapM_map_eq_ok (g := id) fun r (_ : r ∈ request.buffers) => toRange_toForm r
  have hsends := mapM_map_eq_ok (g := id) fun s (_ : s ∈ request.sends) => sendFromForm_formFromSend s
  rw [List.map_id] at hbuffers hsends
  simp only [requestFromForm, formFromRequest, hcommit, hbuffers, himports, hsends, ok_bind]
  rfl

end RoundTrip

/-! ## Priors -/

def reread (request : WindowRequest) : WindowRequest :=
  { request with input.prior := request.input.prior.map writtenPrior }

/-- A request is read back with the prior that was written, and checked again. -/
theorem windowRequestFromYaml_windowRequestToYaml (request : WindowRequest) :
    windowRequestFromYaml (windowRequestToYaml request) = do
      checkRequest (reread request)
      return reread request := by
  let ports : PortsForm := ⟨⟨request.input.disposition, request.input.boundary, request.input.prior⟩,
    ⟨request.output.disposition, request.output.imports.map toForm⟩⟩
  have hports : readPorts (writePorts ports) = _ := readPorts_writePorts whole_of_mem_map_option
  have hsends : ∀ send ∈ request.sends.map formFromSend, send.Whole := by
    intro form hform
    obtain ⟨send, -, rfl⟩ := List.mem_map.mp hform
    exact whole_formFromSend send
  have hform : readRequest (writeRequest (formFromRequest request)) =
      .ok (formFromRequest (reread request)) :=
    readRequest_writeRequest rfl rfl rfl (readZones_writeZones whole_of_mem_map_option whole_of_mem_map)
      hports hsends
  rw [windowRequestFromYaml, windowRequestToYaml, hform, ok_bind, requestFromForm_formFromRequest,
    ok_bind]

theorem reread_eq_iff {request : WindowRequest} :
    reread request = request ↔ ∀ p ∈ request.input.prior, writtenPrior p = p := by
  obtain ⟨period, offset, commit, buffers, ⟨disposition, prior, boundary⟩, output, sends, columns⟩ := request
  cases prior <;> simp [reread]

/-- A request that is accepted is read back as it was exactly when its prior is the double nearest to
the six digits that are written for it. -/
theorem fromYaml_toYaml_iff {request : WindowRequest} (h : checkRequest request = .ok ()) :
    windowRequestFromYaml (windowRequestToYaml request) = .ok request ↔
      ∀ p ∈ request.input.prior, writtenPrior p = p := by
  rw [windowRequestFromYaml_windowRequestToYaml, ← reread_eq_iff]
  constructor
  · intro hread
    obtain ⟨_, -, hsame⟩ := bind_eq_ok.mp hread
    exact Except.ok.inj hsame
  · intro hsame
    rw [hsame, h, ok_bind]
    rfl

def priorRequest (prior : ℚ) : WindowRequest := { oneRoundRequest with input.prior := some prior }

example : checkRequest (priorRequest (1 / 8)) = .ok () := by decide +kernel

/-- One eighth has three digits. -/
theorem fromYaml_toYaml_eighth :
    windowRequestFromYaml (windowRequestToYaml (priorRequest (1 / 8))) = .ok (priorRequest (1 / 8)) := by
  refine (fromYaml_toYaml_iff (by decide +kernel)).mpr fun p hp => ?_
  cases hp
  decide +kernel

/-- `2 ^ -10` has seven digits: it is accepted, and read back as another prior. -/
theorem not_fromYaml_toYaml :
    checkRequest (priorRequest (1 / 1024)) = .ok () ∧
      windowRequestFromYaml (windowRequestToYaml (priorRequest (1 / 1024))) ≠
        .ok (priorRequest (1 / 1024)) := by
  refine ⟨by decide +kernel, ?_⟩
  rw [windowRequestFromYaml_windowRequestToYaml]
  intro hread
  obtain ⟨_, -, hsame⟩ := bind_eq_ok.mp hread
  have hprior := reread_eq_iff.mp (Except.ok.inj hsame) (1 / 1024) rfl
  exact absurd hprior (by decide +kernel)

end CudaqQec.WindowYaml
