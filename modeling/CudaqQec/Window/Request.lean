import CudaqQec.Template.Basic
import Mathlib.Tactic.Linarith

/-!
# Window requests

`window_request`: the windows of one layer. Window `k` is anchored at `offset + k * period` and every
range of a request is relative to that anchor. A window has one commit zone and buffer zones around
it, a port at either end, and sends.

* `checkRequest_eq_ok`: what `check_window_request` accepts, as `WindowRequest.Valid`.
* `mem_instances`: a window is an instance of a shot exactly when its commit zone meets it.
* `Valid.covers`: the zones of a valid request cover their span without a gap.
-/

namespace CudaqQec

open Checked

/-! ## Rounds -/

@[ext] structure RoundRange where
  begin : Int
  stop : Int
  deriving DecidableEq, Repr

namespace RoundRange

def Empty (r : RoundRange) : Prop := r.stop ≤ r.begin

instance (r : RoundRange) : Decidable r.Empty := inferInstanceAs (Decidable (_ ≤ _))

/-- `contains`: whether a round lies in the range. -/
instance : Membership Int RoundRange := ⟨fun r q => r.begin ≤ q ∧ q < r.stop⟩

theorem mem_def {q : Int} {r : RoundRange} : q ∈ r ↔ r.begin ≤ q ∧ q < r.stop := Iff.rfl

instance (q : Int) (r : RoundRange) : Decidable (q ∈ r) := inferInstanceAs (Decidable (_ ∧ _))

def toList (r : RoundRange) : List Int :=
  (List.range (r.stop - r.begin).toNat).map fun (i : Nat) => r.begin + i

theorem mem_toList {q : Int} {r : RoundRange} : q ∈ r.toList ↔ q ∈ r := by
  simp only [toList, List.mem_map, List.mem_range, mem_def]
  constructor
  · rintro ⟨i, hi, rfl⟩
    omega
  · intro h
    exact ⟨(q - r.begin).toNat, by omega, by omega⟩

theorem nodup_toList (r : RoundRange) : r.toList.Nodup := by
  refine List.Nodup.map ?_ List.nodup_range
  intro a b h
  have : r.begin + (a : Int) = r.begin + b := h
  omega

def hull (a b : RoundRange) : RoundRange := ⟨min a.begin b.begin, max a.stop b.stop⟩

/-- The hull of a list of ranges begins with one of them and ends with one of them. -/
theorem foldl_hull (bs : List RoundRange) (c : RoundRange) :
    ((∀ b ∈ c :: bs, (bs.foldl hull c).begin ≤ b.begin ∧ b.stop ≤ (bs.foldl hull c).stop) ∧
      (∃ b ∈ c :: bs, (bs.foldl hull c).begin = b.begin) ∧
      ∃ b ∈ c :: bs, (bs.foldl hull c).stop = b.stop) := by
  induction bs generalizing c with
  | nil => simp
  | cons b bs ih =>
    have ih := ih (c.hull b)
    rw [List.foldl_cons]
    generalize bs.foldl hull (c.hull b) = span at ih ⊢
    obtain ⟨h1, ⟨x, hx, h2⟩, ⟨y, hy, h3⟩⟩ := ih
    have h0 := h1 (c.hull b) (by simp)
    refine ⟨?_, ?_, ?_⟩
    · intro z hz
      rcases List.mem_cons.mp hz with rfl | hz
      · exact ⟨h0.1.trans (min_le_left _ _), (le_max_left _ _).trans h0.2⟩
      · rcases List.mem_cons.mp hz with rfl | hz
        · exact ⟨h0.1.trans (min_le_right _ _), (le_max_right _ _).trans h0.2⟩
        · exact h1 z (by simp [hz])
    · rcases List.mem_cons.mp hx with rfl | hx
      · rcases min_choice c.begin b.begin with hm | hm
        · exact ⟨c, by simp, h2.trans hm⟩
        · exact ⟨b, by simp, h2.trans hm⟩
      · exact ⟨x, by simp [hx], h2⟩
    · rcases List.mem_cons.mp hy with rfl | hy
      · rcases max_choice c.stop b.stop with hm | hm
        · exact ⟨c, by simp, h3.trans hm⟩
        · exact ⟨b, by simp, h3.trans hm⟩
      · exact ⟨y, by simp [hy], h3⟩

end RoundRange

/-- `clip_rounds`: a zone of the window anchored at `anchor`, clipped to `[0, stop)`. -/
def clipRounds (zone : RoundRange) (anchor stop : Int) : RoundRange :=
  ⟨max 0 (anchor + zone.begin), min stop (anchor + zone.stop)⟩

theorem mem_clipRounds {q : Int} {zone : RoundRange} {anchor stop : Int} :
    q ∈ clipRounds zone anchor stop ↔ 0 ≤ q ∧ q < stop ∧ q - anchor ∈ zone := by
  simp only [clipRounds, RoundRange.mem_def]
  omega

/-! ## Requests -/

/-- `port_disposition`: open (boundary columns or omitted rows), or closed (received values). -/
inductive PortDisposition where
  | opened
  | closed
  deriving DecidableEq, Repr

/-- `send_mode`: the committed faults' flips, or the detectors left to explain. -/
inductive SendMode where
  | delta
  | residual
  deriving DecidableEq, Repr

/-- `input_boundary`: what stands for outside faults at an open input. -/
inductive InputBoundary where
  | columns
  | truncate
  deriving DecidableEq, Repr

inductive ParallelResolution where
  | reject
  | mostLikely
  deriving DecidableEq, Repr

structure InputPort where
  disposition : Option PortDisposition
  prior : Option ℚ := none
  boundary : Option InputBoundary := none
  deriving DecidableEq

structure OutputPort where
  disposition : Option PortDisposition
  imports : Option RoundRange := none
  deriving DecidableEq

structure SendRequest where
  id : String
  mode : Option SendMode := none
  rounds : List RoundRange := []
  deriving DecidableEq

structure ColumnOptions where
  mergeIdentical : Bool := false
  conflictingParallel : ParallelResolution := .reject
  deriving DecidableEq

structure WindowRequest where
  period : Int
  offset : Int := 0
  commit : Option RoundRange
  buffers : List RoundRange := []
  input : InputPort
  output : OutputPort
  sends : List SendRequest := []
  columns : ColumnOptions := {}
  deriving DecidableEq

/-- `window_round_limit`: how far from zero a round, the period and the offset may lie. -/
def windowRoundLimit : Int := 2 ^ 31

namespace WindowRequest

variable (request : WindowRequest)

/-- The commit zone; a request that passed `check_anchor` has one. -/
def commitZone : RoundRange := request.commit.getD ⟨0, 0⟩

def anchor (k : Int) : Int := request.offset + k * request.period

/-- `trailing_buffer`: the buffer that starts where the commit zone ends. -/
def trailingBuffer : Option RoundRange :=
  request.buffers.find? fun b => b.begin = request.commitZone.stop

def sortRounds (rounds : List RoundRange) : List RoundRange :=
  rounds.insertionSort fun a b => a.begin ≤ b.begin

/-- `sorted_zones`: every zone, by its first round. -/
def sortedZones : List RoundRange := sortRounds (request.buffers ++ [request.commitZone])

/-- `zone_span`: from the first zone's first round to the last zone's end. -/
def zoneSpan : RoundRange := request.buffers.foldl RoundRange.hull request.commitZone

end WindowRequest

/-- `is_default_send`: a send named by id alone. -/
def SendRequest.isDefault (send : SendRequest) : Bool :=
  (send.id = "forward" ∨ send.id = "backward") ∧ send.mode = none ∧ send.rounds = []

/-! ## Checks -/

/-- What `check_window_request` throws. -/
def rejectRequest (what : String) : Error := .invalidArgument ("window request: " ++ what)

/-- `check_within`: a value no further than the limit from zero. -/
def checkWithin (value : Int) (what : String) : Except Error Unit :=
  throwIf (value > windowRoundLimit ∨ value < -windowRoundLimit)
    (rejectRequest (what ++ " " ++ toString value ++ " is beyond " ++ toString windowRoundLimit ++
      " rounds, past any shot"))

/-- `check_anchor`: the period, the offset and the commit zone, which every query needs. -/
def checkAnchor (request : WindowRequest) : Except Error Unit := do
  throwIf (request.period < 1) (rejectRequest "period must be at least 1")
  checkWithin request.period "period"
  checkWithin request.offset "offset"
  throwIf (request.commit = none) (rejectRequest "no commit zone")
  checkWithin request.commitZone.begin "round"
  checkWithin request.commitZone.stop "round"
  throwIf request.commitZone.Empty (rejectRequest "the commit zone is empty")

/-- The ranges of one send, sorted: inside the window, none empty, none overlapping the one before. -/
@[grind =] def checkSendRounds (name : String) (window : RoundRange) :
    Option RoundRange → List RoundRange → Except Error Unit
  | _, [] => .ok ()
  | previous, r :: rs => do
    checkWithin r.begin "round"
    checkWithin r.stop "round"
    throwIf r.Empty (rejectRequest (name ++ " has an empty round range"))
    throwIf (r.begin < window.begin ∨ r.stop > window.stop)
      (rejectRequest (name ++ " reaches past the window"))
    throwIf (previous.any fun p => r.begin < p.stop)
      (rejectRequest (name ++ " repeats round " ++ toString r.begin))
    checkSendRounds name window (some r) rs

/-- One send against the window's relative rounds. -/
def checkSend (request : WindowRequest) (window : RoundRange) (send : SendRequest) :
    Except Error Unit :=
  if send.isDefault then
    throwIf (send.id = "forward" ∧ request.trailingBuffer = none)
      (rejectRequest "a forward send needs a buffer zone after the commit zone")
  else do
    throwIf (send.mode = none ∨ send.rounds = [])
      (rejectRequest ("send '" ++ send.id ++ "' needs a mode and rounds"))
    checkSendRounds ("send '" ++ send.id ++ "'") window none
      (WindowRequest.sortRounds send.rounds)

/-- `check_sends`: every send, none repeated. -/
@[grind =] def checkSends (request : WindowRequest) (window : RoundRange) :
    List SendRequest → List String → Except Error Unit
  | [], _ => .ok ()
  | send :: sends, ids => do
    throwIf (send.id ∈ ids) (rejectRequest ("send '" ++ send.id ++ "' is repeated"))
    checkSend request window send
    checkSends request window sends (send.id :: ids)

@[grind =] def checkZones : List RoundRange → Except Error Unit
  | a :: b :: zones => do
    throwIf (b.begin < a.stop) (rejectRequest "zones overlap")
    throwIf (b.begin > a.stop) (rejectRequest "zones are not contiguous")
    checkZones (b :: zones)
  | _ => .ok ()

/-- The ports: a disposition each, and a boundary and a prior only where an open input has one. -/
def checkInput (input : InputPort) : Except Error Unit := do
  let openInput := input.disposition = some .opened
  let truncated := input.boundary = some .truncate
  throwIf (¬ openInput ∧ input.boundary ≠ none) (rejectRequest "a closed input takes no boundary")
  throwIf (openInput ∧ ¬ truncated ∧ input.prior = none)
    (rejectRequest "an open input needs a prior")
  throwIf (¬ openInput ∧ input.prior ≠ none) (rejectRequest "a closed input takes no prior")
  throwIf (truncated ∧ input.prior ≠ none) (rejectRequest "a truncated input takes no prior")
  throwIf (input.prior.any fun p => ¬ (0 < p ∧ p < 1))
    (rejectRequest "the input prior must be strictly between 0 and 1")

/-- The imports start at the output wire. -/
def checkImports (output : OutputPort) (window : RoundRange) : Except Error Unit :=
  match output.imports with
  | none => .ok ()
  | some imports => do
    checkWithin imports.begin "round"
    checkWithin imports.stop "round"
    throwIf (output.disposition = some .opened) (rejectRequest "an open output imports nothing")
    throwIf imports.Empty (rejectRequest "the imports are empty")
    throwIf (imports.begin ≠ window.stop) (rejectRequest "imports must start at the output wire")

def WindowRequest.window (request : WindowRequest) : RoundRange :=
  ⟨(request.sortedZones.headD ⟨0, 0⟩).begin, (request.sortedZones.getLastD ⟨0, 0⟩).stop⟩

/-- `check_window_request`. -/
def checkRequest (request : WindowRequest) : Except Error Unit := do
  checkAnchor request
  forM request.buffers fun buffer => do
    checkWithin buffer.begin "round"
    checkWithin buffer.stop "round"
    throwIf buffer.Empty (rejectRequest "a buffer zone is empty")
  checkZones request.sortedZones
  throwIf (request.input.disposition = none) (rejectRequest "the input port has no disposition")
  throwIf (request.output.disposition = none) (rejectRequest "the output port has no disposition")
  checkInput request.input
  checkImports request.output request.window
  checkSends request request.window request.sends []

def oneRoundRequest : WindowRequest where
  period := 1
  commit := some ⟨0, 1⟩
  buffers := [⟨1, 2⟩]
  input := { disposition := some .opened, prior := some (1 / 10) }
  output := { disposition := some .opened }
  sends := [{ id := "forward" }]

example : checkRequest oneRoundRequest = .ok () := by decide +kernel

/-! ## Instances -/

/-- `floor_div`, for a positive divisor: the code's division truncates. -/
def floorDiv (a b : Int) : Int := if 0 ≤ a then a / b else -((-a + b - 1) / b)

/-- `ceil_div`, for a positive divisor. -/
def ceilDiv (a b : Int) : Int := floorDiv (a + b - 1) b

theorem floorDiv_mul_le {b : Int} (a : Int) (hb : 0 < b) :
    floorDiv a b * b ≤ a ∧ a < floorDiv a b * b + b := by
  unfold floorDiv
  split
  · have h1 := Int.mul_ediv_add_emod a b
    have h2 := Int.emod_nonneg a hb.ne'
    have h3 := Int.emod_lt_of_pos a hb
    constructor <;> nlinarith
  · have h1 := Int.mul_ediv_add_emod (-a + b - 1) b
    have h2 := Int.emod_nonneg (-a + b - 1) hb.ne'
    have h3 := Int.emod_lt_of_pos (-a + b - 1) hb
    constructor <;> nlinarith

theorem ceilDiv_mul_le {b : Int} (a : Int) (hb : 0 < b) :
    a ≤ ceilDiv a b * b ∧ ceilDiv a b * b < a + b := by
  have := floorDiv_mul_le (a + b - 1) hb
  unfold ceilDiv
  omega

/-- `index_range`: half-open window indices. -/
structure IndexRange where
  begin : Int
  stop : Int
  deriving DecidableEq, Repr

def IndexRange.toList (r : IndexRange) : List Int := RoundRange.toList ⟨r.begin, r.stop⟩

instance : Membership Int IndexRange := ⟨fun r k => r.begin ≤ k ∧ k < r.stop⟩

instance (k : Int) (r : IndexRange) : Decidable (k ∈ r) := inferInstanceAs (Decidable (_ ∧ _))

theorem IndexRange.mem_def {k : Int} {r : IndexRange} : k ∈ r ↔ r.begin ≤ k ∧ k < r.stop := Iff.rfl

theorem IndexRange.mem_toList {k : Int} {r : IndexRange} : k ∈ r.toList ↔ k ∈ r :=
  RoundRange.mem_toList

/-- The first index whose clipped commit zone ends after round 0, to the first whose commit zone
starts at or past `R`. -/
def WindowRequest.instancesBelow (request : WindowRequest) (R : Int) : IndexRange :=
  let first := floorDiv (-request.offset - request.commitZone.stop) request.period + 1
  ⟨first, max (floorDiv (R - request.offset - request.commitZone.begin + request.period - 1)
    request.period) first⟩

def WindowRequest.instances (request : WindowRequest) (R : Nat) : IndexRange :=
  request.instancesBelow R

/-- `window_instances` for the shots that are scheduled, which are far shorter than an `int64_t` can
count. For every `size_t` it is `windowInstances`. -/
def shotInstances (request : WindowRequest) (R : Nat) : Except Error IndexRange := do
  checkAnchor request
  return request.instances R

/-! ## What the checks accept -/

theorem checkWithin_eq_ok {value : Int} {what : String} {u : Unit} :
    checkWithin value what = .ok u ↔ -windowRoundLimit ≤ value ∧ value ≤ windowRoundLimit := by
  simp only [checkWithin, throwIf_eq_ok]
  omega

/-- What `check_anchor` accepts. -/
structure WindowRequest.Anchored (request : WindowRequest) : Prop where
  period_pos : 1 ≤ request.period
  period_le : request.period ≤ windowRoundLimit
  le_offset : -windowRoundLimit ≤ request.offset
  offset_le : request.offset ≤ windowRoundLimit
  commit : request.commit = some request.commitZone
  le_begin : -windowRoundLimit ≤ request.commitZone.begin
  stop_le : request.commitZone.stop ≤ windowRoundLimit
  nonempty : request.commitZone.begin < request.commitZone.stop

theorem checkAnchor_eq_ok {request : WindowRequest} {u : Unit} :
    checkAnchor request = .ok u ↔ request.Anchored := by
  simp only [checkAnchor, bind_eq_ok, checkWithin_eq_ok, throwIf_eq_ok]
  constructor
  · rintro ⟨_, h1, _, h2, _, h3, _, h4, _, h5, _, h6, h7⟩
    refine ⟨by omega, h2.2, h3.1, h3.2, ?_, h5.1, h6.2, not_le.mp h7⟩
    cases hc : request.commit with
    | none => exact absurd hc h4
    | some c => rw [WindowRequest.commitZone, hc, Option.getD_some]
  · intro h
    have := h.period_pos
    have := h.nonempty
    have := h.stop_le
    have := h.le_begin
    have := h.period_le
    exact ⟨(), by omega, (), ⟨by omega, by omega⟩, (), ⟨h.le_offset, h.offset_le⟩, (),
      by rw [h.commit]; simp, (), ⟨by omega, by omega⟩, (), ⟨by omega, by omega⟩,
      not_le.mpr h.nonempty⟩

theorem WindowRequest.Anchored.checkAnchor {request : WindowRequest} (h : request.Anchored) :
    checkAnchor request = .ok () := checkAnchor_eq_ok.mpr h

theorem shotInstances_eq {request : WindowRequest} (h : request.Anchored) (R : Nat) :
    shotInstances request R = .ok (request.instances R) := by
  rw [shotInstances, h.checkAnchor]
  rfl

theorem checkZones_eq_ok {zones : List RoundRange} {u : Unit} :
    checkZones zones = .ok u ↔ zones.IsChain fun a b => a.stop = b.begin := by
  induction zones with
  | nil => simp [checkZones]
  | cons a zones ih =>
    cases zones with
    | nil => simp [checkZones]
    | cons b zones =>
      simp only [checkZones, bind_eq_ok, throwIf_eq_ok, List.isChain_cons_cons, ← ih]
      constructor
      · rintro ⟨_, h1, _, h2, h3⟩
        exact ⟨by omega, h3⟩
      · rintro ⟨h1, h3⟩
        exact ⟨(), by omega, (), by omega, h3⟩

/-- What `check_window_request` accepts of zones and ports. -/
structure WindowRequest.Valid (request : WindowRequest) : Prop extends request.Anchored where
  buffers : ∀ b ∈ request.buffers, b.begin < b.stop
  zones : request.sortedZones.IsChain fun a b => a.stop = b.begin
  input : request.input.disposition ≠ none
  output : request.output.disposition ≠ none
  ports : checkInput request.input = .ok ()
  imports : checkImports request.output request.window = .ok ()
  sends : checkSends request request.window request.sends [] = .ok ()

theorem checkSends_nodup {request : WindowRequest} {window : RoundRange} {sends : List SendRequest}
    {ids : List String} (h : checkSends request window sends ids = .ok ()) :
    (sends.map SendRequest.id).Nodup ∧ (∀ send ∈ sends, send.id ∉ ids) ∧
      ∀ send ∈ sends, checkSend request window send = .ok () := by
  induction sends generalizing ids with
  | nil => simp
  | cons send sends ih =>
    simp only [checkSends, bind_eq_ok, throwIf_eq_ok] at h
    obtain ⟨_, h1, _, h2, h3⟩ := h
    obtain ⟨hnd, hnot, hall⟩ := ih h3
    refine ⟨?_, ?_, ?_⟩
    · rw [List.map_cons, List.nodup_cons]
      refine ⟨?_, hnd⟩
      intro hmem
      obtain ⟨send', hs', heq⟩ := List.mem_map.mp hmem
      exact hnot send' hs' (by simp [heq])
    · intro send' hs'
      rcases List.mem_cons.mp hs' with rfl | hs'
      · exact h1
      · exact fun hi => hnot send' hs' (by simp [hi])
    · intro send' hs'
      rcases List.mem_cons.mp hs' with rfl | hs'
      · exact h2
      · exact hall send' hs'

theorem checkRequest_valid {request : WindowRequest} (h : checkRequest request = .ok ()) :
    request.Valid := by
  simp only [checkRequest, bind_eq_ok, checkAnchor_eq_ok, forM_eq_ok, checkZones_eq_ok,
    throwIf_eq_ok] at h
  obtain ⟨_, h1, _, h2, _, h3, _, h4, _, h5, _, h6, _, h7, h8⟩ := h
  refine ⟨h1, ?_, h3, h4, h5, h6, h7, h8⟩
  intro b hb
  obtain ⟨_, -, _, -, hne⟩ := h2 b hb
  exact not_le.mp hne

/-! ## Anchors and instances -/

namespace WindowRequest

variable {request : WindowRequest}

theorem anchor_add (request : WindowRequest) (k j : Int) :
    request.anchor (k + j) = request.anchor k + j * request.period := by
  simp only [anchor]
  ring

theorem anchor_add_le (h : 1 ≤ request.period) {k k' : Int} (hk : k < k') :
    request.anchor k + request.period ≤ request.anchor k' := by
  have : (k + 1) * request.period ≤ k' * request.period :=
    Int.mul_le_mul_of_nonneg_right (by omega) (by omega)
  simp only [anchor]
  linarith [add_mul k 1 request.period, one_mul request.period]

theorem anchor_lt_iff (h : 1 ≤ request.period) {k k' : Int} :
    request.anchor k < request.anchor k' ↔ k < k' := by
  constructor
  · intro hlt
    by_contra hn
    rcases lt_or_eq_of_le (not_lt.mp hn) with hgt | heq
    · have := anchor_add_le h hgt
      omega
    · rw [heq] at hlt
      exact lt_irrefl _ hlt
  · intro hlt
    have := anchor_add_le h hlt
    omega

theorem anchor_le_iff (h : 1 ≤ request.period) {k k' : Int} :
    request.anchor k ≤ request.anchor k' ↔ k ≤ k' := by
  have : request.anchor k' < request.anchor k ↔ k' < k := anchor_lt_iff h
  omega

def firstIndex (request : WindowRequest) (x : Int) : Int :=
  ceilDiv (x - request.offset) request.period

theorem le_anchor_firstIndex (h : 1 ≤ request.period) (x : Int) :
    x ≤ request.anchor (request.firstIndex x) ∧
      request.anchor (request.firstIndex x) < x + request.period := by
  have := ceilDiv_mul_le (x - request.offset) (by omega : 0 < request.period)
  simp only [anchor, firstIndex]
  omega

theorem firstIndex_le_iff (h : 1 ≤ request.period) {x k : Int} :
    request.firstIndex x ≤ k ↔ x ≤ request.anchor k := by
  have hx := le_anchor_firstIndex h x
  constructor
  · intro hk
    have := (anchor_le_iff h).mpr hk
    omega
  · intro hk
    by_contra hn
    have := anchor_add_le h (not_le.mp hn)
    omega

/-- A window is an instance of a shot exactly when its clipped commit zone is not empty. -/
theorem mem_instancesBelow (h : request.Anchored) {R k : Int} :
    k ∈ request.instancesBelow R ↔
      0 < request.anchor k + request.commitZone.stop ∧
        request.anchor k + request.commitZone.begin < R := by
  have hp := h.period_pos
  have h1 := floorDiv_mul_le (-request.offset - request.commitZone.stop)
    (by omega : 0 < request.period)
  have h2 := ceilDiv_mul_le (R - request.offset - request.commitZone.begin)
    (by omega : 0 < request.period)
  simp only [instancesBelow, IndexRange.mem_def, lt_max_iff]
  set f := floorDiv (-request.offset - request.commitZone.stop) request.period
  have hc : floorDiv (R - request.offset - request.commitZone.begin + request.period - 1)
      request.period = ceilDiv (R - request.offset - request.commitZone.begin) request.period := rfl
  rw [hc]
  set c := ceilDiv (R - request.offset - request.commitZone.begin) request.period
  -- the range begins behind the last window that ends before the shot
  have hf : f + 1 ≤ k ↔ 0 < request.anchor k + request.commitZone.stop := by
    simp only [anchor]
    constructor
    · intro hk
      have : (f + 1) * request.period ≤ k * request.period :=
        Int.mul_le_mul_of_nonneg_right hk (by omega)
      linarith [add_mul f 1 request.period, one_mul request.period]
    · intro hk
      by_contra hn
      have : k * request.period ≤ f * request.period :=
        Int.mul_le_mul_of_nonneg_right (by omega) (by omega)
      omega
  -- and ends before the first that begins behind it
  have hk : k < c ↔ request.anchor k + request.commitZone.begin < R := by
    simp only [anchor]
    constructor
    · intro hk
      have : k * request.period ≤ (c - 1) * request.period :=
        Int.mul_le_mul_of_nonneg_right (by omega) (by omega)
      linarith [sub_mul c 1 request.period, one_mul request.period]
    · intro hk
      by_contra hn
      have : c * request.period ≤ k * request.period :=
        Int.mul_le_mul_of_nonneg_right (by omega) (by omega)
      omega
  rw [← hf, ← hk]
  omega

theorem mem_instances (h : request.Anchored) {R : Nat} {k : Int} :
    k ∈ request.instances R ↔
      0 < request.anchor k + request.commitZone.stop ∧
        request.anchor k + request.commitZone.begin < R := mem_instancesBelow h

/-! ## The span of the zones -/

/-- The zones of a request: its commit zone and its buffers. -/
def zoneList (request : WindowRequest) : List RoundRange := request.commitZone :: request.buffers

theorem le_zoneSpan {z : RoundRange} (hz : z ∈ request.zoneList) :
    request.zoneSpan.begin ≤ z.begin ∧ z.stop ≤ request.zoneSpan.stop :=
  (RoundRange.foldl_hull request.buffers request.commitZone).1 z hz

theorem exists_zoneSpan_begin (request : WindowRequest) :
    ∃ z ∈ request.zoneList, request.zoneSpan.begin = z.begin :=
  (RoundRange.foldl_hull request.buffers request.commitZone).2.1

theorem exists_zoneSpan_stop (request : WindowRequest) :
    ∃ z ∈ request.zoneList, request.zoneSpan.stop = z.stop :=
  (RoundRange.foldl_hull request.buffers request.commitZone).2.2

theorem commitZone_le_zoneSpan (request : WindowRequest) :
    request.zoneSpan.begin ≤ request.commitZone.begin ∧
      request.commitZone.stop ≤ request.zoneSpan.stop :=
  le_zoneSpan (by simp [zoneList])

theorem mem_sortedZones {z : RoundRange} : z ∈ request.sortedZones ↔ z ∈ request.zoneList := by
  simp [sortedZones, sortRounds, List.mem_insertionSort, zoneList, or_comm]

theorem Valid.zone_nonempty (h : request.Valid) {z : RoundRange} (hz : z ∈ request.zoneList) :
    z.begin < z.stop := by
  rcases List.mem_cons.mp hz with rfl | hz
  · exact h.nonempty
  · exact h.buffers z hz

/-- Contiguous ranges cover everything between the first begin and the last end. -/
private theorem isChain_covers {z : RoundRange} {zs : List RoundRange}
    (hc : (z :: zs).IsChain fun a b => a.stop = b.begin) {q : Int} (hlo : z.begin ≤ q)
    (hhi : q < ((z :: zs).getLastD ⟨0, 0⟩).stop) : ∃ a ∈ z :: zs, q ∈ a := by
  induction zs generalizing z with
  | nil => exact ⟨z, by simp, hlo, hhi⟩
  | cons b zs ih =>
    rw [List.isChain_cons_cons] at hc
    by_cases hq : q < z.stop
    · exact ⟨z, by simp, hlo, hq⟩
    · obtain ⟨a, ha, hqa⟩ := ih hc.2 (by omega) (by simpa using hhi)
      exact ⟨a, by simp [ha], hqa⟩

/-- Contiguous non-empty ranges end in order. -/
private theorem isChain_stop_le {z : RoundRange} {zs : List RoundRange}
    (hc : (z :: zs).IsChain fun a b => a.stop = b.begin) (hne : ∀ a ∈ z :: zs, a.begin < a.stop) :
    ∀ a ∈ z :: zs, z.begin ≤ a.begin ∧ a.stop ≤ ((z :: zs).getLastD ⟨0, 0⟩).stop := by
  induction zs generalizing z with
  | nil => simp
  | cons b zs ih =>
    rw [List.isChain_cons_cons] at hc
    have hz := hne z (by simp)
    have hb := hne b (by simp)
    have ih := ih hc.2 fun a ha => hne a (by simp [ha])
    have hlast : ((z :: b :: zs).getLastD ⟨0, 0⟩) = (b :: zs).getLastD ⟨0, 0⟩ := by simp
    rw [hlast]
    intro a ha
    rcases List.mem_cons.mp ha with rfl | ha
    · have := ih b (by simp)
      omega
    · have := ih a ha
      omega

/-- The window of a valid request's sorted zones is their span. -/
theorem Valid.window_eq (h : request.Valid) : request.window = request.zoneSpan := by
  cases hz : request.sortedZones with
  | nil =>
    have : request.commitZone ∈ request.sortedZones := mem_sortedZones.mpr (by simp [zoneList])
    rw [hz] at this
    exact absurd this (by simp)
  | cons z zs =>
    have hmem : ∀ a, a ∈ z :: zs ↔ a ∈ request.zoneList := by
      intro a
      rw [← hz]
      exact mem_sortedZones
    have hall := isChain_stop_le (hz ▸ h.zones) fun a ha => h.zone_nonempty ((hmem a).mp ha)
    obtain ⟨b, hb, hbeq⟩ := exists_zoneSpan_begin request
    obtain ⟨e, he, heeq⟩ := exists_zoneSpan_stop request
    have h1 := le_zoneSpan ((hmem z).mp (by simp))
    have hlast : (z :: zs).getLastD ⟨0, 0⟩ ∈ z :: zs := by
      rw [List.getLastD_eq_getLast?, List.getLast?_eq_some_getLast (by simp)]
      exact List.getLast_mem _
    have h2 := le_zoneSpan ((hmem _).mp hlast)
    have h3 := hall b ((hmem b).mpr hb)
    have h4 := hall e ((hmem e).mpr he)
    unfold window
    rw [hz]
    ext
    · show z.begin = _
      omega
    · show ((z :: zs).getLastD ⟨0, 0⟩).stop = _
      omega

theorem Valid.covers (h : request.Valid) {q : Int} (hq : q ∈ request.zoneSpan) :
    ∃ z ∈ request.zoneList, q ∈ z := by
  rw [← h.window_eq] at hq
  cases hz : request.sortedZones with
  | nil =>
    have : request.commitZone ∈ request.sortedZones := mem_sortedZones.mpr (by simp [zoneList])
    rw [hz] at this
    exact absurd this (by simp)
  | cons z zs =>
    simp only [window, hz, RoundRange.mem_def] at hq
    obtain ⟨a, ha, hqa⟩ := isChain_covers (hz ▸ h.zones) hq.1 hq.2
    exact ⟨a, mem_sortedZones.mp (hz ▸ ha), hqa⟩

end WindowRequest

end CudaqQec
