import CudaqQec.Window.Variants

/-!
# Placed windows

`place_window`: window `k` of a request in a shot of `R` rounds, without its model. Zones are clipped
to the shot; a window edge at the shot's first or last round is a physical boundary, not a port.
Sends are placed by their rounds and by the rows of those rounds, counted from the window's first.

* `placedRounds_eq`: the rounds of a window are its span, clipped to the shot.
* `placeWindow_eq_ok`: when a window is placed, and what it then holds.
-/

namespace CudaqQec

open Checked WindowRequest

/-- `window_port`: a built port. `present` is the source's `exists`. -/
structure WindowPort where
  present : Bool := false
  disposition : PortDisposition := .opened
  boundary : InputBoundary := .columns
  prior : ℚ := 0
  imports : RoundRange := ⟨0, 0⟩
  deriving DecidableEq

/-- `window_send`: a built send, its rounds clipped to the shot, and their rows. -/
structure WindowSend where
  id : String
  mode : SendMode
  rounds : List RoundRange
  rows : List Nat
  deriving DecidableEq

/-- A `decoding_window` without its model: where its zones, ports and sends lie. -/
structure WindowPlacement where
  k : Int
  shotRounds : Nat
  rounds : RoundRange
  commit : RoundRange
  buffers : List RoundRange
  input : WindowPort
  output : WindowPort
  sends : List WindowSend
  deriving DecidableEq

/-! ## Zones and ports -/

def clippedBuffers (request : WindowRequest) (anchor : Int) (R : Nat) : List RoundRange :=
  (request.buffers.map fun b => clipRounds b anchor R).filter fun b => ¬ b.Empty

/-- The window's rounds: its clipped zones together. -/
def placedRounds (request : WindowRequest) (anchor : Int) (R : Nat) : RoundRange :=
  (clippedBuffers request anchor R).foldl RoundRange.hull (clipRounds request.commitZone anchor R)

def placedInput (request : WindowRequest) (first : Int) : WindowPort :=
  let disposition := request.input.disposition.getD .opened
  let boundary := request.input.boundary.getD .columns
  { present := 0 < first
    disposition := disposition
    boundary := boundary
    prior := if 0 < first ∧ disposition = .opened ∧ boundary = .columns then
        request.input.prior.getD 0 else 0 }

/-- The rounds a closed output imports, relative to the anchor: as many past the wire as a fault
spans beyond its own round, unless the request names them. -/
def relativeImports (t : TemplateData) (request : WindowRequest) : RoundRange :=
  request.output.imports.getD ⟨request.window.stop, request.window.stop + t.maxSpan⟩

def placedOutput (t : TemplateData) (request : WindowRequest) (anchor stop : Int) (R : Nat) :
    WindowPort :=
  let disposition := request.output.disposition.getD .opened
  { present := stop < R
    disposition := disposition
    imports := if stop < R ∧ disposition = .closed then
        clipRounds (relativeImports t request) anchor R else ⟨0, 0⟩ }

/-! ## Sends -/

/-- The rounds of a send relative to the anchor, sorted. The default sends cover the first
`max_span()` rounds of their zone. -/
def relativeSendRounds (t : TemplateData) (request : WindowRequest) (send : SendRequest) :
    List RoundRange :=
  if send.isDefault then
    let first := if send.id = "forward" then
        (request.trailingBuffer.map RoundRange.begin).getD 0 else request.commitZone.begin
    [⟨first, first + t.maxSpan⟩]
  else sortRounds send.rounds

def placedSendRounds (t : TemplateData) (request : WindowRequest) (anchor : Int) (R : Nat)
    (send : SendRequest) : List RoundRange :=
  ((relativeSendRounds t request send).map fun r => clipRounds r anchor R).filter fun r => ¬ r.Empty

/-- The mode of a send; a send without one is a default. -/
def SendRequest.sendMode (send : SendRequest) : SendMode :=
  send.mode.getD (if send.id = "backward" then .residual else .delta)

def rowFrom (t : TemplateData) (s r : Int) (R : Nat) : Int :=
  t.rowOffset r.toNat R - t.rowOffset s.toNat R

/-- The loop over the rows of a range ends at a row number that wrapped around: it starts below it
and appends until the vector is full. -/
def RowsWrap (t : TemplateData) (s : Int) (R : Nat) (r : RoundRange) : Prop :=
  0 ≤ rowFrom t s r.begin R ∧ rowFrom t s r.stop R < 0

instance (t : TemplateData) (s : Int) (R : Nat) (r : RoundRange) : Decidable (RowsWrap t s R r) :=
  inferInstanceAs (Decidable (_ ∧ _))

def rowsOf (t : TemplateData) (s : Int) (R : Nat) (r : RoundRange) : List Nat :=
  List.range' (sizeT (rowFrom t s r.begin R))
    (sizeT (rowFrom t s r.stop R) - sizeT (rowFrom t s r.begin R))

def placedRows (t : TemplateData) (s : Int) (R : Nat) (rounds : List RoundRange) :
    Except Error (List Nat) := do
  throwIf (∃ r ∈ rounds, RowsWrap t s R r) (.lengthError "vector::_M_realloc_append")
  return rounds.flatMap (rowsOf t s R)

/-- A send of the window anchored at `anchor`, whose first round is `s`. -/
def placeSend (t : TemplateData) (request : WindowRequest) (anchor s : Int) (R : Nat)
    (send : SendRequest) : Except Error WindowSend := do
  let rounds := placedSendRounds t request anchor R send
  let rows ← placedRows t s R rounds
  return {
    id := send.id
    mode := send.sendMode
    rounds := rounds
    rows := rows }

/-! ## Placement -/

/-- The window that `place_window` returns, once its sends are placed. -/
def placementOf (t : TemplateData) (request : WindowRequest) (k : Int) (R : Nat)
    (sends : List WindowSend) : WindowPlacement :=
  let anchor := request.anchor k
  let rounds := placedRounds request anchor R
  { k := k
    shotRounds := R
    rounds := rounds
    commit := clipRounds request.commitZone anchor R
    buffers := sortRounds (clippedBuffers request anchor R)
    input := placedInput request rounds.begin
    output := placedOutput t request anchor rounds.stop R
    sends := sends }

def placeWindow (t : TemplateData) (request : WindowRequest) (k : Int) (R : Nat) :
    Except Error WindowPlacement := do
  let anchor := request.anchor k
  checkRequest request
  t.checkRound R R R
  throwIf (clipRounds request.commitZone anchor R).Empty
    (.invalidArgument ("place_window: window " ++ toString k ++ " has no commit round in a " ++
      toString R ++ "-round shot"))
  let sends ← request.sends.mapM
    (placeSend t request anchor (placedRounds request anchor R).begin R)
  return placementOf t request k R sends

/-! ## What a placed window holds -/

def placedSend (t : TemplateData) (request : WindowRequest) (k : Int) (R : Nat)
    (send : SendRequest) : WindowSend where
  id := send.id
  mode := send.sendMode
  rounds := placedSendRounds t request (request.anchor k) R send
  rows := (placedSendRounds t request (request.anchor k) R send).flatMap
    (rowsOf t (placedRounds request (request.anchor k) R).begin R)

/-- No row number of any send of window `k` wraps around. -/
def SendsFit (t : TemplateData) (request : WindowRequest) (k : Int) (R : Nat) : Prop :=
  ∀ send ∈ request.sends, ∀ r ∈ placedSendRounds t request (request.anchor k) R send,
    ¬ RowsWrap t (placedRounds request (request.anchor k) R).begin R r

def placed (t : TemplateData) (request : WindowRequest) (k : Int) (R : Nat) : WindowPlacement :=
  placementOf t request k R (request.sends.map (placedSend t request k R))

section
variable {t : TemplateData} {request : WindowRequest} {k : Int} {R : Nat}

theorem mapM_placeSend_eq_ok {sends : List SendRequest} {out : List WindowSend} :
    sends.mapM (placeSend t request (request.anchor k)
        (placedRounds request (request.anchor k) R).begin R) = .ok out ↔
      (∀ send ∈ sends, ∀ r ∈ placedSendRounds t request (request.anchor k) R send,
        ¬ RowsWrap t (placedRounds request (request.anchor k) R).begin R r) ∧
      out = sends.map (placedSend t request k R) := by
  induction sends generalizing out with
  | nil => simp [pure, Except.pure, eq_comm]
  | cons send sends ih =>
    simp only [List.mapM_cons, bind_eq_ok, ih, placeSend, placedRows, throwIf_eq_ok, pure,
      Except.pure, Except.ok.injEq, List.mem_cons, forall_eq_or_imp, List.map_cons, not_exists,
      not_and]
    constructor
    · rintro ⟨_, ⟨_, ⟨_, h1, rfl⟩, rfl⟩, _, ⟨h2, rfl⟩, rfl⟩
      exact ⟨⟨h1, h2⟩, rfl⟩
    · rintro ⟨⟨h1, h2⟩, rfl⟩
      exact ⟨_, ⟨_, ⟨(), h1, rfl⟩, rfl⟩, _, ⟨h2, rfl⟩, rfl⟩

theorem placeWindow_eq_ok {w : WindowPlacement} : placeWindow t request k R = .ok w ↔
    checkRequest request = .ok () ∧ t.Admits R ∧
      ¬ (clipRounds request.commitZone (request.anchor k) R).Empty ∧ SendsFit t request k R ∧
      w = placed t request k R := by
  simp only [placeWindow, bind_eq_ok, throwIf_eq_ok, TemplateData.checkRound_eq_ok,
    mapM_placeSend_eq_ok]
  constructor
  · rintro ⟨_, h1, _, h2, _, h3, _, ⟨h4, rfl⟩, h5⟩
    exact ⟨h1, h2.1, h3, h4, (Except.ok.inj h5).symm⟩
  · rintro ⟨h1, h2, h3, h4, rfl⟩
    exact ⟨(), h1, (), ⟨h2, le_refl _⟩, (), h3, _, ⟨h4, rfl⟩, rfl⟩

/-- A window is an instance of the shot exactly when its clipped commit zone has a round. -/
theorem mem_instances_iff_clip (h : request.Anchored) (hR : 0 < R) :
    k ∈ request.instances R ↔ ¬ (clipRounds request.commitZone (request.anchor k) R).Empty := by
  rw [mem_instances h]
  have := h.nonempty
  simp only [clipRounds, RoundRange.Empty]
  omega

theorem relativeImports_begin (h : request.Valid) :
    (relativeImports t request).begin = request.zoneSpan.stop := by
  rw [← h.window_eq]
  have himp := h.imports
  unfold checkImports at himp
  unfold relativeImports
  cases hi : request.output.imports with
  | none => rfl
  | some i =>
    simp only [hi, bind_eq_ok, throwIf_eq_ok, ne_eq, not_not] at himp
    obtain ⟨_, -, _, -, _, -, _, -, hb⟩ := himp
    exact hb

/-- A placed window imports a round exactly when its output is a closed port and the round is one of
its imports in the shot. -/
theorem mem_placedOutput_imports {a stop q : Int} :
    q ∈ (placedOutput t request a stop R).imports ↔
      stop < R ∧ request.output.disposition.getD .opened = .closed ∧
        q ∈ clipRounds (relativeImports t request) a R := by
  have himp : (placedOutput t request a stop R).imports =
      if stop < R ∧ request.output.disposition.getD .opened = .closed then
        clipRounds (relativeImports t request) a R else ⟨0, 0⟩ := rfl
  rw [himp]
  split
  · next hp => simp [hp]
  · next hp =>
    constructor
    · intro hq
      rw [RoundRange.mem_def] at hq
      exact absurd (lt_of_le_of_lt hq.1 hq.2) (lt_irrefl _)
    · rintro ⟨h1, h2, -⟩
      exact absurd ⟨h1, h2⟩ hp

/-- The rounds of a window are its span, clipped to the shot. -/
theorem placedRounds_eq (h : request.Valid)
    (hc : ¬ (clipRounds request.commitZone (request.anchor k) R).Empty) :
    placedRounds request (request.anchor k) R = clipRounds request.zoneSpan (request.anchor k) R := by
  set a := request.anchor k
  have hspan := request.commitZone_le_zoneSpan
  have hcommit : max 0 (a + request.commitZone.begin) < min (R : Int) (a + request.commitZone.stop) :=
    not_le.mp hc
  obtain ⟨hall, ⟨x, hx, hxb⟩, ⟨y, hy, hys⟩⟩ := RoundRange.foldl_hull (clippedBuffers request a R)
    (clipRounds request.commitZone a R)
  change ∀ b : RoundRange, b ∈ _ → (placedRounds request a R).begin ≤ b.begin ∧
    b.stop ≤ (placedRounds request a R).stop at hall
  change (placedRounds request a R).begin = _ at hxb
  change (placedRounds request a R).stop = _ at hys
  -- Each range of the hull is the clip of a zone, and the clip of every zone that has a round is one.
  have hzone : ∀ r ∈ clipRounds request.commitZone a R :: clippedBuffers request a R,
      ∃ z ∈ request.zoneList, r = clipRounds z a R := by
    intro r hr
    rcases List.mem_cons.mp hr with rfl | hr
    · exact ⟨_, by simp [zoneList], rfl⟩
    · obtain ⟨b, hb, rfl⟩ := List.mem_map.mp (List.mem_filter.mp hr).1
      exact ⟨b, by simp [zoneList, hb], rfl⟩
  have hmem : ∀ z ∈ request.zoneList, ∀ q, q ∈ clipRounds z a R →
      clipRounds z a R ∈ clipRounds request.commitZone a R :: clippedBuffers request a R := by
    intro z hz q hq
    rcases List.mem_cons.mp hz with rfl | hz
    · simp
    · refine List.mem_cons_of_mem _ (List.mem_filter.mpr ⟨List.mem_map.mpr ⟨z, hz, rfl⟩, ?_⟩)
      rw [decide_eq_true_eq]
      exact not_le.mpr (lt_of_le_of_lt hq.1 hq.2)
  have hb0 : max 0 (a + request.zoneSpan.begin) - a ∈ request.zoneSpan := by
    simp only [RoundRange.mem_def]
    omega
  have hs0 : min (R : Int) (a + request.zoneSpan.stop) - 1 - a ∈ request.zoneSpan := by
    simp only [RoundRange.mem_def]
    omega
  obtain ⟨zx, hzx, rfl⟩ := hzone x hx
  obtain ⟨zy, hzy, rfl⟩ := hzone y hy
  have hzx' := le_zoneSpan hzx
  have hzy' := le_zoneSpan hzy
  obtain ⟨zb, hzb, hqb⟩ := h.covers hb0
  obtain ⟨zs, hzs, hqs⟩ := h.covers hs0
  have hinb : max 0 (a + request.zoneSpan.begin) ∈ clipRounds zb a R := by
    rw [mem_clipRounds]
    exact ⟨by omega, by omega, hqb⟩
  have hins : min (R : Int) (a + request.zoneSpan.stop) - 1 ∈ clipRounds zs a R := by
    rw [mem_clipRounds]
    exact ⟨by omega, by omega, hqs⟩
  have hb := hall _ (hmem zb hzb _ hinb)
  have hs := hall _ (hmem zs hzs _ hins)
  rw [RoundRange.mem_def] at hinb hins
  ext
  · show (placedRounds request a R).begin = max 0 (a + request.zoneSpan.begin)
    have hx0 : (clipRounds zx a R).begin = max 0 (a + zx.begin) := rfl
    clear * - hxb hzx' hinb hb hx0
    omega
  · show (placedRounds request a R).stop = min (R : Int) (a + request.zoneSpan.stop)
    have hy0 : (clipRounds zy a R).stop = min (R : Int) (a + zy.stop) := rfl
    clear * - hys hzy' hins hs hy0
    omega

/-- A placed window has a round, and all of its rounds are the shot's. -/
theorem placedWindow_bounds {w : WindowPlacement} (h : placeWindow t request k R = .ok w) :
    0 ≤ w.rounds.begin ∧ w.rounds.begin < w.rounds.stop ∧ w.rounds.stop ≤ R := by
  obtain ⟨hreq, -, hne, -, rfl⟩ := placeWindow_eq_ok.mp h
  have hrounds : (placed t request k R).rounds = clipRounds request.zoneSpan (request.anchor k) R :=
    placedRounds_eq (checkRequest_valid hreq) hne
  have hspan := request.commitZone_le_zoneSpan
  rw [hrounds]
  simp only [clipRounds, RoundRange.Empty] at hne ⊢
  omega

theorem mem_placedSendRounds {a : Int} {send : SendRequest} {r : RoundRange}
    (h : r ∈ placedSendRounds t request a R send) : 0 ≤ r.begin ∧ r.begin < r.stop ∧ r.stop ≤ R := by
  obtain ⟨hr, hne⟩ := List.mem_filter.mp h
  obtain ⟨z, -, rfl⟩ := List.mem_map.mp hr
  rw [decide_eq_true_eq] at hne
  exact ⟨le_max_left _ _, not_le.mp hne, min_le_left _ _⟩

end

/-- In a shot with room for prefix and suffix no row number wraps around. -/
theorem ExperimentTemplate.sendsFit (t : ExperimentTemplate) {R : Nat} (hR : t.Admits R)
    (hfit : t.prefixRounds + t.suffixRounds ≤ R) (request : WindowRequest) (k : Int) :
    SendsFit t.toTemplateData request k R := by
  rintro send - r hr ⟨h1, h2⟩
  obtain ⟨hb, hlt, hle⟩ := mem_placedSendRounds hr
  have hmono := TemplateData.sumBefore_mono PhaseChunks.rows hfit (t.eq_prefixRounds hR)
    (show r.begin.toNat ≤ r.stop.toNat by omega) (by omega)
  unfold rowFrom TemplateData.rowOffset at h1 h2
  omega

end CudaqQec
