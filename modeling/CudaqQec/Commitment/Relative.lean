import CudaqQec.Commitment.Spec

/-!
# Windows relative to their anchors

Clipping cuts a window's zones at the shot's ends and does nothing else: inside the shot, whether a
window has a round in one of its zones, finalizes it or sends it depends only on where the round lies
relative to the window's anchor. What the four checks ask of the rounds inside a shot can so be
compared between shots of different lengths.

* `mem_rounds_iff`, `mem_commit_iff`, `mem_imports_iff`: zones relative to the anchor.
* `finalizes_iff`: finalizing relative to the anchor.
* `sends_iff`: sent rounds relative to the anchor.
-/

namespace CudaqQec

open Checked WindowRequest

section
variable {t : TemplateData} {layers : List WindowLayer} {edges : List TaskGraphEdge} {R : Nat}
  {l : WindowLayer} {k : Int}

/-! ## The zones -/

theorem mem_commit_iff {q : Int} : q ∈ (scheduledOf t layers edges R l k).commit ↔
    0 ≤ q ∧ q < R ∧ q - l.request.anchor k ∈ l.request.commitZone := mem_clipRounds

variable (t layers edges) in
theorem rounds_eq (hv : l.request.Valid) (hR0 : 0 < R) (hk : k ∈ l.request.instances R) :
    (scheduledOf t layers edges R l k).rounds =
      clipRounds l.request.zoneSpan (l.request.anchor k) R :=
  placedRounds_eq hv ((mem_instances_iff_clip hv.toAnchored hR0).mp hk)

theorem mem_rounds_iff (hv : l.request.Valid) (hR0 : 0 < R) (hk : k ∈ l.request.instances R)
    {q : Int} : q ∈ (scheduledOf t layers edges R l k).rounds ↔
      0 ≤ q ∧ q < R ∧ q - l.request.anchor k ∈ l.request.zoneSpan := by
  rw [rounds_eq t layers edges hv hR0 hk, mem_clipRounds]

/-- The rounds a layer's windows import, relative to the anchor; none through an open output. -/
def importZone (t : TemplateData) (request : WindowRequest) : RoundRange :=
  if request.output.disposition.getD .opened = .closed then relativeImports t request
  else ⟨request.zoneSpan.stop, request.zoneSpan.stop⟩

theorem importZone_begin (hv : l.request.Valid) :
    (importZone t l.request).begin = l.request.zoneSpan.stop := by
  unfold importZone
  split
  · exact relativeImports_begin hv
  · rfl

theorem mem_imports_iff (hv : l.request.Valid) (hR0 : 0 < R) (hk : k ∈ l.request.instances R)
    {q : Int} : q ∈ (scheduledOf t layers edges R l k).output.imports ↔
      0 ≤ q ∧ q < R ∧ q - l.request.anchor k ∈ importZone t l.request := by
  have hr := rounds_eq t layers edges hv hR0 hk
  have hb := relativeImports_begin (t := t) hv
  show q ∈ (placedOutput t l.request (l.request.anchor k)
    (scheduledOf t layers edges R l k).rounds.stop R).imports ↔ _
  rw [mem_placedOutput_imports, hr, mem_clipRounds]
  unfold importZone
  by_cases hc : l.request.output.disposition.getD .opened = .closed
  · rw [if_pos hc]
    constructor
    · rintro ⟨-, -, h⟩
      exact h
    · rintro ⟨h1, h2, h3⟩
      refine ⟨?_, hc, h1, h2, h3⟩
      -- An imported round of the shot lies past the window's last, so the output is a port.
      rw [RoundRange.mem_def, hb] at h3
      show min (R : Int) (l.request.anchor k + l.request.zoneSpan.stop) < R
      omega
  · rw [if_neg hc]
    constructor
    · rintro ⟨-, h, -⟩
      exact absurd h hc
    · rintro ⟨-, -, h⟩
      rw [RoundRange.mem_def] at h
      exact absurd (lt_of_le_of_lt h.1 h.2) (lt_irrefl _)

/-! ## Finalizing a round -/

/-- `finalizes`, as the conditions its steps test. -/
theorem finalizes_eq_true {w : ScheduledWindow} {q : Int} {own incoming : Bool} :
    finalizes w q own incoming = true ↔
      ¬ ((q = w.rounds.begin ∧ w.input.present = true ∧ w.input.disposition = .opened) ∧
        (w.input.boundary = .columns ∨ incoming = true)) ∧
      (own = true → q ∈ w.rounds → q ∈ w.commit) ∧
      (incoming = true → q - 1 ∈ w.rounds → q - 1 ∈ w.commit) ∧
      (own = true ∧ q ∈ w.rounds ∨ incoming = true ∧ q - 1 ∈ w.rounds) := by
  unfold finalizes
  split
  · next h => simp only [Bool.false_eq_true, false_iff]; exact fun hn => hn.1 h
  · next h =>
    split
    · next h1 =>
      simp only [Bool.false_eq_true, false_iff]
      exact fun hn => h1.2.2 (hn.2.1 h1.1 h1.2.1)
    · next h1 =>
      split
      · next h2 =>
        simp only [Bool.false_eq_true, false_iff]
        exact fun hn => h2.2.2 (hn.2.2.1 h2.1 h2.2.1)
      · next h2 =>
        rw [decide_eq_true_eq]
        constructor
        · intro hany
          refine ⟨h, fun ho hr => ?_, fun hi hr => ?_, hany⟩
          · by_contra hc
            exact h1 ⟨ho, hr, hc⟩
          · by_contra hc
            exact h2 ⟨hi, hr, hc⟩
        · exact fun hn => hn.2.2.2

/-- Whether a window finalizes a row `d` rounds past its anchor. `inner` says that the round is not
the shot's first. -/
def FinalizesAt (request : WindowRequest) (d : Int) (inner own incoming : Prop) : Prop :=
  ¬ ((d = request.zoneSpan.begin ∧ inner ∧ request.input.disposition.getD .opened = .opened) ∧
    (request.input.boundary.getD .columns = .columns ∨ incoming)) ∧
  (own → d ∈ request.zoneSpan → d ∈ request.commitZone) ∧
  (incoming → d - 1 ∈ request.zoneSpan → d - 1 ∈ request.commitZone) ∧
  (own ∧ d ∈ request.zoneSpan ∨ incoming ∧ d - 1 ∈ request.zoneSpan)

/-- An open input starts at round `q` exactly when the span does and `q` is not the first round. -/
theorem openInput_iff (hv : l.request.Valid) (hR0 : 0 < R) (hk : k ∈ l.request.instances R)
    {q : Int} : (q = (scheduledOf t layers edges R l k).rounds.begin ∧
        (scheduledOf t layers edges R l k).input.present = true ∧
        (scheduledOf t layers edges R l k).input.disposition = .opened) ↔
      (q - l.request.anchor k = l.request.zoneSpan.begin ∧ 0 < q ∧
        l.request.input.disposition.getD .opened = .opened) := by
  have hr := rounds_eq t layers edges hv hR0 hk
  have hbegin : (scheduledOf t layers edges R l k).rounds.begin =
      max 0 (l.request.anchor k + l.request.zoneSpan.begin) := by
    rw [hr]
    rfl
  have hpresent : (scheduledOf t layers edges R l k).input.present = true ↔
      0 < (scheduledOf t layers edges R l k).rounds.begin := decide_eq_true_iff
  have hdisp : (scheduledOf t layers edges R l k).input.disposition =
      l.request.input.disposition.getD .opened := rfl
  rw [hpresent, hbegin, hdisp]
  constructor
  · rintro ⟨h1, h2, h3⟩
    exact ⟨by omega, by omega, h3⟩
  · rintro ⟨h1, h2, h3⟩
    exact ⟨by omega, by omega, h3⟩

theorem finalizes_iff (hv : l.request.Valid) (hR0 : 0 < R) (hk : k ∈ l.request.instances R)
    {q : Int} (h0 : 0 ≤ q) (hq : q < R) {own incoming : Bool} (hin : incoming = true → 0 < q) :
    finalizes (scheduledOf t layers edges R l k) q own incoming = true ↔
      FinalizesAt l.request (q - l.request.anchor k) (0 < q) (own = true) (incoming = true) := by
  have hspan : ∀ x : Int, 0 ≤ x → x < R → (x ∈ (scheduledOf t layers edges R l k).rounds ↔
      x - l.request.anchor k ∈ l.request.zoneSpan) := by
    intro x hx hx'
    rw [mem_rounds_iff hv hR0 hk]
    exact ⟨fun h => h.2.2, fun h => ⟨hx, hx', h⟩⟩
  have hcommit : ∀ x : Int, 0 ≤ x → x < R → (x ∈ (scheduledOf t layers edges R l k).commit ↔
      x - l.request.anchor k ∈ l.request.commitZone) := by
    intro x hx hx'
    rw [mem_commit_iff]
    exact ⟨fun h => h.2.2, fun h => ⟨hx, hx', h⟩⟩
  have hbound : (scheduledOf t layers edges R l k).input.boundary =
      l.request.input.boundary.getD .columns := rfl
  have hsub : q - 1 - l.request.anchor k = q - l.request.anchor k - 1 := by omega
  rw [finalizes_eq_true, openInput_iff hv hR0 hk, hbound, hspan q h0 hq, hcommit q h0 hq,
    FinalizesAt]
  cases hincoming : incoming with
  | false => simp
  | true =>
    have hpos := hin hincoming
    rw [hspan (q - 1) (by omega) (by omega), hcommit (q - 1) (by omega) (by omega), hsub]

/-! ## Sending a round -/

/-- A round inside the shot is sent exactly when it lies in one of the send's ranges relative to the
anchor. -/
theorem sends_iff {send : SendRequest} {q : Int} (h0 : 0 ≤ q) (hq : q < R) :
    (∃ r ∈ placedSendRounds t l.request (l.request.anchor k) R send, q ∈ r) ↔
      ∃ r ∈ relativeSendRounds t l.request send, q - l.request.anchor k ∈ r := by
  simp only [placedSendRounds, List.mem_filter, List.mem_map, decide_eq_true_eq]
  constructor
  · rintro ⟨_, ⟨⟨r, hr, rfl⟩, -⟩, hqr⟩
    exact ⟨r, hr, (mem_clipRounds.mp hqr).2.2⟩
  · rintro ⟨r, hr, hqr⟩
    have hmem : q ∈ clipRounds r (l.request.anchor k) R := mem_clipRounds.mpr ⟨h0, hq, hqr⟩
    exact ⟨_, ⟨⟨r, hr, rfl⟩, not_le.mpr (lt_of_le_of_lt hmem.1 hmem.2)⟩, hmem⟩

/-- Window `j` of layer `p` sends a round to window `k` of layer `c` through an edge that maps `k` to
`j`. -/
theorem sendsRound_iff (h : WindowGraph layers edges) {p c : WindowLayer} (hp : p ∈ layers) {j : Int}
    {q : Int} (h0 : 0 ≤ q) (hq : q < R) :
    sendsRound (scheduledOf t layers edges R p j) (scheduledOf t layers edges R c k) q = true ↔
      ∃ e ∈ edges, e.toNode = c.node ∧ e.fromNode = p.node ∧ k + e.indexOffset = j ∧
        ∃ send, EdgeSource layers e p send ∧
          ∃ r ∈ relativeSendRounds t p.request send, q - p.request.anchor j ∈ r := by
  have hinputs : (scheduledOf t layers edges R c k).inputs =
      (edges.filter fun e => e.toNode = c.node).map (dependencyAt layers R k) := rfl
  have hnode : (scheduledOf t layers edges R p j).node = p.node := rfl
  have hidx : (scheduledOf t layers edges R p j).k = j := rfl
  simp only [sendsRound, hinputs, List.any_map, List.any_eq_true, List.mem_filter,
    decide_eq_true_eq, Function.comp_apply, hnode, hidx]
  constructor
  · rintro ⟨e, ⟨he, hto⟩, hfrom, hj, r, hr, hqr⟩
    obtain ⟨p', send, hs⟩ := h.exists_source he
    have hfrom' : e.fromNode = p.node := hfrom
    have hpp : p' = p :=
      List.inj_on_of_nodup_map h.nodes hs.mem hp (hs.node.trans hfrom')
    subst hpp
    rw [hs.sendOf_eq h j rfl] at hr
    refine ⟨e, he, hto, hfrom', hj, send, hs, ?_⟩
    exact (sends_iff h0 hq).mp ⟨r, hr, hqr⟩
  · rintro ⟨e, he, hto, hfrom, hj, send, hs, hsent⟩
    obtain ⟨r, hr, hqr⟩ := (sends_iff (R := R) h0 hq).mpr hsent
    refine ⟨e, ⟨he, hto⟩, hfrom, hj, r, ?_, hqr⟩
    rw [hs.sendOf_eq h j rfl]
    exact hr

end

end CudaqQec
