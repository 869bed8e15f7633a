import CudaqQec.Commitment.Relative

/-!
# Moving windows by whole periods

Layers of one period look the same from any two rounds that lie a whole number of periods apart, as
long as the shot's ends do not show. This module says what that means for the four checks.

* `rowSettled_iff`, `SettledAt.shift`: whether a row is settled depends only on its round modulo the
  period, and on whether it is the shot's first.
* `SameView`: two shots that cut a stretch of rounds alike. `SameView.clip` moves a zone from one to
  the other, and `SameView.delivers` a delivery.
-/

namespace CudaqQec

open Checked WindowRequest

/-! ## Rows and commits away from the shot's ends -/

section
variable (t : TemplateData) (layers : List WindowLayer) (edges : List TaskGraphEdge)

def CommitsAt (l : WindowLayer) (k q : Int) : Prop := q - l.request.anchor k ∈ l.request.commitZone

/-- Window `k` of a layer holds round `q`, as one of its own or an imported one. -/
def HoldsAt (l : WindowLayer) (k q : Int) : Prop :=
  q - l.request.anchor k ∈ l.request.zoneSpan ∨ q - l.request.anchor k ∈ importZone t l.request

/-- Window `j` of layer `p` sends round `q` to window `k` of layer `c`. -/
def SendsAt (p : WindowLayer) (j : Int) (c : WindowLayer) (k q : Int) : Prop :=
  ∃ e ∈ edges, e.toNode = c.node ∧ e.fromNode = p.node ∧ k + e.indexOffset = j ∧
    ∃ send, EdgeSource layers e p send ∧
      ∃ r ∈ relativeSendRounds t p.request send, q - p.request.anchor j ∈ r

/-- F3 at window `k` of layer `c` for the faults of round `x` on a row of round `q`. -/
def LearnsAt (c : WindowLayer) (k q x : Int) : Prop :=
  ∀ p ∈ layers, ∀ j, CommitsAt p j x → p = c ∧ j = k ∨ SendsAt t layers edges p j c k q

/-- F1 and F3 on a row of round `q`, wherever the shot ends; `inner` says that the round is not the
shot's first. -/
def SettledAt (q : Int) (inner own incoming : Prop) : Prop :=
  ∃ l ∈ layers, ∃ k, HoldsAt t l k q ∧
    FinalizesAt l.request (q - l.request.anchor k) inner own incoming ∧
    (∀ l' ∈ layers, ∀ k', HoldsAt t l' k' q →
      FinalizesAt l'.request (q - l'.request.anchor k') inner own incoming → l' = l ∧ k' = k) ∧
    (own → LearnsAt t layers edges l k q q) ∧ (incoming → LearnsAt t layers edges l k q (q - 1))

/-- Exactly one window commits round `q`. -/
def CommittedAt (q : Int) : Prop :=
  ∃ l ∈ layers, ∃ k, CommitsAt l k q ∧ ∀ l' ∈ layers, ∀ k', CommitsAt l' k' q → l' = l ∧ k' = k

end

section
variable {t : TemplateData} {layers : List WindowLayer} {edges : List TaskGraphEdge}

/-- A window that finalizes a row commits faults of its round or of the round before. -/
theorem FinalizesAt.commits {request : WindowRequest} {d : Int} {inner own incoming : Prop}
    (h : FinalizesAt request d inner own incoming) :
    d ∈ request.commitZone ∨ incoming ∧ d - 1 ∈ request.commitZone := by
  obtain ⟨-, ho, hi, ⟨h1, h2⟩ | ⟨h1, h2⟩⟩ := h
  · exact .inl (ho h1 h2)
  · exact .inr ⟨h1, hi h1 h2⟩

theorem WindowGraph.valid (h : WindowGraph layers edges) {l : WindowLayer} (hl : l ∈ layers) :
    l.request.Valid := checkRequest_valid (h.requests l hl)

/-- A window that commits a round of the shot is an instance of it. -/
theorem CommitsAt.instance {R : Nat} {l : WindowLayer} (hv : l.request.Anchored) {k q : Int}
    (h : CommitsAt l k q) (h0 : 0 ≤ q) (hq : q < R) : k ∈ l.request.instances R := by
  rw [CommitsAt, RoundRange.mem_def] at h
  rw [mem_instances hv]
  omega

theorem FinalizesAt.instance {R : Nat} {l : WindowLayer} (hv : l.request.Anchored) {k q : Int}
    {inner own incoming : Prop} (h : FinalizesAt l.request (q - l.request.anchor k) inner own incoming)
    (h0 : 0 ≤ q) (hq : q < R) (hin : incoming → 0 < q) : k ∈ l.request.instances R := by
  rcases h.commits with hc | ⟨hi, hc⟩
  · exact CommitsAt.instance (q := q) hv hc h0 hq
  · have hpos := hin hi
    refine CommitsAt.instance (q := q - 1) hv ?_ (by omega) (by omega)
    rwa [CommitsAt, show q - 1 - l.request.anchor k = q - l.request.anchor k - 1 by omega]

section
variable {R : Nat}

theorem mem_windows_of {l : WindowLayer} (hl : l ∈ layers) {k : Int} (hk : k ∈ l.request.instances R) :
    scheduledOf t layers edges R l k ∈ (scheduleOf t layers edges R).windows :=
  mem_scheduleOf.mpr ⟨l, hl, k, hk, rfl⟩

theorem WindowGraph.eq_of_scheduledOf (h : WindowGraph layers edges) {l l' : WindowLayer}
    (hl : l ∈ layers) (hl' : l' ∈ layers) {k k' : Int}
    (heq : scheduledOf t layers edges R l k = scheduledOf t layers edges R l' k') :
    l = l' ∧ k = k' :=
  ⟨List.inj_on_of_nodup_map h.nodes hl hl' (congrArg ScheduledWindow.node heq),
    congrArg ScheduledWindow.k heq⟩

theorem WindowGraph.holds_iff (h : WindowGraph layers edges) (hR0 : 0 < R) {l : WindowLayer}
    (hl : l ∈ layers) {k : Int} (hk : k ∈ l.request.instances R) {q : Int} (h0 : 0 ≤ q) (hq : q < R) :
    Holds (scheduledOf t layers edges R l k) q ↔ HoldsAt t l k q := by
  rw [Holds, mem_rounds_iff (h.valid hl) hR0 hk, mem_imports_iff (h.valid hl) hR0 hk]
  simp only [h0, hq, true_and, HoldsAt]

theorem WindowGraph.learns_iff (h : WindowGraph layers edges) {c : WindowLayer} (hc : c ∈ layers)
    {k q x : Int} (h0 : 0 ≤ q) (hq : q < R) (hx0 : 0 ≤ x) (hx : x < R) :
    Learns (scheduleOf t layers edges R) (scheduledOf t layers edges R c k) q x ↔
      LearnsAt t layers edges c k q x := by
  constructor
  · intro hall p hp j hcommit
    have hj := hcommit.instance (R := R) (h.valid hp).toAnchored hx0 hx
    have hmem : x ∈ (scheduledOf t layers edges R p j).commit := mem_commit_iff.mpr ⟨hx0, hx, hcommit⟩
    rcases hall _ (mem_windows_of hp hj) hmem with ⟨hn, hk⟩ | hs
    · exact .inl ⟨List.inj_on_of_nodup_map h.nodes hp hc hn, hk⟩
    · exact .inr ((sendsRound_iff h hp h0 hq).mp hs)
  · intro hall w hw hcommit
    obtain ⟨p, hp, j, hj, rfl⟩ := mem_scheduleOf.mp hw
    rcases hall p hp j (mem_commit_iff.mp hcommit).2.2 with ⟨rfl, rfl⟩ | hs
    · exact .inl ⟨rfl, rfl⟩
    · exact .inr ((sendsRound_iff h hp h0 hq).mpr hs)

/-- Inside a shot, whether a row is settled does not depend on where the shot ends. -/
theorem WindowGraph.rowSettled_iff (h : WindowGraph layers edges) (hR0 : 0 < R) {q : Int}
    (h0 : 0 ≤ q) (hq : q < R) {own incoming : Bool} (hin : incoming = true → 0 < q) :
    RowSettled (scheduleOf t layers edges R) q own incoming ↔
      SettledAt t layers edges q (0 < q) (own = true) (incoming = true) := by
  constructor
  · rintro ⟨f, hf, hh, hfin, huniq, ho, hi⟩
    obtain ⟨l, hl, k, hk, rfl⟩ := mem_scheduleOf.mp hf
    refine ⟨l, hl, k, (h.holds_iff hR0 hl hk h0 hq).mp hh,
      (finalizes_iff (h.valid hl) hR0 hk h0 hq hin).mp hfin, ?_, fun ht => ?_, fun ht => ?_⟩
    · intro l' hl' k' hh' hfin'
      have hk' := hfin'.instance (R := R) (h.valid hl').toAnchored h0 hq hin
      exact h.eq_of_scheduledOf hl' hl (huniq _ (mem_windows_of hl' hk')
        ((h.holds_iff hR0 hl' hk' h0 hq).mpr hh')
        ((finalizes_iff (h.valid hl') hR0 hk' h0 hq hin).mpr hfin'))
    · exact (h.learns_iff hl h0 hq h0 hq).mp (ho ht)
    · have hpos := hin ht
      exact (h.learns_iff hl h0 hq (by omega) (by omega)).mp (hi ht)
  · rintro ⟨l, hl, k, hh, hfin, huniq, ho, hi⟩
    have hk := hfin.instance (R := R) (h.valid hl).toAnchored h0 hq hin
    refine ⟨_, mem_windows_of hl hk, (h.holds_iff hR0 hl hk h0 hq).mpr hh,
      (finalizes_iff (h.valid hl) hR0 hk h0 hq hin).mpr hfin, ?_, fun ht => ?_, fun ht => ?_⟩
    · intro w hw hhw hfinw
      obtain ⟨l', hl', k', hk', rfl⟩ := mem_scheduleOf.mp hw
      obtain ⟨rfl, rfl⟩ := huniq l' hl' k' ((h.holds_iff hR0 hl' hk' h0 hq).mp hhw)
        ((finalizes_iff (h.valid hl') hR0 hk' h0 hq hin).mp hfinw)
      rfl
    · exact (h.learns_iff hl h0 hq h0 hq).mpr (ho ht)
    · have hpos := hin ht
      exact (h.learns_iff hl h0 hq (by omega) (by omega)).mpr (hi ht)

/-- Inside a shot, whether one window commits a round does not depend on where the shot ends. -/
theorem WindowGraph.committed_iff (h : WindowGraph layers edges) {q : Int} (h0 : 0 ≤ q)
    (hq : q < R) :
    (∃ w ∈ (scheduleOf t layers edges R).windows, q ∈ w.commit ∧
      ∀ w' ∈ (scheduleOf t layers edges R).windows, q ∈ w'.commit → w' = w) ↔
      CommittedAt layers q := by
  constructor
  · rintro ⟨w, hw, hcommit, huniq⟩
    obtain ⟨l, hl, k, hk, rfl⟩ := mem_scheduleOf.mp hw
    refine ⟨l, hl, k, (mem_commit_iff.mp hcommit).2.2, fun l' hl' k' hc' => ?_⟩
    have hk' := hc'.instance (R := R) (h.valid hl').toAnchored h0 hq
    exact h.eq_of_scheduledOf hl' hl
      (huniq _ (mem_windows_of hl' hk') (mem_commit_iff.mpr ⟨h0, hq, hc'⟩))
  · rintro ⟨l, hl, k, hc, huniq⟩
    have hk := hc.instance (R := R) (h.valid hl).toAnchored h0 hq
    refine ⟨_, mem_windows_of hl hk, mem_commit_iff.mpr ⟨h0, hq, hc⟩, fun w' hw' hc' => ?_⟩
    obtain ⟨l', hl', k', -, rfl⟩ := mem_scheduleOf.mp hw'
    obtain ⟨rfl, rfl⟩ := huniq l' hl' k' (mem_commit_iff.mp hc').2.2
    rfl

end

/-! ## Whole periods -/

section
variable {P : Int} (hP : ∀ l ∈ layers, l.request.period = P)

/-- A window moved by whole periods lies relative to the moved round as before. -/
theorem sub_anchor_shift {l : WindowLayer} (hl : l.request.period = P) (k q n : Int) :
    q + n * P - l.request.anchor (k + n) = q - l.request.anchor k := by
  rw [anchor_add, hl]
  omega

include hP

theorem LearnsAt.shift {c : WindowLayer} {k q x : Int} (h : LearnsAt t layers edges c k q x)
    (n : Int) : LearnsAt t layers edges c (k + n) (q + n * P) (x + n * P) := by
  intro p hp j hcommit
  have hj : j - n + n = j := by omega
  have hback : CommitsAt p (j - n) x := by
    rw [CommitsAt, ← sub_anchor_shift (hP p hp) (j - n) x n, hj]
    exact hcommit
  rcases h p hp (j - n) hback with ⟨rfl, hk⟩ | ⟨e, he, hto, hfrom, hidx, send, hs, r, hr, hq⟩
  · exact .inl ⟨rfl, by omega⟩
  · refine .inr ⟨e, he, hto, hfrom, by omega, send, hs, r, hr, ?_⟩
    rwa [← sub_anchor_shift (hP p hp) (j - n) q n, hj] at hq

/-- Rows a whole number of periods apart are settled alike. -/
theorem SettledAt.shift {q : Int} {inner own incoming : Prop}
    (h : SettledAt t layers edges q inner own incoming) (n : Int) :
    SettledAt t layers edges (q + n * P) inner own incoming := by
  obtain ⟨l, hl, k, hh, hfin, huniq, ho, hi⟩ := h
  have hsub := sub_anchor_shift (hP l hl) k q n
  refine ⟨l, hl, k + n, ?_, ?_, ?_, fun ht => (ho ht).shift hP n, fun ht => ?_⟩
  · rw [HoldsAt, hsub]
    exact hh
  · rw [hsub]
    exact hfin
  · intro l' hl' k' hh' hfin'
    have hback := sub_anchor_shift (hP l' hl') (k' - n) q n
    rw [show k' - n + n = k' by omega] at hback
    rw [hback] at hfin'
    rw [HoldsAt, hback] at hh'
    obtain ⟨rfl, hk⟩ := huniq l' hl' (k' - n) hh' hfin'
    exact ⟨rfl, by omega⟩
  · have := (hi ht).shift hP n
    rwa [show q - 1 + n * P = q + n * P - 1 by omega] at this

theorem CommittedAt.shift {q : Int} (h : CommittedAt layers q) (n : Int) :
    CommittedAt layers (q + n * P) := by
  obtain ⟨l, hl, k, hc, huniq⟩ := h
  refine ⟨l, hl, k + n, ?_, fun l' hl' k' hc' => ?_⟩
  · rw [CommitsAt, sub_anchor_shift (hP l hl) k q n]
    exact hc
  · have hback := sub_anchor_shift (hP l' hl') (k' - n) q n
    rw [show k' - n + n = k' by omega] at hback
    rw [CommitsAt, hback] at hc'
    obtain ⟨rfl, hk⟩ := huniq l' hl' (k' - n) hc'
    exact ⟨rfl, by omega⟩

end

end

/-! ## Shots that cut rounds alike -/

def RoundRange.shift (r : RoundRange) (d : Int) : RoundRange := ⟨r.begin + d, r.stop + d⟩

theorem RoundRange.shift_empty {r : RoundRange} {d : Int} : (r.shift d).Empty ↔ r.Empty :=
  add_le_add_iff_right d

theorem RoundRange.toList_shift (r : RoundRange) (d : Int) :
    (r.shift d).toList = r.toList.map (· + d) := by
  have hlen : (r.shift d).stop - (r.shift d).begin = r.stop - r.begin := add_sub_add_right_eq_sub _ _ _
  rw [toList, toList, hlen, List.map_map]
  refine List.map_congr_left fun i _ => ?_
  show r.begin + d + i = r.begin + i + d
  omega

theorem RoundRange.toList_eq_nil {r : RoundRange} : r.toList = [] ↔ r.Empty := by
  rw [toList, List.map_eq_nil_iff, List.range_eq_nil, Int.toNat_eq_zero]
  show r.stop - r.begin ≤ 0 ↔ r.stop ≤ r.begin
  omega

/-- Rounds `[lo, hi)` of an `R`-round shot, moved by `d`, are cut by an `R'`-round shot as before: at
either end the rounds stay clear of it in both shots, or they keep their distance from it. -/
structure SameView (lo hi : Int) (R R' : Nat) (d : Int) : Prop where
  begin : 0 ≤ lo ∧ 0 ≤ lo + d ∨ d = 0
  stop : hi ≤ R ∧ hi + d ≤ R' ∨ (R : Int) + d = R'

/-- A shot past the probes has its windows in a shot among them, a whole number of periods away. -/
theorem exists_sameView (lo hi : Int) {P : Int} {E m R : Nat} (hP : 1 ≤ P) (hm : m + P ≤ E) (hR : E ≤ R)
    (hlen : hi - lo + P ≤ E) : ∃ R' n, m ≤ R' ∧ R' < E ∧ SameView lo hi R R' (n * P) := by
  by_cases hlo : lo < 0
  · exact ⟨E - 1, 0, by omega, by omega, .inr (by simp), .inl ⟨by omega, by omega⟩⟩
  by_cases hhi : hi ≤ R
  · -- Clear of both ends: the rounds move to the first period.
    have h1 := Int.emod_add_mul_ediv lo P
    have h2 := Int.emod_nonneg lo (by omega : P ≠ 0)
    have h3 := Int.emod_lt_of_pos lo (by omega : 0 < P)
    have h4 : -(lo / P) * P = -(P * (lo / P)) := by ring
    exact ⟨E - 1, -(lo / P), by omega, by omega, .inl ⟨by omega, by omega⟩,
      .inl ⟨by omega, by omega⟩⟩
  · -- At the end: the last period's worth of probes has a shot with the same end.
    have h1 := Int.emod_add_mul_ediv ((R : Int) - E) P
    have h2 := Int.emod_nonneg ((R : Int) - E) (by omega : P ≠ 0)
    have h3 := Int.emod_lt_of_pos ((R : Int) - E) (by omega : 0 < P)
    have h4 : -(((R : Int) - E) / P + 1) * P = -(P * (((R : Int) - E) / P)) - P := by ring
    refine ⟨(R + -(((R : Int) - E) / P + 1) * P).toNat, -(((R : Int) - E) / P + 1), by omega,
      by omega, .inl ⟨by omega, by omega⟩, .inr (by omega)⟩

namespace SameView

variable {lo hi d : Int} {R R' : Nat}

/-- A zone inside the view is clipped alike. -/
theorem clip (h : SameView lo hi R R' d) {z : RoundRange} {a : Int} (hlo : lo ≤ a + z.begin)
    (hhi : a + z.stop ≤ hi) : clipRounds z (a + d) R' = (clipRounds z a R).shift d := by
  have h1 := h.begin
  have h2 := h.stop
  ext
  · show max 0 (a + d + z.begin) = max 0 (a + z.begin) + d
    clear * - hlo h1
    omega
  · show min (R' : Int) (a + d + z.stop) = min (R : Int) (a + z.stop) + d
    omega

/-- A window whose commit zone lies in the view is an instance of both shots or of neither. -/
theorem instance_iff (h : SameView lo hi R R' d) (hR : 0 < R) (hR' : 0 < R') {request : WindowRequest}
    (hv : request.Anchored) {k k' : Int} (hk : request.anchor k' = request.anchor k + d)
    (hlo : lo ≤ request.anchor k + request.commitZone.begin)
    (hhi : request.anchor k + request.commitZone.stop ≤ hi) :
    k' ∈ request.instances R' ↔ k ∈ request.instances R := by
  rw [mem_instances_iff_clip hv hR', mem_instances_iff_clip hv hR, hk, h.clip hlo hhi,
    RoundRange.shift_empty]

end SameView

/-! ## Windows and deliveries in a view -/

theorem checkSendRounds_within {name : String} {window : RoundRange} {previous : Option RoundRange}
    {rs : List RoundRange} (h : checkSendRounds name window previous rs = .ok ()) :
    ∀ r ∈ rs, window.begin ≤ r.begin ∧ r.stop ≤ window.stop := by
  induction rs generalizing previous with
  | nil => simp
  | cons r rs ih =>
    simp only [checkSendRounds, bind_eq_ok, throwIf_eq_ok] at h
    obtain ⟨_, -, _, -, _, -, _, hin, _, -, hrest⟩ := h
    intro x hx
    rcases List.mem_cons.mp hx with rfl | hx
    · clear * - hin
      omega
    · exact ih hrest x hx

/-- A window sends rounds of its own. -/
theorem relativeSendRounds_within {t : TemplateData} {request : WindowRequest} (hv : request.Valid)
    (hspan : t.maxSpan ≤ 1) {send : SendRequest} (hs : send ∈ request.sends) {r : RoundRange}
    (hr : r ∈ relativeSendRounds t request send) :
    request.zoneSpan.begin ≤ r.begin ∧ r.stop ≤ request.zoneSpan.stop := by
  have hcheck := (checkSends_nodup hv.sends).2.2 send hs
  have hcz := request.commitZone_le_zoneSpan
  have hne := hv.nonempty
  unfold checkSend at hcheck
  unfold relativeSendRounds at hr
  by_cases hd : send.isDefault = true
  · rw [if_pos hd] at hcheck hr
    rw [throwIf_eq_ok] at hcheck
    simp only [List.mem_singleton] at hr
    subst hr
    by_cases hf : send.id = "forward"
    · have htrail : request.trailingBuffer ≠ none := fun hn => hcheck ⟨hf, hn⟩
      obtain ⟨b, hb⟩ := Option.ne_none_iff_exists'.mp htrail
      have hmem : b ∈ request.buffers := List.mem_of_find?_eq_some hb
      have hzone := le_zoneSpan (z := b) (List.mem_cons_of_mem _ hmem)
      have hbne := hv.buffers b hmem
      simp only [hf, hb, if_true, Option.map_some, Option.getD_some]
      omega
    · simp only [hf, if_false]
      omega
  · rw [if_neg hd] at hcheck hr
    simp only [bind_eq_ok, throwIf_eq_ok] at hcheck
    obtain ⟨_, -, hcheck⟩ := hcheck
    rw [← hv.window_eq]
    exact checkSendRounds_within hcheck r hr

section
variable {t : TemplateData} {lo hi d : Int} {R R' : Nat}

theorem SameView.sendRounds (h : SameView lo hi R R' d) {request : WindowRequest}
    {send : SendRequest} {a : Int} (hin : ∀ r ∈ relativeSendRounds t request send,
      lo ≤ a + r.begin ∧ a + r.stop ≤ hi) :
    placedSendRounds t request (a + d) R' send =
      (placedSendRounds t request a R send).map fun r => r.shift d := by
  unfold placedSendRounds
  have hmap : ((relativeSendRounds t request send).map fun r => clipRounds r (a + d) R') =
      ((relativeSendRounds t request send).map fun r => clipRounds r a R).map
        fun r => r.shift d := by
    rw [List.map_map]
    exact List.map_congr_left fun r hr => h.clip (hin r hr).1 (hin r hr).2
  rw [hmap, List.filter_map]
  congr 1
  refine List.filter_congr fun r _ => ?_
  simp only [Function.comp_apply, RoundRange.shift_empty]

/-- The imports of a window are its import zone, clipped. -/
theorem toList_imports {layers : List WindowLayer} {edges : List TaskGraphEdge} {l : WindowLayer}
    (hv : l.request.Valid) (hR0 : 0 < R) {k : Int} (hk : k ∈ l.request.instances R) :
    (scheduledOf t layers edges R l k).output.imports.toList =
      (clipRounds (importZone t l.request) (l.request.anchor k) R).toList := by
  have hstop : (scheduledOf t layers edges R l k).rounds.stop =
      min (R : Int) (l.request.anchor k + l.request.zoneSpan.stop) := by
    rw [rounds_eq t layers edges hv hR0 hk]
    rfl
  have hbegin := importZone_begin (t := t) hv
  show (if (scheduledOf t layers edges R l k).rounds.stop < R ∧
    l.request.output.disposition.getD .opened = .closed then
      clipRounds (relativeImports t l.request) (l.request.anchor k) R else ⟨0, 0⟩).toList = _
  split
  · next hc =>
    have hzone : importZone t l.request = relativeImports t l.request := if_pos hc.2
    rw [hzone]
  · next hc =>
    -- Without a closed port past the window there is nothing to import.
    have hempty : (clipRounds (importZone t l.request) (l.request.anchor k) R).Empty := by
      by_cases hclosed : l.request.output.disposition.getD .opened = .closed
      · have hge : ¬ (scheduledOf t layers edges R l k).rounds.stop < R := fun hn => hc ⟨hn, hclosed⟩
        show min (R : Int) (l.request.anchor k + (importZone t l.request).stop) ≤
          max 0 (l.request.anchor k + (importZone t l.request).begin)
        omega
      · have hzone : importZone t l.request =
            ⟨l.request.zoneSpan.stop, l.request.zoneSpan.stop⟩ := if_neg hclosed
        rw [hzone]
        show min (R : Int) (l.request.anchor k + l.request.zoneSpan.stop) ≤
          max 0 (l.request.anchor k + l.request.zoneSpan.stop)
        omega
    rw [RoundRange.toList_eq_nil.mpr hempty]
    rfl

variable {layers : List WindowLayer} {edges : List TaskGraphEdge}

/-- Two shots that cut a window, its imports and the producer of one of its inputs alike deliver that
input alike. -/
theorem SameView.delivers (h : SameView lo hi R R' d) (hR : 0 < R) (hR' : 0 < R')
    {c p : WindowLayer} (hc : c.request.Valid) {send : SendRequest}
    {k k' j j' : Int} (hk : c.request.anchor k' = c.request.anchor k + d)
    (hj : p.request.anchor j' = p.request.anchor j + d)
    (hkR : k ∈ c.request.instances R) (hkR' : k' ∈ c.request.instances R')
    (hspan : lo ≤ c.request.anchor k + c.request.zoneSpan.begin ∧
      c.request.anchor k + c.request.zoneSpan.stop ≤ hi)
    (himp : lo ≤ c.request.anchor k + (importZone t c.request).begin ∧
      c.request.anchor k + (importZone t c.request).stop ≤ hi)
    (hsend : ∀ r ∈ relativeSendRounds t p.request send,
      lo ≤ p.request.anchor j + r.begin ∧ p.request.anchor j + r.stop ≤ hi)
    (hdel : Delivers (placedSend t p.request j' R' send) (scheduledOf t layers edges R' c k')) :
    Delivers (placedSend t p.request j R send) (scheduledOf t layers edges R c k) := by
  -- what is sent, the window's rounds and its imports are all moved by `d`
  have hrounds : (placedSend t p.request j' R' send).rounds =
      (placedSend t p.request j R send).rounds.map fun r => r.shift d := by
    show placedSendRounds t p.request (p.request.anchor j') R' send = _
    rw [hj, h.sendRounds hsend]
    rfl
  have hown : (scheduledOf t layers edges R' c k').rounds =
      (scheduledOf t layers edges R c k).rounds.shift d := by
    rw [rounds_eq t layers edges hc hR' hkR', rounds_eq t layers edges hc hR hkR, hk,
      h.clip hspan.1 hspan.2]
  have himports : (scheduledOf t layers edges R' c k').output.imports.toList =
      (scheduledOf t layers edges R c k).output.imports.toList.map (· + d) := by
    rw [toList_imports hc hR' hkR', toList_imports hc hR hkR, hk, h.clip himp.1 himp.2,
      RoundRange.toList_shift]
  obtain ⟨hdelta, hres⟩ := hdel
  rw [hrounds] at hdelta hres
  rw [hown] at hdelta
  refine ⟨fun hm r hr => ?_, fun hm => ?_⟩
  · have hin := hdelta hm (r.shift d) (List.mem_map.mpr ⟨r, hr, rfl⟩)
    simp only [RoundRange.shift] at hin
    omega
  · have heq := hres hm
    rw [himports, List.flatMap_map] at heq
    refine List.map_injective_iff.mpr (add_left_injective d) (Eq.trans ?_ heq)
    rw [List.map_flatMap]
    exact congrArg (List.flatMap · _) (funext fun r => (RoundRange.toList_shift r d).symm)

end

end CudaqQec
