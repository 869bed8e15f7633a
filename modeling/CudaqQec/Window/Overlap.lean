import CudaqQec.Window.Instances

/-!
# Overlapping commit zones

`window_commits_overlap`: whether two layers over one template commit a round twice. Over a template
that repeats, two layers meet when their zones do at some distance the periods allow, which one gcd
decides. Over one that does not, the two sequences of clipped zones are walked side by side.

* `overlapScan_iff`: the walk finds a common round when there is one.
* `repeats_overlap_iff`: the distances of two layers are the multiples of the gcd past the first.
* `windowCommitsOverlap_exact`: the answer is right for some admitted shot.
-/

namespace CudaqQec

open Checked

/-! ## The source's test -/

def WindowRequest.commitStart (request : WindowRequest) : Int :=
  request.offset + request.commitZone.begin

def WindowRequest.commitWidth (request : WindowRequest) : Int :=
  request.commitZone.stop - request.commitZone.begin

/-- The walk over the instances of two layers, from `ak` and `bk` on. The zone that ends first is
left behind. -/
@[grind =] def overlapScan (a b : WindowRequest) (R : Nat) (aStop bStop ak bk : Int) : Bool :=
  if ak < aStop ∧ bk < bStop then
    let ab := a.commitStart + ak * a.period
    let bb := b.commitStart + bk * b.period
    let ae := a.offset + ak * a.period + a.commitZone.stop
    let be := b.offset + bk * b.period + b.commitZone.stop
    if max (max 0 ab) bb < min (min (R : Int) ae) be then true
    else if ae ≤ be then overlapScan a b R aStop bStop (ak + 1) bk
    else overlapScan a b R aStop bStop ak (bk + 1)
  else false
termination_by (aStop - ak).toNat + (bStop - bk).toNat

/-- `window_commits_overlap`, for a node of request `a` over `ta` and one of `b` over `tb`. -/
def windowCommitsOverlap (ta tb : TemplateData) (a b : WindowRequest) : Except Error Bool :=
  if ta.repeats ∧ tb.repeats then
    let period : Int := Int.gcd a.period b.period
    let remainder := (b.commitStart - a.commitStart).tmod period
    let distance := if remainder < 0 then remainder + period else remainder
    .ok (decide (distance < a.commitWidth ∨ period - distance < b.commitWidth))
  else do
    let rounds := if ¬ ta.repeats then ta.minRounds else tb.minRounds
    let ai ← shotInstances a rounds
    let bi ← shotInstances b rounds
    if ai.begin = ai.stop ∨ bi.begin = bi.stop then
      return false
    if a.commitWidth ≥ a.period ∨ b.commitWidth ≥ b.period then
      return true
    return overlapScan a b rounds ai.stop bi.stop ai.begin bi.begin

/-- Some instance of each layer commits round `q` of a shot of `R` rounds. -/
def CommonRound (a b : WindowRequest) (R : Nat) (q : Int) : Prop :=
  ∃ ai bi, shotInstances a R = .ok ai ∧ shotInstances b R = .ok bi ∧
    ∃ k ∈ ai, ∃ l ∈ bi, q ∈ a.clippedCommit R k ∧ q ∈ b.clippedCommit R l

/-! ## Zones that meet -/

section
variable {a b : WindowRequest} {R : Nat} {k l q : Int}

/-- An instance of each layer is all that a common round needs: a window that commits a round of the
shot is one. -/
theorem commonRound_iff (ha : a.Anchored) (hb : b.Anchored) :
    CommonRound a b R q ↔ 0 ≤ q ∧ q < R ∧ ∃ k l, q ∈ a.commitRounds k ∧ q ∈ b.commitRounds l := by
  have hinst {r : WindowRequest} (hr : r.Anchored) {k : Int} (h0 : 0 ≤ q) (hq : q < R)
      (hk : q ∈ r.commitRounds k) : k ∈ r.instances R :=
    (WindowRequest.mem_instances_iff_meets hr (by omega)).mpr ⟨q, h0, hq, hk⟩
  constructor
  · rintro ⟨_, _, -, -, k, -, l, -, hk, hl⟩
    rw [WindowRequest.mem_clippedCommit] at hk hl
    exact ⟨hk.1, hk.2.1, k, l, hk.2.2, hl.2.2⟩
  · rintro ⟨h0, hq, k, l, hk, hl⟩
    refine ⟨_, _, shotInstances_eq ha R, shotInstances_eq hb R, k, hinst ha h0 hq hk, l,
      hinst hb h0 hq hl, ?_, ?_⟩
    · exact WindowRequest.mem_clippedCommit.mpr ⟨h0, hq, hk⟩
    · exact WindowRequest.mem_clippedCommit.mpr ⟨h0, hq, hl⟩

/-- Two ranges have a common round when each begins before the other ends. -/
theorem RoundRange.exists_mem_both {r s : RoundRange} :
    (∃ q, q ∈ r ∧ q ∈ s) ↔ max r.begin s.begin < min r.stop s.stop := by
  simp only [RoundRange.mem_def]
  constructor
  · rintro ⟨q, hr, hs⟩
    omega
  · intro h
    exact ⟨max r.begin s.begin, by omega, by omega⟩

/-- The test of the walk: the clipped zones have a common round. -/
theorem clipped_meet_iff :
    (∃ q, q ∈ a.clippedCommit R k ∧ q ∈ b.clippedCommit R l) ↔
      max (max 0 (a.commitStart + k * a.period)) (b.commitStart + l * b.period) <
        min (min (R : Int) (a.offset + k * a.period + a.commitZone.stop))
          (b.offset + l * b.period + b.commitZone.stop) := by
  have hstart : ∀ (r : WindowRequest) (i : Int),
      r.commitStart + i * r.period = r.anchor i + r.commitZone.begin := by
    intro r i
    rw [WindowRequest.commitStart, WindowRequest.anchor]
    ring
  rw [RoundRange.exists_mem_both, hstart, hstart]
  show max (max 0 (a.anchor k + a.commitZone.begin)) (max 0 (b.anchor l + b.commitZone.begin)) <
    min (min (R : Int) (a.anchor k + a.commitZone.stop))
      (min (R : Int) (b.anchor l + b.commitZone.stop)) ↔ _
  rw [max_max_max_comm, max_self, min_min_min_comm, min_self, ← max_assoc, ← min_assoc]
  rfl

/-! ## A template that does not repeat -/

/-- A zone that ends no later than zone `l` of a layer with gaps meets none of the zones after it. -/
theorem not_meet_later (hp : 1 ≤ b.period) (hgap : b.commitWidth < b.period) {k l l' : Int}
    (hend : a.offset + k * a.period + a.commitZone.stop ≤
      b.offset + l * b.period + b.commitZone.stop) (hl : l < l') :
    ¬ ∃ q, q ∈ a.clippedCommit R k ∧ q ∈ b.clippedCommit R l' := by
  rintro ⟨q, hk, hl'⟩
  rw [WindowRequest.mem_clippedCommit] at hk hl'
  have hnext := WindowRequest.anchor_add_le hp hl
  obtain ⟨-, -, hk⟩ := hk
  obtain ⟨-, -, hl'⟩ := hl'
  simp only [WindowRequest.commitRounds, RoundRange.mem_def, WindowRequest.anchor] at hk hl' hnext
  unfold WindowRequest.commitWidth at hgap
  omega

/-- The walk finds a common round of the instances that are left. -/
theorem overlapScan_iff (ha : a.Anchored) (hb : b.Anchored) (hga : a.commitWidth < a.period)
    (hgb : b.commitWidth < b.period) {aStop bStop ak bk : Int} :
    overlapScan a b R aStop bStop ak bk = true ↔
      ∃ k, ak ≤ k ∧ k < aStop ∧ ∃ l, bk ≤ l ∧ l < bStop ∧
        ∃ q, q ∈ a.clippedCommit R k ∧ q ∈ b.clippedCommit R l := by
  fun_induction overlapScan a b R aStop bStop ak bk with
  | case1 ak bk hin ab bb ae be hmeet =>
    simp only [true_iff]
    exact ⟨ak, le_refl _, hin.1, bk, le_refl _, hin.2, clipped_meet_iff.mpr hmeet⟩
  | case2 ak bk hin ab bb ae be hmiss hle ih =>
    rw [ih]
    constructor
    · rintro ⟨k, hk, hrest⟩
      exact ⟨k, by omega, hrest⟩
    · rintro ⟨k, hk, hkStop, l, hl, hlStop, hq⟩
      -- Zone `ak` ends first: it misses zone `bk`, and all that come after.
      have hne : k ≠ ak := by
        rintro rfl
        rcases eq_or_lt_of_le hl with rfl | hlt
        · exact hmiss (clipped_meet_iff.mp hq)
        · exact not_meet_later hb.period_pos hgb hle hlt hq
      exact ⟨k, by omega, hkStop, l, hl, hlStop, hq⟩
  | case3 ak bk hin ab bb ae be hmiss hlt ih =>
    rw [ih]
    constructor
    · rintro ⟨k, hk, hkStop, l, hl, hrest⟩
      exact ⟨k, hk, hkStop, l, by omega, hrest⟩
    · rintro ⟨k, hk, hkStop, l, hl, hlStop, q, hqk, hql⟩
      have hne : l ≠ bk := by
        rintro rfl
        rcases eq_or_lt_of_le hk with rfl | hk
        · exact hmiss (clipped_meet_iff.mp ⟨q, hqk, hql⟩)
        · exact not_meet_later ha.period_pos hga (le_of_lt (not_le.mp hlt)) hk ⟨q, hql, hqk⟩
      exact ⟨k, hk, hkStop, l, by omega, hlStop, q, hqk, hql⟩
  | case4 ak bk hout =>
    simp only [Bool.false_eq_true, false_iff]
    rintro ⟨k, hk, hkStop, l, hl, hlStop, -⟩
    omega

/-- A layer whose zones are at least as long as its period commits every round. -/
theorem exists_commitRounds (ha : a.Anchored) (hlen : a.period ≤ a.commitWidth) (q : Int) :
    ∃ k, q ∈ a.commitRounds k := by
  have hp := ha.period_pos
  have hdiv := floorDiv_mul_le (q - a.offset - a.commitZone.begin) (by omega : 0 < a.period)
  unfold WindowRequest.commitWidth at hlen
  refine ⟨floorDiv (q - a.offset - a.commitZone.begin) a.period, ?_⟩
  simp only [WindowRequest.commitRounds, RoundRange.mem_def, WindowRequest.anchor]
  omega

theorem exists_round_of_instances (ha : a.Anchored) (hR : 1 ≤ R)
    (hne : (a.instances R).begin ≠ (a.instances R).stop) :
    ∃ q : Int, 0 ≤ q ∧ q < R ∧ ∃ k, q ∈ a.commitRounds k := by
  have hle : (a.instances R).begin ≤ (a.instances R).stop := le_max_right _ _
  have hmem : (a.instances R).begin ∈ a.instances R :=
    IndexRange.mem_def.mpr ⟨le_refl _, lt_of_le_of_ne hle hne⟩
  obtain ⟨q, h0, hq, hk⟩ := (WindowRequest.mem_instances_iff_meets ha hR).mp hmem
  exact ⟨q, h0, hq, _, hk⟩

/-- Over a template that does not repeat: the shot has its minimum length, and no other. -/
theorem windowCommitsOverlap_finite (ha : a.Anchored) (hb : b.Anchored) {t : TemplateData}
    (hrep : t.repeats = false) (hR : 1 ≤ t.minRounds) :
    ∃ r, windowCommitsOverlap t t a b = .ok r ∧
      (r = true ↔ ∃ q, CommonRound a b t.minRounds q) := by
  unfold windowCommitsOverlap
  simp only [hrep, Bool.false_eq_true, and_self, if_false, not_false_eq_true, if_true,
    shotInstances_eq ha, shotInstances_eq hb]
  set R := t.minRounds
  show ∃ r, (if (a.instances R).begin = (a.instances R).stop ∨
      (b.instances R).begin = (b.instances R).stop then Except.ok false
    else if a.commitWidth ≥ a.period ∨ b.commitWidth ≥ b.period then .ok true
    else .ok (overlapScan a b R (a.instances R).stop (b.instances R).stop (a.instances R).begin
      (b.instances R).begin)) = Except.ok r ∧ _
  split
  · next hempty =>
    refine ⟨false, rfl, ?_⟩
    simp only [Bool.false_eq_true, false_iff]
    rintro ⟨q, _, _, hai, hbi, k, hk, l, hl, -⟩
    obtain rfl := Except.ok.inj ((shotInstances_eq ha R).symm.trans hai)
    obtain rfl := Except.ok.inj ((shotInstances_eq hb R).symm.trans hbi)
    rw [IndexRange.mem_def] at hk hl
    omega
  next hne =>
    rw [not_or] at hne
    split
    · next hlen =>
      refine ⟨true, rfl, ?_⟩
      simp only [true_iff]
      -- One layer commits every round, and the other at least one.
      rcases hlen with hlen | hlen
      · obtain ⟨q, h0, hq, l, hl⟩ := exists_round_of_instances hb hR hne.2
        obtain ⟨k, hk⟩ := exists_commitRounds ha hlen q
        exact ⟨q, (commonRound_iff ha hb).mpr ⟨h0, hq, k, l, hk, hl⟩⟩
      · obtain ⟨q, h0, hq, k, hk⟩ := exists_round_of_instances ha hR hne.1
        obtain ⟨l, hl⟩ := exists_commitRounds hb hlen q
        exact ⟨q, (commonRound_iff ha hb).mpr ⟨h0, hq, k, l, hk, hl⟩⟩
    · next hgap =>
      rw [not_or, not_le, not_le] at hgap
      refine ⟨_, rfl, ?_⟩
      rw [overlapScan_iff ha hb hgap.1 hgap.2]
      constructor
      · rintro ⟨k, hk, hkStop, l, hl, hlStop, q, hq⟩
        exact ⟨q, _, _, shotInstances_eq ha R, shotInstances_eq hb R, k, ⟨hk, hkStop⟩, l,
          ⟨hl, hlStop⟩, hq⟩
      · rintro ⟨q, _, _, hai, hbi, k, hk, l, hl, hq⟩
        obtain rfl := Except.ok.inj ((shotInstances_eq ha R).symm.trans hai)
        obtain rfl := Except.ok.inj ((shotInstances_eq hb R).symm.trans hbi)
        exact ⟨k, hk.1, hk.2, l, hl.1, hl.2, q, hq⟩

/-! ## A template that repeats -/

/-- The distances between two progressions are what one distance is modulo the gcd of their
periods. -/
theorem exists_progressions_distance {p s d : Int} :
    (∃ k l : Int, d = l * s - k * p) ↔ (Int.gcd p s : Int) ∣ d := by
  constructor
  · rintro ⟨k, l, rfl⟩
    exact Int.dvd_sub (Dvd.dvd.mul_left (Int.gcd_dvd_right p s) l)
      (Dvd.dvd.mul_left (Int.gcd_dvd_left p s) k)
  · rintro ⟨c, rfl⟩
    refine ⟨-(Int.gcdA p s * c), Int.gcdB p s * c, ?_⟩
    rw [Int.gcd_eq_gcd_ab]
    ring

/-- Some zone of each layer have a common round, in a shot that need not hold it, when the zones do
at a distance that the gcd allows. -/
theorem exists_common_iff :
    (∃ q k l, q ∈ a.commitRounds k ∧ q ∈ b.commitRounds l) ↔
      ∃ d : Int, (Int.gcd a.period b.period : Int) ∣ d - (b.commitStart - a.commitStart) ∧
        max 0 d < min a.commitWidth (d + b.commitWidth) := by
  have hmeet (k l : Int) : (∃ q, q ∈ a.commitRounds k ∧ q ∈ b.commitRounds l) ↔
      max 0 (b.commitStart - a.commitStart + (l * b.period - k * a.period)) <
        min a.commitWidth
          (b.commitStart - a.commitStart + (l * b.period - k * a.period) + b.commitWidth) := by
    rw [RoundRange.exists_mem_both]
    simp only [WindowRequest.commitRounds, WindowRequest.anchor, WindowRequest.commitStart,
      WindowRequest.commitWidth, max_lt_iff, lt_min_iff]
    omega
  constructor
  · rintro ⟨q, k, l, hq⟩
    refine ⟨_, ?_, (hmeet k l).mp ⟨q, hq⟩⟩
    rw [add_sub_cancel_left]
    exact exists_progressions_distance.mp ⟨k, l, rfl⟩
  · rintro ⟨d, hdvd, hd⟩
    obtain ⟨k, l, hkl⟩ := exists_progressions_distance.mpr hdvd
    obtain ⟨q, hq⟩ := (hmeet k l).mpr (by rw [← hkl, add_sub_cancel]; exact hd)
    exact ⟨q, k, l, hq⟩

/-- `period` windows of one layer take as many rounds as `period` windows of the other: the two can
be moved together past the start of the shot. -/
theorem exists_common_nonneg (ha : a.Anchored) (hb : b.Anchored)
    (h : ∃ q k l, q ∈ a.commitRounds k ∧ q ∈ b.commitRounds l) :
    ∃ q, 0 ≤ q ∧ ∃ k l, q ∈ a.commitRounds k ∧ q ∈ b.commitRounds l := by
  obtain ⟨q, k, l, hk, hl⟩ := h
  have hprod : 1 ≤ a.period * b.period := Int.mul_pos ha.period_pos hb.period_pos
  have hshift : |q| ≤ |q| * (a.period * b.period) := le_mul_of_one_le_right (abs_nonneg q) hprod
  refine ⟨q + |q| * (a.period * b.period), by have := neg_abs_le q; omega, k + |q| * b.period,
    l + |q| * a.period, ?_, ?_⟩
  · simp only [WindowRequest.commitRounds, RoundRange.mem_def, WindowRequest.anchor] at hk ⊢
    have : (k + |q| * b.period) * a.period = k * a.period + |q| * (a.period * b.period) := by ring
    omega
  · simp only [WindowRequest.commitRounds, RoundRange.mem_def, WindowRequest.anchor] at hl ⊢
    have : (l + |q| * a.period) * b.period = l * b.period + |q| * (a.period * b.period) := by ring
    omega

/-- C++'s remainder, moved into the range of the divisor, is Lean's. -/
theorem tmod_moved_eq_emod {x p : Int} (hp : 0 < p) :
    (if x.tmod p < 0 then x.tmod p + p else x.tmod p) = x % p := by
  have h0 := Int.emod_nonneg x (ne_of_gt hp)
  have h1 := Int.emod_lt_of_pos x hp
  rw [Int.tmod_eq_emod]
  split <;> split at * <;> omega

theorem gcd_period_pos (ha : a.Anchored) : 0 < (Int.gcd a.period b.period : Int) := by
  have hp := ha.period_pos
  exact Int.natCast_pos.mpr (Int.gcd_pos_of_ne_zero_left b.period (by omega))

/-- Over a template that repeats: the nearest two distances decide. -/
theorem repeats_overlap_iff (ha : a.Anchored) (hb : b.Anchored) :
    (∃ q k l, q ∈ a.commitRounds k ∧ q ∈ b.commitRounds l) ↔
      (b.commitStart - a.commitStart) % (Int.gcd a.period b.period : Int) < a.commitWidth ∨
        (Int.gcd a.period b.period : Int) -
          (b.commitStart - a.commitStart) % (Int.gcd a.period b.period : Int) < b.commitWidth := by
  rw [exists_common_iff]
  have hwa : 0 < a.commitWidth := sub_pos.mpr ha.nonempty
  have hwb : 0 < b.commitWidth := sub_pos.mpr hb.nonempty
  have hg := gcd_period_pos (b := b) ha
  set g : Int := (Int.gcd a.period b.period : Int)
  set x := b.commitStart - a.commitStart
  have h0 := Int.emod_nonneg x (ne_of_gt hg)
  have h1 := Int.emod_lt_of_pos x hg
  have hx := Int.emod_add_mul_ediv x g
  constructor
  · rintro ⟨d, ⟨c, hc⟩, hd⟩
    -- The distance is the first one plus a multiple of the gcd: no nearer than it, or the one before.
    have hdist : d = x % g + g * (x / g + c) := by
      rw [mul_add]
      omega
    rcases lt_or_ge (x / g + c) 0 with hneg | hpos
    · have : g * (x / g + c) ≤ g * (-1) := mul_le_mul_of_nonneg_left (by omega) (le_of_lt hg)
      clear * - hd hdist this
      omega
    · have : 0 ≤ g * (x / g + c) := mul_nonneg (le_of_lt hg) hpos
      omega
  · rintro (h | h)
    · refine ⟨x % g, ⟨-(x / g), ?_⟩, by omega⟩
      rw [mul_neg]
      omega
    · refine ⟨x % g - g, ⟨-(x / g) - 1, ?_⟩, by omega⟩
      rw [mul_sub, mul_neg, mul_one]
      omega

end

/-! ## The answer -/

/-- Two nodes over one template overlap in the source's test exactly when some shot the template
admits has a round that an instance of each commits. -/
theorem windowCommitsOverlap_exact (t : ExperimentTemplate) {a b : WindowRequest}
    (ha : checkRequest a = .ok ()) (hb : checkRequest b = .ok ()) :
    ∃ r, windowCommitsOverlap t.toTemplateData t.toTemplateData a b = .ok r ∧
      (r = true ↔ ∃ R, t.Admits R ∧ ∃ q, CommonRound a b R q) := by
  have hav := (checkRequest_valid ha).toAnchored
  have hbv := (checkRequest_valid hb).toAnchored
  cases hrep : t.repeats with
  | false =>
    have hmin : t.Admits t.minRounds := ⟨le_refl _, fun _ => rfl⟩
    obtain ⟨r, hr, hiff⟩ := windowCommitsOverlap_finite hav hbv hrep
      (le_trans (by decide) t.shape.two_le)
    refine ⟨r, hr, hiff.trans ⟨fun h => ⟨_, hmin, h⟩, ?_⟩⟩
    rintro ⟨R, hR, h⟩
    rwa [hR.2 hrep] at h
  | true =>
    have hg := gcd_period_pos (b := b) hav
    simp only [windowCommitsOverlap, hrep, and_self, if_true, tmod_moved_eq_emod hg]
    refine ⟨_, rfl, ?_⟩
    rw [decide_eq_true_eq, ← repeats_overlap_iff hav hbv]
    constructor
    · intro h
      obtain ⟨q, h0, hkl⟩ := exists_common_nonneg hav hbv h
      -- Clipping adds no overlap and, in a shot long enough, takes none.
      refine ⟨max t.minRounds (q.toNat + 1), t.admits_of_le hrep (le_max_left _ _), q, ?_⟩
      exact (commonRound_iff hav hbv).mpr ⟨h0, by omega, hkl⟩
    · rintro ⟨R, -, q, hq⟩
      obtain ⟨-, -, k, l, hkl⟩ := (commonRound_iff hav hbv).mp hq
      exact ⟨q, k, l, hkl⟩

/-- One-round windows at every round, over a memory experiment, overlap with themselves. -/
theorem windowCommitsOverlap_exact_oneRound : checkRequest oneRoundRequest = .ok () ∧
    ∃ r, windowCommitsOverlap memoryTemplate.toTemplateData memoryTemplate.toTemplateData
        oneRoundRequest oneRoundRequest = .ok r ∧
      (r = true ↔ ∃ R, memoryTemplate.Admits R ∧
        ∃ q, CommonRound oneRoundRequest oneRoundRequest R q) := by
  have h : checkRequest oneRoundRequest = .ok () := by decide +kernel
  exact ⟨h, windowCommitsOverlap_exact memoryTemplate h h⟩

end CudaqQec
