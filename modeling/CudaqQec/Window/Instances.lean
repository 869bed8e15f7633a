import CudaqQec.Window.Place

/-!
# Instances and guaranteed receives

`window_instances` counts the windows of a layer whose commit zone meets a shot, and
`first_guaranteed_receive` says from which of a consumer's instances on a receive cannot be absent.

* `WindowRequest.mem_instances_iff_meets`: the instances are the windows whose commit zone meets the
  shot.
* `WindowRequest.clips_partition`: commit zones as long as their period cut the shot into the clipped
  zones of the instances.
* `mem_instances_of_guaranteed`: a guaranteed receive has its producer instance.
* `windowInstances_exact_iff`: with which shot lengths the code's `int64_t` counts them.
-/

namespace CudaqQec

open Checked

namespace WindowRequest

variable {request : WindowRequest} {R : Nat} {k q : Int}

def commitRounds (request : WindowRequest) (k : Int) : RoundRange :=
  ⟨request.anchor k + request.commitZone.begin, request.anchor k + request.commitZone.stop⟩

def clippedCommit (request : WindowRequest) (R : Nat) (k : Int) : RoundRange :=
  clipRounds request.commitZone (request.anchor k) R

/-- The clipped commit zones of the instances are not empty, stay within the shot and hold each of
its rounds once. -/
structure ClipsPartition (request : WindowRequest) (R : Nat) (instances : IndexRange) : Prop where
  nonempty : ∀ k ∈ instances, ¬ (request.clippedCommit R k).Empty
  within : ∀ k ∈ instances, ∀ q ∈ request.clippedCommit R k, 0 ≤ q ∧ q < R
  unique : ∀ q : Int, 0 ≤ q → q < R → ∃! k, k ∈ instances ∧ q ∈ request.clippedCommit R k

theorem mem_clippedCommit :
    q ∈ request.clippedCommit R k ↔ 0 ≤ q ∧ q < R ∧ q ∈ request.commitRounds k := by
  rw [clippedCommit, mem_clipRounds]
  simp only [commitRounds, RoundRange.mem_def]
  omega

theorem mem_instances_iff_meets (h : request.Anchored) (hR : 1 ≤ R) :
    k ∈ request.instances R ↔ ∃ q : Int, 0 ≤ q ∧ q < R ∧ q ∈ request.commitRounds k := by
  rw [mem_instances_iff_clip h hR]
  constructor
  · intro hne
    have hlt := not_le.mp hne
    exact ⟨_, mem_clippedCommit.mp ⟨le_refl _, hlt⟩⟩
  · rintro ⟨q, hq⟩ hempty
    have hmem : q ∈ request.clippedCommit R k := mem_clippedCommit.mpr hq
    exact absurd (lt_of_le_of_lt hmem.1 hmem.2) (not_lt.mpr hempty)

/-- Zones as long as the period meet end to end, so each round lies in one of them. -/
theorem existsUnique_commitRounds (h : request.Anchored)
    (hlen : request.commitZone.stop - request.commitZone.begin = request.period) (q : Int) :
    ∃! k, q ∈ request.commitRounds k := by
  have hp := h.period_pos
  have hdiv := floorDiv_mul_le (q - request.offset - request.commitZone.begin)
    (by omega : 0 < request.period)
  refine ⟨floorDiv (q - request.offset - request.commitZone.begin) request.period, ?_, ?_⟩
  · simp only [commitRounds, RoundRange.mem_def, anchor]
    omega
  · intro k hk
    simp only [commitRounds, RoundRange.mem_def] at hk
    set k' := floorDiv (q - request.offset - request.commitZone.begin) request.period
    have hk' : q - request.period < request.anchor k' + request.commitZone.begin ∧
        request.anchor k' + request.commitZone.begin ≤ q := by
      simp only [anchor]
      omega
    -- A window further on starts past the round, and one further back ends before it.
    rcases lt_trichotomy k k' with hlt | heq | hgt
    · have := anchor_add_le hp hlt
      omega
    · exact heq
    · have := anchor_add_le hp hgt
      omega

theorem clips_partition (h : request.Anchored) (hR : 1 ≤ R)
    (hlen : request.commitZone.stop - request.commitZone.begin = request.period) :
    request.ClipsPartition R (request.instances R) where
  nonempty := fun _ hk => (mem_instances_iff_clip h hR).mp hk
  within := by
    intro k _ q hq
    have := mem_clippedCommit.mp hq
    exact ⟨this.1, this.2.1⟩
  unique := by
    intro q h0 hq
    obtain ⟨k, hk, huniq⟩ := existsUnique_commitRounds h hlen q
    refine ⟨k, ⟨?_, ?_⟩, ?_⟩
    · apply (mem_instances_iff_meets h hR).mpr
      exact ⟨q, h0, hq, hk⟩
    · exact mem_clippedCommit.mpr ⟨h0, hq, hk⟩
    · rintro k' ⟨-, hk'⟩
      exact huniq k' (mem_clippedCommit.mp hk').2.2

end WindowRequest

/-! ## Instances in `int64_t` -/

/-- A sum of `int64_t` values: past the type it is undefined. -/
def int64 (x : Int) : Except Error Int :=
  if -2 ^ 63 ≤ x ∧ x < 2 ^ 63 then .ok x else .error .signedOverflow

theorem int64_eq_ok {x y : Int} : int64 x = .ok y ↔ (-2 ^ 63 ≤ x ∧ x < 2 ^ 63) ∧ x = y := by
  unfold int64
  split
  · next h =>
    rw [Except.ok.injEq]
    exact ⟨fun heq => ⟨h, heq⟩, And.right⟩
  · next h =>
    constructor
    · intro herror
      cases herror
    · rintro ⟨hfits, -⟩
      exact absurd hfits h

/-- `static_cast<std::int64_t>` of a `size_t`. -/
def castInt64 (n : Nat) : Int := if n < 2 ^ 63 then n else n - 2 ^ 64

/-- `floor_div`, with what its sums may overflow. -/
def floorDiv64 (a b : Int) : Except Error Int :=
  if 0 ≤ a then .ok (a / b)
  else do
    let n ← int64 (-a)
    let n ← int64 (n + b)
    let n ← int64 (n - 1)
    return -(n / b)

theorem floorDiv64_eq {a b q : Int} (h : floorDiv64 a b = .ok q) : q = floorDiv a b := by
  unfold floorDiv64 at h
  unfold floorDiv
  split
  · next h0 =>
    rw [if_pos h0] at h
    exact (Except.ok.inj h).symm
  · next h0 =>
    rw [if_neg h0] at h
    simp only [bind_eq_ok, int64_eq_ok] at h
    obtain ⟨_, ⟨-, rfl⟩, _, ⟨-, rfl⟩, _, ⟨-, rfl⟩, h⟩ := h
    exact (Except.ok.inj h).symm

theorem floorDiv64_of_nonneg {a : Int} (h : 0 ≤ a) (b : Int) : floorDiv64 a b = .ok (floorDiv a b) := by
  rw [floorDiv64, floorDiv, if_pos h, if_pos h]

/-- `window_instances`. The first index and the limits of a request are far from what overflows. -/
def windowInstances (request : WindowRequest) (R : Nat) : Except Error IndexRange := do
  checkAnchor request
  let first := floorDiv (-request.offset - request.commitZone.stop) request.period + 1
  let last ← int64 (castInt64 R - request.offset)
  let last ← int64 (last - request.commitZone.begin)
  let last ← int64 (last + request.period)
  let last ← int64 (last - 1)
  let stop ← floorDiv64 last request.period
  return ⟨first, max stop first⟩

/-- The sums that the last index is computed by fit an `int64_t`. -/
structure WindowRequest.Counts (request : WindowRequest) (R : Nat) : Prop where
  rounds : R < 2 ^ 63
  offset : R - request.offset < 2 ^ 63
  begin : R - request.offset - request.commitZone.begin < 2 ^ 63
  period : R - request.offset - request.commitZone.begin + request.period < 2 ^ 63

/-! ## What the range holds -/

/-- Whatever is returned is counted up to the shot length as it was cast. -/
theorem windowInstances_eq_below {request : WindowRequest} {R : Nat} {instances : IndexRange}
    (h : windowInstances request R = .ok instances) :
    instances = request.instancesBelow (castInt64 R) := by
  simp only [windowInstances, bind_eq_ok, int64_eq_ok] at h
  obtain ⟨_, -, _, ⟨-, rfl⟩, _, ⟨-, rfl⟩, _, ⟨-, rfl⟩, _, ⟨-, rfl⟩, stop, hstop, h⟩ := h
  rw [floorDiv64_eq hstop] at h
  exact (Except.ok.inj h).symm

/-- Where the sums fit, the instances are those of the shot. -/
theorem windowInstances_of_counts {request : WindowRequest} {R : Nat} (h : request.Anchored)
    (hfit : request.Counts R) : windowInstances request R = .ok (request.instances R) := by
  have hcast : castInt64 R = R := if_pos hfit.rounds
  have hlimit : windowRoundLimit = 2 ^ 31 := rfl
  obtain ⟨-, f1, f2, f3⟩ := hfit
  have hcheck := h.checkAnchor
  obtain ⟨h1, h2, h3, h4, -, h5, h6, h7⟩ := h
  have hint : ∀ {x : Int}, -2 ^ 63 ≤ x → x < 2 ^ 63 → int64 x = .ok x :=
    fun hlo hhi => int64_eq_ok.mpr ⟨⟨hlo, hhi⟩, rfl⟩
  rw [windowInstances, hcheck, ok_bind, hcast, hint (by omega) f1, ok_bind,
    hint (by omega) f2, ok_bind, hint (by omega) f3, ok_bind, hint (by omega) (by omega), ok_bind]
  by_cases hneg : 0 ≤ R - request.offset - request.commitZone.begin + request.period - 1
  · rw [floorDiv64_of_nonneg hneg]
    rfl
  · have hdiv : floorDiv64 (R - request.offset - request.commitZone.begin + request.period - 1)
        request.period =
          .ok (floorDiv (R - request.offset - request.commitZone.begin + request.period - 1)
            request.period) := by
      rw [floorDiv64, floorDiv, if_neg hneg, if_neg hneg, hint (by omega) (by omega), ok_bind,
        hint (by omega) (by omega), ok_bind, hint (by omega) (by omega)]
      rfl
    rw [hdiv]
    rfl

/-- Where they do not fit, a window that meets the shot is not listed, if anything is returned. -/
theorem exists_missing {request : WindowRequest} {R : Nat} (h : request.Anchored) (hR : R < 2 ^ 64)
    (hnot : ¬ request.Counts R) {instances : IndexRange}
    (hok : windowInstances request R = .ok instances) :
    ∃ k, k ∉ instances ∧ ∃ q : Int, 0 ≤ q ∧ q < R ∧ q ∈ request.commitRounds k := by
  have hbelow := windowInstances_eq_below hok
  have hlimit : windowRoundLimit = 2 ^ 31 := rfl
  have hperiod := h.period_le
  have hnonempty := h.nonempty
  have hlarge : 2 ^ 63 ≤ R := by
    by_contra hlt
    have hcast : castInt64 R = R := if_pos (not_le.mp hlt)
    simp only [windowInstances, bind_eq_ok, int64_eq_ok, hcast] at hok
    obtain ⟨_, -, _, ⟨h1, rfl⟩, _, ⟨h2, rfl⟩, _, ⟨h3, rfl⟩, -⟩ := hok
    exact hnot ⟨not_le.mp hlt, h1.2, h2.2, h3.2⟩
  -- the first window whose commit zone begins in the shot
  have hfirst := WindowRequest.le_anchor_firstIndex h.period_pos (-request.commitZone.begin)
  refine ⟨request.firstIndex (-request.commitZone.begin), fun hmem => ?_,
    request.anchor (request.firstIndex (-request.commitZone.begin)) + request.commitZone.begin,
    by omega, by omega, ?_⟩
  · rw [hbelow, WindowRequest.mem_instancesBelow h, castInt64, if_neg (not_lt.mpr hlarge)] at hmem
    omega
  · simp only [WindowRequest.commitRounds, RoundRange.mem_def]
    omega

/-! ## Guaranteed receives -/

/-- `first_guaranteed_receive`: the instance of `consumer`, counted from `base`, from which its
receive from `producer` always has a producer instance. -/
def firstGuaranteedReceive (consumer producer : WindowRequest) (offset base : Int) :
    Except Error (Option Int) :=
  if offset ≥ 0 ∨ consumer.period ≠ producer.period ∨ consumer.commit = none ∨
      producer.commit = none then
    .ok none
  else if producer.offset + offset * producer.period + producer.commitZone.begin >
      consumer.offset + consumer.commitZone.begin then
    .ok none
  else do
    let instances ← windowInstances producer 0
    return some (instances.begin - base - offset)

/-- `input_guaranteed`: whether receive `slot - 1` of instance `k` is guaranteed. Slot 0 is the
window itself, which every instance has. -/
def inputGuaranteed (guaranteed : List (Option Int)) (slot : Nat) (k : Int) : Bool :=
  if slot = 0 ∨ slot > guaranteed.length then false
  else (guaranteed.getD (slot - 1) none).any fun first => k ≥ first

theorem inputGuaranteed_iff {guaranteed : List (Option Int)} {slot : Nat} {k : Int} :
    inputGuaranteed guaranteed slot k = true ↔
      0 < slot ∧ ∃ first, guaranteed[slot - 1]? = some (some first) ∧ first ≤ k := by
  unfold inputGuaranteed
  split
  next h =>
    simp only [Bool.false_eq_true, false_iff, not_and, not_exists]
    intro hslot first hget
    have := (List.getElem?_eq_some_iff.mp hget).1
    omega
  next h =>
    have hlt : slot - 1 < guaranteed.length := by omega
    rw [List.getD_eq_getElem?_getD, List.getElem?_eq_getElem hlt, Option.getD_some,
      Option.any_eq_true]
    constructor
    · rintro ⟨first, hfirst, hk⟩
      exact ⟨by omega, first, by rw [hfirst], by simpa using hk⟩
    · rintro ⟨-, first, hfirst, hk⟩
      exact ⟨first, Option.some.inj hfirst, by simpa using hk⟩

/-- What a guarantee says: the producer's zone starts no later, and its first instance is reached. -/
theorem firstGuaranteedReceive_eq_some {consumer producer : WindowRequest} {offset base first : Int}
    (h : firstGuaranteedReceive consumer producer offset base = .ok (some first)) :
    offset < 0 ∧ consumer.period = producer.period ∧
      producer.offset + offset * producer.period + producer.commitZone.begin ≤
        consumer.offset + consumer.commitZone.begin ∧
      first = (producer.instances 0).begin - base - offset := by
  unfold firstGuaranteedReceive at h
  split at h
  · exact absurd (Except.ok.inj h) (by simp)
  next hsome =>
    simp only [not_or, not_not] at hsome
    split at h
    · exact absurd (Except.ok.inj h) (by simp)
    next hle =>
      rw [bind_eq_ok] at h
      obtain ⟨instances, hinst, hfirst⟩ := h
      obtain rfl := windowInstances_eq_below hinst
      obtain rfl := Option.some.inj (Except.ok.inj hfirst)
      exact ⟨not_le.mp hsome.1, hsome.2.1, not_lt.mp hle, rfl⟩

/-- At or past the first guarantee, an instance of the consumer has its producer instance: that one
is past the producer's first, and starts no later than the consumer's. -/
theorem mem_instancesBelow_of_guaranteed {consumer producer : WindowRequest} (hp : producer.Anchored)
    (hc : consumer.Anchored) {offset base first k R : Int}
    (h : firstGuaranteedReceive consumer producer offset base = .ok (some first))
    (hk : k ∈ consumer.instancesBelow R) (hfirst : first ≤ k - base) :
    k + offset ∈ producer.instancesBelow R := by
  obtain ⟨-, hperiod, hstart, rfl⟩ := firstGuaranteedReceive_eq_some h
  have hzone := (WindowRequest.mem_instancesBelow hc).mp hk
  apply (WindowRequest.mem_instancesBelow hp).mpr
  constructor
  · -- The first instance does not depend on the shot.
    have hbegin : (producer.instances 0).begin ≤ k + offset := by omega
    have hdiv := floorDiv_mul_le (-producer.offset - producer.commitZone.stop)
      (by have := hp.period_pos; omega : 0 < producer.period)
    have hanchor : producer.anchor (producer.instances 0).begin ≤ producer.anchor (k + offset) :=
      (WindowRequest.anchor_le_iff hp.period_pos).mpr hbegin
    simp only [WindowRequest.anchor, WindowRequest.instances, WindowRequest.instancesBelow, add_mul,
      one_mul] at hanchor ⊢
    omega
  · have hsame : consumer.anchor k = consumer.offset + k * producer.period := by
      rw [WindowRequest.anchor, hperiod]
    rw [hsame] at hzone
    rw [WindowRequest.anchor_add, WindowRequest.anchor]
    linarith [hzone.2]

/-- What `window_instances` returns is the windows whose commit zone meets the shot, and their clipped
zones cut the shot where a zone is as long as the period. -/
def WindowRequest.InstancesExact (request : WindowRequest) (R : Nat) : Prop :=
  ∃ instances, windowInstances request R = .ok instances ∧
    (∀ k, k ∈ instances ↔ ∃ q : Int, 0 ≤ q ∧ q < R ∧ q ∈ request.commitRounds k) ∧
    (request.commitZone.stop - request.commitZone.begin = request.period →
      request.ClipsPartition R instances)

/-- A receive that is treated as guaranteed has its producer instance, in a shot of `S` rounds whose
instances of both layers are counted. -/
def GuaranteedExists (request producer : WindowRequest) (offset base : Int) (S : Nat) : Prop :=
  ∀ (entry : Option Int) (guaranteed : List (Option Int)) (slot : Nat) (consumed produced : IndexRange)
    (k : Int), firstGuaranteedReceive request producer offset base = .ok entry →
      guaranteed[slot - 1]? = some entry → windowInstances request S = .ok consumed →
        windowInstances producer S = .ok produced → k ∈ consumed →
          inputGuaranteed guaranteed slot (k - base) = true → k + offset ∈ produced

/-- The instances of an accepted request are exact for the shot lengths whose sums fit an `int64_t`, and
for no others. A guaranteed receive has its producer instance at every length. -/
theorem windowInstances_exact_iff {request : WindowRequest} {R : Nat}
    (h : checkRequest request = .ok ()) (hR : 1 ≤ R) (hsize : R < 2 ^ 64) :
    (request.InstancesExact R ↔ request.Counts R) ∧
      ∀ (producer : WindowRequest) (offset base : Int) (S : Nat), checkRequest producer = .ok () →
        producer.period = request.period → GuaranteedExists request producer offset base S := by
  have hv := (checkRequest_valid h).toAnchored
  refine ⟨⟨?_, fun hfit => ?_⟩, ?_⟩
  · rintro ⟨instances, hok, hmem, -⟩
    by_contra hnot
    obtain ⟨k, hk, hmeets⟩ := exists_missing hv hsize hnot hok
    exact hk ((hmem k).mpr hmeets)
  · exact ⟨request.instances R, windowInstances_of_counts hv hfit,
      fun k => WindowRequest.mem_instances_iff_meets hv hR, WindowRequest.clips_partition hv hR⟩
  · intro producer offset base S hproducer _ entry guaranteed slot consumed produced k hentry hget hcons
      hprod hk hg
    have hpv := (checkRequest_valid hproducer).toAnchored
    obtain ⟨-, first, hsome, hle⟩ := inputGuaranteed_iff.mp hg
    obtain rfl : entry = some first := Option.some.inj (hget.symm.trans hsome)
    -- both are counted up to the shot length as it is cast
    rw [windowInstances_eq_below hcons] at hk
    rw [windowInstances_eq_below hprod]
    exact mem_instancesBelow_of_guaranteed hpv hv hentry hk hle

/-- A layer of one-round windows in a shot of three rounds. -/
theorem windowInstances_exact_oneRound :
    checkRequest oneRoundRequest = .ok () ∧ oneRoundRequest.InstancesExact 3 := by
  have h : checkRequest oneRoundRequest = .ok () := by decide +kernel
  have hiff := (windowInstances_exact_iff h (by decide : 1 ≤ 3) (by decide)).1
  exact ⟨h, hiff.mpr ⟨by decide, by decide, by decide, by decide⟩⟩

/-- Cast to `int64_t`, a shot of so many rounds has none. -/
theorem not_instancesExact_long :
    checkRequest oneRoundRequest = .ok () ∧ ¬ oneRoundRequest.InstancesExact (2 ^ 63 + 2 ^ 32) := by
  have h : checkRequest oneRoundRequest = .ok () := by decide +kernel
  refine ⟨h, ?_⟩
  rintro ⟨instances, hok, hmem, -⟩
  have hlisted : 0 ∈ instances := by
    apply (hmem 0).mpr
    exact ⟨0, le_refl _, by decide, by decide⟩
  have hempty : windowInstances oneRoundRequest (2 ^ 63 + 2 ^ 32) = .ok ⟨0, 0⟩ := by decide +kernel
  rw [hempty] at hok
  obtain rfl := Except.ok.inj hok
  exact absurd hlisted (by decide)

end CudaqQec
