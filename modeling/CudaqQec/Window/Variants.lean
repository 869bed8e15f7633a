import CudaqQec.Window.Request

/-!
# Window variants

Windows of one layer that read the same phases are one problem up to a shift of rounds, so a layer
keeps one model for each variant. `window_variant` tells variants apart by where the rounds a model
reads meet the shot's prefix and its end; a window that meets neither is bulk. `variant_instances`
lists the variants by going through all shots shorter than `variant_probe_rounds`.

* `variantInstances_complete`: no longer shot has a variant the list misses.
-/

namespace CudaqQec

open Checked WindowRequest

/-- `model_reach`: the rounds a window's model reads, relative to its anchor, from the round before
its first to the end of the chunks it stitches. -/
def modelReach (t : TemplateData) (request : WindowRequest) : RoundRange :=
  let span := request.zoneSpan
  let importsEnd := if request.output.disposition = some .closed then
      (request.output.imports.map RoundRange.stop).getD (span.stop + t.maxSpan)
    else span.stop
  ⟨span.begin - 1, max (span.stop + t.maxSpan) importsEnd⟩

/-- `end_rounds`: the rounds the suffix keeps from the shot's end, and at least the last one, whose
chunk has no outgoing seam. -/
def endRounds (t : TemplateData) : Int := max (t.suffixRounds : Int) 1

/-- `first_bulk_index`: the first `k` whose model reads no prefix round. -/
def firstBulkIndex (t : TemplateData) (request : WindowRequest) : Int :=
  ceilDiv (t.prefixRounds - request.offset - (modelReach t request).begin) request.period

/-- `variant_key`: `position` is `k` while the prefix reaches the model, `terminal` the distance from
the anchor to the shot's end while the end does. -/
structure VariantKey where
  position : Option Int
  terminal : Option Int
  deriving DecidableEq, Repr

/-- `variant_bounds`: what `window_variant` reads of a layer and its template. -/
structure VariantBounds where
  reach : RoundRange
  prefixRounds : Int
  endRounds : Int
  deriving DecidableEq, Repr

def boundsOf (t : TemplateData) (request : WindowRequest) : VariantBounds :=
  ⟨modelReach t request, t.prefixRounds, endRounds t⟩

def variantBoundsOf (t : TemplateData) (request : WindowRequest) : Except Error VariantBounds := do
  checkAnchor request
  return boundsOf t request

/-- `window_variant`, from the bounds of the layer. -/
def windowVariant (bounds : VariantBounds) (request : WindowRequest) (k : Int) (R : Nat) :
    VariantKey where
  position := if request.anchor k + bounds.reach.begin < bounds.prefixRounds then some k else none
  terminal := if request.anchor k + bounds.reach.stop > R - bounds.endRounds then
      some (R - request.anchor k) else none

/-- `window_variant`, from the template. -/
def windowVariantOf (t : TemplateData) (request : WindowRequest) (k : Int) (R : Nat) :
    Except Error VariantKey := do
  let bounds ← variantBoundsOf t request
  return windowVariant bounds request k R

def probeEnd (t : TemplateData) (request : WindowRequest) : Int :=
  request.anchor (firstBulkIndex t request + 1) + (modelReach t request).stop + endRounds t + 1

/-- `variant_probe_rounds`: a shot length past which a layer gains no variant. -/
def variantProbeRounds (t : TemplateData) (request : WindowRequest) : Except Error Nat := do
  checkRequest request
  return if t.repeats then max t.minRounds (max (probeEnd t request) 0).toNat else t.minRounds + 1

/-- `variant_instance`: a key, and where it first appears. -/
structure VariantInstance where
  key : VariantKey
  k : Int
  numRounds : Nat
  deriving DecidableEq

def recordVariant (t : TemplateData) (request : WindowRequest) (R : Nat)
    (out : List VariantInstance) (k : Int) : Except Error (List VariantInstance) := do
  let key ← windowVariantOf t request k R
  return if out.any fun v => v.key = key then out else out ++ [⟨key, k, R⟩]

def recordShot (t : TemplateData) (request : WindowRequest) (out : List VariantInstance) (R : Nat) :
    Except Error (List VariantInstance) := do
  let instances ← shotInstances request R
  instances.toList.foldlM (recordVariant t request R) out

/-- `variant_instances`: every key of the shots shorter than the probe, as they first appear. -/
def variantInstances (t : TemplateData) (request : WindowRequest) :
    Except Error (List VariantInstance) := do
  let probe ← variantProbeRounds t request
  (List.range' t.minRounds (probe - t.minRounds)).foldlM (recordShot t request) []

/-! ## The list of variants -/

section
variable {t : TemplateData} {request : WindowRequest}

theorem windowVariantOf_eq (h : request.Anchored) (k : Int) (R : Nat) :
    windowVariantOf t request k R = .ok (windowVariant (boundsOf t request) request k R) := by
  simp [windowVariantOf, variantBoundsOf, h.checkAnchor, pure, Except.pure]

def HasKey (out : List VariantInstance) (key : VariantKey) : Prop := ∃ v ∈ out, v.key = key

/-- Recording a window keeps the keys that are there and adds its own. -/
theorem recordVariant_eq_ok (h : request.Anchored) (R : Nat) (out : List VariantInstance) (k : Int) :
    ∃ out', recordVariant t request R out k = .ok out' ∧ (∀ key, HasKey out key → HasKey out' key) ∧
      HasKey out' (windowVariant (boundsOf t request) request k R) := by
  simp only [recordVariant, windowVariantOf_eq h, ok_bind, pure, Except.pure]
  refine ⟨_, rfl, ?_⟩
  split
  · next hany =>
    obtain ⟨v, hv, hkey⟩ := List.any_eq_true.mp hany
    exact ⟨fun _ => id, v, hv, by simpa using hkey⟩
  · refine ⟨?_, _, List.mem_append_right _ (List.mem_singleton_self _), rfl⟩
    rintro key ⟨v, hv, hkey⟩
    exact ⟨v, by simp [hv], hkey⟩

theorem foldlM_recordVariant_eq_ok (h : request.Anchored) (R : Nat) (ks : List Int)
    (out : List VariantInstance) :
    ∃ out', ks.foldlM (recordVariant t request R) out = .ok out' ∧
      (∀ key, HasKey out key → HasKey out' key) ∧
      ∀ k ∈ ks, HasKey out' (windowVariant (boundsOf t request) request k R) := by
  induction ks generalizing out with
  | nil => exact ⟨out, rfl, fun _ => id, by simp⟩
  | cons k ks ih =>
    obtain ⟨out₁, h1, hkeep₁, hnew⟩ := recordVariant_eq_ok (t := t) h R out k
    obtain ⟨out₂, h2, hkeep₂, hall⟩ := ih out₁
    refine ⟨out₂, by rw [List.foldlM_cons, h1, ok_bind, h2], fun key hk =>
      hkeep₂ key (hkeep₁ key hk), ?_⟩
    intro k' hk'
    rcases List.mem_cons.mp hk' with rfl | hk'
    · exact hkeep₂ _ hnew
    · exact hall k' hk'

theorem foldlM_recordShot_eq_ok (h : request.Anchored) (lengths : List Nat)
    (out : List VariantInstance) :
    ∃ out', lengths.foldlM (recordShot t request) out = .ok out' ∧
      (∀ key, HasKey out key → HasKey out' key) ∧
      ∀ R ∈ lengths, ∀ k ∈ request.instances R,
        HasKey out' (windowVariant (boundsOf t request) request k R) := by
  induction lengths generalizing out with
  | nil => exact ⟨out, rfl, fun _ => id, by simp⟩
  | cons R lengths ih =>
    obtain ⟨out₁, h1, hkeep₁, hnew⟩ :=
      foldlM_recordVariant_eq_ok (t := t) h R (request.instances R).toList out
    obtain ⟨out₂, h2, hkeep₂, hall⟩ := ih out₁
    have hshot : recordShot t request out R = .ok out₁ := by
      rw [recordShot, shotInstances_eq h, ok_bind, h1]
    refine ⟨out₂, by rw [List.foldlM_cons, hshot, ok_bind, h2], fun key hk =>
      hkeep₂ key (hkeep₁ key hk), ?_⟩
    intro R' hR' k hk
    rcases List.mem_cons.mp hR' with rfl | hR'
    · exact hkeep₂ _ (hnew k (IndexRange.mem_toList.mpr hk))
    · exact hall R' hR' k hk

end

/-! ## The reach of a model -/

section
variable {t : TemplateData} {request : WindowRequest}

/-- A model reads at least its commit zone and the round before its window. -/
theorem modelReach_bounds (h : request.Anchored) :
    (modelReach t request).begin < request.commitZone.begin ∧
      request.commitZone.stop ≤ (modelReach t request).stop ∧
      (modelReach t request).begin + 2 ≤ (modelReach t request).stop := by
  have hspan := request.commitZone_le_zoneSpan
  have hne := h.nonempty
  have hstop : request.zoneSpan.stop ≤ (modelReach t request).stop := by
    simp only [modelReach]
    omega
  have hbegin : (modelReach t request).begin = request.zoneSpan.begin - 1 := rfl
  omega

theorem firstBulkIndex_le_iff (h : request.Anchored) {k : Int} :
    firstBulkIndex t request ≤ k ↔
      t.prefixRounds ≤ request.anchor k + (modelReach t request).begin := by
  have heq : firstBulkIndex t request =
      request.firstIndex (t.prefixRounds - (modelReach t request).begin) := by
    rw [firstBulkIndex, firstIndex]
    congr 1
    omega
  rw [heq, firstIndex_le_iff h.period_pos]
  omega

theorem position_of_le (h : request.Anchored) {k : Int} {R : Nat}
    (hk : firstBulkIndex t request ≤ k) :
    (windowVariant (boundsOf t request) request k R).position = none := by
  rw [firstBulkIndex_le_iff h] at hk
  exact if_neg (show ¬ request.anchor k + (modelReach t request).begin < t.prefixRounds by omega)

theorem position_of_lt (h : request.Anchored) {k : Int} {R : Nat}
    (hk : k < firstBulkIndex t request) :
    (windowVariant (boundsOf t request) request k R).position = some k := by
  rw [← not_le, firstBulkIndex_le_iff h] at hk
  exact if_pos (show request.anchor k + (modelReach t request).begin < t.prefixRounds by omega)

theorem terminal_of_le (t : TemplateData) (request : WindowRequest) {k : Int} {R : Nat}
    (h : request.anchor k + (modelReach t request).stop + endRounds t ≤ R) :
    (windowVariant (boundsOf t request) request k R).terminal = none :=
  if_neg (show ¬ request.anchor k + (modelReach t request).stop > R - endRounds t by omega)

theorem terminal_of_lt (t : TemplateData) (request : WindowRequest) {k : Int} {R : Nat}
    (h : R < request.anchor k + (modelReach t request).stop + endRounds t) :
    (windowVariant (boundsOf t request) request k R).terminal = some (R - request.anchor k) :=
  if_pos (show request.anchor k + (modelReach t request).stop > R - endRounds t by omega)

end

/-! ## Completeness -/

section
variable (t : ExperimentTemplate) {request : WindowRequest}

/-- The probe runs past the shortest shot by more than a period. -/
theorem minRounds_add_period_le (h : request.Anchored) :
    t.minRounds + request.period ≤ probeEnd t.toTemplateData request := by
  have hreach := modelReach_bounds (t := t.toTemplateData) h
  have hbulk := (firstBulkIndex_le_iff (t := t.toTemplateData) h
    (k := firstBulkIndex t.toTemplateData request)).mp (le_refl _)
  have hstep := anchor_add_le h.period_pos
    (show firstBulkIndex t.toTemplateData request < firstBulkIndex t.toTemplateData request + 1
      by omega)
  have hmin := t.shape.min_le
  unfold probeEnd endRounds
  omega

/-- Every variant of an admitted shot appears in a shot below the probe. -/
theorem exists_probe_instance (h : request.Anchored) {R : Nat}
    (hR : t.minRounds ≤ R) {k : Int} (hk : k ∈ request.instances R) :
    ∃ R' k', t.minRounds ≤ R' ∧
      (R' : Int) < max (t.minRounds : Int) (max (probeEnd t.toTemplateData request) 0) ∧
      k' ∈ request.instances R' ∧
      windowVariant (boundsOf t.toTemplateData request) request k' R' =
        windowVariant (boundsOf t.toTemplateData request) request k R := by
  have hend := minRounds_add_period_le t h
  have hp := h.period_pos
  have hne := h.nonempty
  have hreach := modelReach_bounds (t := t.toTemplateData) h
  have hE : 1 ≤ endRounds t.toTemplateData := le_max_right _ _
  rw [mem_instances h] at hk
  set kb := firstBulkIndex t.toTemplateData request with hkb
  have hbulk := (firstBulkIndex_le_iff (t := t.toTemplateData) h (k := kb)).mp (le_refl _)
  have hnext := anchor_add_le hp (show kb < kb + 1 by omega)
  have hprobe : probeEnd t.toTemplateData request = request.anchor (kb + 1) +
      (modelReach t.toTemplateData request).stop + endRounds t.toTemplateData + 1 := rfl
  -- A shot below the probe is its own witness.
  by_cases hshort : (R : Int) < probeEnd t.toTemplateData request
  · exact ⟨R, k, hR, by omega, (mem_instances h).mpr hk, rfl⟩
  by_cases hpos : k < kb
  · -- A prefix window is far from the end of so long a shot, and of the longest probe shot too.
    have hak := anchor_add_le hp (show k < kb + 1 by omega)
    have hmem : k ∈ request.instances (probeEnd t.toTemplateData request - 1).toNat := by
      rw [mem_instances h]
      omega
    refine ⟨(probeEnd t.toTemplateData request - 1).toNat, k, by omega,
      by clear * - hend hp; omega, hmem, ?_⟩
    have e1 := position_of_lt (t := t.toTemplateData) h (R := R) hpos
    have e2 := position_of_lt (t := t.toTemplateData) h
      (R := (probeEnd t.toTemplateData request - 1).toNat) hpos
    have e3 := terminal_of_le t.toTemplateData request (k := k) (R := R)
      (by omega)
    have e4 := terminal_of_le t.toTemplateData request (k := k)
      (R := (probeEnd t.toTemplateData request - 1).toNat) (by omega)
    exact congrArg₂ VariantKey.mk (e2.trans e1.symm) (e4.trans e3.symm)
  have e1 := position_of_le (t := t.toTemplateData) h (R := R) (not_lt.mp hpos)
  by_cases hterm : (R : Int) < request.anchor k + (modelReach t.toTemplateData request).stop +
      endRounds t.toTemplateData
  · -- A terminal window is moved back to the first index at which its shot is long enough.
    set k' := max kb (request.firstIndex (t.minRounds - (R - request.anchor k))) with hk'
    have hfirst := le_anchor_firstIndex hp
      (t.minRounds - (R - request.anchor k))
    have hle : request.firstIndex (t.minRounds - (R - request.anchor k)) ≤ k := by
      rw [firstIndex_le_iff hp]
      omega
    have hk'le : t.minRounds - (R - request.anchor k) ≤ request.anchor k' := by
      rw [← firstIndex_le_iff hp]
      omega
    have hkb' : kb ≤ k' := le_max_left _ _
    have hbulk' := (anchor_le_iff hp).mpr hkb'
    have hlt : request.anchor k' + (R - request.anchor k) < probeEnd t.toTemplateData request := by
      rcases max_choice kb (request.firstIndex (t.minRounds - (R - request.anchor k))) with hm | hm
      · have : k' = kb := hm
        rw [this]
        omega
      · have : k' = request.firstIndex (t.minRounds - (R - request.anchor k)) := hm
        rw [this]
        omega
    have hcast : (((request.anchor k' + (R - request.anchor k)).toNat : Nat) : Int) =
        request.anchor k' + (R - request.anchor k) := by omega
    refine ⟨(request.anchor k' + (R - request.anchor k)).toNat, k', by omega,
      by clear * - hend hp hlt; omega, ?_, ?_⟩
    · rw [mem_instances h, hcast]
      omega
    · have e2 := position_of_le (t := t.toTemplateData) h
        (R := (request.anchor k' + (R - request.anchor k)).toNat) hkb'
      have e3 := terminal_of_lt t.toTemplateData request (k := k) (R := R) hterm
      have e4 := terminal_of_lt t.toTemplateData request (k := k')
        (R := (request.anchor k' + (R - request.anchor k)).toNat) (by omega)
      refine congrArg₂ VariantKey.mk (e2.trans e1.symm) (e4.trans (Eq.trans ?_ e3.symm))
      congr 1
      omega
  · -- A bulk window is as good as the first one, in the shortest shot where that is bulk.
    set R' := (max (t.minRounds : Int) (request.anchor kb +
      (modelReach t.toTemplateData request).stop + endRounds t.toTemplateData)).toNat with hR'
    refine ⟨R', kb, by omega, by clear * - hend hp hnext hprobe; omega, ?_, ?_⟩
    · rw [mem_instances h]
      omega
    · have e2 := position_of_le (t := t.toTemplateData) h (R := R') (k := kb) (le_refl _)
      have e3 := terminal_of_le t.toTemplateData request (k := k) (R := R)
        (by omega)
      have e4 := terminal_of_le t.toTemplateData request (k := kb) (R := R')
        (by omega)
      exact congrArg₂ VariantKey.mk (e2.trans e1.symm) (e4.trans e3.symm)

end

/-- The list of variants is complete: for every shot a template admits and every window of it, the
window's key is on the list, which shots below the probe alone have filled. -/
theorem variantInstances_complete (t : ExperimentTemplate) (request : WindowRequest)
    (h : checkRequest request = .ok ()) :
    ∃ variants, variantInstances t.toTemplateData request = .ok variants ∧
      ∀ R, t.Admits R → ∃ instances, shotInstances request R = .ok instances ∧
        ∀ k ∈ instances, ∃ v ∈ variants,
          windowVariantOf t.toTemplateData request k R = .ok v.key := by
  have hvalid := checkRequest_valid h
  have ha := hvalid.toAnchored
  have hprobe : variantProbeRounds t.toTemplateData request =
      .ok (if t.repeats then max t.minRounds (max (probeEnd t.toTemplateData request) 0).toNat
        else t.minRounds + 1) := by
    simp [variantProbeRounds, h, pure, Except.pure]
  set probe := if t.repeats then max t.minRounds (max (probeEnd t.toTemplateData request) 0).toNat
    else t.minRounds + 1 with hp
  obtain ⟨variants, hok, -, hall⟩ := foldlM_recordShot_eq_ok (t := t.toTemplateData) ha
    (List.range' t.minRounds (probe - t.minRounds)) []
  refine ⟨variants, by rw [variantInstances, hprobe, ok_bind, hok], ?_⟩
  intro R hR
  refine ⟨request.instances R, shotInstances_eq ha R, ?_⟩
  intro k hk
  rw [windowVariantOf_eq ha]
  obtain ⟨R', k', hmin, hlt, hk', hkey⟩ : ∃ R' k', t.minRounds ≤ R' ∧ R' < probe ∧
      k' ∈ request.instances R' ∧
      windowVariant (boundsOf t.toTemplateData request) request k' R' =
        windowVariant (boundsOf t.toTemplateData request) request k R := by
    cases hrep : t.repeats with
    | false => exact ⟨R, k, hR.1, by rw [hR.2 hrep]; simp [hp, hrep], hk, rfl⟩
    | true =>
      obtain ⟨R', k', h1, h2, h3, h4⟩ := exists_probe_instance t ha hR.1 hk
      exact ⟨R', k', h1, by rw [hp, if_pos hrep]; omega, h3, h4⟩
  have hmem : R' ∈ List.range' t.minRounds (probe - t.minRounds) :=
    List.mem_range'_1.mpr ⟨hmin, by omega⟩
  obtain ⟨v, hv, hvkey⟩ := hall R' hmem k' hk'
  exact ⟨v, hv, by rw [hvkey, hkey]⟩

theorem variantInstances_complete_memory : checkRequest oneRoundRequest = .ok () ∧
    ∃ variants, variantInstances memoryTemplate.toTemplateData oneRoundRequest = .ok variants ∧
      ∀ R, memoryTemplate.Admits R → ∃ instances, shotInstances oneRoundRequest R = .ok instances ∧
        ∀ k ∈ instances, ∃ v ∈ variants,
          windowVariantOf memoryTemplate.toTemplateData oneRoundRequest k R = .ok v.key :=
  ⟨by decide +kernel, variantInstances_complete memoryTemplate oneRoundRequest (by decide +kernel)⟩

end CudaqQec
