import CudaqQec.Artifacts.Reading
import CudaqQec.Artifacts.Sha256

/-!
# The keys of artifacts

What `sha256_hex` gives as keys: unless two messages collide, equal keys are of equal inputs.
Nothing about the hash is used but that its digits hold no line break.
-/

namespace CudaqQec.Artifact

open Sha256

/-! ## Digits -/

theorem hexDigit_ne_lineBreak {d : Nat} (h : d < 16) : hexDigit d ≠ 10 := by
  unfold hexDigit
  intro he
  have hnat := congrArg UInt8.toNat he
  rw [UInt8.toNat_ofNat'] at hnat
  have hten : (10 : UInt8).toNat = 10 := rfl
  rw [hten] at hnat
  split at hnat <;> omega

theorem lineBreak_notMem_sha256Hex (m : Bytes) : 10 ∉ sha256Hex m := by
  intro h
  unfold sha256Hex at h
  obtain ⟨word, -, hword⟩ := List.mem_flatMap.mp h
  obtain ⟨i, -, hi⟩ := List.mem_map.mp hword
  exact hexDigit_ne_lineBreak (Nat.mod_lt _ (by decide)) hi

/-! ## Windows -/

/-- A digest ends at the line break, which it does not hold. -/
theorem reads_digest : ReadsBack Eq (fun s => s.head? = some 10)
    (fun h : {h : Bytes // 10 ∉ h} => h.val) where
  respects a b h := by rw [h]
  unique a b s t hs ht he := by
    obtain ⟨x, hx⟩ := a
    obtain ⟨y, hy⟩ := b
    dsimp only at he
    have hsplit : ∀ z u : Bytes, 10 ∉ z → u.head? = some 10 →
        (z ++ u).takeWhile (fun c => decide (c ≠ 10)) = z := by
      intro z u hz hu
      rw [List.takeWhile_append_of_pos]
      · cases u with
        | nil => cases hu
        | cons c u =>
          rw [Option.some.inj hu]
          simp
      · intro c hc
        rw [decide_eq_true_eq]
        rintro rfl
        exact hz hc
    have hxy : x = y := by rw [← hsplit x s hx hs, he, hsplit y t hy ht]
    subst hxy
    exact ⟨rfl, List.append_cancel_left he⟩

/-- What identifies a window variant: the digest of its template, its request and its key. -/
structure WindowId where
  digest : {h : Bytes // 10 ∉ h}
  request : Request
  key : VariantKey

theorem reads_windowBytes : ReadsBack
    (fun a b : WindowId => a.digest = b.digest ∧ a.request.Same b.request ∧ a.key = b.key)
    (fun _ => True) (fun a => windowBytes a.digest.val a.request a.key) := by
  apply reads_prefixed
  refine ((reads_put (reads_digest.comap fun a : WindowId => a.digest) "template" fun _ => rfl).and
    ((reads_requestBytes.comap fun a : WindowId => a.request).and
    ((reads_putNumber (reads_optionalSigned.comap fun a : WindowId => a.key.position) "position").and
    (reads_putNumber (reads_optionalSigned.comap fun a : WindowId => a.key.terminal) "terminal")
    fun _ _ _ => trivial) fun _ _ _ => trivial) fun _ _ _ => trivial).congr fun a b => ?_
  have hkey : a.key = b.key ↔ a.key.position = b.key.position ∧ a.key.terminal = b.key.terminal := by
    cases a.key
    cases b.key
    simp
  rw [hkey]

/-! ## Keys -/

def templateKey (spec : ChunksSpec) : Bytes := sha256Hex (canonicalBytes spec)

def windowKey (spec : ChunksSpec) (request : Request) (key : VariantKey) : Bytes :=
  sha256Hex (windowBytes (templateKey spec) request key)

def NoCollision (x y : Bytes) : Prop := sha256Hex x = sha256Hex y → x = y

variable {a b : ChunksSpec} {r r' : Request} {k k' : VariantKey}

theorem canonicalBytes_eq_iff : canonicalBytes a = canonicalBytes b ↔ a.Same b :=
  reads_canonicalBytes.eq_iff rfl a b

theorem windowBytes_eq_iff {m m' : Bytes} :
    windowBytes (sha256Hex m) r k = windowBytes (sha256Hex m') r' k' ↔
      sha256Hex m = sha256Hex m' ∧ r.Same r' ∧ k = k' := by
  have h := reads_windowBytes.eq_iff trivial ⟨⟨_, lineBreak_notMem_sha256Hex m⟩, r, k⟩
    ⟨⟨_, lineBreak_notMem_sha256Hex m'⟩, r', k'⟩
  simpa using h

theorem sha256Hex_eq_iff {x y : Bytes} (h : NoCollision x y) :
    sha256Hex x = sha256Hex y ↔ x = y :=
  ⟨h, congrArg sha256Hex⟩

/-- The bytes of specs, requests and window variants are equal exactly when these are, no spec has the
bytes of a window, and where the hash does not collide the keys are equal exactly when the inputs are. -/
theorem keys_identify :
    (∀ a b, canonicalBytes a = canonicalBytes b ↔ a.Same b) ∧
    (∀ r r', requestBytes r = requestBytes r' ↔ r.Same r') ∧
    (∀ m m' r r' k k', windowBytes (sha256Hex m) r k = windowBytes (sha256Hex m') r' k' ↔
      sha256Hex m = sha256Hex m' ∧ r.Same r' ∧ k = k') ∧
    (∀ a h r k, canonicalBytes a ≠ windowBytes h r k) ∧
    (∀ a b, NoCollision (canonicalBytes a) (canonicalBytes b) →
      (templateKey a = templateKey b ↔ a.Same b)) ∧
    ∀ a b r r' k k', NoCollision (canonicalBytes a) (canonicalBytes b) →
      NoCollision (windowBytes (templateKey a) r k) (windowBytes (templateKey b) r' k') →
      (windowKey a r k = windowKey b r' k' ↔ a.Same b ∧ r.Same r' ∧ k = k') := by
  refine ⟨fun a b => canonicalBytes_eq_iff, fun r r' => reads_requestBytes.eq_iff trivial r r',
    fun m m' r r' k k' => windowBytes_eq_iff, fun a h r k he => ?_, fun a b hno => ?_,
    fun a b r r' k k' hspec hwindow => ?_⟩
  · -- the one begins with `d`, the other with `w`
    have hspec : (canonicalBytes a).head? = some 100 := by
      rw [canonicalBytes, List.head?_append]
      rfl
    have hwindow : (windowBytes h r k).head? = some 119 := by
      rw [windowBytes, List.head?_append]
      rfl
    rw [he, hwindow] at hspec
    exact absurd hspec (by decide)
  · rw [templateKey, templateKey, sha256Hex_eq_iff hno, canonicalBytes_eq_iff]
  · rw [windowKey, windowKey, sha256Hex_eq_iff hwindow, templateKey, templateKey, windowBytes_eq_iff,
      sha256Hex_eq_iff hspec, canonicalBytes_eq_iff]

/-! ## The two zeros -/

def oneFault (rate : Double) : ChunksSpec where
  phases := [⟨SeamId.ofName "bulk", ⟨1, [0, -1], [], [0, -1], [rate], [], none, []⟩⟩]
  connections := [⟨SeamId.ofName "bulk", SeamId.ofName "bulk"⟩]
  seam := ⟨SeamId.nextRound, SeamId.prevRound⟩
  numRounds := none
  measurementsPerRound := some 1
  phasesSupplyDSparse := none
  observableNames := [ascii "Z"]

def positiveZero : Double := ⟨0#64, by decide⟩
def negativeZero : Double := ⟨0x8000000000000000#64, by decide⟩

def onlyRounds (numRounds : Nat) : ChunksSpec where
  phases := []
  connections := []
  seam := ⟨SeamId.nextRound, SeamId.prevRound⟩
  numRounds := some numRounds
  measurementsPerRound := none
  phasesSupplyDSparse := none
  observableNames := []

theorem noCollision_onlyRounds :
    NoCollision (canonicalBytes (onlyRounds 2)) (canonicalBytes (onlyRounds 3)) :=
  fun h => absurd h (by decide +kernel)

/-- Specs that differ in the sign of a zero are equal and share their key; those of different round
counts do not. -/
theorem keys_identify_zeros :
    ((oneFault positiveZero).Same (oneFault negativeZero) ∧
      templateKey (oneFault positiveZero) = templateKey (oneFault negativeZero)) ∧
    ¬ (onlyRounds 2).Same (onlyRounds 3) ∧ templateKey (onlyRounds 2) ≠ templateKey (onlyRounds 3) := by
  have hsame : (oneFault positiveZero).Same (oneFault negativeZero) := by
    refine ⟨.cons ⟨rfl, rfl, rfl, rfl, rfl, .cons (.inr ⟨by decide, by decide⟩) .nil, rfl, rfl, rfl⟩
      .nil, rfl, rfl, rfl, rfl, rfl, rfl⟩
  have hbytes := (keys_identify.1 _ _).mpr hsame
  have hdiffer : ¬ (onlyRounds 2).Same (onlyRounds 3) := fun h => absurd h.2.2.2.1 (by decide)
  exact ⟨⟨hsame, (keys_identify.2.2.2.2.1 _ _ fun _ => hbytes).mpr hsame⟩, hdiffer,
    fun h => hdiffer ((keys_identify.2.2.2.2.1 _ _ noCollision_onlyRounds).mp h)⟩

end CudaqQec.Artifact
