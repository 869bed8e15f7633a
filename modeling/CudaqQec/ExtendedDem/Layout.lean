import CudaqQec.ExtendedDem.Spec
import Mathlib.Data.List.Perm.Subperm

/-!
# The layout of a chain

`phase_sequence` walks the chain once and repeats one phase where the walk meets it. The walk itself
does not depend on the number of rounds: `IsPath` is the path it takes, `repeatIn` what the
repetition makes of it. A self-connected phase that no other connection names is on no path, and then
`repeating_rounds` and `layout` do not describe the sequence.

* `mem_path_iff`: a path visits exactly the phases its connections name.
* `exists_rounds`: the sequences of every length of a chain whose repeating phase is on it.
* `phaseSequence_offChain`: what is left when it is not.
-/

namespace CudaqQec

open Checked

namespace DemChunksSpec

/-! ## Spans -/

/-- `repeating_span`: the rounds before, of and after the repeating phase. -/
structure RepeatingSpan where
  before : Nat
  length : Nat
  after : Nat
  deriving DecidableEq

/-- `repeating_rounds`: found on the shortest chain. The bound keeps the checks that
`phase_sequence` makes of `num_rounds`. -/
def repeatingRounds (s : DemChunksSpec) : Except Error RepeatingSpan := do
  let repeating ← s.repeatingPhase
  let bounded := { s with numRounds := s.numRounds.map fun n => min n (max 2 s.minimumRounds) }
  let sequence ← bounded.phaseSequence
  let before : Nat := (sequence.takeWhile (· ≠ repeating)).length
  let after : Nat := (sequence.reverse.takeWhile (· ≠ repeating)).length
  return ⟨before, sizeT ((s.numRounds.getD 0 : Int) - before - after), after⟩

variable {s : DemChunksSpec} {rep : PhaseId} {n : Nat}

/-! ## The walk without repetition -/

def repeatIn (rep : Option PhaseId) (n : Nat) (path : List PhaseId) : List PhaseId :=
  path.flatMap fun p => p :: (if rep = some p then List.replicate n p else [])

theorem walkPhases_eq (chain : List PhaseConnection) (rep : Option PhaseId) (n fuel : Nat)
    (current : PhaseId) (visited : List PhaseId) :
    walkPhases chain rep n fuel current visited =
      (walkPhases chain none 0 fuel current visited).map (repeatIn rep n) := by
  induction fuel generalizing current visited with
  | zero => rfl
  | succ fuel ih =>
    unfold walkPhases
    by_cases hv : current ∈ visited
    · simp only [throwIf_of hv, error_bind]
      rfl
    · simp only [throwIf_of_not hv, ok_bind]
      cases chain.find? fun c => c.fromPhase = current with
      | none => simp [repeatIn, pure, Except.pure, Except.map]
      | some c =>
        simp only [ih c.toPhase (current :: visited)]
        cases walkPhases chain none 0 fuel c.toPhase (current :: visited) with
        | error e => rfl
        | ok rest =>
          simp [repeatIn, Except.map, bind, Except.bind, pure, Except.pure]

theorem repeatIn_of_notMem {path : List PhaseId} (h : rep ∉ path) (n : Nat) :
    repeatIn (some rep) n path = path := by
  induction path with
  | nil => rfl
  | cons p path ih =>
    have hp : rep ≠ p := fun he => h (by simp [he])
    have hrest := ih fun hm => h (by simp [hm])
    simp only [repeatIn, List.flatMap_cons, Option.some.injEq, if_neg hp] at hrest ⊢
    rw [hrest]
    rfl

theorem repeatIn_append {before after : List PhaseId} (hb : rep ∉ before) (ha : rep ∉ after) (n : Nat) :
    repeatIn (some rep) n (before ++ rep :: after) =
      before ++ List.replicate (n + 1) rep ++ after := by
  have h1 := repeatIn_of_notMem hb n
  have h2 := repeatIn_of_notMem ha n
  unfold repeatIn at h1 h2 ⊢
  rw [List.flatMap_append, List.flatMap_cons, h1, h2, if_pos rfl, List.append_assoc,
    List.replicate_succ]

/-! ## Paths -/

/-- The path a chain's walk takes, each phase once. -/
structure IsPath (s : DemChunksSpec) (path : List PhaseId) : Prop where
  successors : checkSuccessors s.chain [] = .ok ()
  walk : walkPhases s.chain none 0 (s.chain.length + 1) (entryPhase s.chain) [] = .ok path

theorem IsPath.nodup {path : List PhaseId} (h : s.IsPath path) : path.Nodup :=
  (nodup_walkPhases h.walk).1

/-- A path starts at the entry, follows connections and takes at most `fuel` steps. -/
theorem walkPhases_steps {chain : List PhaseConnection} {fuel : Nat} {current : PhaseId}
    {visited path : List PhaseId} (h : walkPhases chain none 0 fuel current visited = .ok path) :
    path.head? = some current ∧ path.length ≤ fuel ∧
      path.IsChain fun a b => ∃ c ∈ chain, c.fromPhase = a ∧ c.toPhase = b := by
  induction fuel generalizing current visited path with
  | zero => cases h
  | succ fuel ih =>
    simp only [walkPhases, List.replicate_zero, ite_self, bind_eq_ok, throwIf_eq_ok] at h
    obtain ⟨_, -, h⟩ := h
    split at h
    · cases h
      exact ⟨rfl, by simp, List.isChain_singleton _⟩
    · next c hc =>
      rw [bind_eq_ok] at h
      obtain ⟨rest, hrest, hok⟩ := h
      cases hok
      obtain ⟨h1, h2, h3⟩ := ih hrest
      have hmem := List.mem_of_find?_eq_some hc
      have hfrom : c.fromPhase = current := by simpa using List.find?_some hc
      refine ⟨rfl, by simpa using h2, ?_⟩
      cases rest with
      | nil => exact List.isChain_singleton _
      | cons b rest =>
        have hb : b = c.toPhase := by simpa using h1
        exact List.isChain_cons_cons.mpr ⟨⟨c, hmem, hfrom, hb.symm⟩, h3⟩

theorem checkSuccessors_nodup {chain : List PhaseConnection} {seen : List PhaseId}
    (h : checkSuccessors chain seen = .ok ()) :
    (chain.map (·.fromPhase)).Nodup ∧ ∀ c ∈ chain, c.fromPhase ∉ seen := by
  induction chain generalizing seen with
  | nil => simp
  | cons c cs ih =>
    simp only [checkSuccessors, bind_eq_ok, throwIf_eq_ok] at h
    obtain ⟨_, hc, h⟩ := h
    obtain ⟨h1, h2⟩ := ih h
    refine ⟨?_, ?_⟩
    · rw [List.map_cons, List.nodup_cons]
      refine ⟨fun hm => ?_, h1⟩
      obtain ⟨c', hc', he⟩ := List.mem_map.mp hm
      exact h2 c' hc' (by simp [he])
    · intro c' hc'
      rcases List.mem_cons.mp hc' with rfl | hc'
      · exact hc
      · exact fun hm => h2 c' hc' (by simp [hm])

/-- The step that leaves a phase of a path which is not its last. -/
theorem exists_next_of_mem_dropLast {R : PhaseId → PhaseId → Prop} {path : List PhaseId}
    (h : path.IsChain R) {a : PhaseId} (ha : a ∈ path.dropLast) : ∃ b ∈ path, R a b := by
  induction path with
  | nil => simp at ha
  | cons x path ih =>
    cases path with
    | nil => simp at ha
    | cons y path =>
      rw [List.isChain_cons_cons] at h
      rw [List.dropLast_cons_cons, List.mem_cons] at ha
      rcases ha with rfl | ha
      · exact ⟨y, by simp, h.1⟩
      · obtain ⟨b, hb, hab⟩ := ih h.2 ha
        exact ⟨b, List.mem_cons_of_mem _ hb, hab⟩

/-- A path as long as its connections allow visits exactly the phases they name. -/
theorem IsPath.mem_iff {path : List PhaseId} (h : s.IsPath path)
    (hlen : path.length = s.chain.length + 1) (hne : s.chain ≠ []) (p : PhaseId) :
    p ∈ path ↔ ∃ c ∈ s.chain, c.fromPhase = p ∨ c.toPhase = p := by
  obtain ⟨hhead, -, hchain⟩ := walkPhases_steps h.walk
  obtain ⟨hfroms, -⟩ := checkSuccessors_nodup h.successors
  constructor
  · intro hp
    have hpos : 0 < s.chain.length := List.length_pos_iff.mpr hne
    by_cases hd : p ∈ path.dropLast
    · obtain ⟨b, -, c, hc, hcf, -⟩ := exists_next_of_mem_dropLast hchain hd
      exact ⟨c, hc, .inl hcf⟩
    · -- The last phase of a path of two or more is one that a connection leads to.
      obtain ⟨i, hi, rfl⟩ := List.mem_iff_getElem.mp hp
      have hlast : i = path.length - 1 := by
        by_contra hn
        apply hd
        rw [List.mem_iff_getElem]
        exact ⟨i, by rw [List.length_dropLast]; omega, by rw [List.getElem_dropLast]⟩
      rw [List.isChain_iff_getElem] at hchain
      obtain ⟨c, hc, -, hct⟩ := hchain (i - 1) (by omega)
      exact ⟨c, hc, .inr (by simpa [show i - 1 + 1 = i by omega] using hct)⟩
  · rintro ⟨c, hc, hp⟩
    -- Every connection is taken: as many phases are left as there are connections.
    have hsub : path.dropLast ⊆ s.chain.map (·.fromPhase) := by
      intro a ha
      obtain ⟨b, -, c', hc', hcf, -⟩ := exists_next_of_mem_dropLast hchain ha
      exact List.mem_map.mpr ⟨c', hc', hcf⟩
    have hnd : path.dropLast.Nodup := h.nodup.sublist (List.dropLast_sublist _)
    have hperm : path.dropLast.Perm (s.chain.map (·.fromPhase)) := by
      refine (List.subperm_of_subset hnd hsub).perm_of_length_le ?_
      rw [List.length_map, List.length_dropLast]
      omega
    have hfrom : c.fromPhase ∈ path.dropLast :=
      hperm.mem_iff.mpr (List.mem_map.mpr ⟨c, hc, rfl⟩)
    obtain ⟨b, hb, c', hc', hcf, hct⟩ := exists_next_of_mem_dropLast hchain hfrom
    have hcc : c' = c := List.inj_on_of_nodup_map hfroms hc' hc hcf
    rcases hp with rfl | rfl
    · exact (List.dropLast_sublist _).subset hfrom
    · rw [← hcc, hct]
      exact hb

/-! ## Sequences of every length -/

/-- The self-connected phase, if there is one, is a phase that the chain visits. -/
def OnChain (s : DemChunksSpec) : Prop :=
  ∀ rep ∈ s.selfLoops, s.chain = [] ∨ ∃ c ∈ s.chain, c.fromPhase = rep ∨ c.toPhase = rep

instance (s : DemChunksSpec) : Decidable s.OnChain :=
  inferInstanceAs (Decidable (∀ rep ∈ s.selfLoops, _))

def withRounds (s : DemChunksSpec) (n : Nat) : DemChunksSpec := { s with numRounds := some n }

theorem phaseSequence_eq_ok_of_chain {seq : List PhaseId} (hself : s.selfLoops = [rep])
    (hne : s.chain ≠ []) : (s.withRounds n).phaseSequence = .ok seq ↔
      s.phases ≠ [] ∧ s.connections ≠ [] ∧ 2 ≤ n ∧ s.chain.length + 1 ≤ n ∧
        ∃ path, s.IsPath path ∧ seq = repeatIn (some rep) (n - (s.chain.length + 1)) path ∧
          seq.length = n := by
  have hself' : (s.withRounds n).selfLoops = [rep] := hself
  have hchain : (s.withRounds n).chain = s.chain := rfl
  simp only [phaseSequence, chainSequence, bind_eq_ok, throwIf_eq_ok, hself', hchain, if_neg hne,
    List.head?_cons, Option.isSome_some, if_true, walkPhases_eq s.chain (some rep)]
  constructor
  · rintro ⟨_, h1, _, h2, _, -, _, -, _, h3, _, h4, _, h5, seq', h6, _, h7, hok⟩
    obtain rfl : seq' = seq := Except.ok.inj hok
    have h3' : ¬ n < 2 := fun hlt => h3 ⟨trivial, hlt⟩
    have h4' : ¬ n < s.chain.length + 1 := fun hlt => h4 ⟨trivial, hlt⟩
    have h7' : seq'.length = n := not_not.mp h7
    cases hw : walkPhases s.chain none 0 (s.chain.length + 1) (entryPhase s.chain) [] with
    | error e =>
      rw [hw] at h6
      cases h6
    | ok path =>
      rw [hw] at h6
      exact ⟨h1, h2, not_lt.mp h3', not_lt.mp h4', path, ⟨h5, hw⟩, (Except.ok.inj h6).symm, h7'⟩
  · rintro ⟨h1, h2, h3, h4, path, hpath, hseq, hlen⟩
    have hr : (s.withRounds n).numRounds = some n := rfl
    refine ⟨(), h1, (), h2, (), by simp, (), by simp [hr], (), by simp [hr]; omega, (), ?_, (),
      hpath.successors, seq, ?_, (), ?_, rfl⟩
    · simp [hr]
      omega
    · rw [hpath.walk, hseq]
      rfl
    · simpa [hr] using hlen

theorem phaseSequence_eq_ok_of_single {seq : List PhaseId} (hself : s.selfLoops = [rep])
    (hnil : s.chain = []) : (s.withRounds n).phaseSequence = .ok seq ↔
      s.phases ≠ [] ∧ s.connections ≠ [] ∧ 2 ≤ n ∧ seq = List.replicate n rep := by
  have hself' : (s.withRounds n).selfLoops = [rep] := hself
  have hchain : (s.withRounds n).chain = [] := hnil
  have hr : (s.withRounds n).numRounds = some n := rfl
  simp only [phaseSequence, bind_eq_ok, throwIf_eq_ok, hself', hchain, if_true, List.head?_cons,
    Option.isSome_some, Option.getD_some, hr]
  constructor
  · rintro ⟨_, h1, _, h2, _, -, _, -, _, h3, hok⟩
    cases hok
    exact ⟨h1, h2, by by_contra hn; exact h3 ⟨trivial, not_le.mp hn⟩, rfl⟩
  · rintro ⟨h1, h2, h3, rfl⟩
    exact ⟨(), h1, (), h2, (), by simp, (), by simp, (), by simp; omega, rfl⟩

/-- What is before and after the repeating phase, in a chain that visits it. -/
structure Around (s : DemChunksSpec) (rep : PhaseId) (before after : List PhaseId) : Prop where
  notMem_before : rep ∉ before
  notMem_after : rep ∉ after
  length : before.length + 1 + after.length = s.minimumRounds
  rounds : ∀ m, 2 ≤ m → s.minimumRounds ≤ m → (s.withRounds m).phaseSequence =
    .ok (before ++ List.replicate (m - before.length - after.length) rep ++ after)

/-- The sequences of every length, once one is known. -/
theorem exists_around {seq : List PhaseId} (hself : s.selfLoops = [rep]) (hon : s.OnChain)
    (h : (s.withRounds n).phaseSequence = .ok seq) :
    2 ≤ n ∧ s.minimumRounds ≤ n ∧ ∃ before after, Around s rep before after := by
  by_cases hne : s.chain = []
  · obtain ⟨h1, h2, h3, -⟩ := (phaseSequence_eq_ok_of_single hself hne).mp h
    have hmin : s.minimumRounds = 1 := by simp [minimumRounds, hne]
    refine ⟨h3, by omega, [], [], by simp, by simp, by simp [hmin], fun m hm _ => ?_⟩
    exact (phaseSequence_eq_ok_of_single hself hne).mpr ⟨h1, h2, hm, by simp⟩
  · obtain ⟨h1, h2, h3, h4, path, hpath, hseq, hlen⟩ :=
      (phaseSequence_eq_ok_of_chain hself hne).mp h
    have hmin : s.minimumRounds = s.chain.length + 1 := by
      unfold minimumRounds
      omega
    obtain ⟨-, hle, -⟩ := walkPhases_steps hpath.walk
    -- The path has one phase for each connection and one more, whether it meets the phase or not.
    have hplen : path.length = s.chain.length + 1 := by
      by_cases hmem : rep ∈ path
      · obtain ⟨xs, ys, rfl⟩ := List.append_of_mem hmem
        have hnd := hpath.nodup
        rw [List.nodup_append, List.nodup_cons] at hnd
        have hx : rep ∉ xs := fun hm => hnd.2.2 rep hm rep (by simp) rfl
        rw [hseq, repeatIn_append hx hnd.2.1.1] at hlen
        simp only [List.length_append, List.length_replicate, List.length_cons] at hlen hle ⊢
        omega
      · rw [hseq, repeatIn_of_notMem hmem] at hlen
        omega
    have hmem : rep ∈ path := by
      rw [hpath.mem_iff hplen hne]
      exact (hon rep (by simp [hself])).resolve_left hne
    obtain ⟨xs, ys, rfl⟩ := List.append_of_mem hmem
    have hnd := hpath.nodup
    rw [List.nodup_append, List.nodup_cons] at hnd
    have hx : rep ∉ xs := fun hm => hnd.2.2 rep hm rep (by simp) rfl
    have hy : rep ∉ ys := hnd.2.1.1
    rw [List.length_append, List.length_cons] at hplen
    refine ⟨h3, by omega, xs, ys, hx, hy, by omega, fun m hm hmm => ?_⟩
    have hcount : m - (s.chain.length + 1) + 1 = m - xs.length - ys.length := by omega
    refine (phaseSequence_eq_ok_of_chain hself hne).mpr
      ⟨h1, h2, hm, by omega, _, hpath, ?_, ?_⟩
    · rw [repeatIn_append hx hy, hcount]
    · simp only [List.length_append, List.length_replicate]
      omega

/-- A chain that does not visit the repeating phase has one length only. -/
theorem phaseSequence_offChain {seq : List PhaseId} (hself : s.selfLoops = [rep])
    (hoff : ¬ s.OnChain) (h : (s.withRounds n).phaseSequence = .ok seq) :
    n = s.minimumRounds ∧ 2 ≤ n ∧ rep ∉ seq ∧ seq.length = n := by
  have hne : s.chain ≠ [] := by
    intro hn
    exact hoff fun r _ => .inl hn
  obtain ⟨-, -, h3, h4, path, hpath, hseq, hlen⟩ := (phaseSequence_eq_ok_of_chain hself hne).mp h
  obtain ⟨-, hle, -⟩ := walkPhases_steps hpath.walk
  have hnot : rep ∉ path := by
    intro hmem
    apply hoff
    intro r hr
    obtain rfl : r = rep := by simpa [hself] using hr
    have hplen : path.length = s.chain.length + 1 := by
      obtain ⟨xs, ys, rfl⟩ := List.append_of_mem hmem
      have hnd := hpath.nodup
      rw [List.nodup_append, List.nodup_cons] at hnd
      have hx : r ∉ xs := fun hm => hnd.2.2 r hm r (by simp) rfl
      rw [hseq, repeatIn_append hx hnd.2.1.1] at hlen
      simp only [List.length_append, List.length_replicate, List.length_cons] at hlen hle ⊢
      omega
    exact .inr ((hpath.mem_iff hplen hne r).mp hmem)
  rw [repeatIn_of_notMem hnot] at hseq
  subst hseq
  refine ⟨?_, h3, hnot, hlen⟩
  unfold minimumRounds
  omega

/-! ## What `repeating_rounds` and `layout` find -/

/-- The phases before and after a run of the repeating phase are found from both ends. -/
theorem takeWhile_around {before after : List PhaseId} (hb : rep ∉ before) (ha : rep ∉ after)
    {k : Nat} (hk : 0 < k) :
    (before ++ List.replicate k rep ++ after).takeWhile (· ≠ rep) = before ∧
      ((before ++ List.replicate k rep ++ after).reverse.takeWhile (· ≠ rep)).reverse = after := by
  obtain ⟨k, rfl⟩ : ∃ j, k = j + 1 := ⟨k - 1, by omega⟩
  have hne : ∀ {l : List PhaseId}, rep ∉ l → ∀ x ∈ l, decide (x ≠ rep) = true := by
    intro l hl x hx
    rw [decide_eq_true_eq]
    rintro rfl
    exact hl hx
  constructor
  · rw [List.append_assoc, List.takeWhile_append_of_pos (hne hb), List.replicate_succ]
    simp
  · rw [List.reverse_append, List.reverse_append, List.reverse_replicate, ← List.append_assoc,
      List.append_assoc, List.takeWhile_append_of_pos (hne fun h => ha (List.mem_reverse.mp h)),
      List.replicate_succ]
    simp

theorem Around.layout_eq {before after : List PhaseId} (h : Around s rep before after)
    (hself : s.selfLoops = [rep]) : s.layout = .ok ⟨before, rep, after⟩ := by
  have hrep : s.repeatingPhase = .ok rep := by rw [repeatingPhase, hself]
  have hlen := h.length
  have hseq := h.rounds (max 2 s.minimumRounds) (le_max_left _ _) (le_max_right _ _)
  have hshort : s.shortest = s.withRounds (max 2 s.minimumRounds) := rfl
  have htake := takeWhile_around h.notMem_before h.notMem_after
    (k := max 2 s.minimumRounds - before.length - after.length) (by omega)
  unfold layout
  rw [hrep, ok_bind, hshort, hseq, ok_bind, htake.1, htake.2]
  rfl

theorem Around.repeatingRounds_eq {before after : List PhaseId} (h : Around s rep before after)
    (hself : s.selfLoops = [rep]) (hn : s.numRounds = some n) (h2 : 2 ≤ n)
    (hmin : s.minimumRounds ≤ n) :
    s.repeatingRounds = .ok ⟨before.length, n - before.length - after.length, after.length⟩ := by
  have hrep : s.repeatingPhase = .ok rep := by rw [repeatingPhase, hself]
  have hlen := h.length
  have hbound : min n (max 2 s.minimumRounds) = max 2 s.minimumRounds := by omega
  have hspec : { s with numRounds := s.numRounds.map fun n => min n (max 2 s.minimumRounds) } =
      s.withRounds (max 2 s.minimumRounds) := by
    rw [hn, Option.map_some, hbound]
    rfl
  have hseq := h.rounds (max 2 s.minimumRounds) (le_max_left _ _) (le_max_right _ _)
  have htake := takeWhile_around h.notMem_before h.notMem_after
    (k := max 2 s.minimumRounds - before.length - after.length) (by omega)
  have hback := congrArg List.length htake.2
  rw [List.length_reverse] at hback
  have hcount : sizeT ((n : Int) - before.length - after.length) =
      n - before.length - after.length := by
    rw [← sizeT_natCast (n - before.length - after.length)]
    congr 1
    omega
  unfold repeatingRounds
  simp only [hrep, ok_bind, hspec, hseq]
  rw [htake.1, hback, hn, Option.getD_some, hcount]
  rfl

/-- The rounds on which `repeating_rounds` looks for the phase. -/
def boundedRounds (s : DemChunksSpec) (n : Nat) : Nat := min n (max 2 s.minimumRounds)

/-- A chain that never visits the phase is found whole before it and whole after it. -/
theorem repeatingRounds_offChain {seq : List PhaseId} (hself : s.selfLoops = [rep])
    (hoff : ¬ s.OnChain) (hn : s.numRounds = some n)
    (hseq : (s.withRounds (s.boundedRounds n)).phaseSequence = .ok seq) :
    s.repeatingRounds = .ok ⟨s.minimumRounds, sizeT ((n : Int) - s.minimumRounds - s.minimumRounds),
      s.minimumRounds⟩ := by
  obtain ⟨hmin, h2, hnot, hlen⟩ := phaseSequence_offChain hself hoff hseq
  have hrep : s.repeatingPhase = .ok rep := by rw [repeatingPhase, hself]
  have hbound : { s with numRounds := s.numRounds.map fun n => min n (max 2 s.minimumRounds) } =
      s.withRounds (s.boundedRounds n) := by
    rw [hn, Option.map_some]
    rfl
  have hall : ∀ x ∈ seq, decide (x ≠ rep) = true := by
    intro x hx
    rw [decide_eq_true_eq]
    rintro rfl
    exact hnot hx
  unfold repeatingRounds
  simp only [hrep, ok_bind, hbound, hseq]
  rw [List.takeWhile_eq_self_iff.mpr hall, List.takeWhile_eq_self_iff.mpr
    fun x hx => hall x (List.mem_reverse.mp hx), List.length_reverse, hlen, hmin, hn,
    Option.getD_some]
  rfl

/-- `repeating_rounds` and `layout` describe a sequence: their parts are as long as they say, with
at least one round of the repeating phase between them, and make up the sequence. -/
def Describes (s : DemChunksSpec) (rep : PhaseId) (n : Nat) (seq : List PhaseId) : Prop :=
  ∃ span l, s.repeatingRounds = .ok span ∧ s.layout = .ok l ∧
    span.before + span.after ≤ n ∧ 1 ≤ span.length ∧ span.before + span.length + span.after = n ∧
    seq = l.before ++ List.replicate span.length rep ++ l.after ∧
    l.before.length = span.before ∧ l.after.length = span.after

/-- `repeating_rounds` and `layout` describe the sequences of a spec exactly when the chain visits
the self-connected phase. -/
theorem describes_iff_onChain (s : DemChunksSpec) (rep : PhaseId) (n : Nat) (seq : List PhaseId)
    (hself : s.selfLoops = [rep]) (hn : s.numRounds = some n) (hseq : s.phaseSequence = .ok seq) :
    s.Describes rep n seq ↔ s.OnChain := by
  have hspec : s.withRounds n = s := by
    unfold withRounds
    rw [← hn]
  rw [← hspec] at hseq
  constructor
  · rintro ⟨span, l, hspan, -, -, -, hsum, -⟩
    by_contra hoff
    obtain ⟨hmin, h2, -, -⟩ := phaseSequence_offChain hself hoff hseq
    have hbound : s.boundedRounds n = n := by
      unfold boundedRounds
      omega
    rw [repeatingRounds_offChain hself hoff hn (by rwa [hbound])] at hspan
    cases hspan
    simp only at hsum
    omega
  · intro hon
    obtain ⟨h2, hmin, before, after, har⟩ := exists_around hself hon hseq
    have hlen := har.length
    have hrounds := har.rounds n h2 hmin
    rw [hseq] at hrounds
    refine ⟨_, _, har.repeatingRounds_eq hself hn h2 hmin, har.layout_eq hself, ?_, ?_, ?_,
      Except.ok.inj hrounds, rfl, rfl⟩
    · show before.length + after.length ≤ n
      omega
    · show 1 ≤ n - before.length - after.length
      omega
    · show before.length + (n - before.length - after.length) + after.length = n
      omega

def threePhases : DemChunksSpec where
  phases := [⟨⟨10⟩, {}⟩, ⟨⟨11⟩, {}⟩, ⟨⟨12⟩, {}⟩]
  connections := [⟨⟨10⟩, ⟨11⟩⟩, ⟨⟨11⟩, ⟨11⟩⟩, ⟨⟨11⟩, ⟨12⟩⟩]
  seam := ⟨⟨1⟩, ⟨0⟩⟩
  numRounds := some 5

example : threePhases.selfLoops = [⟨11⟩] := by decide +kernel

theorem describes_iff_onChain_threePhases :
    threePhases.phaseSequence = .ok [⟨10⟩, ⟨11⟩, ⟨11⟩, ⟨11⟩, ⟨12⟩] ∧
      threePhases.Describes ⟨11⟩ 5 [⟨10⟩, ⟨11⟩, ⟨11⟩, ⟨11⟩, ⟨12⟩] := by
  refine ⟨by decide +kernel, ?_⟩
  exact (describes_iff_onChain threePhases ⟨11⟩ 5 _ (by decide +kernel) rfl (by decide +kernel)).mpr
    (by decide +kernel)

def asidePhases : DemChunksSpec where
  phases := [⟨⟨10⟩, {}⟩, ⟨⟨11⟩, {}⟩, ⟨⟨12⟩, {}⟩]
  connections := [⟨⟨10⟩, ⟨11⟩⟩, ⟨⟨12⟩, ⟨12⟩⟩]
  seam := ⟨⟨1⟩, ⟨0⟩⟩
  numRounds := some 2

/-- The chain is found on both sides of the phase it never visits, and the rounds left for that phase
wrap around. -/
theorem asidePhases_not_described :
    asidePhases.selfLoops = [⟨12⟩] ∧ asidePhases.numRounds = some 2 ∧
      asidePhases.phaseSequence = .ok [⟨10⟩, ⟨11⟩] ∧
      asidePhases.repeatingRounds = .ok ⟨2, 2 ^ 64 - 2, 2⟩ ∧
      ¬ asidePhases.Describes ⟨12⟩ 2 [⟨10⟩, ⟨11⟩] := by
  have hspan : asidePhases.repeatingRounds = .ok ⟨2, 2 ^ 64 - 2, 2⟩ := by decide +kernel
  refine ⟨by decide +kernel, rfl, by decide +kernel, hspan, ?_⟩
  rintro ⟨span, l, hs, -, hle, -⟩
  rw [hspan] at hs
  cases hs
  simp only at hle
  omega

end DemChunksSpec

end CudaqQec
