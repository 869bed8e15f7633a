import CudaqQec.ExtendedDem.Expand
import CudaqQec.ExtendedDem.Observables
import Mathlib.Data.List.GetD

/-!
# Compact chains

`dem_chunks_to_compact_chain` expands a spec with at most two rounds of the repeating phase and
remembers how many rounds they stand for. Where the chain visits the repeating phase, the stand-in is
the full chain with copies of the repeating chunk left out (`exists_compactChain`). Where it does not,
the spec has one length only, and it is not the one the stand-in asks for (`compactChain_offChain`).

* `sameObservables_of_spec`: the chunks of a shot are valid and agree on the observables.
-/

namespace CudaqQec

open Checked SparseBinaryMatrix ExtendedDem

/-! ## `dem_chunks_to_compact_chain` -/

/-- `compact_chain_repeating_visits`: two, so the chain forms the phase's own boundary. -/
def compactChainRepeatingVisits : Nat := 2

/-- `compact_chain`: a short chain and the rounds its repeating chunk stands for. -/
structure CompactChain where
  chunks : List ExtendedDem
  repeating : Nat
  repeatRounds : Nat
  deriving DecidableEq

def copiesOf (rounds : Nat) : Nat :=
  if rounds < compactChainRepeatingVisits then rounds else compactChainRepeatingVisits

def CompactChain.repeatedCopies (c : CompactChain) : Nat := copiesOf c.repeatRounds

def CompactChain.elidedRounds (c : CompactChain) : Nat := c.repeatRounds - c.repeatedCopies

/-- `dem_chunks_to_compact_chain`. The rounds of the stand-in are summed as they are: a spec with
enough connections for `prefix + copies + suffix` to wrap around does not fit in memory. -/
def demChunksToCompactChain (spec : DemChunksSpec) : Except Error CompactChain :=
  if spec.hasRepeatingPhase then do
    let run ← spec.repeatingRounds
    let chunks ← demChunksFromSpec
      (spec.withRounds (run.before + copiesOf run.length + run.after))
    return ⟨chunks, run.before, run.length⟩
  else do
    let chunks ← demChunksFromSpec spec
    -- The index names no entry.
    return ⟨chunks, chunks.length, 1⟩

variable {spec : DemChunksSpec} {rep : PhaseId} {n : Nat} {chunks : List ExtendedDem}
  {before after : List PhaseId}

/-! ## How many copies stand in -/

theorem copiesOf_spec {len : Nat} (h : 1 ≤ len) :
    1 ≤ copiesOf len ∧ copiesOf len ≤ 2 ∧ copiesOf len ≤ len ∧ (copiesOf len = 1 → len = 1) := by
  unfold copiesOf compactChainRepeatingVisits
  split <;> omega

/-- A spec whose sequence was built has at most one self-connection. -/
theorem DemChunksSpec.selfLoops_cases {seq : List PhaseId} (h : spec.phaseSequence = .ok seq) :
    spec.selfLoops = [] ∨ ∃ rep, spec.selfLoops = [rep] := by
  simp only [phaseSequence, bind_eq_ok, throwIf_eq_ok] at h
  obtain ⟨_, -, _, -, _, hone, -⟩ := h
  cases hs : spec.selfLoops with
  | nil => exact .inl rfl
  | cons rep rest =>
    cases rest with
    | nil => exact .inr ⟨rep, rfl⟩
    | cons rep' rest =>
      rw [hs, List.length_cons, List.length_cons] at hone
      omega

theorem DemChunksSpec.hasRepeatingPhase_eq_true : spec.hasRepeatingPhase = true ↔
    spec.selfLoops ≠ [] := by
  simp [hasRepeatingPhase, selfLoops, List.filter_eq_nil_iff]

/-- What `repeating_rounds` found it on. -/
theorem DemChunksSpec.repeatingRounds_eq_ok {run : RepeatingSpan} (hn : spec.numRounds = some n)
    (h : spec.repeatingRounds = .ok run) : ∃ rep seq, spec.selfLoops = [rep] ∧
      (spec.withRounds (spec.boundedRounds n)).phaseSequence = .ok seq := by
  simp only [repeatingRounds, bind_eq_ok] at h
  obtain ⟨rep, hrep, seq, hseq, -⟩ := h
  refine ⟨rep, seq, repeatingPhase_eq_ok hrep, ?_⟩
  rw [hn, Option.map_some] at hseq
  exact hseq

/-! ## Dropping rounds -/

def elide (b e : Nat) (chunks : List ExtendedDem) : List ExtendedDem :=
  chunks.take (b + 1) ++ chunks.drop (b + 1 + e)

theorem getD_elide {b e i : Nat} (h : b < chunks.length) :
    (elide b e chunks).getD i .empty = chunks.getD (if i ≤ b then i else i + e) .empty := by
  unfold elide
  rw [getD_append_ite, List.length_take, Nat.min_eq_left h]
  by_cases hi : i ≤ b
  · rw [if_pos (by omega), if_pos hi, List.getD_eq_getElem?_getD, List.getElem?_take,
      if_pos (by omega), List.getD_eq_getElem?_getD]
  · rw [if_neg (by omega), if_neg hi, List.getD_eq_getElem?_getD, List.getElem?_drop,
      List.getD_eq_getElem?_getD]
    congr 2
    omega

theorem getD_around (len : Nat) (i : Nat) (d : PhaseId) :
    (before ++ List.replicate len rep ++ after).getD i d =
      if i < before.length then before.getD i d
      else if i < before.length + len then rep else after.getD (i - (before.length + len)) d := by
  rw [getD_append_ite, getD_append_ite, List.length_append, List.length_replicate]
  by_cases h1 : i < before.length
  · rw [if_pos (by omega), if_pos h1, if_pos h1]
  · by_cases h2 : i < before.length + len
    · rw [if_pos h2, if_neg h1, if_neg h1, if_pos h2, List.getD_eq_getElem?_getD,
        List.getElem?_replicate, if_pos (by omega), Option.getD_some]
    · rw [if_neg h2, if_neg h1, if_neg h2]

/-- The round of the stand-in that round `j` of the full chain is a copy of, when `e` rounds are left
out after round `b`. -/
def standInRound (b e j : Nat) : Nat := if j ≤ b then j else if j ≤ b + e then b else j - e

/-- Each round of the full chain has the phase and the seams of its round of the stand-in. -/
theorem roundChunk_standIn {m len : Nat} (hm : m = before.length + copiesOf len + after.length)
    (hn : n = before.length + len + after.length) (hlen : 1 ≤ len) {j : Nat} (hj : j < n) :
    roundChunk spec n j ((before ++ List.replicate len rep ++ after).getD j ⟨0⟩) =
      roundChunk (spec.withRounds m) m (standInRound before.length (len - copiesOf len) j)
        ((before ++ List.replicate (copiesOf len) rep ++ after).getD
          (standInRound before.length (len - copiesOf len) j) ⟨0⟩) := by
  obtain ⟨hc1, hc2, hc3, hc4⟩ := copiesOf_spec hlen
  have hphase : (before ++ List.replicate len rep ++ after).getD j ⟨0⟩ =
      (before ++ List.replicate (copiesOf len) rep ++ after).getD
        (standInRound before.length (len - copiesOf len) j) ⟨0⟩ := by
    rw [getD_around, getD_around]
    unfold standInRound
    by_cases h1 : j < before.length
    · have h1' : j ≤ before.length := h1.le
      rw [if_pos h1, if_pos h1', if_pos h1]
    rw [if_neg h1]
    by_cases h2 : j < before.length + len
    · -- The repeating phase, on both sides.
      rw [if_pos h2, if_neg (by split_ifs <;> omega), if_pos (by split_ifs <;> omega)]
    · have h3 : ¬ j ≤ before.length := by omega
      have h4 : ¬ j ≤ before.length + (len - copiesOf len) := by omega
      rw [if_neg h2, if_neg h3, if_neg h4, if_neg (by omega), if_neg (by omega)]
      congr 1
      omega
  have hlast : j + 1 < n ↔ standInRound before.length (len - copiesOf len) j + 1 < m := by
    unfold standInRound
    split_ifs <;> omega
  rw [hphase]
  unfold roundChunk roundSeams
  simp only [hlast]
  rfl

/-! ## Putting them back -/

def insertCopies (b e : Nat) (chunks : List ExtendedDem) : List ExtendedDem :=
  chunks.take (b + 1) ++ (List.replicate e (chunks.getD b .empty) ++ chunks.drop (b + 1))

theorem getD_insertCopies {b e j : Nat} (h : b < chunks.length) :
    (insertCopies b e chunks).getD j .empty = chunks.getD (standInRound b e j) .empty := by
  unfold insertCopies standInRound
  rw [getD_append_ite, getD_append_ite, List.length_take, List.length_replicate, Nat.min_eq_left h]
  by_cases h1 : j ≤ b
  · rw [if_pos (by omega), if_pos h1, List.getD_eq_getElem?_getD, List.getElem?_take,
      if_pos (by omega), List.getD_eq_getElem?_getD]
  · rw [if_neg (by omega), if_neg h1]
    by_cases h2 : j ≤ b + e
    · rw [if_pos (by omega), if_pos h2, List.getD_eq_getElem?_getD, List.getElem?_replicate,
        if_pos (by omega), Option.getD_some]
    · rw [if_neg (by omega), if_neg h2, List.getD_eq_getElem?_getD, List.getElem?_drop,
        List.getD_eq_getElem?_getD]
      congr 2
      omega

/-! ## The expanded chain from the stand-in -/

/-- Leaving rounds of the repeating phase out of the spec leaves copies of its chunk out of the
chain, and nothing else. -/
theorem demChunksFromSpec_standIn (har : DemChunksSpec.Around spec rep before after) (h2 : 2 ≤ n)
    (hmin : spec.minimumRounds ≤ n) (hnum : spec.numRounds = some n) {len m : Nat}
    (hlen : len = n - before.length - after.length)
    (hm : m = before.length + copiesOf len + after.length) :
    demChunksFromSpec spec = .ok chunks ↔ ∃ cs, demChunksFromSpec (spec.withRounds m) = .ok cs ∧
      cs.length = m ∧ chunks = insertCopies before.length (len - copiesOf len) cs := by
  have hl := har.length
  have hlen1 : 1 ≤ len := by omega
  obtain ⟨hc1, hc2, hc3, hc4⟩ := copiesOf_spec hlen1
  have hn : n = before.length + len + after.length := by omega
  have hm2 : 2 ≤ m := by
    by_contra hlt
    have : copiesOf len = 1 := by omega
    have := hc4 this
    omega
  have hseq := har.rounds n h2 hmin
  have hseqm := har.rounds m hm2 (by omega)
  have hcopies : m - before.length - after.length = copiesOf len := by omega
  rw [DemChunksSpec.withRounds_eq_self hnum, ← hlen] at hseq
  rw [hcopies] at hseqm
  have htotal : (before ++ List.replicate len rep ++ after).length = n := by
    simp only [List.length_append, List.length_replicate]
    omega
  have htotalm : (before ++ List.replicate (copiesOf len) rep ++ after).length = m := by
    simp only [List.length_append, List.length_replicate]
    omega
  rw [demChunksFromSpec_eq_ok, hseq]
  constructor
  · rintro ⟨hval, seq, hseq', hcl, hround⟩
    obtain rfl := Except.ok.inj hseq'
    rw [htotal] at hcl hround
    -- Keep the rounds up to the first repeating one and those after the ones left out.
    have hb : before.length < chunks.length := by omega
    have hcs : ∀ i < m, roundChunk (spec.withRounds m) m i
        ((before ++ List.replicate (copiesOf len) rep ++ after).getD i ⟨0⟩) =
          .ok ((elide before.length (len - copiesOf len) chunks).getD i .empty) := by
      intro i hi
      have hj := hround (if i ≤ before.length then i else i + (len - copiesOf len))
        (by split <;> omega)
      have hback : standInRound before.length (len - copiesOf len)
          (if i ≤ before.length then i else i + (len - copiesOf len)) = i := by
        unfold standInRound
        split_ifs <;> omega
      rw [roundChunk_standIn hm hn hlen1 (by split <;> omega), hback] at hj
      rw [hj, getD_elide hb]
    have hell : (elide before.length (len - copiesOf len) chunks).length = m := by
      simp only [elide, List.length_append, List.length_take, List.length_drop]
      omega
    refine ⟨elide before.length (len - copiesOf len) chunks, demChunksFromSpec_eq_ok.mpr
      ⟨DemChunksSpec.validate_withRounds hval hm2, _, hseqm, by rw [hell, htotalm], ?_⟩, hell, ?_⟩
    · rw [htotalm]
      exact hcs
    · apply List.ext_getElem
      · simp only [insertCopies, List.length_append, List.length_take, List.length_drop,
          List.length_replicate, hell]
        omega
      intro j hj hj'
      have hjn : j < n := by omega
      rw [← List.getD_eq_getElem _ .empty hj, ← List.getD_eq_getElem _ .empty hj',
        getD_insertCopies (by omega)]
      have hst : standInRound before.length (len - copiesOf len) j < m := by
        unfold standInRound
        split_ifs <;> omega
      have hfull := hround j hjn
      rw [roundChunk_standIn hm hn hlen1 hjn, hcs _ hst] at hfull
      exact (Except.ok.inj hfull).symm
  · rintro ⟨cs, hcs, hcsl, rfl⟩
    obtain ⟨hval, seq, hseq', -, hround⟩ := demChunksFromSpec_eq_ok.mp hcs
    rw [hseqm] at hseq'
    obtain rfl := Except.ok.inj hseq'
    rw [htotalm] at hround
    have hvalid : spec.validate = .ok () := by
      have := DemChunksSpec.validate_withRounds hval h2
      rwa [show (spec.withRounds m).withRounds n = spec.withRounds n from rfl,
        DemChunksSpec.withRounds_eq_self hnum] at this
    refine ⟨hvalid, _, rfl, ?_, ?_⟩
    · rw [htotal]
      simp only [insertCopies, List.length_append, List.length_take, List.length_drop,
        List.length_replicate, hcsl]
      omega
    · rw [htotal]
      intro j hj
      have hst : standInRound before.length (len - copiesOf len) j < m := by
        unfold standInRound
        split_ifs <;> omega
      rw [roundChunk_standIn hm hn hlen1 hj, hround _ hst, getD_insertCopies (by omega)]

/-- A spec that repeats a phase has a chunk for each of its rounds. -/
theorem length_demChunksFromSpec {m : Nat} (hself : spec.selfLoops = [rep])
    (h : demChunksFromSpec (spec.withRounds m) = .ok chunks) : chunks.length = m := by
  obtain ⟨-, seq, hseq, hcl, -⟩ := demChunksFromSpec_eq_ok.mp h
  have hself' : (spec.withRounds m).selfLoops = [rep] := hself
  have hlen := DemChunksSpec.length_phaseSequence hseq
  rw [hself', if_neg (by simp)] at hlen
  exact hcl.trans hlen

/-! ## A chain that stands for another -/

/-- A compact chain stands for a chain: with the elided rounds put back it is that chain, and its
copies of the repeating chunk flip the same observables. -/
structure StandsFor (chain : CompactChain) (chunks : List ExtendedDem) : Prop where
  rounds : 1 ≤ chain.repeatRounds
  index : chain.repeating = chain.chunks.length ∧ chain.repeatRounds = 1 ∨
    chain.repeating + chain.repeatedCopies ≤ chain.chunks.length
  chunks : chunks = insertCopies chain.repeating chain.elidedRounds chain.chunks
  same : chain.repeatedCopies = 2 → chunkOColumns (chain.chunks.getD (chain.repeating + 1) .empty) =
    chunkOColumns (chain.chunks.getD chain.repeating .empty)

theorem StandsFor.ne_nil {chain : CompactChain} (h : StandsFor chain chunks) (hne : chunks ≠ []) :
    chain.chunks ≠ [] := by
  intro hnil
  have hcopies := copiesOf_spec h.rounds
  have hindex := h.index
  rw [hnil, List.length_nil, CompactChain.repeatedCopies] at hindex
  have helided : chain.elidedRounds = 0 := by
    unfold CompactChain.elidedRounds CompactChain.repeatedCopies
    omega
  apply hne
  rw [h.chunks, hnil, helided]
  simp [insertCopies]

theorem StandsFor.ne_nil' {chain : CompactChain} (h : StandsFor chain chunks)
    (hne : chain.chunks ≠ []) : chunks ≠ [] := by
  obtain ⟨c, cs, hcs⟩ := List.exists_cons_of_ne_nil hne
  rw [h.chunks, hcs]
  simp [insertCopies]

theorem StandsFor.mem_iff {chain : CompactChain} (h : StandsFor chain chunks) (hne : chunks ≠ [])
    {c : ExtendedDem} : c ∈ chunks ↔ c ∈ chain.chunks := by
  have hnil := h.ne_nil hne
  have hcopies := copiesOf_spec h.rounds
  have hrep : chain.elidedRounds = 0 ∨ chain.repeating < chain.chunks.length := by
    have hindex := h.index
    unfold CompactChain.elidedRounds CompactChain.repeatedCopies at *
    omega
  rw [h.chunks]
  unfold insertCopies
  rw [List.mem_append, List.mem_append, List.mem_replicate]
  constructor
  · rintro (hc | ⟨he, rfl⟩ | hc)
    · exact List.mem_of_mem_take hc
    · rw [List.getD_eq_getElem _ _ (hrep.resolve_left he)]
      exact List.getElem_mem _
    · exact List.mem_of_mem_drop hc
  · intro hc
    rw [← List.take_append_drop (chain.repeating + 1) chain.chunks] at hc
    rcases List.mem_append.mp hc with hc | hc
    · exact .inl hc
    · exact .inr (.inr hc)

theorem StandsFor.headD {chain : CompactChain} (h : StandsFor chain chunks) (hne : chunks ≠ []) :
    chunks.headD .empty = chain.chunks.headD .empty := by
  obtain ⟨c, cs, hcs⟩ := List.exists_cons_of_ne_nil (h.ne_nil hne)
  rw [h.chunks, hcs]
  rfl

theorem insertCopies_zero (b : Nat) (cs : List ExtendedDem) : insertCopies b 0 cs = cs := by
  simp [insertCopies]

/-- Chunks of one phase flip the same observables, whatever their seams. -/
theorem chunkOColumns_eq_of_phase {i j rounds : Nat} {c d : ExtendedDem}
    (hc : roundChunk spec rounds i rep = .ok c) (hd : roundChunk spec rounds j rep = .ok d) :
    chunkOColumns c = chunkOColumns d := by
  simp only [roundChunk, bind_eq_ok] at hc hd
  obtain ⟨phase, hp, hc⟩ := hc
  obtain ⟨phase', hp', hd⟩ := hd
  rw [hp] at hp'
  obtain rfl := Except.ok.inj hp'
  have hbc := demChunkFromSpec_built hc
  have hbd := demChunkFromSpec_built hd
  unfold chunkOColumns
  rw [Except.ok.inj (hbc.obs.symm.trans hbd.obs), hbc.faults, hbd.faults]

/-! ## When it is built -/

theorem demChunksToCompactChain_eq_none (h : spec.selfLoops = []) :
    demChunksToCompactChain spec = (do
      let chunks ← demChunksFromSpec spec
      return ⟨chunks, chunks.length, 1⟩) := by
  have hrep : ¬ spec.hasRepeatingPhase = true := by
    rw [DemChunksSpec.hasRepeatingPhase_eq_true, h]
    simp
  rw [demChunksToCompactChain, if_neg hrep]

theorem demChunksToCompactChain_eq_around (hself : spec.selfLoops = [rep])
    (har : DemChunksSpec.Around spec rep before after) (h2 : 2 ≤ n) (hmin : spec.minimumRounds ≤ n)
    (hnum : spec.numRounds = some n) :
    demChunksToCompactChain spec = (do
      let chunks ← demChunksFromSpec (spec.withRounds (before.length +
        copiesOf (n - before.length - after.length) + after.length))
      return ⟨chunks, before.length, n - before.length - after.length⟩) := by
  have hrep : spec.hasRepeatingPhase = true := by
    rw [DemChunksSpec.hasRepeatingPhase_eq_true, hself]
    simp
  rw [demChunksToCompactChain, if_pos hrep, har.repeatingRounds_eq hself hnum h2 hmin, ok_bind]

/-- Both copies of a stand-in are rounds of the repeating phase. -/
theorem roundChunk_copies (har : DemChunksSpec.Around spec rep before after) {len m : Nat}
    (h2 : 2 ≤ m) (hmin : spec.minimumRounds ≤ m) (hcopies : copiesOf len = 2)
    (hm : m = before.length + copiesOf len + after.length)
    (h : demChunksFromSpec (spec.withRounds m) = .ok chunks) :
    before.length + 1 < m ∧
      roundChunk (spec.withRounds m) m before.length rep =
        .ok (chunks.getD before.length .empty) ∧
      roundChunk (spec.withRounds m) m (before.length + 1) rep =
        .ok (chunks.getD (before.length + 1) .empty) := by
  obtain ⟨-, seq, hseq, -, hround⟩ := demChunksFromSpec_eq_ok.mp h
  rw [har.rounds m h2 hmin] at hseq
  obtain rfl := Except.ok.inj hseq
  have htotal : (before ++ List.replicate (m - before.length - after.length) rep ++ after).length =
      m := by
    simp only [List.length_append, List.length_replicate]
    omega
  rw [htotal] at hround
  have h0 := hround before.length (by omega)
  have h1 := hround (before.length + 1) (by omega)
  rw [getD_around, if_neg (by omega), if_pos (by omega)] at h0 h1
  exact ⟨by omega, h0, h1⟩

/-- A chain that visits its repeating phase has a stand-in. -/
theorem exists_compactChain (hon : spec.OnChain) (hnum : spec.numRounds = some n)
    (h : demChunksFromSpec spec = .ok chunks) :
    ∃ chain, demChunksToCompactChain spec = .ok chain ∧ StandsFor chain chunks := by
  obtain ⟨-, seq, hseq, hcl, -⟩ := demChunksFromSpec_eq_ok.mp h
  rcases DemChunksSpec.selfLoops_cases hseq with hnone | ⟨rep, hself⟩
  · refine ⟨⟨chunks, chunks.length, 1⟩, ?_, le_refl 1, .inl ⟨rfl, rfl⟩, ?_, ?_⟩
    · rw [demChunksToCompactChain_eq_none hnone, h]
      rfl
    · exact (insertCopies_zero _ _).symm
    · intro hc
      cases hc
  · have hseqn : (spec.withRounds n).phaseSequence = .ok seq := by
      rw [DemChunksSpec.withRounds_eq_self hnum, hseq]
    obtain ⟨h2, hmin, before, after, har⟩ := DemChunksSpec.exists_around hself hon hseqn
    have hl := har.length
    have hlen : 1 ≤ n - before.length - after.length := by omega
    obtain ⟨hc1, hc2, hc3, hc4⟩ := copiesOf_spec hlen
    obtain ⟨cs, hcs, hcsl, rfl⟩ :=
      (demChunksFromSpec_standIn har h2 hmin hnum rfl rfl).mp h
    refine ⟨⟨cs, before.length, n - before.length - after.length⟩, ?_, hlen,
      .inr ?_, rfl, ?_⟩
    · rw [demChunksToCompactChain_eq_around hself har h2 hmin hnum, hcs]
      rfl
    · show before.length + copiesOf (n - before.length - after.length) ≤ cs.length
      omega
    · intro hcopies
      change copiesOf (n - before.length - after.length) = 2 at hcopies
      obtain ⟨-, h0, h1⟩ := roundChunk_copies har (by omega) (by omega) hcopies rfl hcs
      exact chunkOColumns_eq_of_phase h1 h0

theorem exists_chunks_of_compactChain (hon : spec.OnChain) (hnum : spec.numRounds = some n)
    {chain : CompactChain} (h : demChunksToCompactChain spec = .ok chain) :
    ∃ chunks, demChunksFromSpec spec = .ok chunks := by
  by_cases hself : spec.selfLoops = []
  · rw [demChunksToCompactChain_eq_none hself, bind_eq_ok] at h
    obtain ⟨chunks, hchunks, -⟩ := h
    exact ⟨chunks, hchunks⟩
  · have hrep := DemChunksSpec.hasRepeatingPhase_eq_true.mpr hself
    have hrun := h
    rw [demChunksToCompactChain, if_pos hrep, bind_eq_ok] at hrun
    obtain ⟨run, hrun, -⟩ := hrun
    obtain ⟨rep, seq, hself, hseq⟩ := DemChunksSpec.repeatingRounds_eq_ok hnum hrun
    obtain ⟨h2, hmin, before, after, har⟩ := DemChunksSpec.exists_around hself hon hseq
    unfold DemChunksSpec.boundedRounds at h2 hmin
    rw [demChunksToCompactChain_eq_around hself har (by omega) (by omega) hnum, bind_eq_ok] at h
    obtain ⟨cs, hcs, -⟩ := h
    refine ⟨_, (demChunksFromSpec_standIn har (by omega) (by omega) hnum rfl rfl).mpr
      ⟨cs, hcs, length_demChunksFromSpec hself hcs, rfl⟩⟩

/-- A chain that does not visit its repeating phase has no stand-in. -/
theorem compactChain_offChain (hoff : ¬ spec.OnChain) (hnum : spec.numRounds = some n)
    (chain : CompactChain) : demChunksToCompactChain spec ≠ .ok chain := by
  intro h
  have hself : spec.selfLoops ≠ [] := by
    intro hs
    exact hoff fun r hr => by rw [hs] at hr; cases hr
  rw [demChunksToCompactChain,
    if_pos (DemChunksSpec.hasRepeatingPhase_eq_true.mpr hself), bind_eq_ok] at h
  obtain ⟨run, hrun, h⟩ := h
  rw [bind_eq_ok] at h
  obtain ⟨cs, hcs, -⟩ := h
  obtain ⟨rep, seq, hself, hseq⟩ := DemChunksSpec.repeatingRounds_eq_ok hnum hrun
  obtain ⟨-, htwo, -⟩ := DemChunksSpec.phaseSequence_offChain hself hoff hseq
  obtain ⟨-, seq', hseq', -, -⟩ := demChunksFromSpec_eq_ok.mp hcs
  obtain ⟨hlen, -⟩ := DemChunksSpec.phaseSequence_offChain hself hoff hseq'
  rw [DemChunksSpec.repeatingRounds_offChain hself hoff hnum hseq] at hrun
  obtain rfl := Except.ok.inj hrun
  simp only at hlen
  have hpos : 1 ≤ spec.minimumRounds := by
    unfold DemChunksSpec.minimumRounds
    omega
  omega

/-! ## The chunks of a shot -/

theorem length_terminatedRows (l : List Int) : (terminatedRows l).1.length = l.count (-1) := by
  induction l with
  | nil => rfl
  | cons v vs ih =>
    unfold terminatedRows
    split
    · next hv =>
      rw [List.length_cons, ih, hv, List.count_cons_self]
    · next hv =>
      rw [List.count_cons_of_ne hv, ← ih]
      split
      · next h => rw [h]
      · next h => rw [h]; rfl

/-- The phase of every chunk of a shot, with the spec the chunk was built from. -/
theorem exists_phase_of_mem (h : demChunksFromSpec spec = .ok chunks) {c : ExtendedDem}
    (hc : c ∈ chunks) : ∃ e ∈ spec.connectedPhases, BuiltFrom e.spec c := by
  obtain ⟨hval, seq, hseq, hcl, hround⟩ := demChunksFromSpec_eq_ok.mp h
  obtain ⟨i, hi, rfl⟩ := List.mem_iff_getElem.mp hc
  have hi' : i < seq.length := by omega
  have hr := hround i hi'
  rw [roundChunk, bind_eq_ok, List.getD_eq_getElem _ _ hi, List.getD_eq_getElem _ _ hi'] at hr
  obtain ⟨phase, hphase, hchunk⟩ := hr
  have hnamed := DemChunksSpec.named_of_mem_phaseSequence hseq (List.getElem_mem hi')
  obtain ⟨e, he, hget⟩ := DemChunksSpec.exists_getPhase hval hnamed
  rw [hphase] at hget
  obtain rfl := Except.ok.inj hget
  refine ⟨e, List.mem_filter.mpr ⟨List.mem_of_find?_eq_some he, ?_⟩,
    demChunkFromSpec_built hchunk⟩
  have hid : e.id = seq[i] := by simpa using List.find?_some he
  obtain ⟨con, hcon, hcp⟩ := hnamed
  simp only [List.any_eq_true, decide_eq_true_eq]
  exact ⟨con, hcon, by rwa [hid]⟩

/-- The chunks of a shot are valid and agree on the observables. -/
theorem sameObservables_of_spec (h : demChunksFromSpec spec = .ok chunks) (hne : chunks ≠ []) :
    SameObservables chunks := by
  have hnum : ∃ k, ∀ c ∈ chunks, c.numObservables = k := by
    obtain ⟨hval, -⟩ := demChunksFromSpec_eq_ok.mp h
    simp only [DemChunksSpec.validate, DemChunksSpec.validateObservables, bind_eq_ok] at hval
    obtain ⟨_, -, _, -, _, -, _, -, _, -, _, -, _, ⟨k, hk, -⟩, -⟩ := hval
    refine ⟨k, fun c hc => ?_⟩
    obtain ⟨e, he, hb⟩ := exists_phase_of_mem h hc
    have hn : e.spec.numFaults < 2 ^ 32 := hb.faults ▸ u32_lt _
    have hrows := (sparseFromTerminatedRows_shape hn hb.obs).1
    rw [length_terminatedRows] at hrows
    unfold DemChunksSpec.numObservables at hk
    split at hk
    · next hnil =>
      rw [hnil] at he
      cases he
    · next first rest hcons =>
      simp only [bind_eq_ok, forM_eq_ok, throwIf_eq_ok, ne_eq, not_not] at hk
      obtain ⟨_, hall, hok⟩ := hk
      rw [← Except.ok.inj hok, ← hall e (hcons ▸ he)]
      exact hrows
  obtain ⟨k, hk⟩ := hnum
  refine ⟨hne, fun c hc => ?_, fun c hc => ?_⟩
  · obtain ⟨e, -, hb⟩ := exists_phase_of_mem h hc
    exact hb.valid
  · obtain ⟨c', cs, rfl⟩ := List.exists_cons_of_ne_nil hne
    rw [hk c hc, List.headD_cons, hk c' (by simp)]

/-- A chunk of a shot has an observable column for each fault. -/
theorem numCols_O_of_spec (h : demChunksFromSpec spec = .ok chunks) :
    ∀ c ∈ chunks, c.O.numCols = c.numFaults := by
  intro c hc
  obtain ⟨e, -, hb⟩ := exists_phase_of_mem h hc
  have hn : e.spec.numFaults < 2 ^ 32 := hb.faults ▸ u32_lt _
  rw [(sparseFromTerminatedRows_shape hn hb.obs).2, hb.faults]

/-- The observable matrix of a chunk of a shot has a pointer array. -/
theorem numObservables_lt_of_spec (h : demChunksFromSpec spec = .ok chunks) (hne : chunks ≠ []) :
    (chunks.headD .empty).numObservables < uint32Max := by
  obtain ⟨c, cs, rfl⟩ := List.exists_cons_of_ne_nil hne
  obtain ⟨e, -, hb⟩ := exists_phase_of_mem h (List.mem_cons_self ..)
  have hobs := hb.obs
  simp only [sparseFromTerminatedRows, bind_eq_ok] at hobs
  obtain ⟨_, -, m, hm, hok⟩ := hobs
  have hrows : m.toCsc.numRows = m.numRows := toCsc_numRows m
  rw [List.headD_cons, numObservables, ← Except.ok.inj hok, hrows]
  exact (fromNestedCsr_eq_ok.mp hm).1

theorem demChunksFromSpec_ne_nil (hnum : spec.numRounds = some n)
    (h : demChunksFromSpec spec = .ok chunks) : chunks ≠ [] := by
  obtain ⟨hval, seq, hseq, hcl, -⟩ := demChunksFromSpec_eq_ok.mp h
  simp only [DemChunksSpec.validate, bind_eq_ok, throwIf_eq_ok, hnum, Option.any_some,
    decide_eq_true_eq] at hval
  obtain ⟨_, -, _, -, _, -, _, htwo, -⟩ := hval
  have hlen := DemChunksSpec.length_phaseSequence hseq
  rw [hnum, Option.getD_some] at hlen
  rintro rfl
  rw [List.length_nil] at hcl
  split at hlen <;> omega

/-! ## Two small specs -/

def flipPhase : DemChunkSpec :=
  { numFaults := 1, hSparse := [0, -1], oSparse := [0, -1], errorRates := [1 / 10] }

def flippingSpec : DemChunksSpec where
  phases := [⟨⟨10⟩, flipPhase⟩, ⟨⟨11⟩, flipPhase⟩, ⟨⟨12⟩, flipPhase⟩]
  connections := [⟨⟨10⟩, ⟨11⟩⟩, ⟨⟨11⟩, ⟨11⟩⟩, ⟨⟨11⟩, ⟨12⟩⟩]
  seam := ⟨⟨1⟩, ⟨0⟩⟩
  numRounds := some 5

def unvisitedSpec : DemChunksSpec where
  phases := [⟨⟨10⟩, flipPhase⟩, ⟨⟨11⟩, flipPhase⟩, ⟨⟨12⟩, flipPhase⟩]
  connections := [⟨⟨10⟩, ⟨11⟩⟩, ⟨⟨12⟩, ⟨12⟩⟩]
  seam := ⟨⟨1⟩, ⟨0⟩⟩
  numRounds := some 2

end CudaqQec
