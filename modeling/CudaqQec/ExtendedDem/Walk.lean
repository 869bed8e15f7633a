import CudaqQec.ExtendedDem.Layout

/-!
# The walk of the connection graph

The sequence of a chain does not depend on the order in which its connections are listed: it is the one
path that takes each of them once, with the self-connected phase repeated.

* `Walked`: the loop of `phase_sequence`, without fuel; `walked_entry` says that it ends.
* `TakesAll`: a path of distinct phases that takes every connection once. `walk_eq_ok_iff` is that the walk
  finds it whenever there is one.
* `phaseSequence_walk`: what a returned sequence is.
-/

namespace CudaqQec

open Checked

namespace DemChunksSpec

variable {s : DemChunksSpec} {chain : List PhaseConnection} {rep : Option PhaseId} {n : Nat}
  {path : List PhaseId}

/-! ## The loop ends -/

/-- What the loop of `phase_sequence` comes to from a phase, with these visited before. -/
inductive Walked (chain : List PhaseConnection) (rep : Option PhaseId) (n : Nat) :
    PhaseId → List PhaseId → Except Error (List PhaseId) → Prop
  | twice {current visited} : current ∈ visited →
      Walked chain rep n current visited (.error (walkPhases.cyclic current))
  | last {current visited} : current ∉ visited → (∀ c ∈ chain, c.fromPhase ≠ current) →
      Walked chain rep n current visited
        (.ok (current :: (if rep = some current then List.replicate n current else [])))
  | next {current visited c r} : current ∉ visited →
      (chain.find? fun c => c.fromPhase = current) = some c →
      Walked chain rep n c.toPhase (current :: visited) r →
      Walked chain rep n current visited
        (r.map ((current :: (if rep = some current then List.replicate n current else [])) ++ ·))

/-- A phase that was visited and left again has a connection of its own, so there are not more of them
than connections. -/
theorem walked_of_fuel (chain : List PhaseConnection) (rep : Option PhaseId) (n fuel : Nat)
    (current : PhaseId) {visited : List PhaseId} (hnodup : visited.Nodup)
    (hsub : visited ⊆ chain.map (·.fromPhase)) (hfuel : chain.length < fuel + visited.length) :
    Walked chain rep n current visited (walkPhases chain rep n fuel current visited) := by
  induction fuel generalizing current visited with
  | zero =>
    have hle := (List.subperm_of_subset hnodup hsub).length_le
    rw [List.length_map] at hle
    omega
  | succ fuel ih =>
    unfold walkPhases
    by_cases hvisited : current ∈ visited
    · rw [throwIf_of hvisited]
      exact .twice hvisited
    rw [throwIf_of_not hvisited, ok_bind]
    cases hfind : chain.find? fun c => c.fromPhase = current with
    | none =>
      have hnone : ∀ c ∈ chain, c.fromPhase ≠ current := by
        intro c hc
        simpa using List.find?_eq_none.mp hfind c hc
      have hlast : Walked chain rep n current visited _ := .last hvisited hnone
      simpa [pure, Except.pure] using hlast
    | some c =>
      have hmem : current ∈ chain.map (·.fromPhase) :=
        List.mem_map.mpr ⟨c, List.mem_of_find?_eq_some hfind, by simpa using List.find?_some hfind⟩
      have hnext := ih c.toPhase (List.nodup_cons.mpr ⟨hvisited, hnodup⟩)
        (List.cons_subset.mpr ⟨hmem, hsub⟩) (by rw [List.length_cons]; omega)
      have hmap : ∀ x : Except Error (List PhaseId), ∀ front : List PhaseId,
          (x >>= fun rest => pure (front ++ rest)) = x.map (front ++ ·) := by
        intro x front
        cases x <;> rfl
      refine Eq.subst (motive := Walked chain rep n current visited) (hmap _ _).symm ?_
      exact .next hvisited hfind hnext

theorem walked_entry (chain : List PhaseConnection) (rep : Option PhaseId) (n : Nat) :
    Walked chain rep n (entryPhase chain) []
      (walkPhases chain rep n (chain.length + 1) (entryPhase chain) []) := by
  apply walked_of_fuel
  · exact List.nodup_nil
  · exact List.nil_subset _
  · exact Nat.lt_succ_self _

/-! ## The path that takes every connection -/

def ends (chain : List PhaseConnection) : List (PhaseId × PhaseId) :=
  chain.map fun c => (c.fromPhase, c.toPhase)

def steps (path : List PhaseId) : List (PhaseId × PhaseId) := path.zip path.tail

/-- A path of distinct phases that takes every connection once. -/
structure TakesAll (chain : List PhaseConnection) (path : List PhaseId) : Prop where
  nodup : path.Nodup
  perm : (steps path).Perm (ends chain)

theorem length_steps (path : List PhaseId) : (steps path).length = path.length - 1 := by
  unfold steps
  rw [List.length_zip, List.length_tail]
  omega

theorem map_fst_steps (path : List PhaseId) : (steps path).map Prod.fst = path.dropLast := by
  unfold steps
  induction path with
  | nil => rfl
  | cons p path ih =>
    cases path with
    | nil => rfl
    | cons q path =>
      rw [List.tail_cons] at ih ⊢
      rw [List.zip_cons_cons, List.map_cons, ih, List.dropLast_cons_cons]

theorem map_snd_steps (path : List PhaseId) : (steps path).map Prod.snd = path.tail := by
  unfold steps
  rw [List.map_snd_zip]
  rw [List.length_tail]
  exact Nat.sub_le _ _

theorem nodup_steps (h : path.Nodup) : (steps path).Nodup := by
  have hfst : ((steps path).map Prod.fst).Nodup := by
    rw [map_fst_steps]
    exact h.sublist (List.dropLast_sublist _)
  exact hfst.of_map

/-- The walk takes steps of connections only, so with as many steps as connections it takes all. -/
theorem IsPath.takesAll (h : s.IsPath path) (hlength : path.length = s.chain.length + 1) :
    TakesAll s.chain path := by
  refine ⟨h.nodup, ?_⟩
  obtain ⟨-, -, hchain⟩ := walkPhases_steps h.walk
  have hsub : steps path ⊆ ends s.chain := by
    intro e he
    obtain ⟨i, hi, rfl⟩ := List.mem_iff_getElem.mp he
    rw [length_steps] at hi
    rw [List.isChain_iff_getElem] at hchain
    obtain ⟨c, hc, hfrom, hto⟩ := hchain i (by omega)
    refine List.mem_map.mpr ⟨c, hc, ?_⟩
    simp [steps, hfrom, hto]
  apply (List.subperm_of_subset (nodup_steps h.nodup) hsub).perm_of_length_le
  rw [length_steps, hlength, ends, List.length_map]
  exact Nat.le_refl _

theorem TakesAll.length (h : TakesAll chain path) (hne : chain ≠ []) :
    path.length = chain.length + 1 := by
  have hlength := h.perm.length_eq
  have hpos : 0 < chain.length := List.length_pos_iff.mpr hne
  rw [length_steps, ends, List.length_map] at hlength
  omega

theorem TakesAll.froms (h : TakesAll chain path) :
    path.dropLast.Perm (chain.map (·.fromPhase)) := by
  have hperm := h.perm.map Prod.fst
  rwa [map_fst_steps, ends, List.map_map] at hperm

theorem TakesAll.tos (h : TakesAll chain path) : path.tail.Perm (chain.map (·.toPhase)) := by
  have hperm := h.perm.map Prod.snd
  rwa [map_snd_steps, ends, List.map_map] at hperm

theorem checkSuccessors_of_nodup {seen : List PhaseId} (h : (chain.map (·.fromPhase)).Nodup)
    (hseen : ∀ c ∈ chain, c.fromPhase ∉ seen) : checkSuccessors chain seen = .ok () := by
  induction chain generalizing seen with
  | nil => rfl
  | cons c cs ih =>
    rw [List.map_cons, List.nodup_cons] at h
    unfold checkSuccessors
    rw [throwIf_of_not (hseen c (List.mem_cons_self ..)), ok_bind]
    apply ih h.2
    intro c' hc' hmem
    rcases List.mem_cons.mp hmem with heq | hmem
    · exact h.1 (List.mem_map.mpr ⟨c', hc', heq⟩)
    · exact hseen c' (List.mem_cons_of_mem _ hc') hmem

/-- No connection leads to the first phase, and to every other one that a connection leaves, one does. -/
theorem TakesAll.entry {a : PhaseId} {rest : List PhaseId} (h : TakesAll chain (a :: rest))
    (hne : chain ≠ []) : entryPhase chain = a := by
  obtain ⟨hnotin, -⟩ := List.nodup_cons.mp h.nodup
  have hto : ∀ p, p ∈ rest ↔ ∃ c ∈ chain, c.toPhase = p := by
    intro p
    rw [← List.mem_map]
    exact h.tos.mem_iff
  have hfrom : ∀ p, p ∈ (a :: rest).dropLast ↔ ∃ c ∈ chain, c.fromPhase = p := by
    intro p
    rw [← List.mem_map]
    exact h.froms.mem_iff
  have hrest : rest ≠ [] := by
    rintro rfl
    have := h.length hne
    have hpos : 0 < chain.length := List.length_pos_iff.mpr hne
    rw [List.length_singleton] at this
    omega
  obtain ⟨c, hc, hca⟩ := (hfrom a).mp (by
    rw [List.dropLast_cons_of_ne_nil hrest]
    exact List.mem_cons_self ..)
  let starts := fun c : PhaseConnection => !chain.any fun c' => c'.toPhase = c.fromPhase
  have hstarts : starts c = true := by
    simp only [starts, Bool.not_eq_true', List.any_eq_false, decide_eq_true_eq]
    intro c' hc' heq
    exact hnotin ((hto a).mpr ⟨c', hc', heq.trans hca⟩)
  obtain ⟨first, hfirst⟩ := Option.isSome_iff_exists.mp (List.find?_isSome.mpr ⟨c, hc, hstarts⟩)
  unfold entryPhase
  change ((chain.find? starts).getD _).fromPhase = a
  rw [hfirst, Option.getD_some]
  have hmem := (hfrom first.fromPhase).mpr ⟨first, List.mem_of_find?_eq_some hfirst, rfl⟩
  rcases List.mem_cons.mp (List.mem_of_mem_dropLast hmem) with heq | hmem
  · exact heq
  · obtain ⟨c', hc', heq⟩ := (hto _).mp hmem
    have hno := List.find?_some hfirst
    simp only [starts, Bool.not_eq_true', List.any_eq_false, decide_eq_true_eq] at hno
    exact absurd heq (hno c' hc')

theorem notMem_reverse_of_nodup {front rest : List PhaseId} {a : PhaseId}
    (h : (front ++ a :: rest).Nodup) : a ∉ front.reverse := by
  intro hmem
  have hne := (List.nodup_append.mp h).2.2 a (List.mem_reverse.mp hmem) a (List.mem_cons_self ..)
  exact hne rfl

/-- The walk along a path that takes every connection. -/
theorem TakesAll.walk (h : TakesAll chain path) {front rest : List PhaseId} {current : PhaseId}
    (hpath : path = front ++ current :: rest) {fuel : Nat} (hfuel : rest.length < fuel) :
    walkPhases chain none 0 fuel current front.reverse = .ok (current :: rest) := by
  induction rest generalizing front current fuel with
  | nil =>
    have hnotin := notMem_reverse_of_nodup (hpath ▸ h.nodup)
    -- the last phase is the only one that no connection leaves
    have hnone : (chain.find? fun c => c.fromPhase = current) = none := by
      rw [List.find?_eq_none]
      intro c hc heq
      have hmem : current ∈ path.dropLast :=
        h.froms.mem_iff.mpr (List.mem_map.mpr ⟨c, hc, by simpa using heq⟩)
      rw [hpath, List.dropLast_concat] at hmem
      exact hnotin (List.mem_reverse.mpr hmem)
    obtain ⟨fuel, rfl⟩ := Nat.exists_eq_succ_of_ne_zero (Nat.ne_of_gt hfuel)
    unfold walkPhases
    rw [throwIf_of_not hnotin, ok_bind, hnone]
    rfl
  | cons b rest ih =>
    have hnotin := notMem_reverse_of_nodup (hpath ▸ h.nodup)
    have hstep : (current, b) ∈ steps path := by
      rw [hpath, List.mem_iff_getElem]
      refine ⟨front.length, ?_, ?_⟩
      · rw [length_steps]
        simp
      · simp [steps]
    obtain ⟨c, hc, hends⟩ := List.mem_map.mp (h.perm.mem_iff.mp hstep)
    obtain ⟨hfrom, hto⟩ := Prod.mk.inj hends
    have hfroms : (chain.map (·.fromPhase)).Nodup :=
      h.froms.nodup_iff.mp (h.nodup.sublist (List.dropLast_sublist _))
    have hfind : (chain.find? fun c => c.fromPhase = current) = some c := by
      obtain ⟨c', hc'⟩ : ∃ c', (chain.find? fun c => c.fromPhase = current) = some c' :=
        Option.isSome_iff_exists.mp (List.find?_isSome.mpr ⟨c, hc, by simpa using hfrom⟩)
      have heq : c'.fromPhase = current := by simpa using List.find?_some hc'
      rw [hc', List.inj_on_of_nodup_map hfroms (List.mem_of_find?_eq_some hc') hc (heq.trans hfrom.symm)]
    obtain ⟨fuel, rfl⟩ := Nat.exists_eq_succ_of_ne_zero (Nat.ne_of_gt (Nat.zero_lt_of_lt hfuel))
    have hsplit : path = (front ++ [current]) ++ b :: rest := by
      rw [hpath, List.append_assoc]
      rfl
    have hrest := ih hsplit (Nat.lt_of_succ_lt_succ hfuel)
    rw [List.reverse_append] at hrest
    unfold walkPhases
    rw [throwIf_of_not hnotin, ok_bind, hfind]
    dsimp only
    rw [hto]
    change (walkPhases chain none 0 fuel b (current :: front.reverse) >>= _) = _
    rw [show current :: front.reverse = [current].reverse ++ front.reverse from rfl, hrest]
    rfl

theorem repeatIn_none (n : Nat) (path : List PhaseId) : repeatIn none n path = path := by
  unfold repeatIn
  induction path with
  | nil => rfl
  | cons p path ih =>
    rw [List.flatMap_cons, ih]
    rfl

/-- A path of distinct phases meets the repeating phase once, or not at all. -/
theorem length_repeatIn (h : path.Nodup) (rep : Option PhaseId) (n : Nat) :
    (repeatIn rep n path).length = path.length ∨ (repeatIn rep n path).length = path.length + n := by
  cases rep with
  | none => exact .inl (congrArg List.length (repeatIn_none n path))
  | some r =>
    by_cases hmem : r ∈ path
    · right
      obtain ⟨before, after, rfl⟩ := List.append_of_mem hmem
      obtain ⟨-, hafter, hne⟩ := List.nodup_append.mp h
      have hbefore : r ∉ before := fun hm => hne r hm r (List.mem_cons_self ..) rfl
      rw [repeatIn_append hbefore (List.nodup_cons.mp hafter).1]
      simp only [List.length_append, List.length_replicate, List.length_cons]
      omega
    · exact .inl (congrArg List.length (repeatIn_of_notMem hmem n))

def copies (s : DemChunksSpec) (rep : Option PhaseId) (rounds : Nat) : Nat :=
  if rep.isSome then rounds - (s.chain.length + 1) else 0

/-- The walk of a chain returns the path that takes every connection, and there has to be one. -/
theorem chainSequence_eq_ok (hne : s.chain ≠ []) {rounds : Nat} {seq : List PhaseId}
    (hrounds : rep = none → rounds = s.chain.length + 1) :
    s.chainSequence rep rounds = .ok seq ↔ s.chain.length + 1 ≤ rounds ∧
      ∃ path, TakesAll s.chain path ∧ seq = repeatIn rep (s.copies rep rounds) path ∧
        seq.length = rounds := by
  simp only [chainSequence, bind_eq_ok, throwIf_eq_ok, walkPhases_eq s.chain rep, ne_eq, not_not]
  constructor
  · rintro ⟨_, hsmall, _, hsuccessors, seq', hwalk, _, hlength, hok⟩
    obtain rfl : seq' = seq := Except.ok.inj hok
    have hle : s.chain.length + 1 ≤ rounds := by
      cases rep with
      | none => exact Nat.le_of_eq (hrounds rfl).symm
      | some rep => exact not_lt.mp fun hlt => hsmall ⟨rfl, hlt⟩
    refine ⟨hle, ?_⟩
    cases hw : walkPhases s.chain none 0 (s.chain.length + 1) (entryPhase s.chain) [] with
    | error e =>
      rw [hw] at hwalk
      cases hwalk
    | ok path =>
      rw [hw] at hwalk
      have hseq : seq' = repeatIn rep (s.copies rep rounds) path := (Except.ok.inj hwalk).symm
      have hpath : s.IsPath path := ⟨hsuccessors, hw⟩
      refine ⟨path, hpath.takesAll ?_, hseq, hlength⟩
      -- a path that leaves out a connection is too short, repeated or not
      obtain ⟨-, hshort, -⟩ := walkPhases_steps hw
      have hcopies : s.copies rep rounds ≤ rounds - (s.chain.length + 1) := by
        unfold copies
        split
        · exact Nat.le_refl _
        · exact Nat.zero_le _
      rw [hseq] at hlength
      rcases length_repeatIn hpath.nodup rep (s.copies rep rounds) with hlen | hlen <;> omega
  · rintro ⟨hle, path, hpath, hseq, hlength⟩
    have hlen := hpath.length hne
    obtain ⟨a, rest, rfl⟩ : ∃ a rest, path = a :: rest := by
      apply List.exists_cons_of_length_pos
      omega
    have hwalk : walkPhases s.chain none 0 (s.chain.length + 1) (entryPhase s.chain) [] =
        .ok (a :: rest) := by
      rw [hpath.entry hne]
      have hsplit : a :: rest = [] ++ a :: rest := rfl
      exact hpath.walk hsplit (by rw [List.length_cons] at hlen; omega)
    have hsuccessors : checkSuccessors s.chain [] = .ok () := by
      apply checkSuccessors_of_nodup
      · exact hpath.froms.nodup_iff.mp (hpath.nodup.sublist (List.dropLast_sublist _))
      · exact fun _ _ => List.not_mem_nil
    refine ⟨(), fun hsmall => ?_, (), hsuccessors, seq, ?_, (), hlength, rfl⟩
    · have := hsmall.2
      omega
    · rw [hwalk, hseq]
      rfl

/-- What `phase_sequence` asks for before it walks. -/
structure Expandable (s : DemChunksSpec) : Prop where
  phases : s.phases ≠ []
  connections : s.connections ≠ []
  loops : s.selfLoops.length ≤ 1
  rounds : s.selfLoops ≠ [] → s.numRounds ≠ none ∧ 2 ≤ s.numRounds.getD 0

def rounds (s : DemChunksSpec) : Nat :=
  if s.selfLoops = [] then s.chain.length + 1 else s.numRounds.getD 0

theorem phaseSequence_eq_ok {seq : List PhaseId} : s.phaseSequence = .ok seq ↔ s.Expandable ∧
    if s.chain = [] then seq = List.replicate (s.numRounds.getD 0) (s.selfLoops.head?.getD ⟨0⟩)
    else s.chainSequence s.selfLoops.head? s.rounds = .ok seq := by
  have hsome : s.selfLoops.head?.isSome = true ↔ s.selfLoops ≠ [] := by
    cases s.selfLoops <;> simp
  have hrounds : (if s.selfLoops ≠ [] then s.numRounds.getD 0 else s.chain.length + 1) = s.rounds := by
    unfold rounds
    rw [ite_not]
  simp only [phaseSequence, bind_eq_ok, throwIf_eq_ok, hsome, hrounds]
  constructor
  · rintro ⟨_, hphases, _, hconnections, _, hloops, _, hset, _, htwo, h⟩
    refine ⟨⟨hphases, hconnections, not_lt.mp hloops, fun hself =>
      ⟨fun hnone => hset ⟨hself, hnone⟩, not_lt.mp fun hlt => htwo ⟨hself, hlt⟩⟩⟩, ?_⟩
    split at h
    · next hnil =>
      rw [if_pos hnil]
      exact (Except.ok.inj h).symm
    · next hne =>
      rw [if_neg hne]
      exact h
  · rintro ⟨hexp, h⟩
    refine ⟨(), hexp.phases, (), hexp.connections, (), not_lt.mpr hexp.loops, (),
      fun hno => (hexp.rounds hno.1).1 hno.2, (),
      fun hno => absurd (hexp.rounds hno.1).2 (not_le.mpr hno.2), ?_⟩
    split at h
    · next hnil =>
      rw [if_pos hnil, h]
      rfl
    · next hne =>
      rw [if_neg hne]
      exact h

/-- The sequence of a chain: the path that takes every connection, with the repeating phase repeated. -/
theorem phaseSequence_eq_ok_of_ne {seq : List PhaseId} (hne : s.chain ≠ []) :
    s.phaseSequence = .ok seq ↔ s.Expandable ∧ s.chain.length + 1 ≤ s.rounds ∧
      ∃ path, TakesAll s.chain path ∧
        seq = repeatIn s.selfLoops.head? (s.copies s.selfLoops.head? s.rounds) path ∧
        seq.length = s.rounds := by
  have hrounds : s.selfLoops.head? = none → s.rounds = s.chain.length + 1 := by
    intro hnone
    rw [List.head?_eq_none_iff] at hnone
    exact if_pos hnone
  rw [phaseSequence_eq_ok, if_neg hne, chainSequence_eq_ok hne hrounds]

/-! ## The order of the connections -/

section Listing

variable {s' : DemChunksSpec} (hphases : s'.phases = s.phases) (hrounds : s'.numRounds = s.numRounds)
  (hperm : s'.connections.Perm s.connections)

include hperm in
theorem chain_perm : s'.chain.Perm s.chain := hperm.filter _

include hperm in
theorem selfLoops_perm : s'.selfLoops.Perm s.selfLoops := (hperm.filter _).map _

include hperm in
theorem selfLoops_eq (hloops : s.selfLoops.length ≤ 1) : s'.selfLoops = s.selfLoops := by
  have h := selfLoops_perm hperm
  cases hl : s.selfLoops with
  | nil =>
    rw [hl] at h
    exact h.eq_nil
  | cons a l =>
    rw [hl, List.length_cons] at hloops
    obtain rfl : l = [] := List.eq_nil_of_length_eq_zero (by omega)
    rw [hl] at h
    exact List.perm_singleton.mp h

include hphases hrounds hperm in
/-- Listed otherwise, the connections give the same sequence. -/
theorem phaseSequence_of_perm {seq : List PhaseId} (h : s.phaseSequence = .ok seq) :
    s'.phaseSequence = .ok seq := by
  have hexp := (phaseSequence_eq_ok.mp h).1
  have hself := selfLoops_eq hperm hexp.loops
  have hchain := chain_perm hperm
  have hexp' : s'.Expandable := by
    refine ⟨hphases ▸ hexp.phases, fun hnil => ?_, hself ▸ hexp.loops, ?_⟩
    · rw [hnil] at hperm
      exact hexp.connections hperm.nil_eq.symm
    · rw [hself, hrounds]
      exact hexp.rounds
  by_cases hne : s.chain = []
  · have hne' : s'.chain = [] := by
      rw [hne] at hchain
      exact hchain.eq_nil
    rw [phaseSequence_eq_ok, if_pos hne] at h
    rw [phaseSequence_eq_ok, if_pos hne', hself, hrounds]
    exact ⟨hexp', h.2⟩
  · have hne' : s'.chain ≠ [] := by
      intro hnil
      rw [hnil] at hchain
      exact hne hchain.nil_eq.symm
    have hlength := hchain.length_eq
    have hrounds' : s'.rounds = s.rounds := by
      unfold rounds
      rw [hself, hlength, hrounds]
    obtain ⟨-, hle, path, hpath, hseq, hlen⟩ := (phaseSequence_eq_ok_of_ne hne).mp h
    rw [phaseSequence_eq_ok_of_ne hne']
    refine ⟨hexp', by omega, path, ⟨hpath.nodup, hpath.perm.trans (hchain.map _).symm⟩, ?_,
      hlen.trans hrounds'.symm⟩
    rw [hseq, hself, hrounds']
    unfold copies
    rw [hlength]

end Listing

/-! ## Collapsing the repeats -/

/-- The sequence with adjacent repeats of the repeating phase taken together. -/
@[grind =] def collapse (rep : Option PhaseId) : List PhaseId → List PhaseId
  | a :: b :: rest =>
    if rep = some a ∧ a = b then collapse rep (b :: rest) else a :: collapse rep (b :: rest)
  | seq => seq

/-- Copies of the repeating phase that nothing else of it follows. -/
theorem collapse_replicate {r : PhaseId} {rest : List PhaseId} (h : rest.head? ≠ some r) (n : Nat) :
    collapse (some r) (List.replicate (n + 1) r ++ rest) = r :: collapse (some r) rest := by
  induction n with
  | zero =>
    cases rest with
    | nil => rfl
    | cons b rest =>
      have hne : ¬ (some r = some r ∧ r = b) := fun heq => h (congrArg some heq.2.symm)
      exact if_neg hne
  | succ n ih =>
    rw [List.replicate_succ, List.replicate_succ, List.cons_append, List.cons_append]
    rw [List.replicate_succ, List.cons_append] at ih
    exact (if_pos ⟨rfl, rfl⟩).trans ih

theorem collapse_cons {a : PhaseId} {rest : List PhaseId} (h : rep ≠ some a) :
    collapse rep (a :: rest) = a :: collapse rep rest := by
  cases rest with
  | nil => rfl
  | cons b rest => exact if_neg fun hab => h hab.1

theorem head?_repeatIn (rep : Option PhaseId) (n : Nat) (path : List PhaseId) :
    (repeatIn rep n path).head? = path.head? := by
  cases path <;> rfl

theorem collapse_repeatIn (h : path.Nodup) (rep : Option PhaseId) (n : Nat) :
    collapse rep (repeatIn rep n path) = path := by
  induction path with
  | nil => rfl
  | cons p path ih =>
    obtain ⟨hnotin, hnodup⟩ := List.nodup_cons.mp h
    have hcons : repeatIn rep n (p :: path) =
        p :: ((if rep = some p then List.replicate n p else []) ++ repeatIn rep n path) := rfl
    rw [hcons]
    by_cases hrep : rep = some p
    · rw [if_pos hrep, ← List.cons_append, ← List.replicate_succ]
      subst hrep
      rw [collapse_replicate, ih hnodup]
      rw [head?_repeatIn]
      exact fun hhead => hnotin (List.mem_of_head? hhead)
    · rw [if_neg hrep, List.nil_append, collapse_cons hrep, ih hnodup]

/-- Connections that are all self-connections leave one phase, which is repeated. -/
theorem Expandable.single (h : s.Expandable) (hnil : s.chain = []) :
    ∃ r, s.selfLoops = [r] ∧ 2 ≤ s.numRounds.getD 0 := by
  cases hself : s.selfLoops with
  | nil =>
    -- a connection would be in one of the two lists
    obtain ⟨c, rest, hc⟩ := List.exists_cons_of_ne_nil h.connections
    have hmem : c ∈ s.connections := hc ▸ List.mem_cons_self ..
    by_cases hi : c.isSelf = true
    · have : c.fromPhase ∈ s.selfLoops := List.mem_map.mpr ⟨c, List.mem_filter.mpr ⟨hmem, hi⟩, rfl⟩
      rw [hself] at this
      cases this
    · have : c ∈ s.chain := List.mem_filter.mpr ⟨hmem, by simpa using hi⟩
      rw [hnil] at this
      cases this
  | cons r l =>
    have hloops := h.loops
    rw [hself, List.length_cons] at hloops
    obtain rfl : l = [] := List.eq_nil_of_length_eq_zero (by omega)
    exact ⟨r, rfl, (h.rounds (by simp [hself])).2⟩

theorem chain_eq_connections (hself : s.selfLoops = []) : s.chain = s.connections := by
  unfold chain
  rw [List.filter_eq_self]
  intro c hc
  by_contra hi
  have : c.fromPhase ∈ s.selfLoops :=
    List.mem_map.mpr ⟨c, List.mem_filter.mpr ⟨hc, by simpa using hi⟩, rfl⟩
  rw [hself] at this
  cases this

/-- `phase_sequence` ends. What it returns is, repeats of the self-connected phase taken together, the
path of distinct phases that takes every other connection once; it has the rounds it should have, and it
does not depend on the order of the connections. -/
theorem phaseSequence_walk (s : DemChunksSpec) :
    (∀ rep n, Walked s.chain rep n (entryPhase s.chain) []
      (walkPhases s.chain rep n (s.chain.length + 1) (entryPhase s.chain) [])) ∧
    (∀ seq, s.phaseSequence = .ok seq →
      TakesAll s.chain (collapse s.selfLoops.head? seq) ∧
      (s.selfLoops ≠ [] → s.numRounds = some seq.length) ∧
      (s.selfLoops = [] → seq.length = s.connections.length + 1)) ∧
    ∀ connections, connections.Perm s.connections →
      ({ s with connections := connections } : DemChunksSpec).phaseSequence.toOption =
        s.phaseSequence.toOption := by
  refine ⟨walked_entry s.chain, fun seq h => ?_, fun connections hperm => ?_⟩
  · have hlength := length_phaseSequence h
    obtain ⟨hexp, hseq⟩ := phaseSequence_eq_ok.mp h
    refine ⟨?_, fun hself => ?_, fun hself => ?_⟩
    -- a spec of one phase that repeats collapses to that phase
    · by_cases hne : s.chain = []
      · obtain ⟨r, hr, htwo⟩ := hexp.single hne
        obtain ⟨k, hk⟩ := Nat.exists_eq_succ_of_ne_zero (Nat.ne_of_gt (Nat.zero_lt_of_lt htwo))
        have hcollapse : collapse (some r) (List.replicate (k + 1) r ++ []) = [r] :=
          collapse_replicate (by simp) k
        rw [List.append_nil] at hcollapse
        rw [if_pos hne, hk, hr] at hseq
        rw [hseq, hr, hne]
        refine Eq.subst (motive := TakesAll []) hcollapse.symm ⟨List.nodup_singleton r, .refl _⟩
      · obtain ⟨-, -, path, hpath, rfl, -⟩ := (phaseSequence_eq_ok_of_ne hne).mp h
        rw [collapse_repeatIn hpath.nodup]
        exact hpath
    · rw [if_neg hself] at hlength
      cases hrounds : s.numRounds with
      | none => exact absurd hrounds (hexp.rounds hself).1
      | some r =>
        rw [hrounds] at hlength
        exact congrArg some hlength.symm
    · rw [hlength, if_pos hself, chain_eq_connections hself]
  · let s' : DemChunksSpec := { s with connections := connections }
    change s'.phaseSequence.toOption = _
    cases hseq : s.phaseSequence with
    | ok seq =>
      have hsame := @phaseSequence_of_perm s s' rfl rfl hperm seq hseq
      rw [hsame]
    | error e =>
      cases hseq' : s'.phaseSequence with
      | error e' => rfl
      | ok seq =>
        have hsame := @phaseSequence_of_perm s' s rfl rfl hperm.symm seq hseq'
        rw [hseq] at hsame
        cases hsame

end DemChunksSpec

end CudaqQec
