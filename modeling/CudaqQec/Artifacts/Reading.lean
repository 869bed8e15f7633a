import CudaqQec.Artifacts.Bytes

/-!
# The canonical bytes tell their input

Every writer of canonical bytes can be read back. A line ends where its value is delimited by the line
break, and a list of lines where one begins with another letter.
-/

namespace CudaqQec.Artifact

variable {α : Type} {R : α → α → Prop} {T : Bytes → Prop} {f : α → Bytes}

/-! ## Lines -/

theorem delimited_cons {c : UInt8} (h : ¬ IsDigit c) (s : Bytes) : Delimited (c :: s) := by
  intro d hd
  rw [← Option.some.inj hd]
  exact h

theorem not_isDigit_lineBreak : ¬ IsDigit 10 := by
  unfold IsDigit
  decide

theorem not_isDigit_comma : ¬ IsDigit 44 := by
  unfold IsDigit
  decide

theorem not_isDigit_colon : ¬ IsDigit 58 := by
  unfold IsDigit
  decide

theorem reads_put (h : ReadsBack R T f) (name : String) (hT : ∀ s, T (10 :: s)) :
    ReadsBack R (fun _ => True) (fun a => put name (f a)) :=
  h.framed (ascii name ++ [61]) [10] hT

theorem reads_putNumber (h : ReadsBack R Delimited f) (name : String) :
    ReadsBack R (fun _ => True) (fun a => put name (f a)) :=
  reads_put h name (delimited_cons not_isDigit_lineBreak)

theorem head_put {name : String} {c : UInt8} (hname : (ascii name).head? = some c) (value s : Bytes) :
    (put name value ++ s).head? = some c := by
  unfold put
  rw [List.append_assoc, List.append_assoc, List.head?_append, hname]
  rfl

/-! ## Values -/

theorem signedDecimal_ne {c : UInt8} (hdigit : ¬ IsDigit c) (hsign : c ≠ 45) (v : Int) (s t : Bytes) :
    signedDecimal v ++ s ≠ c :: t := by
  unfold signedDecimal
  split
  · intro h
    exact hsign (List.cons.inj h).1.symm
  · obtain ⟨d, x, hd, hd'⟩ := decimal_head v.natAbs
    rw [hd]
    intro h
    rw [(List.cons.inj h).1] at hd'
    exact hdigit hd'

/-- What is set can be told from the mark that nothing is. -/
theorem signedDecimal_ne_mark {t : Bytes} (ht : Delimited t) (v : Int) (s : Bytes) :
    signedDecimal v ++ s ≠ [45] ++ t := by
  unfold signedDecimal
  split
  · obtain ⟨d, x, hd, hd'⟩ := decimal_head v.natAbs
    rw [hd]
    intro h
    have ht' : t = d :: (x ++ s) := (List.cons.inj h).2.symm
    rw [ht'] at ht
    exact ht d rfl hd'
  · exact decimal_ne_dash _ _ _

theorem optionRel_eq (a b : Option α) : a = b ↔ Option.Rel Eq a b := by
  constructor
  · rintro rfl
    cases a with
    | none => exact .none
    | some x => exact .some rfl
  · rintro (h | h)
    · exact congrArg some h
    · rfl

theorem reads_optionalSigned : ReadsBack Eq Delimited (optionalOf signedDecimal) := by
  refine (reads_signedDecimal.option [45] ?_).congr optionRel_eq
  intro v s t _ ht
  exact signedDecimal_ne_mark ht v s

theorem reads_optionalDigits {R : α → α → Prop} {g : α → Nat}
    (h : ReadsBack R Delimited (fun a => decimal (g a))) :
    ReadsBack (Option.Rel R) Delimited (optionalOf fun a => decimal (g a)) :=
  h.option [45] fun a s t _ _ => decimal_ne_dash (g a) s t

theorem reads_index {g : α → Nat} (hg : Function.Injective g) :
    ReadsBack Eq Delimited (fun a => decimal (g a)) :=
  (reads_decimal.comap g).congr fun _ _ => hg.eq_iff.symm

theorem reads_optionalIndex {g : α → Nat} (hg : Function.Injective g) :
    ReadsBack Eq Delimited (optionalOf fun a => decimal (g a)) :=
  (reads_optionalDigits (reads_index hg)).congr optionRel_eq

theorem flag_eq (v : Bool) : flag v = decimal v.toNat := by
  cases v <;> decide

theorem reads_flag : ReadsBack Eq Delimited flag := by
  have h : flag = fun v => decimal v.toNat := funext flag_eq
  rw [h]
  exact reads_index fun a b hab => by cases a <;> cases b <;> simp_all

theorem reads_optionalFlag : ReadsBack Eq Delimited (optionalOf flag) := by
  have h : flag = fun v => decimal v.toNat := funext flag_eq
  rw [h]
  exact reads_optionalIndex fun a b hab => by cases a <;> cases b <;> simp_all

/-- A double is written by its bits, but a zero always in one way. -/
theorem reads_bits : ReadsBack Double.Same Delimited bits := by
  refine (reads_decimal.comap fun x : Double => (if x.isZero then 0#64 else x.bits).toNat).congr
    fun x y => ?_
  have hzero : ∀ z : Double, z.bits = 0#64 → z.isZero = true := by
    intro z hz
    unfold Double.isZero
    rw [hz]
    decide
  have hsame : ∀ z : Double, x.bits = z.bits → x.isZero = z.isZero := by
    intro z hz
    unfold Double.isZero
    rw [hz]
  unfold Double.Same
  rw [BitVec.toNat_inj]
  cases hx : x.isZero with
  | true =>
    cases hy : y.isZero with
    | true => simp
    | false =>
      simp only [if_true, Bool.false_eq_true, if_false, and_false, or_false]
      constructor
      · intro he
        rw [hsame y he, hy] at hx
        cases hx
      · intro he
        rw [hzero y he.symm] at hy
        cases hy
  | false =>
    cases hy : y.isZero with
    | true =>
      simp only [if_true, Bool.false_eq_true, if_false, false_and, or_false]
      constructor
      · intro he
        rw [hsame y he, hy] at hx
        cases hx
      · intro he
        rw [hzero x he] at hx
        cases hx
    | false => simp

theorem reads_optionalBits : ReadsBack (Option.Rel Double.Same) Delimited (optionalOf bits) :=
  reads_optionalDigits reads_bits

/-- Two numbers with a separator between. -/
theorem reads_pair {R : α → α → Prop} {g : α → Bytes} {c : UInt8} (hf : ReadsBack R Delimited f)
    {R' : α → α → Prop} (hg : ReadsBack R' Delimited g) (hc : ¬ IsDigit c) :
    ReadsBack (fun a b => R a b ∧ R' a b) Delimited (fun a => f a ++ c :: g a) := by
  have hsep : ReadsBack R' Delimited (fun a => c :: g a) := by
    refine ⟨fun a b h => by rw [hg.respects a b h], fun a b s t hs ht he => ?_⟩
    exact hg.unique a b s t hs ht (List.cons.inj he).2
  exact hf.and hsep fun a s _ => delimited_cons hc _

theorem reads_range : ReadsBack Eq Delimited range := by
  refine (reads_pair (reads_signedDecimal.comap RoundRange.begin)
    (reads_signedDecimal.comap RoundRange.stop) not_isDigit_colon).congr fun a b => ?_
  exact RoundRange.ext_iff

theorem reads_optionalRange : ReadsBack Eq Delimited (optionalOf range) := by
  refine (reads_range.option [45] ?_).congr optionRel_eq
  intro r s t _ ht
  unfold range
  rw [List.append_assoc]
  exact signedDecimal_ne_mark ht r.begin _

/-! ## Lists of numbers -/

/-- Numbers that each end in a comma, up to a line break. -/
theorem reads_commas (h : ReadsBack R Delimited f)
    (hhead : ∀ a s t, f a ++ s ≠ 10 :: t) (name : String) :
    ReadsBack (List.Forall₂ R) (fun _ => True)
      (fun l : List α => put name (l.flatMap fun a => f a ++ [44])) := by
  have hitem : ReadsBack R (fun _ => True) (fun a => f a ++ [44]) :=
    h.framed [] [44] (delimited_cons not_isDigit_comma)
  refine reads_put hitem.flatMap name fun s a u => ?_
  rw [List.append_assoc]
  exact hhead a _ _

theorem forall₂_eq_iff (a b : List α) : a = b ↔ List.Forall₂ Eq a b := by
  rw [List.forall₂_eq_eq_eq]

theorem reads_list (name : String) : ReadsBack Eq (fun _ => True) (fun l => put name (list l)) :=
  (reads_commas reads_signedDecimal
    (fun v s t => signedDecimal_ne not_isDigit_lineBreak (by decide) v s t) name).congr forall₂_eq_iff

theorem decimal_ne_lineBreak (n : Nat) (s t : Bytes) : decimal n ++ s ≠ 10 :: t := by
  obtain ⟨d, x, hd, hd'⟩ := decimal_head n
  rw [hd]
  intro h
  rw [(List.cons.inj h).1] at hd'
  exact not_isDigit_lineBreak hd'

theorem reads_rates (name : String) : ReadsBack (List.Forall₂ Double.Same) (fun _ => True)
    (fun l : List Double => put name (l.flatMap fun rate => bits rate ++ [44])) :=
  reads_commas reads_bits (fun _ s t => decimal_ne_lineBreak _ s t) name

theorem reads_ranges (name : String) : ReadsBack Eq (fun _ => True)
    (fun l : List RoundRange => put name (l.flatMap fun r => range r ++ [44])) := by
  refine (reads_commas reads_range (fun r s t => ?_) name).congr forall₂_eq_iff
  unfold range
  rw [List.append_assoc]
  exact signedDecimal_ne not_isDigit_lineBreak (by decide) _ _ _

theorem reads_text (name : String) : ReadsBack Eq (fun _ => True) (fun v => put name (text v)) :=
  reads_put (reads_counted not_isDigit_colon) name fun _ => trivial

/-- Lines or groups of lines that begin with one letter, up to what begins with another. -/
theorem reads_lines {c : UInt8} (h : ReadsBack R (fun _ => True) f)
    (hhead : ∀ a u, (f a ++ u).head? = some c) :
    ReadsBack (List.Forall₂ R) (fun s => s.head? ≠ some c) (fun l : List α => l.flatMap f) :=
  h.flatMap.mono fun s hs a u he => hs (by rw [← he, hhead])

/-! ## Specs -/

theorem SeamId.toNat_inj_iff (a b : SeamId) : a = b ↔ a.value.toNat = b.value.toNat := by
  rw [UInt32.toNat_inj]
  cases a
  cases b
  simp

theorem reads_seam : ReadsBack Eq (fun _ => True) seamBytes := by
  refine ((reads_putNumber (reads_decimal.comap fun e : SeamSpecEntry => e.id.value.toNat)
    "seam_spec").and (((reads_list "seam_H_sparse").comap fun e : SeamSpecEntry =>
      e.spec.hSparse).and ((reads_list "seam_O_sparse").comap fun e : SeamSpecEntry =>
      e.spec.oSparse) fun _ _ _ => trivial) fun _ _ _ => trivial).congr fun a b => ?_
  rw [← SeamId.toNat_inj_iff]
  obtain ⟨ida, ha, oa⟩ := a
  obtain ⟨idb, hb, ob⟩ := b
  simp

theorem reads_seams : ReadsBack Eq (fun s => s.head? ≠ some 115)
    (fun l : List SeamSpecEntry => l.flatMap seamBytes) := by
  refine (reads_lines reads_seam fun e u => ?_).congr forall₂_eq_iff
  unfold seamBytes
  rw [List.append_assoc]
  exact head_put (by decide) _ _

theorem reads_phase : ReadsBack PhaseEntry.Same (fun _ => True) phaseBytes := by
  refine ((reads_putNumber (reads_decimal.comap fun e : PhaseEntry => e.id.value.toNat) "phase").and
    ((reads_putNumber (reads_decimal.comap fun e : PhaseEntry => e.spec.numFaults) "num_faults").and
    (((reads_list "H_sparse").comap fun e : PhaseEntry => e.spec.hSparse).and
    ((reads_seams.comap fun e : PhaseEntry => e.spec.seamSpecs).and
    (((reads_list "O_sparse").comap fun e : PhaseEntry => e.spec.oSparse).and
    (((reads_rates "error_rates").comap fun e : PhaseEntry => e.spec.errorRates).and
    (((reads_list "D_sparse").comap fun e : PhaseEntry => e.spec.dSparse).and
    (((reads_putNumber (reads_optionalIndex (g := id) Function.injective_id) "num_measurements").comap
      fun e : PhaseEntry => e.spec.numMeasurements).and
    ((reads_list "m2o_sparse").comap fun e : PhaseEntry => e.spec.m2oSparse)
    ?_) ?_) ?_) ?_) ?_) ?_) ?_) ?_).congr fun a b => ?_
  · exact fun _ _ _ => trivial
  · exact fun _ _ _ => trivial
  · exact fun _ _ _ => trivial
  · exact fun _ _ _ => trivial
  · intro e s _
    rw [List.append_assoc, head_put (c := 79) (by decide)]
    decide
  · exact fun _ _ _ => trivial
  · exact fun _ _ _ => trivial
  · exact fun _ _ _ => trivial
  · unfold PhaseEntry.Same ChunkSpec.Same
    rw [SeamId.toNat_inj_iff]

theorem reads_phases : ReadsBack (List.Forall₂ PhaseEntry.Same) (fun s => s.head? ≠ some 112)
    (fun l : List PhaseEntry => l.flatMap phaseBytes) := by
  refine reads_lines reads_phase fun e u => ?_
  unfold phaseBytes
  rw [List.append_assoc]
  exact head_put (by decide) _ _

theorem reads_ids {p q : α → SeamId} (name : String) :
    ReadsBack (fun a b => p a = p b ∧ q a = q b) (fun _ => True)
      (fun a => put name (decimal (p a).value.toNat ++ 44 :: decimal (q a).value.toNat)) := by
  refine (reads_putNumber (reads_pair (reads_decimal.comap fun a => (p a).value.toNat)
    (reads_decimal.comap fun a => (q a).value.toNat) not_isDigit_comma) name).congr fun a b => ?_
  rw [SeamId.toNat_inj_iff, SeamId.toNat_inj_iff]

theorem reads_connections : ReadsBack Eq (fun s => s.head? ≠ some 99)
    (fun l : List PhaseConnection => l.flatMap connectionBytes) := by
  have hone : ReadsBack Eq (fun _ => True) connectionBytes :=
    (reads_ids (p := PhaseConnection.fromPhase) (q := PhaseConnection.toPhase)
      "connection").congr fun a b => by
        cases a
        cases b
        simp
  exact (reads_lines hone fun c u => head_put (by decide) _ _).congr forall₂_eq_iff

theorem reads_names : ReadsBack Eq (fun s => s = [])
    (fun l : List Bytes => l.flatMap fun name => put "observable_name" (text name)) := by
  refine ((reads_lines (c := 111) (reads_text "observable_name") fun v u => ?_).congr
    forall₂_eq_iff).mono fun s hs => ?_
  · exact head_put (by decide) _ _
  · rw [hs]
    decide

theorem reads_prefixed (h : ReadsBack R T f) (pre : Bytes) : ReadsBack R T (fun a => pre ++ f a) where
  respects a b hR := by rw [h.respects a b hR]
  unique a b s t hs ht he := by
    rw [List.append_assoc, List.append_assoc] at he
    exact h.unique a b s t hs ht (List.append_cancel_left he)

/-- The bytes of a spec. Nothing follows them. -/
theorem reads_canonicalBytes : ReadsBack ChunksSpec.Same (fun s => s = []) canonicalBytes := by
  apply reads_prefixed
  refine ((reads_phases.comap fun a : ChunksSpec => a.phases).and
    ((reads_connections.comap fun a : ChunksSpec => a.connections).and
    (((reads_ids (p := SeamConnection.fromSeam) (q := SeamConnection.toSeam) "seam").comap
      fun a : ChunksSpec => a.seam).and
    (((reads_putNumber (reads_optionalIndex (g := id) Function.injective_id) "num_rounds").comap
      fun a : ChunksSpec => a.numRounds).and
    (((reads_putNumber (reads_optionalIndex (g := id) Function.injective_id)
      "measurements_per_round").comap fun a : ChunksSpec => a.measurementsPerRound).and
    (((reads_putNumber reads_optionalFlag "phases_supply_D_sparse").comap
      fun a : ChunksSpec => a.phasesSupplyDSparse).and
    (reads_names.comap fun a : ChunksSpec => a.observableNames)
    ?_) ?_) ?_) ?_) ?_) ?_).congr fun a b => ?_
  · exact fun _ _ _ => trivial
  · exact fun _ _ _ => trivial
  · exact fun _ _ _ => trivial
  · exact fun _ _ _ => trivial
  · intro a s _
    rw [List.append_assoc, head_put (c := 115) (by decide)]
    decide
  · intro a s _
    rw [List.append_assoc]
    cases a.connections with
    | nil =>
      rw [List.flatMap_nil, List.nil_append, List.append_assoc, head_put (c := 115) (by decide)]
      decide
    | cons c cs =>
      rw [List.flatMap_cons, List.append_assoc, connectionBytes, head_put (c := 99) (by decide)]
      decide
  · unfold ChunksSpec.Same
    have hseam : a.seam = b.seam ↔ a.seam.fromSeam = b.seam.fromSeam ∧ a.seam.toSeam = b.seam.toSeam := by
      cases a.seam
      cases b.seam
      simp
    rw [hseam]

/-! ## Window requests -/

theorem dispositionIndex_inj : Function.Injective dispositionIndex := by
  intro a b h
  cases a <;> cases b <;> first | rfl | cases h

theorem sendModeIndex_inj : Function.Injective sendModeIndex := by
  intro a b h
  cases a <;> cases b <;> first | rfl | cases h

theorem boundaryIndex_inj : Function.Injective boundaryIndex := by
  intro a b h
  cases a <;> cases b <;> first | rfl | cases h

theorem resolutionIndex_inj : Function.Injective resolutionIndex := by
  intro a b h
  cases a <;> cases b <;> first | rfl | cases h

theorem reads_send : ReadsBack Eq (fun _ => True) sendBytes := by
  refine (((reads_text "send").comap Send.id).and
    (((reads_putNumber (reads_optionalIndex sendModeIndex_inj) "send_mode").comap Send.mode).and
    ((reads_ranges "send_rounds").comap Send.rounds) fun _ _ _ => trivial)
    fun _ _ _ => trivial).congr fun a b => ?_
  cases a
  cases b
  simp

theorem reads_sends : ReadsBack Eq (fun s => s.head? ≠ some 115)
    (fun l : List Send => l.flatMap sendBytes) := by
  refine (reads_lines reads_send fun e u => ?_).congr forall₂_eq_iff
  unfold sendBytes
  rw [List.append_assoc]
  exact head_put (by decide) _ _

theorem reads_buffers : ReadsBack Eq (fun s => s.head? ≠ some 98)
    (fun l : List RoundRange => l.flatMap fun buffer => put "buffer" (range buffer)) :=
  (reads_lines (reads_putNumber reads_range "buffer")
    fun r u => head_put (by decide) _ _).congr forall₂_eq_iff

theorem reads_requestBytes : ReadsBack Request.Same (fun _ => True) requestBytes := by
  apply reads_prefixed
  refine ((reads_putNumber (reads_signedDecimal.comap fun a : Request => a.period) "period").and
    ((reads_putNumber (reads_signedDecimal.comap fun a : Request => a.offset) "offset").and
    ((reads_putNumber (reads_optionalRange.comap fun a : Request => a.commit) "commit").and
    ((reads_buffers.comap fun a : Request => a.buffers).and
    (((reads_putNumber (reads_optionalIndex dispositionIndex_inj) "input_disposition").comap
      fun a : Request => a.inputDisposition).and
    ((reads_putNumber (reads_optionalBits.comap fun a : Request => a.inputPrior) "input_prior").and
    (((reads_putNumber (reads_optionalIndex boundaryIndex_inj) "input_boundary").comap
      fun a : Request => a.inputBoundary).and
    (((reads_putNumber (reads_optionalIndex dispositionIndex_inj) "output_disposition").comap
      fun a : Request => a.outputDisposition).and
    ((reads_putNumber (reads_optionalRange.comap fun a : Request => a.outputImports)
      "output_imports").and
    ((reads_sends.comap fun a : Request => a.sends).and
    (((reads_putNumber reads_flag "merge_identical").comap fun a : Request => a.mergeIdentical).and
    ((reads_putNumber (reads_index resolutionIndex_inj) "conflicting_parallel").comap
      fun a : Request => a.conflictingParallel)
    ?_) ?_) ?_) ?_) ?_) ?_) ?_) ?_) ?_) ?_) ?_).congr fun a b => Iff.rfl
  · exact fun _ _ _ => trivial
  · intro a s _
    rw [List.append_assoc, head_put (c := 109) (by decide)]
    decide
  · exact fun _ _ _ => trivial
  · exact fun _ _ _ => trivial
  · exact fun _ _ _ => trivial
  · exact fun _ _ _ => trivial
  · exact fun _ _ _ => trivial
  · intro a s _
    rw [List.append_assoc, head_put (c := 105) (by decide)]
    decide
  · exact fun _ _ _ => trivial
  · exact fun _ _ _ => trivial
  · exact fun _ _ _ => trivial

end CudaqQec.Artifact
