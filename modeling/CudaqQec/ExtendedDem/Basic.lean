import CudaqQec.Sparse.Entries
import CudaqQec.Lib.Bands
import Mathlib.Data.Prod.Lex
import Mathlib.Data.Rat.Defs
import Mathlib.Data.Nat.Digits.Defs
import Mathlib.Algebra.BigOperators.Intervals

/-!
# Error-model chunks with named seams

`extended_dem`: one chunk of a detector error model. `H` holds all detector rows; a seam is a named
band of consecutive rows of `H`, and the rows no band covers are interior. `add_seam` rejects a second
seam of one id, so chunks that are built through it have distinct seams (`DistinctSeams`); the list
itself is public, and `validate` does not look at the ids.

`validate` accepts exactly the well-formed chunks (`validate_eq_ok`): columns agree with the number
of faults, bands lie inside `H` without overlapping, and there is one tag for each seam row. A
well-formed chunk has as many interior rows as `num_interior_rows` says
(`length_interiorRowList`).
-/

namespace CudaqQec

open Checked

/-! ## Seam and phase ids -/

def fnv1a32 (name : String) : UInt32 :=
  name.toUTF8.toList.foldl (fun h b => (h ^^^ b.toUInt32) * 16777619) 2166136261

/-- `seam_id` and `phase_id`: the hash of a name. -/
structure SeamId where
  value : UInt32
  deriving DecidableEq, Repr

abbrev PhaseId := SeamId

namespace SeamId

def ofName (name : String) : SeamId := ⟨fnv1a32 name⟩

def prevRound : SeamId := ofName "prev_round"
def nextRound : SeamId := ofName "next_round"

def registry : List String := ["prev_round", "next_round", "init", "bulk", "final"]

def hex8 (v : Nat) : String :=
  String.ofList ((List.range 8).map fun i => Nat.digitChar (v / 16 ^ (7 - i) % 16))

/-- The registered name, or `seam:<hex>`. -/
def name (id : SeamId) : String :=
  match registry.find? fun n => ofName n = id with
  | some n => n
  | none => "seam:" ++ hex8 id.value.toNat

end SeamId

/-! ## Chunks -/

/-- A named seam: rows `[rowBegin, rowEnd)` of `H`. -/
structure Seam where
  id : SeamId
  rowBegin : Nat
  rowEnd : Nat
  deriving DecidableEq, Repr

namespace Seam

/-- How many rows the band has. `validate` rejects `row_begin > row_end` before any caller reads
this, so the unsigned wrap-around of the difference never shows. -/
def numRows (s : Seam) : Nat := s.rowEnd - s.rowBegin

def covers (s : Seam) (r : Nat) : Bool := s.rowBegin ≤ r && r < s.rowEnd

/-- No row lies in both bands. -/
def Disjoint (s t : Seam) : Prop :=
  s.numRows = 0 ∨ t.numRows = 0 ∨ s.rowEnd ≤ t.rowBegin ∨ t.rowEnd ≤ s.rowBegin

theorem Disjoint.symm {s t : Seam} (h : s.Disjoint t) : t.Disjoint s := by
  unfold Disjoint at *
  omega

end Seam

@[ext] structure ExtendedDem where
  H : SparseBinaryMatrix
  O : SparseBinaryMatrix
  errorRates : List ℚ
  seams : List Seam
  tags : List Nat
  deriving DecidableEq

namespace ExtendedDem

variable (d : ExtendedDem)

/-- `extended_dem()`. -/
def empty : ExtendedDem := ⟨.empty, .empty, [], [], []⟩

def numFaults : Nat := u32 d.errorRates.length

def numRows : Nat := d.H.numRows

def numObservables : Nat := d.O.numRows

def seamTotal : Nat := (d.seams.map Seam.numRows).sum

def numInteriorRows : Nat :=
  if u32 d.seamTotal < d.H.numRows then d.H.numRows - u32 d.seamTotal else 0

def findSeam (id : SeamId) : Option Seam := d.seams.find? fun s => s.id = id

def hasSeam (id : SeamId) : Bool := (d.findSeam id).isSome

/-- The band of a seam as `(row_begin, row_end)`, empty for a seam the chunk does not have. -/
def seamBand (id : SeamId) : Nat × Nat :=
  match d.findSeam id with
  | some s => (s.rowBegin, s.rowEnd)
  | none => (0, 0)

/-- `seam_rows_or_zero`: how many rows a seam has, none for a seam the chunk does not have. -/
def seamRowsOrZero (id : SeamId) : Nat := (d.seamBand id).2 - (d.seamBand id).1

theorem id_notMem_of_not_hasSeam {id : SeamId} (h : d.hasSeam id = false) :
    id ∉ d.seams.map Seam.id := by
  intro hmem
  obtain ⟨s, hs, rfl⟩ := List.mem_map.mp hmem
  simp only [hasSeam, findSeam, Option.isSome_eq_false_iff, Option.isNone_iff_eq_none,
    List.find?_eq_none] at h
  exact h s hs (by simp)

/-- Append a seam; a second one of the same id is rejected. -/
def addSeam (id : SeamId) (rowBegin rowEnd : Nat) : Except Error ExtendedDem :=
  if d.hasSeam id then
    .error (.invalidArgument ("extended_dem::add_seam: duplicate seam " ++ id.name))
  else .ok { d with seams := d.seams ++ [⟨id, rowBegin, rowEnd⟩] }

def DistinctSeams : Prop := (d.seams.map Seam.id).Nodup

instance : Decidable d.DistinctSeams := inferInstanceAs (Decidable (List.Nodup _))

/-- `add_seam` keeps the seams distinct. -/
theorem DistinctSeams.addSeam {d d' : ExtendedDem} {id : SeamId} {rowBegin rowEnd : Nat}
    (h : d.DistinctSeams) (hadd : d.addSeam id rowBegin rowEnd = .ok d') : d'.DistinctSeams := by
  unfold ExtendedDem.addSeam at hadd
  split at hadd
  · cases hadd
  · next hnew =>
    cases hadd
    unfold DistinctSeams at *
    rw [List.map_append, List.nodup_append]
    refine ⟨h, by simp, ?_⟩
    intro a ha b hb
    rw [List.map_cons, List.map_nil, List.mem_singleton] at hb
    rintro rfl
    have hid : a = id := hb
    exact d.id_notMem_of_not_hasSeam (Bool.eq_false_of_not_eq_true hnew) (hid ▸ ha)

/-! ## Validation -/

def checkCols (m : SparseBinaryMatrix) (n : Nat) (context label : String) : Except Error Unit :=
  throwIf (m.numCols ≠ n) (.invalidArgument (context ++ ": " ++ label ++ " has " ++
    toString m.numCols ++ " cols but chunk has " ++ toString n ++ " faults"))

/-- `O` has a column for each fault, unless it is the `0 × 0` matrix that stands for a chunk without
observables. -/
def checkObservableCols (context : String) : Except Error Unit :=
  if 0 < d.O.numRows ∨ 0 < d.O.numCols then checkCols d.O d.numFaults context "O" else .ok ()

def checkSeam (s : Seam) (rows : Nat) (context : String) : Except Error Unit := do
  throwIf (s.rowEnd > rows) (.invalidArgument (context ++ ": seam row_end " ++
    toString s.rowEnd ++ " > H.num_rows() " ++ toString rows))
  throwIf (s.rowBegin > s.rowEnd)
    (.invalidArgument (context ++ ": seam has row_begin > row_end"))

/-- The non-empty bands as `(row_begin, row_end)`, sorted as pairs. -/
def sortedBands : List (Nat × Nat) :=
  ((d.seams.filter fun s => 0 < s.numRows).map fun s => (s.rowBegin, s.rowEnd)).insertionSort
    fun a b => toLex a ≤ toLex b

@[grind =] def checkBands (context : String) : List (Nat × Nat) → Except Error Unit
  | a :: b :: bs => do
    throwIf (b.1 < a.2) (.invalidArgument (context ++ ": seam row bands [" ++ toString a.1 ++ "," ++
      toString a.2 ++ ") and [" ++ toString b.1 ++ "," ++ toString b.2 ++ ") overlap"))
    checkBands context (b :: bs)
  | _ => .ok ()

def validate (context : String) : Except Error Unit := do
  checkCols d.H d.numFaults context "H"
  d.checkObservableCols context
  forM d.seams fun s => checkSeam s d.H.numRows context
  checkBands context d.sortedBands
  throwIf (d.tags.length ≠ u32 d.seamTotal) (.invalidArgument (context ++ ": tags.size()=" ++
    toString d.tags.length ++ " != sum of seam rows " ++ toString (u32 d.seamTotal)))

/-- What `validate` accepts. -/
structure Valid : Prop where
  cols : d.H.numCols = d.numFaults
  obs : d.O.numRows = 0 ∧ d.O.numCols = 0 ∨ d.O.numCols = d.numFaults
  bands : ∀ s ∈ d.seams, s.rowBegin ≤ s.rowEnd ∧ s.rowEnd ≤ d.H.numRows
  disjoint : d.seams.Pairwise Seam.Disjoint
  tags : d.tags.length = d.seamTotal

/-! ## What `validate` accepts -/

theorem checkSeam_eq_ok {s : Seam} {rows : Nat} {context : String} {u : Unit} :
    checkSeam s rows context = .ok u ↔ s.rowBegin ≤ s.rowEnd ∧ s.rowEnd ≤ rows := by
  simp only [checkSeam, bind_eq_ok, throwIf_eq_ok]
  constructor
  · rintro ⟨_, h1, h2⟩
    omega
  · intro h
    exact ⟨(), by omega, by omega⟩

theorem checkBands_eq_ok {context : String} {bs : List (Nat × Nat)} {u : Unit} :
    checkBands context bs = .ok u ↔ bs.IsChain fun a b => a.2 ≤ b.1 := by
  induction bs with
  | nil => simp [checkBands]
  | cons a bs ih =>
    cases bs with
    | nil => simp [checkBands]
    | cons b bs =>
      rw [checkBands, bind_eq_ok, List.isChain_cons_cons, ← ih]
      simp only [throwIf_eq_ok, not_lt]
      constructor
      · rintro ⟨_, h1, h2⟩
        exact ⟨h1, h2⟩
      · rintro ⟨h1, h2⟩
        exact ⟨(), h1, h2⟩

theorem mem_sortedBands {b : Nat × Nat} :
    b ∈ d.sortedBands ↔ ∃ s ∈ d.seams, 0 < s.numRows ∧ (s.rowBegin, s.rowEnd) = b := by
  simp [sortedBands, List.mem_insertionSort, and_assoc]

theorem lt_of_mem_sortedBands {b : Nat × Nat} (h : b ∈ d.sortedBands) : b.1 < b.2 := by
  obtain ⟨s, -, hs, rfl⟩ := d.mem_sortedBands.mp h
  simpa [Seam.numRows] using hs

private def Apart (a b : Nat × Nat) : Prop := a.2 ≤ b.1 ∨ b.2 ≤ a.1

private theorem isChain_iff_pairwise_apart {bs : List (Nat × Nat)}
    (hsort : bs.Pairwise fun a b => toLex a ≤ toLex b) (hne : ∀ b ∈ bs, b.1 < b.2) :
    (bs.IsChain fun a b => a.2 ≤ b.1) ↔ bs.Pairwise Apart := by
  induction bs with
  | nil => simp
  | cons a bs ih =>
    rw [List.pairwise_cons] at hsort
    have hne' : ∀ b ∈ bs, b.1 < b.2 := fun b hb => hne b (by simp [hb])
    have ha := hne a (by simp)
    have ih := ih hsort.2 hne'
    -- In a sorted list of non-empty bands, not overlapping means coming later.
    have hle : ∀ b ∈ bs, a.1 ≤ b.1 := by
      intro b hb
      have := Prod.Lex.toLex_le_toLex.mp (hsort.1 b hb)
      omega
    cases bs with
    | nil => simp
    | cons b bs =>
      rw [List.isChain_cons_cons, ih, List.pairwise_cons (a := a)]
      constructor
      · rintro ⟨hab, hbs⟩
        refine ⟨fun c hc => .inl ?_, hbs⟩
        rcases List.mem_cons.mp hc with rfl | hc'
        · exact hab
        · have hb := hne' b (by simp)
          have hbc := (List.pairwise_cons.mp hbs).1 c hc'
          have hlex := Prod.Lex.toLex_le_toLex.mp ((List.pairwise_cons.mp hsort.2).1 c hc')
          have hc2 := hne' c hc
          unfold Apart at hbc
          omega
      · rintro ⟨hab, hbs⟩
        refine ⟨?_, hbs⟩
        have hb := hne' b (by simp)
        have := hle b (by simp)
        have := hab b (by simp)
        unfold Apart at this
        omega

private theorem pairwise_apart_sortedBands :
    d.sortedBands.Pairwise Apart ↔ d.seams.Pairwise Seam.Disjoint := by
  have hsymm : ∀ {a b : Nat × Nat}, Apart a b → Apart b a := fun h => Or.symm h
  rw [sortedBands, (List.perm_insertionSort _ _).pairwise_iff hsymm, List.pairwise_map,
    List.pairwise_filter]
  apply List.Pairwise.iff
  intro s t
  simp only [Apart, Seam.Disjoint, decide_eq_true_eq]
  omega

theorem isChain_sortedBands :
    (d.sortedBands.IsChain fun a b => a.2 ≤ b.1) ↔ d.seams.Pairwise Seam.Disjoint := by
  rw [isChain_iff_pairwise_apart ?_ fun b => d.lt_of_mem_sortedBands, pairwise_apart_sortedBands]
  exact List.pairwise_insertionSort _ _

/-! ## Interior rows -/

def interiorRowList (rows : Nat) (seams : List Seam) : List Nat :=
  (List.range rows).filter fun r => !seams.any fun s => s.covers r

theorem mem_interiorRowList {rows r : Nat} {seams : List Seam} :
    r ∈ interiorRowList rows seams ↔ r < rows ∧ ∀ s ∈ seams, s.covers r = false := by
  simp [interiorRowList]

private theorem sum_range_eq (n : Nat) (f : Nat → Nat) :
    ((List.range n).map f).sum = ∑ r ∈ Finset.range n, f r := rfl

private theorem sum_interiorRowList (f : Nat → Nat) (rows : Nat) (seams : List Seam) :
    ((interiorRowList rows seams).map f).sum =
      ∑ r ∈ Finset.range rows, if seams.any (fun s => s.covers r) then 0 else f r := by
  rw [← sum_range_eq, interiorRowList]
  induction List.range rows with
  | nil => rfl
  | cons a l ih =>
    rw [List.filter_cons, List.map_cons, List.sum_cons, ← ih]
    cases seams.any fun s => s.covers a with
    | true => simp
    | false => simp

private theorem sum_covers (f : Nat → Nat) {rows : Nat} {s : Seam} (hle : s.rowEnd ≤ rows) :
    (∑ r ∈ Finset.range rows, if s.covers r then f r else 0) =
      ∑ k ∈ Finset.range s.numRows, f (s.rowBegin + k) := by
  rw [← Finset.sum_filter, Seam.numRows, ← Finset.sum_Ico_eq_sum_range]
  congr 1
  ext r
  simp only [Seam.covers, Finset.mem_filter, Finset.mem_range, Bool.and_eq_true,
    decide_eq_true_eq, Finset.mem_Ico]
  omega

private theorem covers_disjoint {s t : Seam} (h : s.Disjoint t) {r : Nat} (hs : s.covers r = true) :
    t.covers r = false := by
  simp only [Seam.covers, Bool.and_eq_true, decide_eq_true_eq, Bool.and_eq_false_iff,
    decide_eq_false_iff_not] at *
  unfold Seam.Disjoint Seam.numRows at h
  omega

/-- A sum over all rows is the sum over the bands and the sum over the interior. -/
theorem sum_rows_eq (f : Nat → Nat) {rows : Nat} {seams : List Seam}
    (hb : ∀ s ∈ seams, s.rowBegin ≤ s.rowEnd ∧ s.rowEnd ≤ rows)
    (hd : seams.Pairwise Seam.Disjoint) :
    ((List.range rows).map f).sum =
      (seams.map fun s => ((List.range s.numRows).map fun k => f (s.rowBegin + k)).sum).sum +
        ((interiorRowList rows seams).map f).sum := by
  induction seams with
  | nil => simp [interiorRowList]
  | cons s seams ih =>
    rw [List.pairwise_cons] at hd
    have hs := hb s (by simp)
    have ih := ih (fun t ht => hb t (by simp [ht])) hd.2
    have hsplit : ((interiorRowList rows seams).map f).sum =
        ((List.range s.numRows).map fun k => f (s.rowBegin + k)).sum +
          ((interiorRowList rows (s :: seams)).map f).sum := by
      rw [sum_interiorRowList, sum_interiorRowList, sum_range_eq, ← sum_covers f hs.2,
        ← Finset.sum_add_distrib]
      apply Finset.sum_congr rfl
      intro r _
      rw [List.any_cons]
      cases hc : s.covers r with
      | false => simp
      | true =>
        have hany : seams.any (fun t => t.covers r) = false := by
          rw [List.any_eq_false]
          intro t ht
          simp [covers_disjoint (hd.1 t ht) hc]
        simp [hany]
    rw [ih, List.map_cons, List.sum_cons, hsplit]
    omega

theorem length_interiorRowList {rows : Nat} {seams : List Seam}
    (hb : ∀ s ∈ seams, s.rowBegin ≤ s.rowEnd ∧ s.rowEnd ≤ rows)
    (hd : seams.Pairwise Seam.Disjoint) :
    (seams.map Seam.numRows).sum + (interiorRowList rows seams).length = rows := by
  have h := sum_rows_eq (fun _ => 1) hb hd
  simpa using h.symm

/-- The seam bands of a well-formed chunk fit into `H` side by side. -/
theorem Valid.seamTotal_add {d : ExtendedDem} (h : d.Valid) :
    d.seamTotal + (interiorRowList d.H.numRows d.seams).length = d.H.numRows :=
  length_interiorRowList h.bands h.disjoint

theorem Valid.u32_seamTotal {d : ExtendedDem} (h : d.Valid) : u32 d.seamTotal = d.seamTotal := by
  have := h.seamTotal_add
  exact u32_of_lt (by have := d.H.rows_lt; omega)

theorem Valid.numInteriorRows {d : ExtendedDem} (h : d.Valid) :
    d.numInteriorRows = (interiorRowList d.H.numRows d.seams).length := by
  have := h.seamTotal_add
  unfold ExtendedDem.numInteriorRows
  rw [h.u32_seamTotal]
  split <;> omega

/-- `validate` accepts exactly the well-formed chunks. -/
theorem validate_eq_ok {context : String} {u : Unit} : d.validate context = .ok u ↔ d.Valid := by
  have hH : checkCols d.H d.numFaults context "H" = .ok () ↔ d.H.numCols = d.numFaults := by
    simp [checkCols]
  have hO : d.checkObservableCols context = .ok () ↔
      (d.O.numRows = 0 ∧ d.O.numCols = 0 ∨ d.O.numCols = d.numFaults) := by
    unfold checkObservableCols
    split
    · simp only [checkCols, throwIf_eq_ok, ne_eq, not_not]
      omega
    · simp only [true_iff]
      omega
  have hS : (forM d.seams fun s => checkSeam s d.H.numRows context) = .ok () ↔
      ∀ s ∈ d.seams, s.rowBegin ≤ s.rowEnd ∧ s.rowEnd ≤ d.H.numRows := by
    rw [forM_eq_ok]
    simp only [checkSeam_eq_ok]
  have hB : checkBands context d.sortedBands = .ok () ↔ d.seams.Pairwise Seam.Disjoint := by
    rw [checkBands_eq_ok, isChain_sortedBands]
  constructor
  · intro h
    simp only [validate, bind_eq_ok, throwIf_eq_ok, ne_eq, not_not] at h
    obtain ⟨_, h1, _, h2, _, h3, _, h4, h5⟩ := h
    have hb := hS.mp h3
    have hd := hB.mp h4
    have hsum := length_interiorRowList hb hd
    have hlt : d.seamTotal < 2 ^ 32 := by
      have := d.H.rows_lt
      unfold seamTotal
      omega
    exact ⟨hH.mp h1, hO.mp h2, hb, hd, by rw [h5, u32_of_lt hlt]⟩
  · intro h
    simp only [validate, bind_eq_ok, throwIf_eq_ok, ne_eq, not_not]
    exact ⟨(), hH.mpr h.cols, (), hO.mpr h.obs, (), hS.mpr h.bands, (), hB.mpr h.disjoint,
      by rw [h.tags, h.u32_seamTotal]⟩

end ExtendedDem

end CudaqQec
