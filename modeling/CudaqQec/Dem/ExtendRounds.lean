import CudaqQec.Dem.PcmForRounds
import CudaqQec.Dem.Simplify
import CudaqQec.Lib.Traps

/-!
# Extending a matrix to more rounds

`pcm_extend_to_n_rounds`: the first round whose rows are those of the round before is found, and copies
of it are pasted between the rounds up to the last such one and the rounds from there on. What a new
column is made of is reported by the number of one column of the matrix.
-/

namespace CudaqQec

open Checked Traps

/-! ## The rounds that repeat -/

/-- What is known once a round has been read: the rows of the last round that counts, the first and the
last round that was like the one before it, and the columns of each round. -/
structure RoundScan where
  priorSubPcm : Tensor
  firstMatch : Nat
  lastMatch : Nat
  firstColumns : List Nat
  lastColumns : List Nat

/-- The rounds in turn, up to the first that does not match after one did. -/
@[grind =] def scanRounds (pcm : Tensor) (S : Nat) : List Nat → RoundScan → Except Error RoundScan
  | [], scan => .ok scan
  | w :: ws, scan => do
    let (subPcm, firstColumn, lastColumn) ← getPcmForRoundsDense pcm S w w true true 0
    let firstColumns := scan.firstColumns ++ [firstColumn]
    let lastColumns := scan.lastColumns ++ [lastColumn]
    if subPcm.rows = scan.priorSubPcm.rows ∧ subPcm.cols = scan.priorSubPcm.cols ∧
        subPcm.data = scan.priorSubPcm.data then
      scanRounds pcm S ws ⟨subPcm, min scan.firstMatch w, max scan.lastMatch w, firstColumns,
        lastColumns⟩
    else if scan.firstMatch ≠ uint32Max then
      .ok { scan with firstColumns := firstColumns, lastColumns := lastColumns }
    else scanRounds pcm S ws ⟨subPcm, scan.firstMatch, scan.lastMatch, firstColumns, lastColumns⟩

/-- `num_overlap_cols_per_round`: as the first round that matches shares them with the one before. -/
def RoundScan.numOverlap (scan : RoundScan) : Nat :=
  sub32 (u32 (scan.lastColumns.getD (scan.firstMatch - 1) 0 + 1))
    (scan.firstColumns.getD scan.firstMatch 0)

/-- `num_cols_per_inserted_round`. -/
def RoundScan.numInserted (scan : RoundScan) : Nat :=
  u32 (sizeT ((scan.priorSubPcm.cols : Int) - scan.numOverlap))

/-! ## Pasting -/

/-- One `memcpy` of a row. -/
def Tensor.copyRow (bigPcm : Tensor) (row col : Nat) (subPcm : Tensor) (r : Nat) : Tensor :=
  .ofEntries bigPcm.rows bigPcm.cols fun i j =>
    if i = row ∧ col ≤ j ∧ j < col + subPcm.cols then subPcm.entry r (j - col) else bigPcm.entry i j

/-- `copy_sub_pcm_into_big_pcm`. The first element of each row is looked up with its indices checked,
so a matrix with no column throws. -/
def copySubPcmIntoBigPcm (subPcm bigPcm : Tensor) (startingRow startingCol : Nat) :
    Except (Stop Error) Tensor := do
  assert (startingRow + subPcm.rows ≤ bigPcm.rows)
  assert (startingCol + subPcm.cols ≤ bigPcm.cols)
  throws (throwIf (0 < subPcm.rows ∧ subPcm.cols = 0)
    (.runtimeError "Invalid constant tensor indices: 0, 0"))
  return (List.range subPcm.rows).foldl
    (fun big r => big.copyRow (u32 (startingRow + r)) startingCol subPcm r) bigPcm

def columnsFrom (first last : Nat) : List Nat := List.range' first (last + 1 - first)

/-- The new matrix so far, the columns it was made of, and how many of its rows and columns are
filled. -/
structure Extension where
  newPcm : Tensor
  columnList : List Nat
  numRowsPopulated : Nat
  numColsPopulated : Nat

/-- One more copy of a round. -/
def insertRound (S numOverlap numInserted : Nat) (subPcm : Tensor) (columns : List Nat)
    (x : Extension) : Except (Stop Error) Extension := do
  let newPcm ← copySubPcmIntoBigPcm subPcm x.newPcm x.numRowsPopulated
    (sub32 x.numColsPopulated numOverlap)
  return ⟨newPcm, x.columnList ++ columns, u32 (x.numRowsPopulated + S),
    u32 (x.numColsPopulated + numInserted)⟩

/-- So many copies of a round. -/
@[grind =] def insertRounds (S numOverlap numInserted : Nat) (subPcm : Tensor) (columns : List Nat) :
    Nat → Extension → Except (Stop Error) Extension
  | 0, x => .ok x
  | w + 1, x => do
    let x ← insertRound S numOverlap numInserted subPcm columns x
    insertRounds S numOverlap numInserted subPcm columns w x

def pcmExtendToNRounds (pcm : Tensor) (S nRounds : Nat) :
    Except (Stop Error) (Tensor × List Nat) := do
  let origNumRounds ← div pcm.rows S
  throws (throwIf (nRounds < origNumRounds) (.invalidArgument ("extend_pcm_to_n_rounds: " ++
    "original number of rounds must be less than or equal to n_rounds")))
  let sorted ← throws (pcmIsSortedOfDense pcm (u32 S))
  throws (throwIf (sorted = false)
    (.invalidArgument "extend_pcm_to_n_rounds: input PCM is not sorted"))
  let lastRound := u32 (sizeT ((origNumRounds : Int) - 1))
  let (nonZero, _, _) ← throws (getPcmForRoundsDense pcm (u32 S) 0 lastRound true true 0)
  let numOrigNonZeroCols := u32 nonZero.cols
  let (first, firstColumn, lastColumn) ← throws (getPcmForRoundsDense pcm (u32 S) 0 0 true true 0)
  let scan ← throws (scanRounds pcm (u32 S) (List.range' 1 (origNumRounds - 1))
    ⟨first, uint32Max, 0, [firstColumn], [lastColumn]⟩)
  throws (throwIf (scan.firstMatch = uint32Max) (.invalidArgument ("extend_pcm_to_n_rounds: PCM " ++
    "round analysis determined that consecutive rounds never matched each other, so we don't " ++
    "know how to insert more rounds")))
  let numAddedRounds := u32 (nRounds - origNumRounds)
  let numAddedCols := u32 (scan.numInserted * numAddedRounds)
  let numAddedRows := u32 (S * numAddedRounds)
  let newPcm := Tensor.zeros (pcm.rows + numAddedRows) (u32 (numOrigNonZeroCols + numAddedCols))
  -- the beginning
  let (sub, _, lastColumn) ←
    throws (getPcmForRoundsDense pcm (u32 S) 0 (scan.lastMatch - 1) true true 0)
  let newPcm ← copySubPcmIntoBigPcm sub newPcm 0 0
  let x : Extension := ⟨newPcm, columnsFrom 0 lastColumn, u32 sub.rows, u32 sub.cols⟩
  -- the extension
  let (sub, firstColumn, lastColumn) ←
    throws (getPcmForRoundsDense pcm (u32 S) scan.firstMatch scan.firstMatch true true 0)
  let x ← insertRounds S scan.numOverlap scan.numInserted sub
    (columnsFrom (u32 (firstColumn + scan.numOverlap)) lastColumn) numAddedRounds x
  -- the end
  let (sub, firstColumn, lastColumn) ←
    throws (getPcmForRoundsDense pcm (u32 S) scan.lastMatch lastRound true true 0)
  let colInsertStart := u32 (sizeT ((x.newPcm.cols : Int) - ((pcm.cols : Int) - firstColumn)))
  let newPcm ← copySubPcmIntoBigPcm sub x.newPcm x.numRowsPopulated colInsertStart
  let columnList := x.columnList ++ columnsFrom (u32 (firstColumn + scan.numOverlap)) lastColumn
  throws (throwIf (columnList.length ≠ newPcm.cols) (.runtimeError
    ("extend_pcm_to_n_rounds: column_list.size() [value: " ++ toString columnList.length ++
      "] != new_pcm.shape()[1] [value: " ++ toString newPcm.cols ++ "]")))
  return (newPcm, columnList)

end CudaqQec
