import CudaqQec.ExtendedDem.Close

/-!
# The observable map of a chain

`dem_chunks_to_o_sparse` lists, for each observable, the fault columns of a chain that flip it. The
chunks own consecutive columns, in order. `flipColumns` is the walk over such columns that visits
each flip of a set column once; observable by observable it visits what the lists hold.

* `demChunksToOSparse_eq_ok`: when the map is built, and what it lists.
-/

namespace CudaqQec

open Checked SparseBinaryMatrix ExtendedDem

/-! ## Walking columns -/

/-- The flips `(column, observable)` of the set columns, the first column being number `column`. -/
@[grind =] def flipColumns (set : Nat → Bool) : Nat → List (List Nat) → List (Nat × Nat)
  | _, [] => []
  | column, g :: gs =>
    (if set column then g.map (Prod.mk column) else []) ++ flipColumns set (column + 1) gs

def flipsOf (k : Nat) (flips : List (Nat × Nat)) : List Nat :=
  (flips.filter fun p => p.2 = k).map Prod.fst

@[simp] theorem flipsOf_nil (k : Nat) : flipsOf k [] = [] := rfl

@[simp] theorem flipsOf_append (k : Nat) (a b : List (Nat × Nat)) :
    flipsOf k (a ++ b) = flipsOf k a ++ flipsOf k b := by simp [flipsOf]

theorem flipsOf_map_mk (k column : Nat) (g : List Nat) :
    flipsOf k (g.map (Prod.mk column)) = List.replicate (g.count k) column := by
  induction g with
  | nil => rfl
  | cons r g ih =>
    unfold flipsOf at ih ⊢
    rw [List.map_cons, List.filter_cons, List.count_cons]
    by_cases hr : r = k
    · simp [hr, ih, List.replicate_succ]
    · simp [hr, ih]

variable {set : Nat → Bool}

theorem flipColumns_append (column : Nat) (a b : List (List Nat)) :
    flipColumns set column (a ++ b) =
      flipColumns set column a ++ flipColumns set (column + a.length) b := by
  induction a generalizing column with
  | nil => rfl
  | cons g a ih =>
    rw [List.cons_append, flipColumns, flipColumns, ih, List.append_assoc, List.length_cons,
      Nat.add_right_comm, Nat.add_assoc]

theorem flipsOf_flipColumns (k column : Nat) (cols : List (List Nat)) :
    flipsOf k (flipColumns set column cols) =
      (flipsOf k (flipColumns (fun _ => true) column cols)).filter set := by
  induction cols generalizing column with
  | nil => rfl
  | cons g cols ih =>
    rw [flipColumns, flipColumns, flipsOf_append, flipsOf_append, ih, List.filter_append, if_pos rfl,
      flipsOf_map_mk, List.filter_replicate]
    split
    · rw [flipsOf_map_mk]
    · rfl

theorem le_of_mem_flipColumns {column : Nat} {cols : List (List Nat)} {p : Nat × Nat}
    (h : p ∈ flipColumns set column cols) : column ≤ p.1 := by
  induction cols generalizing column with
  | nil => cases h
  | cons g cols ih =>
    rw [flipColumns, List.mem_append] at h
    rcases h with h | h
    · split at h
      · obtain ⟨r, -, rfl⟩ := List.mem_map.mp h
        exact le_refl _
      · cases h
    · exact (Nat.le_succ column).trans (ih h)

theorem pairwise_flipColumns (column : Nat) (cols : List (List Nat)) :
    (flipColumns set column cols).Pairwise fun p q => p.1 ≤ q.1 := by
  induction cols generalizing column with
  | nil => exact .nil
  | cons g cols ih =>
    rw [flipColumns, List.pairwise_append]
    refine ⟨?_, ih _, ?_⟩
    · split
      · rw [List.pairwise_map]
        exact List.pairwise_of_forall fun _ _ => le_refl _
      · exact .nil
    · intro p hp q hq
      have hq' := le_of_mem_flipColumns hq
      split at hp
      · obtain ⟨r, -, rfl⟩ := List.mem_map.mp hp
        exact (Nat.le_succ column).trans hq'
      · cases hp

/-- A column is listed for an observable as often as it names it. -/
theorem count_flipsOf (k column : Nat) (cols : List (List Nat)) (j : Nat) :
    (flipsOf k (flipColumns (fun _ => true) column cols)).count j = colsAt column cols k j := by
  induction cols generalizing column with
  | nil => simp [flipColumns, colsAt]
  | cons g cols ih =>
    rw [flipColumns, if_pos rfl, flipsOf_append, flipsOf_map_mk, List.count_append, ih,
      List.count_replicate, ← List.singleton_append (x := g), colsAt_append]
    congr 1
    unfold colsAt
    by_cases hj : column = j
    · simp [hj]
    · by_cases hle : column ≤ j
      · obtain ⟨i, hi⟩ : ∃ i, j - column = i + 1 := ⟨j - column - 1, by omega⟩
        simp [hj, hi]
      · simp [hj, hle]

/-! ## `dem_chunks_to_o_sparse` -/

/-- One column: it is appended to the list of each observable it names. -/
def pushFlips (lists : List (List Nat)) (column : Nat) (rows : List Nat) : List (List Nat) :=
  rows.foldl (fun lists r => lists.modify r (· ++ [column])) lists

/-- One chunk. A chunk with no observables may carry a default-constructed `O`, which has no column
to read. -/
def pushChunk (acc : List (List Nat) × Nat) (c : ExtendedDem) :
    Except Error (List (List Nat) × Nat) := do
  throwIf (0 < c.numFaults ∧ uint32Max < acc.2 + c.numFaults - 1)
    (.overflowError "dem_chunks_to_o_sparse: global fault column exceeds uint32_t")
  if c.O.numCols = 0 then return (acc.1, acc.2 + c.numFaults)
  else
    let columns := c.O.toCsc.groups
    return ((List.range c.numFaults).foldl
      (fun lists fc => pushFlips lists (u32 (acc.2 + fc)) (columns.getD fc [])) acc.1,
      acc.2 + c.numFaults)

def demChunksToOSparse (chunks : List ExtendedDem) : Except Error (List (List Nat)) := do
  throwIf (chunks = [])
    (.invalidArgument "dem_chunks_to_o_sparse: dem_chunks must be non-empty")
  forM (List.range chunks.length) fun i =>
    (chunks.getD i .empty).validate ("dem_chunks_to_o_sparse: chunk " ++ toString i)
  forM (List.range (chunks.length - 1)) fun i =>
    throwIf ((chunks.getD (i + 1) .empty).numObservables ≠ (chunks.headD .empty).numObservables)
      (.invalidArgument ("dem_chunks_to_o_sparse: observable count mismatch at chunk " ++
        toString (i + 1)))
  let acc ← chunks.foldlM pushChunk
    (List.replicate (chunks.headD .empty).numObservables [], 0)
  return acc.1

theorem length_pushFlips (lists : List (List Nat)) (column : Nat) (rows : List Nat) :
    (pushFlips lists column rows).length = lists.length := by
  unfold pushFlips
  induction rows generalizing lists with
  | nil => rfl
  | cons r rows ih => rw [List.foldl_cons, ih, List.length_modify]

theorem getD_pushFlips (lists : List (List Nat)) (column : Nat) (rows : List Nat) {k : Nat}
    (hk : k < lists.length) :
    (pushFlips lists column rows).getD k [] =
      lists.getD k [] ++ List.replicate (rows.count k) column := by
  unfold pushFlips
  induction rows generalizing lists with
  | nil => simp
  | cons r rows ih =>
    have hget : (lists.modify r (· ++ [column])).getD k [] =
        lists.getD k [] ++ (if r = k then [column] else []) := by
      rw [List.getD_eq_getElem?_getD, List.getElem?_modify, List.getD_eq_getElem?_getD,
        List.getElem?_eq_getElem hk]
      split <;> simp
    rw [List.foldl_cons, ih _ (by rwa [List.length_modify]), hget, List.append_assoc,
      List.count_cons]
    by_cases hr : r = k
    · simp [hr, List.replicate_succ]
    · simp [hr]

/-- The lists after some more columns: `lists` with their flips appended. -/
structure Appends (lists lists' : List (List Nat)) (flips : List (Nat × Nat)) : Prop where
  length : lists'.length = lists.length
  getD : ∀ k < lists.length, lists'.getD k [] = lists.getD k [] ++ flipsOf k flips

theorem Appends.trans {l l' l'' : List (List Nat)} {a b : List (Nat × Nat)} (h : Appends l l' a)
    (h' : Appends l' l'' b) : Appends l l'' (a ++ b) := by
  refine ⟨h'.length.trans h.length, fun k hk => ?_⟩
  rw [h'.getD k (by rw [h.length]; exact hk), h.getD k hk, List.append_assoc, flipsOf_append]

theorem appends_pushColumns (lists : List (List Nat)) (off : Nat) (columns : List (List Nat))
    {n : Nat} (hn : n ≤ columns.length) (hoff : off + n ≤ 2 ^ 32) :
    Appends lists ((List.range n).foldl
      (fun lists fc => pushFlips lists (u32 (off + fc)) (columns.getD fc [])) lists)
      (flipColumns (fun _ => true) off (columns.take n)) := by
  induction n with
  | zero => exact ⟨rfl, by simp [flipColumns]⟩
  | succ n ih =>
    have hlt : n < columns.length := hn
    rw [List.range_succ, List.foldl_append, List.foldl_cons, List.foldl_nil, List.take_add_one,
      List.getElem?_eq_getElem hlt, flipColumns_append, List.length_take, Nat.min_eq_left (by omega)]
    refine (ih (by omega) (by omega)).trans ⟨length_pushFlips _ _ _, fun k hk => ?_⟩
    have hcol : columns.getD n [] = columns[n] := by simp [List.getD_eq_getElem?_getD, hlt]
    rw [getD_pushFlips _ _ _ hk, u32_of_lt (by omega), hcol]
    simp [flipColumns, flipsOf_map_mk]

theorem flipColumns_replicate_nil (column n : Nat) :
    flipColumns set column (List.replicate n []) = [] := by
  induction n generalizing column with
  | zero => rfl
  | succ n ih =>
    rw [List.replicate_succ, flipColumns, ih]
    simp

theorem exists_pushChunk {acc : List (List Nat) × Nat} {c : ExtendedDem} (hv : c.Valid)
    (h : acc.2 + c.numFaults ≤ 2 ^ 32) :
    ∃ lists, pushChunk acc c = .ok (lists, acc.2 + c.numFaults) ∧
      Appends acc.1 lists (flipColumns (fun _ => true) acc.2 (chunkOColumns c)) := by
  have hfit : ¬ (0 < c.numFaults ∧ uint32Max < acc.2 + c.numFaults - 1) := by
    unfold uint32Max
    omega
  have hlen := Valid.length_chunkOColumns hv
  unfold pushChunk
  rw [throwIf_of_not hfit, ok_bind]
  unfold chunkOColumns at hlen ⊢
  split
  · refine ⟨acc.1, rfl, rfl, fun k _ => ?_⟩
    rw [flipColumns_replicate_nil, flipsOf_nil, List.append_nil]
  · next h0 =>
    rw [if_neg h0, toNestedCsc_toCsc] at hlen
    refine ⟨_, rfl, ?_⟩
    rw [groups_toCsc, toNestedCsc_toCsc]
    have happ := appends_pushColumns acc.1 acc.2 c.O.toNestedCsc hlen.ge h
    rwa [List.take_of_length_le hlen.le] at happ

theorem le_of_pushChunk {acc acc' : List (List Nat) × Nat} {c : ExtendedDem}
    (hacc : acc.2 ≤ 2 ^ 32) (h : pushChunk acc c = .ok acc') : acc.2 + c.numFaults ≤ 2 ^ 32 := by
  simp only [pushChunk, bind_eq_ok, throwIf_eq_ok] at h
  obtain ⟨_, hfit, -⟩ := h
  unfold uint32Max at hfit
  omega

/-- The pass over the chunks: it stops where the columns no longer fit. -/
theorem foldlM_pushChunk_eq_ok {acc acc' : List (List Nat) × Nat} {cs : List ExtendedDem}
    (hv : ∀ c ∈ cs, c.Valid) (hacc : acc.2 ≤ 2 ^ 32) (h : cs.foldlM pushChunk acc = .ok acc') :
    acc.2 + chainFaults cs ≤ 2 ^ 32 ∧
      Appends acc.1 acc'.1 (flipColumns (fun _ => true) acc.2 (chainOColumns cs)) := by
  induction cs generalizing acc with
  | nil =>
    cases h
    exact ⟨hacc, rfl, by simp [chainOColumns, flipColumns]⟩
  | cons c cs ih =>
    rw [List.foldlM_cons, bind_eq_ok] at h
    obtain ⟨acc₁, h1, h2⟩ := h
    have hle := le_of_pushChunk hacc h1
    have hvc := hv c (by simp)
    obtain ⟨lists, hok, happ⟩ := exists_pushChunk hvc hle
    rw [h1] at hok
    obtain rfl := Except.ok.inj hok
    obtain ⟨htot, hrest⟩ := ih (fun c hc => hv c (by simp [hc])) hle h2
    refine ⟨?_, ?_⟩
    · simp only [chainFaults, List.map_cons, List.sum_cons] at htot ⊢
      omega
    · rw [chainOColumns_cons, flipColumns_append, Valid.length_chunkOColumns hvc]
      exact happ.trans hrest

theorem exists_foldlM_pushChunk {acc : List (List Nat) × Nat} {cs : List ExtendedDem}
    (hv : ∀ c ∈ cs, c.Valid) (h : acc.2 + chainFaults cs ≤ 2 ^ 32) :
    ∃ acc', cs.foldlM pushChunk acc = .ok acc' := by
  induction cs generalizing acc with
  | nil => exact ⟨acc, rfl⟩
  | cons c cs ih =>
    simp only [chainFaults, List.map_cons, List.sum_cons] at h
    have hle : acc.2 + c.numFaults ≤ 2 ^ 32 := by omega
    obtain ⟨lists, hok, -⟩ := exists_pushChunk (hv c (by simp)) hle
    rw [List.foldlM_cons, hok, ok_bind]
    refine ih (fun c hc => hv c (by simp [hc])) ?_
    simp only [chainFaults]
    omega

/-- Every chunk is valid, and all have the observables of the first. -/
structure SameObservables (chunks : List ExtendedDem) : Prop where
  ne_nil : chunks ≠ []
  valid : ∀ c ∈ chunks, c.Valid
  obs : ∀ c ∈ chunks, c.numObservables = (chunks.headD .empty).numObservables

/-- The lists of the map: observable by observable, the columns that flip it. -/
def flipLists (chunks : List ExtendedDem) : List (List Nat) :=
  (List.range (chunks.headD .empty).numObservables).map fun k =>
    flipsOf k (flipColumns (fun _ => true) 0 (chainOColumns chunks))

theorem getD_flipLists {chunks : List ExtendedDem} (hs : SameObservables chunks) (k : Nat) :
    (flipLists chunks).getD k [] =
      flipsOf k (flipColumns (fun _ => true) 0 (chainOColumns chunks)) := by
  unfold flipLists
  rw [getD_map_range]
  split
  · rfl
  · next hk =>
    -- No column names an observable the chunks do not have.
    rw [eq_comm, List.eq_nil_iff_forall_not_mem]
    intro j hj
    have hcount := List.count_pos_iff.mpr hj
    rw [count_flipsOf, colsAt, if_pos (Nat.zero_le _)] at hcount
    have hmem := List.count_pos_iff.mp hcount
    have hgroup := getD_mem hmem
    generalize (chainOColumns chunks).getD (j - 0) [] = g at hmem hgroup
    obtain ⟨c, hc, hg⟩ := List.mem_flatMap.mp hgroup
    split at hg
    · rw [List.eq_of_mem_replicate hg] at hmem
      cases hmem
    · rw [toNestedCsc_toCsc] at hg
      have hlt := c.O.mem_toNestedCsc_lt hg hmem
      have hobs : c.O.numRows = (chunks.headD .empty).numObservables := hs.obs c hc
      omega

/-- `dem_chunks_to_o_sparse` returns exactly when its chunks agree and their columns fit. -/
theorem demChunksToOSparse_eq_ok {chunks : List ExtendedDem} {o : List (List Nat)} :
    demChunksToOSparse chunks = .ok o ↔
      SameObservables chunks ∧ chainFaults chunks ≤ 2 ^ 32 ∧ o = flipLists chunks := by
  have hvalid : (∀ i ∈ List.range chunks.length, (chunks.getD i .empty).validate
      ("dem_chunks_to_o_sparse: chunk " ++ toString i) = .ok ()) ↔ ∀ c ∈ chunks, c.Valid := by
    simp only [List.mem_range, validate_eq_ok]
    exact forall_getD
  have hobs : chunks ≠ [] → ((∀ i ∈ List.range (chunks.length - 1),
      (chunks.getD (i + 1) .empty).numObservables = (chunks.headD .empty).numObservables) ↔
        ∀ c ∈ chunks, c.numObservables = (chunks.headD .empty).numObservables) := by
    intro hne
    obtain ⟨c, cs, rfl⟩ := List.exists_cons_of_ne_nil hne
    have htail : (∀ i < cs.length, (cs.getD i .empty).numObservables = c.numObservables) ↔
        ∀ d ∈ cs, d.numObservables = c.numObservables :=
      forall_getD (P := fun d => d.numObservables = c.numObservables)
    simp only [List.mem_range, List.length_cons, Nat.add_sub_cancel, List.getD_cons_succ,
      List.headD_cons, List.forall_mem_cons, true_and]
    exact htail
  -- The pass itself, from empty lists.
  have hpass : (∀ c ∈ chunks, c.Valid) → ∀ acc, chunks.foldlM pushChunk
      (List.replicate (chunks.headD .empty).numObservables [], 0) = .ok acc →
        chainFaults chunks ≤ 2 ^ 32 ∧ acc.1 = flipLists chunks := by
    intro hv acc hacc
    obtain ⟨hle, happ⟩ := foldlM_pushChunk_eq_ok hv (by simp) hacc
    refine ⟨by simpa using hle, ?_⟩
    have hlen := happ.length
    rw [List.length_replicate] at hlen
    apply List.ext_getElem (by simp [flipLists, hlen])
    intro k hk hk'
    have hget := happ.getD k (by simpa [hlen] using hk)
    rw [List.getD_eq_getElem?_getD, List.getElem?_eq_getElem hk, Option.getD_some,
      getD_replicate_self, List.nil_append] at hget
    rw [hget]
    simp [flipLists]
  simp only [demChunksToOSparse, bind_eq_ok, throwIf_eq_ok, forM_eq_ok, ne_eq, not_not]
  constructor
  · rintro ⟨_, hne, _, h1, _, h2, acc, hacc, hok⟩
    have hv := hvalid.mp h1
    obtain ⟨hle, heq⟩ := hpass hv acc hacc
    exact ⟨⟨hne, hv, (hobs hne).mp h2⟩, hle, (Except.ok.inj hok).symm.trans heq⟩
  · rintro ⟨⟨hne, hv, ho⟩, hle, rfl⟩
    have hle' : (List.replicate (chunks.headD .empty).numObservables ([] : List Nat), 0).2 +
        chainFaults chunks ≤ 2 ^ 32 := by simpa using hle
    obtain ⟨acc, hacc⟩ := exists_foldlM_pushChunk hv hle'
    exact ⟨(), hne, (), hvalid.mpr hv, (), (hobs hne).mpr ho, acc, hacc,
      congrArg Except.ok (hpass hv acc hacc).2⟩

end CudaqQec
