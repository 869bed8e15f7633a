import CudaqQec.Codes.SurfaceGrid
import Mathlib.Algebra.BigOperators.Group.Finset.Basic
import Mathlib.Algebra.BigOperators.Intervals
import Mathlib.Algebra.Group.Even
import Mathlib.Data.Int.Basic

/-!
# The stabilizers of the surface code

A stabilizer acts on the data qubits that its site touches. X and Z sites have different parities, and two
of those touch common qubits only as neighbours, and then two of them.

* `even_overlap`: sites of different parities share an even number of data qubits.
* `length_coordsOf`: there are `d * d - 1` sites.
-/

namespace CudaqQec.SurfaceCode

variable {d : Nat} {orientation : ScOrientation} {c c' q : Vec2d}

theorem ScOrientation.topParity_eq (orientation : ScOrientation) :
    orientation.topParity = 0 ∨ orientation.topParity = 1 := by
  cases orientation <;> simp [topParity]

theorem ScOrientation.xParity_eq (orientation : ScOrientation) :
    orientation.xParity = 0 ∨ orientation.xParity = 1 := by
  cases orientation <;> simp [xParity]

/-! ## Data qubits -/

def InData (d : Nat) (q : Vec2d) : Prop := (0 ≤ q.row ∧ q.row < d) ∧ 0 ≤ q.col ∧ q.col < d

instance (d : Nat) (q : Vec2d) : Decidable (InData d q) := inferInstanceAs (Decidable (_ ∧ _))

def index (d : Nat) (q : Vec2d) : Nat := q.row.toNat * d + q.col.toNat

/-- A site touches the four data qubits around it. -/
def Touches (c q : Vec2d) : Prop :=
  (q.row = c.row - 1 ∨ q.row = c.row) ∧ (q.col = c.col - 1 ∨ q.col = c.col)

instance (c q : Vec2d) : Decidable (Touches c q) := inferInstanceAs (Decidable (_ ∧ _))

theorem coord_toNat (hrow : 0 ≤ q.row) (hcol : 0 ≤ q.col) : coord (q.row.toNat, q.col.toNat) = q := by
  ext
  · exact Int.toNat_of_nonneg hrow
  · exact Int.toNat_of_nonneg hcol

theorem coord_injective : Function.Injective coord := by
  rintro ⟨r, c⟩ ⟨r', c'⟩ h
  obtain ⟨hrow, hcol⟩ := Vec2d.ext_iff.mp h
  simp only [coord] at hrow hcol
  rw [Prod.mk.injEq]
  omega

theorem lookup_map_of_mem {α κ β : Type} [DecidableEq κ] {k : α → κ} {f : α → β} (hk : Function.Injective k)
    {l : List α} {a : α} (ha : a ∈ l) : (l.map fun a => (k a, f a)).lookup (k a) = some (f a) := by
  induction l with
  | nil => cases ha
  | cons b l ih =>
    rw [List.map_cons, List.lookup_cons]
    by_cases hab : k a = k b
    · rw [hk hab, beq_self_eq_true]
    · rw [beq_false_of_ne hab]
      rcases List.mem_cons.mp ha with rfl | ha
      · exact absurd rfl hab
      · exact ih ha

theorem lookup_map_of_forall_ne {α κ β : Type} [DecidableEq κ] {k : α → κ} {f : α → β} {l : List α} {x : κ}
    (hx : ∀ a ∈ l, x ≠ k a) : (l.map fun a => (k a, f a)).lookup x = none := by
  induction l with
  | nil => rfl
  | cons b l ih =>
    obtain ⟨hb, hl⟩ := List.forall_mem_cons.mp hx
    rw [List.map_cons, List.lookup_cons, beq_false_of_ne hb]
    exact ih hl

theorem lookup_dataIndicesOf (d : Nat) (q : Vec2d) :
    (dataIndicesOf d).lookup q = if InData d q then some (index d q) else none := by
  by_cases hq : InData d q
  · rw [if_pos hq, ← coord_toNat hq.1.1 hq.2.1]
    refine lookup_map_of_mem coord_injective (mem_square.mpr ?_)
    obtain ⟨⟨h1, h2⟩, h3, h4⟩ := hq
    omega
  · rw [if_neg hq]
    apply lookup_map_of_forall_ne
    rintro site hsite rfl
    obtain ⟨hrow, hcol⟩ := mem_square.mp hsite
    apply hq
    simp only [InData, coord]
    omega

theorem index_lt (hq : InData d q) : index d q < d * d := by
  obtain ⟨⟨h1, h2⟩, h3, h4⟩ := hq
  exact site_lt (by omega) (by omega)

theorem index_inj {q q' : Vec2d} (hq : InData d q) (hq' : InData d q') : index d q = index d q' ↔ q = q' := by
  obtain ⟨⟨h1, h2⟩, h3, h4⟩ := hq
  obtain ⟨⟨h1', h2'⟩, h3', h4'⟩ := hq'
  rw [index, index, site_inj (by omega) (by omega), Vec2d.ext_iff]
  omega

theorem mem_offsets_iff {c q : Vec2d} : (∃ offset ∈ offsets, c.add offset = q) ↔ Touches c q := by
  simp only [offsets, List.flatMap_cons, List.map_cons, List.map_nil, List.flatMap_nil, List.cons_append,
    List.nil_append, List.exists_mem_cons_iff, List.not_mem_nil, false_and, exists_false, or_false,
    Vec2d.add, Vec2d.ext_iff, Touches]
  omega

def corners (d : Nat) (c : Vec2d) : List Vec2d := (offsets.map c.add).filter fun q => decide (InData d q)

theorem filterMap_lookup (d : Nat) (c : Vec2d) :
    (offsets.filterMap fun offset => (dataIndicesOf d).lookup (c.add offset)) = (corners d c).map (index d) := by
  rw [corners, List.filter_map, List.map_map]
  induction offsets with
  | nil => rfl
  | cons offset offsets ih =>
    rw [List.filterMap_cons, lookup_dataIndicesOf, ih]
    by_cases hq : InData d (c.add offset) <;> simp [hq]

theorem mem_corners : q ∈ corners d c ↔ InData d q ∧ Touches c q := by
  rw [corners, List.mem_filter, List.mem_map, mem_offsets_iff, decide_eq_true_eq, and_comm]

theorem nodup_map_offsets (c : Vec2d) : (offsets.map c.add).Nodup := by
  have hoffsets : offsets.Nodup := by decide
  refine hoffsets.map ?_
  intro a b h
  simp only [Vec2d.add, Vec2d.mk.injEq, Int.add_right_inj] at h
  exact Vec2d.ext h.1 h.2

theorem nodup_corners (d : Nat) (c : Vec2d) : (corners d c).Nodup := (nodup_map_offsets c).filter _

/-- The stabilizer of a site acts on the data qubits that the site touches. -/
theorem perm_stabilizerAt (d : Nat) (c : Vec2d) :
    (stabilizerAt (dataIndicesOf d) c).Perm ((corners d c).map (index d)) := by
  rw [stabilizerAt, filterMap_lookup]
  exact List.perm_insertionSort _ _

theorem mem_stabilizerAt {i : Nat} :
    i ∈ stabilizerAt (dataIndicesOf d) c ↔ ∃ q, (InData d q ∧ Touches c q) ∧ index d q = i := by
  rw [(perm_stabilizerAt d c).mem_iff, List.mem_map]
  simp only [mem_corners]

theorem index_mem_stabilizerAt (hq : InData d q) :
    index d q ∈ stabilizerAt (dataIndicesOf d) c ↔ Touches c q := by
  rw [mem_stabilizerAt]
  constructor
  · rintro ⟨q', ⟨hq', htouches⟩, heq⟩
    exact (index_inj hq' hq).mp heq ▸ htouches
  · exact fun htouches => ⟨q, ⟨hq, htouches⟩, rfl⟩

theorem nodup_stabilizerAt (d : Nat) (c : Vec2d) : (stabilizerAt (dataIndicesOf d) c).Nodup := by
  rw [(perm_stabilizerAt d c).nodup_iff]
  refine (nodup_corners d c).map_on ?_
  intro q hq q' hq' h
  exact (index_inj (mem_corners.mp hq).1 (mem_corners.mp hq').1).mp h

/-- Ascending, each once. -/
theorem pairwise_stabilizerAt (d : Nat) (c : Vec2d) : (stabilizerAt (dataIndicesOf d) c).Pairwise (· < ·) := by
  have hsorted := List.pairwise_insertionSort (· ≤ ·)
    (offsets.filterMap fun offset => (dataIndicesOf d).lookup (c.add offset))
  exact (hsorted.and (nodup_stabilizerAt d c)).imp fun ⟨hle, hne⟩ => lt_of_le_of_ne hle hne

/-! ## Overlaps -/

def overlap (a b : List Nat) : Nat := (a.filter fun i => decide (i ∈ b)).length

theorem overlap_stabilizerAt (d : Nat) (c : Vec2d) (b : List Nat) :
    overlap (stabilizerAt (dataIndicesOf d) c) b =
      offsets.countP fun offset => decide (InData d (c.add offset) ∧ index d (c.add offset) ∈ b) := by
  have hperm := (perm_stabilizerAt d c).filter fun i => decide (i ∈ b)
  rw [overlap, hperm.length_eq, corners, ← List.countP_eq_length_filter, List.countP_map, List.countP_filter,
    List.countP_map]
  simp [Function.comp_def, Bool.and_comm]

/-- The offsets of which something holds come in pairs if they do along one of the two directions. -/
theorem even_countP_offsets {p : Vec2d → Prop} [DecidablePred p]
    (h : ((p ⟨-1, -1⟩ ↔ p ⟨-1, 0⟩) ∧ (p ⟨0, -1⟩ ↔ p ⟨0, 0⟩)) ∨
      ((p ⟨-1, -1⟩ ↔ p ⟨0, -1⟩) ∧ (p ⟨-1, 0⟩ ↔ p ⟨0, 0⟩))) :
    Even (offsets.countP fun offset => decide (p offset)) := by
  have hcount : (offsets.countP fun offset => decide (p offset)) =
      (if p ⟨0, 0⟩ then 1 else 0) + (if p ⟨0, -1⟩ then 1 else 0) + (if p ⟨-1, 0⟩ then 1 else 0) +
        if p ⟨-1, -1⟩ then 1 else 0 := by
    simp only [offsets, List.flatMap_cons, List.flatMap_nil, List.map_cons, List.map_nil, List.cons_append,
      List.nil_append, List.countP_cons, List.countP_nil, decide_eq_true_eq, Nat.zero_add]
  rw [hcount, Nat.even_iff]
  rcases h with ⟨h₁, h₂⟩ | ⟨h₁, h₂⟩
  · simp only [h₁, h₂]
    omega
  · simp only [h₁, h₂]
    omega

/-- The sites on the top and bottom edges have one parity, and those on the left and right ones the
other. -/
theorem IsSite.inside (hc : IsSite d orientation c) :
    ((c.row + c.col) % 2 ≠ orientation.topParity → 0 < c.row ∧ c.row < d) ∧
      ((c.row + c.col) % 2 = orientation.topParity → 0 < c.col ∧ c.col < d) := by
  rcases hc with hinside | hrows | hcols <;> constructor <;> intro h <;> omega

/-- Neighbouring sites share two data qubits, and others of different parities none. -/
theorem even_overlap (hc : IsSite d orientation c) (hc' : IsSite d orientation c')
    (hparity : (c.row + c.col) % 2 ≠ (c'.row + c'.col) % 2) :
    Even (overlap (stabilizerAt (dataIndicesOf d) c) (stabilizerAt (dataIndicesOf d) c')) := by
  have hshared : ∀ offset, (InData d (c.add offset) ∧ index d (c.add offset) ∈ stabilizerAt (dataIndicesOf d) c') ↔
      InData d (c.add offset) ∧ Touches c' (c.add offset) :=
    fun offset => and_congr_right index_mem_stabilizerAt
  rw [overlap_stabilizerAt]
  have htop := orientation.topParity_eq
  simp only [hshared]
  apply even_countP_offsets
  simp only [InData, Touches, Vec2d.add]
  obtain ⟨hin, hin'⟩ := And.intro hc.inside hc'.inside
  clear hc hc' hshared
  by_cases hrow : c'.row = c.row
  · -- in one row, and not on an edge of it
    right
    have hinside : 0 < c.row ∧ c.row < d := by
      by_cases hedge : (c.row + c.col) % 2 = orientation.topParity
      · exact hrow ▸ hin'.1 (hedge ▸ hparity.symm)
      · exact hin.1 hedge
    clear hin hin' hparity htop
    refine ⟨⟨fun h => ?_, fun h => ?_⟩, ⟨fun h => ?_, fun h => ?_⟩⟩ <;> omega
  by_cases hcol : c'.col = c.col
  · left
    have hinside : 0 < c.col ∧ c.col < d := by
      by_cases hedge : (c.row + c.col) % 2 = orientation.topParity
      · exact hin.2 hedge
      · exact hcol ▸ hin'.2 (by clear hin hin'; omega)
    clear hin hin' hparity htop
    refine ⟨⟨fun h => ?_, fun h => ?_⟩, ⟨fun h => ?_, fun h => ?_⟩⟩ <;> omega
  · left
    have hfar : ¬ ((c'.row = c.row + 1 ∨ c'.row = c.row - 1) ∧ (c'.col = c.col + 1 ∨ c'.col = c.col - 1)) := by
      clear hin hin' htop
      omega
    clear hin hin' hparity htop
    refine ⟨⟨fun h => ?_, fun h => ?_⟩, ⟨fun h => ?_, fun h => ?_⟩⟩ <;> omega

/-! ## Sites -/

theorem roleAt_ne_empty {row col : Nat} :
    roleAt d orientation row col ≠ .empty ↔ IsSite d orientation (coord (row, col)) := by
  rw [roleAt]
  split
  · next h =>
    refine iff_of_true ?_ h
    rw [roleForParity]
    split <;> simp
  · next h => exact iff_of_false (fun hne => hne rfl) h

theorem roleForParity_eq_amx {row col : Nat} :
    roleForParity orientation (isOddParity row col) = .amx ↔
      ((row : Int) + col) % 2 = orientation.xParity := by
  have hodd : isOddParity row col = true ↔ ((row : Int) + col) % 2 = 1 := by
    rw [isOddParity, decide_eq_true_eq]
    omega
  have heven : isOddParity row col = false ↔ ((row : Int) + col) % 2 = 0 := by
    rw [isOddParity, decide_eq_false_iff_not]
    omega
  cases orientation <;> grind [roleForParity, ScOrientation.xParity]

theorem roleForParity_eq_amz {orientation : ScOrientation} {oddParity : Bool} :
    roleForParity orientation oddParity = .amz ↔ ¬ roleForParity orientation oddParity = .amx := by
  cases orientation <;> cases oddParity <;> decide

theorem IsSite.bounds (h : IsSite d orientation c) : (0 ≤ c.row ∧ c.row ≤ d) ∧ 0 ≤ c.col ∧ c.col ≤ d := by
  unfold IsSite at h
  omega

theorem mem_coordsOf {role : SurfaceRole} :
    c ∈ coordsOf d orientation role ↔ ((0 ≤ c.row ∧ c.row ≤ d) ∧ 0 ≤ c.col ∧ c.col ≤ d) ∧
      roleAt d orientation c.row.toNat c.col.toNat = role := by
  simp only [coordsOf, List.mem_map, List.mem_filter, mem_square, decide_eq_true_eq]
  constructor
  · rintro ⟨⟨row, col⟩, ⟨hlt, hrole⟩, rfl⟩
    refine ⟨?_, hrole⟩
    simp only [coord]
    omega
  · rintro ⟨hbounds, hrole⟩
    exact ⟨(c.row.toNat, c.col.toNat), ⟨by omega, hrole⟩, coord_toNat hbounds.1.1 hbounds.2.1⟩

theorem mem_coordsOf_amx : c ∈ coordsOf d orientation .amx ↔
    IsSite d orientation c ∧ (c.row + c.col) % 2 = orientation.xParity := by
  rw [mem_coordsOf]
  constructor
  · rintro ⟨hbounds, hrole⟩
    have hcoord := coord_toNat hbounds.1.1 hbounds.2.1
    have hsite := roleAt_ne_empty.mp (by rw [hrole]; decide)
    rw [roleAt, if_pos hsite, roleForParity_eq_amx] at hrole
    rw [hcoord] at hsite
    exact ⟨hsite, by omega⟩
  · rintro ⟨hsite, hparity⟩
    have hbounds := hsite.bounds
    have hcoord := coord_toNat hbounds.1.1 hbounds.2.1
    refine ⟨hbounds, ?_⟩
    rw [roleAt, hcoord, if_pos hsite, roleForParity_eq_amx]
    omega

theorem mem_coordsOf_amz : c ∈ coordsOf d orientation .amz ↔
    IsSite d orientation c ∧ (c.row + c.col) % 2 ≠ orientation.xParity := by
  rw [mem_coordsOf]
  constructor
  · rintro ⟨hbounds, hrole⟩
    have hcoord := coord_toNat hbounds.1.1 hbounds.2.1
    have hsite := roleAt_ne_empty.mp (by rw [hrole]; decide)
    rw [roleAt, if_pos hsite, roleForParity_eq_amz, roleForParity_eq_amx] at hrole
    rw [hcoord] at hsite
    exact ⟨hsite, by omega⟩
  · rintro ⟨hsite, hparity⟩
    have hbounds := hsite.bounds
    have hcoord := coord_toNat hbounds.1.1 hbounds.2.1
    refine ⟨hbounds, ?_⟩
    rw [roleAt, hcoord, if_pos hsite, roleForParity_eq_amz, roleForParity_eq_amx]
    omega

theorem nodup_coordsOf (d : Nat) (orientation : ScOrientation) (role : SurfaceRole) :
    (coordsOf d orientation role).Nodup :=
  ((nodup_square _).filter _).map coord_injective

/-! ## How many -/

/-- A sum over a row of sites, its ends apart. -/
theorem sum_ends (f : Nat → Nat) (n : Nat) :
    ∑ i ∈ Finset.range (n + 2), f i = f 0 + ∑ i ∈ Finset.range n, f (i + 1) + f (n + 1) := by
  rw [Finset.sum_range_succ, Finset.sum_range_succ']
  omega

def siteCount (d : Nat) (orientation : ScOrientation) (row col : Nat) : Nat :=
  if IsSite d orientation (coord (row, col)) then 1 else 0

theorem sum_map_range (f : Nat → Nat) (n : Nat) : ((List.range n).map f).sum = ∑ i ∈ Finset.range n, f i := rfl

theorem countP_range (n : Nat) (p : Nat → Prop) [DecidablePred p] :
    (List.range n).countP (fun i => decide (p i)) = ∑ i ∈ Finset.range n, if p i then 1 else 0 := by
  induction n with
  | zero => rfl
  | succ n ih =>
    rw [List.range_succ, List.countP_append, ih, Finset.sum_range_succ, List.countP_singleton]
    simp

theorem countP_square (n : Nat) (p : Nat → Nat → Prop) [∀ row col, Decidable (p row col)] :
    (square n).countP (fun site => decide (p site.1 site.2)) =
      ∑ row ∈ Finset.range n, ∑ col ∈ Finset.range n, if p row col then 1 else 0 := by
  rw [square, List.product, List.countP_flatMap, sum_map_range]
  refine Finset.sum_congr rfl fun row _ => ?_
  rw [Function.comp_apply, List.countP_map]
  exact countP_range n (p row)

theorem siteCount_inside {row col : Nat} (hrow : 0 < row ∧ row < d) (hcol : 0 < col ∧ col < d) :
    siteCount d orientation row col = 1 := if_pos (isSite_coord.mpr (.inl ⟨hrow, hcol⟩))

theorem siteCount_corner {row col : Nat} (hrow : row = 0 ∨ row = d) (hcol : col = 0 ∨ col = d) :
    siteCount d orientation row col = 0 := by
  refine if_neg fun h => ?_
  rw [isSite_coord] at h
  omega

/-- Between them the top and the left edge have a stabilizer for every number inside, and so have the
bottom and the right edge. -/
theorem siteCount_edges {edge k : Nat} (hedge : edge = 0 ∨ edge = d) (hk : 0 < k ∧ k < d) :
    siteCount d orientation edge k + siteCount d orientation k edge = 1 := by
  have hfirst : IsSite d orientation (coord (edge, k)) ↔ ((edge : Int) + k) % 2 = orientation.topParity := by
    rw [isSite_coord]
    omega
  have hsecond : IsSite d orientation (coord (k, edge)) ↔ ¬ ((edge : Int) + k) % 2 = orientation.topParity := by
    rw [isSite_coord, add_comm (k : Int)]
    omega
  rw [siteCount, siteCount, if_congr hfirst rfl rfl, if_congr hsecond rfl rfl]
  by_cases h : ((edge : Int) + k) % 2 = orientation.topParity
  · rw [if_pos h, if_neg (not_not_intro h)]
  · rw [if_neg h, if_pos h]

/-- The sites of a grid. -/
theorem sum_siteCount (n : Nat) (orientation : ScOrientation) :
    ∑ row ∈ Finset.range (n + 2), ∑ col ∈ Finset.range (n + 2), siteCount (n + 1) orientation row col =
      (n + 1) * (n + 1) - 1 := by
  have hinside (row : Nat) (hrow : row ∈ Finset.range n) :
      ∑ col ∈ Finset.range (n + 2), siteCount (n + 1) orientation (row + 1) col =
        siteCount (n + 1) orientation (row + 1) 0 + n + siteCount (n + 1) orientation (row + 1) (n + 1) := by
    have hones : ∑ col ∈ Finset.range n, siteCount (n + 1) orientation (row + 1) (col + 1) =
        (Finset.range n).card * 1 := by
      refine Finset.sum_const_nat fun col hcol => ?_
      rw [Finset.mem_range] at hrow hcol
      exact siteCount_inside (by omega) (by omega)
    rw [sum_ends, hones, Finset.card_range, mul_one]
  have hpairs (edge : Nat) (hedge : edge = 0 ∨ edge = n + 1) :
      ∑ k ∈ Finset.range n, siteCount (n + 1) orientation edge (k + 1) +
        ∑ k ∈ Finset.range n, siteCount (n + 1) orientation (k + 1) edge = n := by
    have hones : ∑ k ∈ Finset.range n, (siteCount (n + 1) orientation edge (k + 1) +
        siteCount (n + 1) orientation (k + 1) edge) = (Finset.range n).card * 1 := by
      refine Finset.sum_const_nat fun k hk => ?_
      rw [Finset.mem_range] at hk
      exact siteCount_edges hedge (by omega)
    rw [← Finset.sum_add_distrib, hones, Finset.card_range, mul_one]
  have htop := hpairs 0 (.inl rfl)
  have hbottom := hpairs (n + 1) (.inr rfl)
  rw [sum_ends, Finset.sum_congr rfl hinside, Finset.sum_add_distrib, Finset.sum_add_distrib, sum_ends,
    sum_ends, siteCount_corner (.inl rfl) (.inl rfl), siteCount_corner (.inl rfl) (.inr rfl),
    siteCount_corner (.inr rfl) (.inl rfl), siteCount_corner (.inr rfl) (.inr rfl),
    Finset.sum_const_nat (m := n) fun _ _ => rfl, Finset.card_range]
  have hsquare : (n + 1) * (n + 1) = n * n + n + n + 1 := by ring
  omega

theorem countP_roleAt (d : Nat) (orientation : ScOrientation) (sites : List (Nat × Nat)) :
    sites.countP (fun site => decide (roleAt d orientation site.1 site.2 = .amx)) +
      sites.countP (fun site => decide (roleAt d orientation site.1 site.2 = .amz)) =
    sites.countP fun site => decide (IsSite d orientation (coord (site.1, site.2))) := by
  induction sites with
  | nil => rfl
  | cons site sites ih =>
    have hne : roleAt d orientation site.1 site.2 ≠ .empty ↔ IsSite d orientation (coord (site.1, site.2)) :=
      roleAt_ne_empty
    simp only [List.countP_cons, decide_eq_true_eq, ← ih, ← hne]
    cases roleAt d orientation site.1 site.2 <;> simp <;> omega

theorem length_coordsOf (hd : 0 < d) (orientation : ScOrientation) :
    (coordsOf d orientation .amx).length + (coordsOf d orientation .amz).length = d * d - 1 := by
  obtain ⟨n, rfl⟩ := Nat.exists_eq_succ_of_ne_zero hd.ne'
  rw [coordsOf, coordsOf, List.length_map, List.length_map, ← List.countP_eq_length_filter,
    ← List.countP_eq_length_filter, countP_roleAt]
  exact (countP_square _ fun row col => IsSite _ orientation (coord (row, col))).trans (sum_siteCount n orientation)

end CudaqQec.SurfaceCode
