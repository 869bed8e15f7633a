import CudaqQec.Codes.SurfaceCode
import Mathlib.Data.Nat.Prime.Basic

/-!
# The sizes of the surface code

A `surface_code` counts its stabilizers and ancilla qubits by formulas in its distance, a `size_t`, while
its grid is built from the distance as a `uint32_t`. At an odd distance a quarter turn of the grid takes X
sites to Z sites, so there are as many of either; at an even one their number is odd. At distance 0 the
loops over the edges do not advance.

* `edgesFrom_eq`, `edgesFrom_one`: the loops over the edges of a grid.
* `length_amx_eq_amz`: as many X stabilizers as Z stabilizers.
* `surfaceCode_sizes_iff`: the distances at which the sizes are those of the grid.
-/

namespace CudaqQec.SurfaceCode

open Checked

/-! ## The code -/

/-- `for (i = 0; i < gridLength; i += gridLength - 1)` from `i` on: the numbers it runs through, if it
ends within `turns` turns. -/
@[grind =] def edgesFrom (gridLength : Nat) : Nat → Nat → Option (List Nat)
  | 0, i => if i < gridLength then none else some []
  | turns + 1, i =>
    if i < gridLength then (edgesFrom gridLength turns (i + sub32 gridLength 1)).map (i :: ·)
    else some []

/-- `distance * distance - 1`, a `size_t`. -/
def squareLessOne (distance : Nat) : Nat := size64 (distance * distance + (2 ^ 64 - 1))

/-- `surface_code`, as far as its sizes go. -/
structure Code where
  distance : Nat
  grid : StabilizerGrid

/-- The constructor of `surface_code`, if its loops end within `turns` turns; only those over the edges
of the grid may not end. The grid takes the distance as a `uint32_t`. -/
def surfaceCode (turns distance : Nat) (orientation : ScOrientation) : Option (Except Fault Code) :=
  (edgesFrom (u32 (u32 distance + 1)) turns 0).map fun _ => do
    let grid ← stabilizerGrid (u32 distance) orientation
    return ⟨distance, grid⟩

namespace Code

variable (code : Code)

def getNumAncillaQubits : Nat := squareLessOne code.distance

def getNumAncillaXQubits : Nat := squareLessOne code.distance / 2

def getNumAncillaZQubits : Nat := squareLessOne code.distance / 2

def getNumXStabilizers : Nat := squareLessOne code.distance / 2

def getNumZStabilizers : Nat := squareLessOne code.distance / 2

/-- The sizes are those of the grid and of its schedules. -/
structure SizesMatch : Prop where
  xStabilizers : code.getNumXStabilizers = code.grid.xStabilizers.length
  zStabilizers : code.getNumZStabilizers = code.grid.zStabilizers.length
  xAncillas : code.getNumAncillaXQubits = code.grid.xStabilizers.length
  zAncillas : code.getNumAncillaZQubits = code.grid.zStabilizers.length
  ancillas : code.getNumAncillaQubits = code.grid.xStabilizers.length + code.grid.zStabilizers.length
  scheduleX : ∃ rows, getCnotScheduleX code.grid = .ok rows ∧ rows.length = code.grid.xStabilizers.length
  scheduleZ : ∃ rows, getCnotScheduleZ code.grid = .ok rows ∧ rows.length = code.grid.zStabilizers.length

end Code

/-! ## The loops over the edges -/

variable {d turns : Nat} {orientation : ScOrientation}

/-- The two edges of a grid of at least two sites, after two turns. -/
theorem edgesFrom_eq (hpos : 0 < d) (hd : d + 1 < 2 ^ 32) (turns : Nat) :
    edgesFrom (d + 1) (turns + 2) 0 = some (edges (d + 1)) := by
  have hstride : sub32 (d + 1) 1 = d := by rw [sub32_of_le (by omega) hd, Nat.add_sub_cancel]
  have hend : ∀ turns, edgesFrom (d + 1) turns (d + d) = some [] := fun turns => by
    cases turns with
    | zero => exact if_neg (by omega)
    | succ turns => exact if_neg (by omega)
  have hedges : edges (d + 1) = [0, d] := by
    have hpair : (edges (d + 1)).Pairwise (· < ·) := List.pairwise_lt_range.filter _
    refine eq_of_pairwise_lt_of_mem_iff hpair (by simpa using hpos) fun i => ?_
    rw [mem_edges hpos hd]
    simp
  rw [edgesFrom, if_pos (by omega), hstride, Nat.zero_add, edgesFrom, if_pos (by omega), hstride, hend,
    hedges]
  rfl

/-- A grid of one site has a stride of 0, and the loop never ends. -/
theorem edgesFrom_one (turns : Nat) : edgesFrom 1 turns 0 = none := by
  have hstride : sub32 1 1 = 0 := by decide
  induction turns with
  | zero => rfl
  | succ turns ih => rw [edgesFrom, if_pos (by decide), hstride, Nat.zero_add, ih, Option.map_none]

/-! ## As many X as Z stabilizers -/

def quarterTurn (d : Nat) (c : Vec2d) : Vec2d := ⟨c.col, d - c.row⟩

theorem quarterTurn_injective (d : Nat) : Function.Injective (quarterTurn d) := by
  rintro ⟨r, c⟩ ⟨r', c'⟩ h
  obtain ⟨hrow, hcol⟩ := Vec2d.ext_iff.mp h
  simp only [quarterTurn] at hrow hcol
  ext <;> simp only <;> omega

/-- At an odd distance a quarter turn changes parities, and takes the top and bottom edges to the left
and right ones. -/
theorem quarterTurn_site (hodd : d % 2 = 1) {c : Vec2d} (hc : IsSite d orientation c) :
    IsSite d orientation (quarterTurn d c) ∧
      ((quarterTurn d c).row + (quarterTurn d c).col) % 2 ≠ (c.row + c.col) % 2 := by
  have htop := orientation.topParity_eq
  simp only [IsSite, quarterTurn] at hc ⊢
  refine ⟨?_, by clear hc htop; omega⟩
  rcases hc with hinside | hrows | hcols
  · left
    omega
  · right; right
    omega
  · right; left
    omega

theorem length_le_of_quarterTurn {l l' : List Vec2d} (hnodup : l.Nodup)
    (hmem : ∀ c ∈ l, quarterTurn d c ∈ l') : l.length ≤ l'.length := by
  have hsub : l.map (quarterTurn d) ⊆ l' := fun c hc => by
    obtain ⟨a, ha, rfl⟩ := List.mem_map.mp hc
    exact hmem a ha
  have hle := (List.subperm_of_subset (hnodup.map (quarterTurn_injective d)) hsub).length_le
  rwa [List.length_map] at hle

theorem length_amx_eq_amz (hodd : d % 2 = 1) (orientation : ScOrientation) :
    (coordsOf d orientation .amx).length = (coordsOf d orientation .amz).length := by
  have hx := orientation.xParity_eq
  apply Nat.le_antisymm
  · refine @length_le_of_quarterTurn d _ _ (nodup_coordsOf d orientation .amx) fun c hc => ?_
    obtain ⟨hsite, hparity⟩ := mem_coordsOf_amx.mp hc
    obtain ⟨hsite', hparity'⟩ := quarterTurn_site hodd hsite
    exact mem_coordsOf_amz.mpr ⟨hsite', by omega⟩
  · refine @length_le_of_quarterTurn d _ _ (nodup_coordsOf d orientation .amz) fun c hc => ?_
    obtain ⟨hsite, hparity⟩ := mem_coordsOf_amz.mp hc
    obtain ⟨hsite', hparity'⟩ := quarterTurn_site hodd hsite
    exact mem_coordsOf_amx.mpr ⟨hsite', by omega⟩

/-! ## The sizes -/

/-- The grid's stabilizers are its sites, and its schedules have a row for each. -/
theorem IsGrid.sizes {g : StabilizerGrid} (h : IsGrid d orientation g) (hd : d < 65535) :
    g.xStabilizers.length = (coordsOf d orientation .amx).length ∧
      g.zStabilizers.length = (coordsOf d orientation .amz).length ∧
      (∃ rows, getCnotScheduleX g = .ok rows ∧ rows.length = g.xStabilizers.length) ∧
      ∃ rows, getCnotScheduleZ g = .ok rows ∧ rows.length = g.zStabilizers.length := by
  have hx : g.xStabilizers.length = (coordsOf d orientation .amx).length := by
    rw [h.xStabilizers_eq, List.length_map, h.xStabCoords_eq]
  have hz : g.zStabilizers.length = (coordsOf d orientation .amz).length := by
    rw [h.zStabilizers_eq, List.length_map, h.zStabCoords_eq]
  have hdata : u32 (d * d) = d * d := by
    apply u32_of_lt
    have := Nat.mul_le_mul hd.le hd.le
    omega
  refine ⟨hx, hz, ?_, ?_⟩
  · rw [getCnotScheduleX, h.xStabCoords_eq, h.dataIndices_eq, h.distance_eq, hdata,
      buildCnotSchedule_eq_ok (oneType_amx d orientation)]
    exact ⟨_, rfl, by rw [List.length_map, (perm_sortSites d _).length_eq, hx]⟩
  · rw [getCnotScheduleZ, h.zStabCoords_eq, h.dataIndices_eq, h.distance_eq, hdata,
      buildCnotSchedule_eq_ok (oneType_amz d orientation)]
    exact ⟨_, rfl, by rw [List.length_map, (perm_sortSites d _).length_eq, hz]⟩

/-- Of the square of a distance past 32 bits, the bits above them are lost but for a product. -/
theorem squareLessOne_eq {d k : Nat} (hpos : 0 < d) (hd : d < 65535) :
    squareLessOne (d + k * 2 ^ 32) = (d * d - 1) + (2 * d * k) % 2 ^ 32 * 2 ^ 32 := by
  have hsmall : 1 ≤ d * d ∧ d * d < 2 ^ 32 :=
    ⟨Nat.mul_pos hpos hpos, (Nat.mul_le_mul hd.le hd.le).trans_lt (by decide)⟩
  have hsquare : (d + k * 2 ^ 32) * (d + k * 2 ^ 32) + (2 ^ 64 - 1) =
      (d * d - 1) + 2 * d * k * 2 ^ 32 + (k * k + 1) * 2 ^ 64 := by
    have hring : (d + k * 2 ^ 32) * (d + k * 2 ^ 32) = d * d + 2 * d * k * 2 ^ 32 + k * k * 2 ^ 64 := by
      ring
    omega
  have hlow : d * d - 1 < 2 ^ 32 := by omega
  rw [squareLessOne, size64, hsquare, Nat.add_mul_mod_self_right]
  generalize d * d - 1 = low at *
  generalize 2 * d * k = high at *
  omega

/-- Nothing is lost for an odd distance where half of the bits above are zero. -/
theorem squareLessOne_eq_iff {distance : Nat} (hodd : u32 distance % 2 = 1) (hd : u32 distance < 65535)
    (hlt : distance < 2 ^ 64) :
    squareLessOne distance = u32 distance * u32 distance - 1 ↔
      distance = u32 distance ∨ distance = u32 distance + 2 ^ 63 := by
  have hsplit : distance = u32 distance + distance / 2 ^ 32 * 2 ^ 32 := by
    unfold u32
    omega
  have hk : distance / 2 ^ 32 < 2 ^ 32 := by omega
  generalize distance / 2 ^ 32 = k at hsplit hk
  generalize u32 distance = d at *
  subst hsplit
  rw [squareLessOne_eq (by omega) hd]
  constructor
  · intro h
    have hdvd : 2 ^ 31 ∣ d * k := by
      have : (2 * d * k) % 2 ^ 32 = 0 := by omega
      rw [Nat.mul_assoc] at this
      omega
    have hcoprime : Nat.Coprime (2 ^ 31) d := 
      Nat.Coprime.pow_left _ (Nat.coprime_two_left.mpr (Nat.odd_iff.mpr hodd))
    have hk' : 2 ^ 31 ∣ k := hcoprime.dvd_of_dvd_mul_left hdvd
    omega
  · intro h
    have hzero : (2 * d * k) % 2 ^ 32 = 0 := by
      have hk' : k = 0 ∨ k = 2 ^ 31 := by omega
      rcases hk' with rfl | rfl
      · rfl
      · have : 2 * d * 2 ^ 31 = d * 2 ^ 32 := by ring
        rw [this, Nat.mul_mod_left]
    rw [hzero, Nat.zero_mul, Nat.add_zero]

/-- The constructor ends, and the sizes are those of the grid, exactly at the odd distances below 65535,
and where the `uint32_t` of the distance is such a one and the bits it loses do not count either. -/
theorem surfaceCode_sizes_iff {distance : Nat} (hlt : distance < 2 ^ 64) (orientation : ScOrientation) :
    (∃ turns code, surfaceCode turns distance orientation = some (.ok code) ∧ code.SizesMatch) ↔
      u32 distance % 2 = 1 ∧ u32 distance < 65535 ∧
        (distance = u32 distance ∨ distance = u32 distance + 2 ^ 63) := by
  constructor
  · rintro ⟨turns, code, hcode, hsizes⟩
    obtain ⟨walked, hwalked, hbuilt⟩ := Option.map_eq_some_iff.mp hcode
    obtain ⟨g, hg, hcode⟩ := bind_eq_ok.mp hbuilt
    obtain rfl : ⟨distance, g⟩ = code := Except.ok.inj hcode
    -- at distance 0 the walk over the edges has nowhere to begin
    have hpos : 0 < u32 distance := by
      by_contra hzero
      have hone : u32 (u32 distance + 1) = 1 := by
        rw [show u32 distance = 0 by omega]
        rfl
      rw [hone, edgesFrom_one] at hwalked
      cases hwalked
    have hd : u32 distance < 65535 := by
      by_contra hbig
      exact not_stabilizerGrid (by omega) (u32_lt distance) orientation g hg
    obtain ⟨g', hg', hgrid⟩ := stabilizerGrid_eq_ok hpos hd orientation
    obtain rfl : g' = g := Except.ok.inj (hg'.symm.trans hg)
    obtain ⟨hx, hz, -, -⟩ := hgrid.sizes hd
    have htotal := length_coordsOf hpos orientation
    have hsum := hsizes.ancillas
    have hhalf := hsizes.xStabilizers
    have hhalf' := hsizes.zStabilizers
    simp only [Code.getNumAncillaQubits, Code.getNumXStabilizers, Code.getNumZStabilizers, hx, hz]
      at hsum hhalf hhalf'
    have hsquare : squareLessOne distance = u32 distance * u32 distance - 1 := hsum.trans htotal
    -- the two types share the ancillas evenly, so their number is even
    have hodd : u32 distance % 2 = 1 := by
      have heven : (u32 distance * u32 distance - 1) % 2 = 0 := by omega
      rcases Nat.mod_two_eq_zero_or_one (u32 distance) with h | h
      · have := Nat.mul_pos hpos hpos
        have : (u32 distance * u32 distance) % 2 = 0 := by rw [Nat.mul_mod, h]
        omega
      · exact h
    exact ⟨hodd, hd, (squareLessOne_eq_iff hodd hd hlt).mp hsquare⟩
  · rintro ⟨hodd, hd, hdistance⟩
    have hpos : 0 < u32 distance := by omega
    have hsquare := (squareLessOne_eq_iff hodd hd hlt).mpr hdistance
    obtain ⟨g, hg, hgrid⟩ := stabilizerGrid_eq_ok hpos hd orientation
    obtain ⟨hx, hz, hscheduleX, hscheduleZ⟩ := hgrid.sizes hd
    have htotal := length_coordsOf hpos orientation
    have hsame := length_amx_eq_amz hodd orientation
    refine ⟨2, ⟨distance, g⟩, ?_, ?_, ?_, ?_, ?_, ?_, hscheduleX, hscheduleZ⟩
    · rw [surfaceCode, u32_of_lt (show u32 distance + 1 < 2 ^ 32 by omega),
        edgesFrom_eq hpos (by omega) 0, Option.map_some, hg]
      rfl
    all_goals
      simp only [Code.getNumAncillaQubits, Code.getNumXStabilizers, Code.getNumZStabilizers,
        Code.getNumAncillaXQubits, Code.getNumAncillaZQubits, hsquare, hx, hz]
      omega

theorem surfaceCode_sizes_three :
    ∃ turns code, surfaceCode turns 3 .zh = some (.ok code) ∧ code.SizesMatch :=
  (surfaceCode_sizes_iff (by decide) .zh).mpr (by decide)

/-- At distance 2 the grid has two X stabilizers and one Z stabilizer, and the code counts one of each; at
distance 0 the constructor does not end. -/
theorem not_surfaceCode_sizes :
    (surfaceCode 2 2 .zh).map (Except.map fun code =>
        (code.grid.xStabilizers.length, code.grid.zStabilizers.length, code.getNumXStabilizers,
          code.getNumZStabilizers)) = some (.ok (2, 1, 1, 1)) ∧
      ∀ turns, surfaceCode turns 0 .zh = none := by
  refine ⟨by rfl, fun turns => ?_⟩
  have hone : u32 (u32 0 + 1) = 1 := rfl
  rw [surfaceCode, hone, edgesFrom_one, Option.map_none]

end CudaqQec.SurfaceCode
