import CudaqQec.Basic
import Mathlib.Data.List.Sort
import Mathlib.Data.List.Nodup
import Mathlib.Tactic.Ring

/-!
# The stabilizer grid of the surface code

`stabilizer_grid`: a checkerboard of X and Z sites over the data qubits, with every second site of each
edge. The size of the roles is a product in 32 bits, so the constructor writes outside of them from a
distance of 65535 on.

* `stabilizerGrid_eq_ok`: the grid that a distance and an orientation give.
* `not_stabilizerGrid`: from 65535 on there is none.
-/

namespace CudaqQec.SurfaceCode

open Checked

inductive ScOrientation where
  | xv
  | xh
  | zv
  | zh
  deriving DecidableEq

inductive SurfaceRole where
  | amx
  | amz
  | empty
  deriving DecidableEq

@[ext] structure Vec2d where
  row : Int
  col : Int
  deriving DecidableEq

def Vec2d.add (lhs rhs : Vec2d) : Vec2d := ⟨lhs.row + rhs.row, lhs.col + rhs.col⟩

/-! ## Roles -/

/-- `role_for_parity`. There is no other orientation than the four, so it does not throw. -/
def roleForParity (orientation : ScOrientation) (oddParity : Bool) : SurfaceRole :=
  let xOnEvenParity := decide (orientation = .xv) || decide (orientation = .xh)
  if xOnEvenParity != oddParity then .amx else .amz

def writeRole (roles : List SurfaceRole) (idx : Nat) (role : SurfaceRole) : Except Fault (List SurfaceRole) :=
  if idx < roles.length then .ok (roles.set idx role) else .error .outOfBounds

def sweep (gridLength : Nat) (rows cols : List Nat) (role : Nat → Nat → Option SurfaceRole)
    (roles : List SurfaceRole) : Except Fault (List SurfaceRole) :=
  rows.foldlM (fun roles row => cols.foldlM (fun roles col =>
    match role row col with
    | some r => writeRole roles (row * gridLength + col) r
    | none => .ok roles) roles) roles

def isOddParity (row col : Nat) : Bool := decide ((row + col) % 2 = 1)

def inner (gridLength : Nat) : List Nat := List.range' 1 (sub32 gridLength 1 - 1)

/-- `for (i = 0; i < gridLength; i += gridLength - 1)`. -/
def edges (gridLength : Nat) : List Nat :=
  (List.range gridLength).filter fun i => i % sub32 gridLength 1 = 0

def generateGridRoles (gridLength : Nat) (orientation : ScOrientation) (roles : List SurfaceRole) :
    Except Fault (List SurfaceRole) := do
  let horizontalBoundariesUseEvenParity := decide (orientation = .xh) || decide (orientation = .zh)
  let roles ← sweep gridLength (List.range gridLength) (List.range gridLength) (fun _ _ => some .empty) roles
  let roles ← sweep gridLength (inner gridLength) (inner gridLength)
    (fun row col => some (roleForParity orientation (isOddParity row col))) roles
  let roles ← sweep gridLength (edges gridLength) (inner gridLength) (fun row col =>
    if isOddParity row col != horizontalBoundariesUseEvenParity then
      some (roleForParity orientation (isOddParity row col))
    else none) roles
  sweep gridLength (inner gridLength) (edges gridLength) (fun row col =>
    if isOddParity row col == horizontalBoundariesUseEvenParity then
      some (roleForParity orientation (isOddParity row col))
    else none) roles

/-! ## Coordinates -/

def square (n : Nat) : List (Nat × Nat) := (List.range n).product (List.range n)

def coord (site : Nat × Nat) : Vec2d := ⟨site.1, site.2⟩

def pushSite (gridLength : Nat) (roles : List SurfaceRole) (coords : List Vec2d × List Vec2d)
    (site : Nat × Nat) : Except Fault (List Vec2d × List Vec2d) :=
  match roles[site.1 * gridLength + site.2]? with
  | some .amz => .ok (coords.1, coords.2 ++ [coord site])
  | some .amx => .ok (coords.1 ++ [coord site], coords.2)
  | some .empty => .ok coords
  | none => .error .outOfBounds

/-- `data_indices`, entered in the order of the coordinates. -/
def dataIndicesOf (distance : Nat) : List (Vec2d × Nat) :=
  (square distance).map fun site => (coord site, site.1 * distance + site.2)

/-! ## Stabilizers -/

def offsets : List Vec2d := [-1, 0].flatMap fun row => [-1, 0].map fun col => ⟨row, col⟩

def stabilizerAt (dataIndices : List (Vec2d × Nat)) (c : Vec2d) : List Nat :=
  (offsets.filterMap fun offset => dataIndices.lookup (c.add offset)).insertionSort (· ≤ ·)

structure StabilizerGrid where
  distance : Nat
  gridLength : Nat
  orientation : ScOrientation
  roles : List SurfaceRole
  xStabCoords : List Vec2d
  zStabCoords : List Vec2d
  dataCoords : List Vec2d
  dataIndices : List (Vec2d × Nat)
  xStabilizers : List (List Nat)
  zStabilizers : List (List Nat)

/-- The constructor of `stabilizer_grid`. The distance is a `uint32_t`, and so are the length of the grid
and the number of its roles. -/
def stabilizerGrid (distance : Nat) (orientation : ScOrientation) : Except Fault StabilizerGrid := do
  let gridLength := u32 (distance + 1)
  let roles ← generateGridRoles gridLength orientation (List.replicate (u32 (gridLength * gridLength)) .amx)
  let coords ← (square gridLength).foldlM (pushSite gridLength roles) ([], [])
  let dataIndices := dataIndicesOf distance
  return {
    distance := distance
    gridLength := gridLength
    orientation := orientation
    roles := roles
    xStabCoords := coords.1
    zStabCoords := coords.2
    dataCoords := (square distance).map coord
    dataIndices := dataIndices
    xStabilizers := coords.1.map (stabilizerAt dataIndices)
    zStabilizers := coords.2.map (stabilizerAt dataIndices) }
/-! ## What the sweeps leave -/

/-- Whether the first letter of an orientation puts X on the even sites, as the parity of the X sites. -/
def ScOrientation.xParity : ScOrientation → Int
  | .xv | .xh => 0
  | .zv | .zh => 1

def ScOrientation.topParity : ScOrientation → Int
  | .xv | .zv => 1
  | .xh | .zh => 0

/-- A site that has a stabilizer: any inside, and of the edges every second one. -/
def IsSite (d : Int) (orientation : ScOrientation) (v : Vec2d) : Prop :=
  (0 < v.row ∧ v.row < d ∧ 0 < v.col ∧ v.col < d) ∨
  ((v.row = 0 ∨ v.row = d) ∧ 0 < v.col ∧ v.col < d ∧ (v.row + v.col) % 2 = orientation.topParity) ∨
  (0 < v.row ∧ v.row < d ∧ (v.col = 0 ∨ v.col = d) ∧ (v.row + v.col) % 2 ≠ orientation.topParity)

instance (d : Int) (orientation : ScOrientation) (v : Vec2d) : Decidable (IsSite d orientation v) :=
  inferInstanceAs (Decidable (_ ∨ _))

def roleAt (d : Nat) (orientation : ScOrientation) (row col : Nat) : SurfaceRole :=
  if IsSite d orientation (coord (row, col)) then roleForParity orientation (isOddParity row col) else .empty

/-- The roles of a grid as a function of the site. -/
structure Shows (gridLength : Nat) (roles : List SurfaceRole) (role : Nat → Nat → SurfaceRole) : Prop where
  length : roles.length = gridLength * gridLength
  role : ∀ row < gridLength, ∀ col < gridLength, roles[row * gridLength + col]? = some (role row col)

variable {gridLength d : Nat} {roles roles' : List SurfaceRole} {F : Nat → Nat → SurfaceRole}

theorem site_lt {n row col : Nat} (hrow : row < n) (hcol : col < n) : row * n + col < n * n := by
  have := Nat.mul_le_mul_right n (Nat.succ_le_of_lt hrow)
  rw [Nat.succ_mul] at this
  omega

theorem site_inj {n row col row' col' : Nat} (hcol : col < n) (hcol' : col' < n) :
    row * n + col = row' * n + col' ↔ row = row' ∧ col = col' := by
  constructor
  · intro h
    have hdiv := congrArg (· / n) h
    have hmod := congrArg (· % n) h
    simp only [Nat.mul_comm _ n, Nat.mul_add_div (Nat.zero_lt_of_lt hcol), Nat.mul_add_mod,
      Nat.div_eq_of_lt hcol, Nat.div_eq_of_lt hcol', Nat.mod_eq_of_lt hcol, Nat.mod_eq_of_lt hcol'] at hdiv hmod
    exact ⟨hdiv, hmod⟩
  · rintro ⟨rfl, rfl⟩
    rfl

theorem Shows.writeRole (h : Shows gridLength roles F) {row col : Nat} (hrow : row < gridLength)
    (hcol : col < gridLength) (role : SurfaceRole) :
    ∃ roles', SurfaceCode.writeRole roles (row * gridLength + col) role = .ok roles' ∧
      Shows gridLength roles' fun r c => if r = row ∧ c = col then role else F r c := by
  have hlt : row * gridLength + col < roles.length := h.length ▸ site_lt hrow hcol
  refine ⟨_, if_pos hlt, by rw [List.length_set, h.length], ?_⟩
  intro r hr c hc
  rw [List.getElem?_set]
  by_cases hsite : row * gridLength + col = r * gridLength + c
  · obtain ⟨rfl, rfl⟩ := (site_inj hcol hc).mp hsite
    simp [hlt]
  · have hne : ¬ (r = row ∧ c = col) := by
      rintro ⟨rfl, rfl⟩
      exact hsite rfl
    rw [if_neg hsite, if_neg hne, h.role r hr c hc]

theorem Shows.congr {G : Nat → Nat → SurfaceRole} (h : Shows gridLength roles F)
    (hsame : ∀ row < gridLength, ∀ col < gridLength, F row col = G row col) : Shows gridLength roles G where
  length := h.length
  role row hrow col hcol := (h.role row hrow col hcol).trans (congrArg some (hsame row hrow col hcol))

theorem getD_getD {α : Type} (x : Option α) (a : α) : x.getD (x.getD a) = x.getD a := by
  cases x <;> rfl

/-- The inner loop gives roles to a row. -/
theorem Shows.sweepRow (h : Shows gridLength roles F) {row : Nat} (hrow : row < gridLength) {cols : List Nat}
    (hcols : ∀ col ∈ cols, col < gridLength) (role : Nat → Nat → Option SurfaceRole) :
    ∃ roles', cols.foldlM (fun roles col =>
      match role row col with
      | some r => SurfaceCode.writeRole roles (row * gridLength + col) r
      | none => .ok roles) roles = .ok roles' ∧
      Shows gridLength roles' fun r c => if r = row ∧ c ∈ cols then (role r c).getD (F r c) else F r c := by
  induction cols generalizing roles F with
  | nil =>
    refine ⟨roles, rfl, h.congr ?_⟩
    simp
  | cons col cols ih =>
    obtain ⟨hcol, hcols⟩ := List.forall_mem_cons.mp hcols
    -- one cell: a role is written there, or it keeps the one it has
    have hstep : ∃ roles', (match role row col with
        | some r => SurfaceCode.writeRole roles (row * gridLength + col) r
        | none => .ok roles) = .ok roles' ∧
        Shows gridLength roles' fun r c => if r = row ∧ c = col then (role r c).getD (F r c) else F r c := by
      cases hr : role row col with
      | none =>
        refine ⟨roles, rfl, h.congr ?_⟩
        intro r _ c _
        split
        · next hrc => rw [hrc.1, hrc.2, hr, Option.getD_none]
        · rfl
      | some x =>
        obtain ⟨roles', hok, hshows⟩ := h.writeRole hrow hcol x
        refine ⟨roles', hok, hshows.congr ?_⟩
        intro r _ c _
        split
        · next hrc => rw [hrc.1, hrc.2, hr, Option.getD_some]
        · rfl
    obtain ⟨roles₁, hok, hshows⟩ := hstep
    obtain ⟨roles', hok', hshows'⟩ := ih hshows hcols
    refine ⟨roles', ?_, hshows'.congr ?_⟩
    · rw [List.foldlM_cons, hok, ok_bind, hok']
    · intro r _ c _
      by_cases hr : r = row
      · by_cases hc : c = col
        · simp [hr, hc, getD_getD]
        · simp [hr, hc]
      · simp [hr]

/-- A sweep gives roles to the sites of its loops. -/
theorem Shows.sweep (h : Shows gridLength roles F) {rows cols : List Nat} (hrows : ∀ row ∈ rows, row < gridLength)
    (hcols : ∀ col ∈ cols, col < gridLength) (role : Nat → Nat → Option SurfaceRole) :
    ∃ roles', SurfaceCode.sweep gridLength rows cols role roles = .ok roles' ∧
      Shows gridLength roles' fun r c => if r ∈ rows ∧ c ∈ cols then (role r c).getD (F r c) else F r c := by
  induction rows generalizing roles F with
  | nil =>
    refine ⟨roles, rfl, h.congr ?_⟩
    simp
  | cons row rows ih =>
    obtain ⟨hrow, hrows⟩ := List.forall_mem_cons.mp hrows
    obtain ⟨roles₁, hok, hshows⟩ := h.sweepRow hrow hcols role
    obtain ⟨roles', hok', hshows'⟩ := ih hshows hrows
    refine ⟨roles', ?_, hshows'.congr ?_⟩
    · rw [SurfaceCode.sweep, List.foldlM_cons, hok, ok_bind]
      exact hok'
    · intro r _ c _
      by_cases hr : r = row
      · by_cases hc : c ∈ cols
        · simp [hr, hc, getD_getD]
        · simp [hr, hc]
      · simp [hr]

theorem mem_inner (hd : d + 1 < 2 ^ 32) {i : Nat} : i ∈ inner (d + 1) ↔ 0 < i ∧ i < d := by
  rw [inner, sub32_of_le (by omega) hd, List.mem_range'_1]
  omega

theorem mem_edges (hpos : 0 < d) (hd : d + 1 < 2 ^ 32) {i : Nat} : i ∈ edges (d + 1) ↔ i = 0 ∨ i = d := by
  rw [edges, sub32_of_le (by omega) hd, List.mem_filter, List.mem_range, decide_eq_true_eq, Nat.add_sub_cancel]
  constructor
  · rintro ⟨hlt, hmod⟩
    by_cases h : i = d
    · exact .inr h
    · rw [Nat.mod_eq_of_lt (by omega)] at hmod
      exact .inl hmod
  · rintro (rfl | rfl)
    · exact ⟨by omega, Nat.zero_mod d⟩
    · exact ⟨by omega, Nat.mod_self i⟩

/-- The parity of a site, next to that of the edges. -/
theorem isOddParity_bne (orientation : ScOrientation) (row col : Nat) :
    (isOddParity row col != (decide (orientation = .xh) || decide (orientation = .zh))) = true ↔
      ((row : Int) + col) % 2 = orientation.topParity := by
  have hodd : isOddParity row col = true ↔ ((row : Int) + col) % 2 = 1 := by
    rw [isOddParity, decide_eq_true_eq]
    omega
  have heven : isOddParity row col = false ↔ ((row : Int) + col) % 2 = 0 := by
    rw [isOddParity, decide_eq_false_iff_not]
    omega
  cases orientation <;> simp [ScOrientation.topParity, hodd, heven]

theorem isSite_coord {orientation : ScOrientation} {row col : Nat} :
    IsSite d orientation (coord (row, col)) ↔ ((0 < row ∧ row < d) ∧ 0 < col ∧ col < d) ∨
      ((row = 0 ∨ row = d) ∧ 0 < col ∧ col < d) ∧ ((row : Int) + col) % 2 = orientation.topParity ∨
      ((0 < row ∧ row < d) ∧ (col = 0 ∨ col = d)) ∧ ¬ ((row : Int) + col) % 2 = orientation.topParity := by
  simp only [IsSite, coord]
  by_cases hparity : ((row : Int) + col) % 2 = orientation.topParity
  · simp only [hparity, ne_eq, not_true, and_true, and_false, or_false]
    clear hparity
    omega
  · simp only [hparity, ne_eq, not_false_eq_true, and_true, and_false, false_or]
    clear hparity
    omega

/-- The roles of a grid. -/
theorem generateGridRoles_eq_ok (hpos : 0 < d) (hd : d + 1 < 2 ^ 32) (orientation : ScOrientation) :
    ∃ roles, generateGridRoles (d + 1) orientation (List.replicate ((d + 1) * (d + 1)) .amx) = .ok roles ∧
      Shows (d + 1) roles (roleAt d orientation) := by
  have hstart : Shows (d + 1) (List.replicate ((d + 1) * (d + 1)) .amx) fun _ _ => .amx := by
    refine ⟨List.length_replicate, ?_⟩
    intro row hrow col hcol
    rw [List.getElem?_replicate, if_pos (site_lt hrow hcol)]
  have hall : ∀ i ∈ List.range (d + 1), i < d + 1 := fun i => List.mem_range.mp
  have hinner : ∀ i ∈ inner (d + 1), i < d + 1 := fun i hi => by
    have := (mem_inner hd).mp hi
    omega
  have hedges : ∀ i ∈ edges (d + 1), i < d + 1 := fun i hi => by
    have := (mem_edges hpos hd).mp hi
    omega
  obtain ⟨r₁, hok₁, h₁⟩ := hstart.sweep hall hall fun _ _ => some .empty
  obtain ⟨r₂, hok₂, h₂⟩ := h₁.sweep hinner hinner
    fun row col => some (roleForParity orientation (isOddParity row col))
  obtain ⟨r₃, hok₃, h₃⟩ := h₂.sweep hedges hinner fun row col =>
    if isOddParity row col != (decide (orientation = .xh) || decide (orientation = .zh)) then
      some (roleForParity orientation (isOddParity row col))
    else none
  obtain ⟨r₄, hok₄, h₄⟩ := h₃.sweep hinner hedges fun row col =>
    if isOddParity row col == (decide (orientation = .xh) || decide (orientation = .zh)) then
      some (roleForParity orientation (isOddParity row col))
    else none
  refine ⟨r₄, ?_, h₄.congr ?_⟩
  · rw [generateGridRoles, hok₁, ok_bind, hok₂, ok_bind, hok₃, ok_bind, hok₄]
  · intro row hrow col hcol
    have hparity := isOddParity_bne orientation row col
    simp only [mem_inner hd, mem_edges hpos hd, List.mem_range, hrow, hcol, roleAt, isSite_coord, ← hparity]
    generalize isOddParity row col = odd
    generalize (decide (orientation = .xh) || decide (orientation = .zh)) = even
    -- inside, then an edge of either kind, then a corner
    by_cases hinside : (0 < row ∧ row < d) ∧ 0 < col ∧ col < d
    · have hcol' : ¬ (col = 0 ∨ col = d) := by omega
      have hrow' : ¬ (row = 0 ∨ row = d) := by omega
      simp [hinside, hcol', hrow']
    by_cases htop : (row = 0 ∨ row = d) ∧ 0 < col ∧ col < d
    · have hrow' : ¬ (0 < row ∧ row < d) := by omega
      simp only [htop, hrow']
      cases odd <;> cases even <;> simp
    by_cases hleft : (0 < row ∧ row < d) ∧ (col = 0 ∨ col = d)
    · have hcol' : ¬ (0 < col ∧ col < d) := by omega
      simp only [hleft, hcol']
      cases odd <;> cases even <;> simp
    · simp only [hinside, htop, hleft]
      simp

/-! ## The grid -/

def coordsOf (d : Nat) (orientation : ScOrientation) (role : SurfaceRole) : List Vec2d :=
  ((square (d + 1)).filter fun site => decide (roleAt d orientation site.1 site.2 = role)).map coord

theorem mem_square {n : Nat} {site : Nat × Nat} : site ∈ square n ↔ site.1 < n ∧ site.2 < n := by
  obtain ⟨row, col⟩ := site
  rw [square, List.pair_mem_product, List.mem_range, List.mem_range]

theorem nodup_square (n : Nat) : (square n).Nodup := List.Nodup.product List.nodup_range List.nodup_range

/-- The loop over the sites gathers the coordinates of either role. -/
theorem foldlM_pushSite (h : Shows gridLength roles F) {sites : List (Nat × Nat)}
    (hsites : ∀ site ∈ sites, site.1 < gridLength ∧ site.2 < gridLength) (coords : List Vec2d × List Vec2d) :
    sites.foldlM (pushSite gridLength roles) coords =
      .ok (coords.1 ++ (sites.filter fun site => decide (F site.1 site.2 = .amx)).map coord,
        coords.2 ++ (sites.filter fun site => decide (F site.1 site.2 = .amz)).map coord) := by
  induction sites generalizing coords with
  | nil => simp [pure, Except.pure]
  | cons site sites ih =>
    obtain ⟨⟨hrow, hcol⟩, hsites⟩ := List.forall_mem_cons.mp hsites
    rw [List.foldlM_cons, pushSite, h.role _ hrow _ hcol]
    cases hrole : F site.1 site.2 <;> simp [ih hsites, hrole]

/-- What the grid of a distance and an orientation is. -/
structure IsGrid (d : Nat) (orientation : ScOrientation) (g : StabilizerGrid) : Prop where
  distance_eq : g.distance = d
  orientation_eq : g.orientation = orientation
  shows_roles : Shows (d + 1) g.roles (roleAt d orientation)
  xStabCoords_eq : g.xStabCoords = coordsOf d orientation .amx
  zStabCoords_eq : g.zStabCoords = coordsOf d orientation .amz
  dataCoords_eq : g.dataCoords = (square d).map coord
  dataIndices_eq : g.dataIndices = dataIndicesOf d
  xStabilizers_eq : g.xStabilizers = g.xStabCoords.map (stabilizerAt g.dataIndices)
  zStabilizers_eq : g.zStabilizers = g.zStabCoords.map (stabilizerAt g.dataIndices)

/-- Below 65535 the constructor builds the grid. -/
theorem stabilizerGrid_eq_ok (hpos : 0 < d) (hd : d < 65535) (orientation : ScOrientation) :
    ∃ g, stabilizerGrid d orientation = .ok g ∧ IsGrid d orientation g := by
  have hlength : u32 (d + 1) = d + 1 := u32_of_lt (by omega)
  have hsize : u32 ((d + 1) * (d + 1)) = (d + 1) * (d + 1) := by
    apply u32_of_lt
    have := Nat.mul_le_mul (show d + 1 ≤ 65535 by omega) (show d + 1 ≤ 65535 by omega)
    omega
  obtain ⟨roles, hroles, hshows⟩ := generateGridRoles_eq_ok hpos (by omega) orientation
  have hsites : ∀ site ∈ square (d + 1), site.1 < d + 1 ∧ site.2 < d + 1 := fun _ => mem_square.mp
  have hcoords := foldlM_pushSite hshows hsites ([], [])
  simp only [stabilizerGrid, hlength, hsize, hroles, ok_bind, hcoords, List.nil_append]
  exact ⟨_, rfl, rfl, rfl, hshows, rfl, rfl, rfl, rfl, rfl, rfl⟩

/-- A row of a sweep that returns has written within the roles. -/
theorem sweepRow_bound {row : Nat} {cols : List Nat} {role : Nat → Nat → Option SurfaceRole}
    (h : cols.foldlM (fun roles col =>
      match role row col with
      | some r => writeRole roles (row * gridLength + col) r
      | none => .ok roles) roles = .ok roles') :
    roles'.length = roles.length ∧
      ∀ col ∈ cols, (role row col).isSome → row * gridLength + col < roles.length := by
  induction cols generalizing roles with
  | nil =>
    cases h
    simp
  | cons col cols ih =>
    rw [List.foldlM_cons, bind_eq_ok] at h
    obtain ⟨roles₁, hstep, hrest⟩ := h
    obtain ⟨hlength, hbound⟩ := ih hrest
    cases hrole : role row col with
    | none =>
      rw [hrole] at hstep
      cases hstep
      exact ⟨hlength, by simpa [hrole] using hbound⟩
    | some r =>
      rw [hrole] at hstep
      simp only [writeRole] at hstep
      split at hstep
      · next hlt =>
        cases hstep
        rw [List.length_set] at hlength hbound
        exact ⟨hlength, List.forall_mem_cons.mpr ⟨fun _ => hlt, hbound⟩⟩
      · cases hstep

theorem sweep_bound {rows cols : List Nat} {role : Nat → Nat → Option SurfaceRole}
    (h : sweep gridLength rows cols role roles = .ok roles') :
    roles'.length = roles.length ∧ ∀ row ∈ rows, ∀ col ∈ cols, (role row col).isSome →
      row * gridLength + col < roles.length := by
  induction rows generalizing roles with
  | nil =>
    cases h
    simp
  | cons row rows ih =>
    rw [sweep, List.foldlM_cons, bind_eq_ok] at h
    obtain ⟨roles₁, hrow, hrest⟩ := h
    obtain ⟨hlength, hbound⟩ := sweepRow_bound hrow
    obtain ⟨hlength', hbound'⟩ := ih hrest
    rw [hlength] at hlength' hbound'
    exact ⟨hlength', List.forall_mem_cons.mpr ⟨hbound, hbound'⟩⟩

/-- From 65535 on the constructor writes outside of the roles. -/
theorem not_stabilizerGrid (hd : 65535 ≤ d) (hlt : d < 2 ^ 32) (orientation : ScOrientation)
    (g : StabilizerGrid) : stabilizerGrid d orientation ≠ .ok g := by
  intro h
  rw [stabilizerGrid, bind_eq_ok] at h
  obtain ⟨roles, hroles, -⟩ := h
  rw [generateGridRoles, bind_eq_ok] at hroles
  obtain ⟨r₁, hempty, hroles⟩ := hroles
  rw [bind_eq_ok] at hroles
  obtain ⟨r₂, hinner, -⟩ := hroles
  obtain ⟨hlength, hbound⟩ := sweep_bound hempty
  rw [List.length_replicate] at hlength hbound
  by_cases hwrap : d + 1 = 2 ^ 32
  · -- a length of 0: the loops from 1 run nevertheless
    have hzero : u32 (d + 1) = 0 := by rw [hwrap]; rfl
    obtain ⟨-, hbound'⟩ := sweep_bound hinner
    rw [hzero] at hbound' hlength
    have hone : 1 ∈ inner 0 := by
      rw [inner, List.mem_range'_1]
      exact ⟨le_rfl, by decide⟩
    have := hbound' 1 hone 1 hone rfl
    rw [hlength] at this
    simp [u32] at this
  · have hsame : u32 (d + 1) = d + 1 := u32_of_lt (by omega)
    rw [hsame] at hbound
    have hlast := hbound d (List.mem_range.mpr (Nat.lt_succ_self d)) d (List.mem_range.mpr (Nat.lt_succ_self d)) rfl
    have hwraps := u32_lt ((d + 1) * (d + 1))
    have hsquare := Nat.mul_le_mul hd (show 65535 + 2 ≤ d + 2 by omega)
    have hsum : d * (d + 1) + d = d * (d + 2) := by ring
    omega

end CudaqQec.SurfaceCode
