import Mathlib.Data.List.Basic
import Mathlib.Data.List.Perm.Lattice
import Mathlib.Data.List.Count

/-!
# Frames of bytes

A frame of fixed width onto which vectors are XORed, each as far as both reach. The order does not
matter.
-/

namespace CudaqQec.Frames

@[grind =] def xorInto : List UInt8 → List UInt8 → List UInt8
  | d :: ds, s :: ss => (d ^^^ s) :: xorInto ds ss
  | ds, [] => ds
  | [], _ => []

def xorAt (values : List UInt8) (offset : Nat) (bits : List UInt8) : List UInt8 :=
  values.take offset ++ xorInto (values.drop offset) bits

def xorAll (frame : List UInt8) (vs : List (List UInt8)) : List UInt8 := vs.foldl xorInto frame

def zeros (width : Nat) : List UInt8 := List.replicate width 0

variable {d s t : List UInt8} {vs ws : List (List UInt8)}

/-! ## Reordering -/

@[simp] theorem length_xorInto (d s : List UInt8) : (xorInto d s).length = d.length := by
  induction d generalizing s with
  | nil => cases s <;> rfl
  | cons a d ih =>
    cases s with
    | nil => rfl
    | cons b s => simp [xorInto, ih]

theorem xorInto_right_comm (d s t : List UInt8) :
    xorInto (xorInto d s) t = xorInto (xorInto d t) s := by
  induction d generalizing s t with
  | nil => cases s <;> cases t <;> rfl
  | cons a d ih =>
    cases s with
    | nil => cases t <;> rfl
    | cons b s =>
      cases t with
      | nil => rfl
      | cons c t =>
        simp only [xorInto, ih]
        rw [UInt8.xor_assoc, UInt8.xor_assoc, UInt8.xor_comm b c]

@[simp] theorem length_xorAll (d : List UInt8) (vs : List (List UInt8)) :
    (xorAll d vs).length = d.length := by
  induction vs generalizing d with
  | nil => rfl
  | cons v vs ih => rw [xorAll, List.foldl_cons, ← xorAll, ih, length_xorInto]

theorem xorAll_append (d : List UInt8) (vs ws : List (List UInt8)) :
    xorAll d (vs ++ ws) = xorAll (xorAll d vs) ws := List.foldl_append ..

theorem xorAll_perm (d : List UInt8) (h : vs.Perm ws) : xorAll d vs = xorAll d ws := by
  apply h.foldl_eq'
  intro v _ w _ frame
  exact xorInto_right_comm frame v w

/-- A vector XORed on before the others might as well come after. -/
theorem xorAll_xorInto (d v : List UInt8) (vs : List (List UInt8)) :
    xorAll (xorInto d v) vs = xorInto (xorAll d vs) v := by
  change xorAll d (v :: vs) = _
  rw [xorAll_perm d (List.perm_append_singleton v vs).symm, xorAll_append]
  rfl

theorem xorInto_assoc (v : List UInt8) (h : s.length = d.length) :
    xorInto d (xorInto s v) = xorInto (xorInto d s) v := by
  induction d generalizing s v with
  | nil =>
    cases List.eq_nil_of_length_eq_zero h
    cases v <;> rfl
  | cons a d ih =>
    cases s with
    | nil => cases h
    | cons b s =>
      cases v with
      | nil => rfl
      | cons c v =>
        simp only [xorInto, ih v (Nat.succ.inj h)]
        rw [UInt8.xor_assoc]

/-! ## Zeros -/

@[simp] theorem length_zeros (width : Nat) : (zeros width).length = width := List.length_replicate

theorem xorInto_zeros (d : List UInt8) : xorInto d (zeros d.length) = d := by
  induction d with
  | nil => rfl
  | cons a d ih =>
    change (a ^^^ 0) :: xorInto d (zeros d.length) = _
    rw [ih, UInt8.xor_zero]

theorem zeros_xorInto (s : List UInt8) : xorInto (zeros s.length) s = s := by
  induction s with
  | nil => rfl
  | cons a s ih =>
    change (0 ^^^ a) :: xorInto (zeros s.length) s = _
    rw [ih, UInt8.zero_xor]

/-! ## Cancelling -/

theorem xorInto_eq_self (h : s.length = d.length) : xorInto d s = d ↔ s = zeros d.length := by
  constructor
  · intro he
    induction d generalizing s with
    | nil => exact List.eq_nil_of_length_eq_zero h
    | cons a d ih =>
      cases s with
      | nil => cases h
      | cons b s =>
        obtain ⟨hhead, htail⟩ := List.cons.inj he
        have hb : b = 0 := by
          have hx : a ^^^ (a ^^^ b) = a ^^^ a := congrArg (a ^^^ ·) hhead
          rwa [← UInt8.xor_assoc, UInt8.xor_self, UInt8.zero_xor] at hx
        rw [hb, ih (Nat.succ.inj h) htail]
        rfl
  · rintro rfl
    exact xorInto_zeros d

theorem xorInto_xorAll_of_length (vs : List (List UInt8)) (h : s.length = d.length) :
    xorInto d (xorAll s vs) = xorAll (xorInto d s) vs := by
  induction vs generalizing s with
  | nil => rfl
  | cons v vs ih =>
    change xorInto d (xorAll (xorInto s v) vs) = xorAll (xorInto (xorInto d s) v) vs
    rw [ih (by rw [length_xorInto, h]), xorInto_assoc v h]

theorem xorInto_xorAll (d : List UInt8) (vs : List (List UInt8)) :
    xorInto d (xorAll (zeros d.length) vs) = xorAll d vs := by
  rw [xorInto_xorAll_of_length vs (length_zeros _), xorInto_zeros]

theorem xorInto_comm (h : s.length = d.length) : xorInto d s = xorInto s d := by
  induction d generalizing s with
  | nil =>
    cases List.eq_nil_of_length_eq_zero h
    rfl
  | cons a d ih =>
    cases s with
    | nil => cases h
    | cons b s => rw [xorInto, xorInto, ih (Nat.succ.inj h), UInt8.xor_comm]

theorem xorInto_cancel (d v : List UInt8) : xorInto (xorInto d v) v = d := by
  induction d generalizing v with
  | nil => cases v <;> rfl
  | cons a d ih =>
    cases v with
    | nil => rfl
    | cons b v =>
      change (a ^^^ b ^^^ b) :: xorInto (xorInto d v) v = _
      rw [ih, UInt8.xor_assoc, UInt8.xor_self, UInt8.xor_zero]

/-- Of values XORed on repeatedly, those that come an odd number of times are left. -/
theorem xorAll_odd {ι : Type} [DecidableEq ι] (f : ι → List UInt8) (d : List UInt8) {ps L : List ι}
    (hnodup : L.Nodup) (hsub : ∀ p ∈ ps, p ∈ L) :
    xorAll d (ps.map f) = xorAll d ((L.filter fun p => decide (ps.count p % 2 = 1)).map f) := by
  induction ps generalizing d with
  | nil => simp [xorAll]
  | cons p ps ih =>
    change xorAll (xorInto d (f p)) (ps.map f) = _
    rw [ih _ fun q hq => hsub q (List.mem_cons_of_mem _ hq)]
    have hp := hsub p (List.mem_cons_self ..)
    -- only whether `p` itself is left changes
    have hother : ∀ q ∈ L.erase p, (p :: ps).count q = ps.count q := by
      intro q hq
      have hne : q ≠ p := (hnodup.mem_erase_iff.mp hq).1
      exact List.count_cons_of_ne (Ne.symm hne)
    have hrest : (L.erase p).filter (fun q => decide ((p :: ps).count q % 2 = 1)) =
        (L.erase p).filter fun q => decide (ps.count q % 2 = 1) := by
      apply List.filter_congr
      intro q hq
      rw [hother q hq]
    have hperm := List.perm_cons_erase hp
    have hleft := (hperm.filter fun q => decide (ps.count q % 2 = 1)).map f
    have hright := (hperm.filter fun q => decide ((p :: ps).count q % 2 = 1)).map f
    rw [xorAll_perm _ hleft, xorAll_perm _ hright, List.filter_cons, List.filter_cons, hrest,
      List.count_cons_self]
    by_cases hodd : ps.count p % 2 = 1
    · have heven : ¬ (ps.count p + 1) % 2 = 1 := by omega
      rw [if_pos (decide_eq_true hodd), if_neg (by simpa using heven)]
      change xorAll (xorInto (xorInto d (f p)) (f p)) _ = _
      rw [xorInto_cancel]
    · have hodd' : (ps.count p + 1) % 2 = 1 := by omega
      rw [if_neg (by simpa using hodd), if_pos (decide_eq_true hodd')]
      rfl

/-! ## Bit by bit -/

theorem getElem?_xorInto (d s : List UInt8) (i : Nat) :
    (xorInto d s)[i]? = d[i]?.map (· ^^^ s.getD i 0) := by
  induction d generalizing s i with
  | nil => cases s <;> rfl
  | cons a d ih =>
    cases s with
    | nil =>
      change (a :: d)[i]? = _
      simp
    | cons b s =>
      cases i with
      | zero => rfl
      | succ i => exact ih s i

@[simp] theorem length_xorAt (values : List UInt8) (offset : Nat) (v : List UInt8) :
    (xorAt values offset v).length = values.length := by
  unfold xorAt
  rw [List.length_append, length_xorInto, List.length_take, List.length_drop]
  omega

theorem getElem?_xorAt (values : List UInt8) (offset : Nat) (v : List UInt8) (i : Nat)
    (h : offset ≤ values.length) :
    (xorAt values offset v)[i]? =
      if i < offset then values[i]? else values[i]?.map (· ^^^ v.getD (i - offset) 0) := by
  unfold xorAt
  rw [List.getElem?_append, List.length_take, Nat.min_eq_left h]
  split
  · rename_i hi
    exact List.getElem?_take_of_lt hi
  · rename_i hi
    rw [getElem?_xorInto, List.getElem?_drop]
    congr 2
    omega

/-- Vectors without a bit at `i` leave it. -/
theorem getElem?_xorInto_of_zero {i : Nat} (d : List UInt8) (h : s.getD i 0 = 0) :
    (xorInto d s)[i]? = d[i]? := by
  rw [getElem?_xorInto, h]
  cases d[i]? <;> simp

theorem getElem?_xorAll_of_zero {i : Nat} (d : List UInt8) (h : ∀ v ∈ vs, v.getD i 0 = 0) :
    (xorAll d vs)[i]? = d[i]? := by
  induction vs generalizing d with
  | nil => rfl
  | cons v vs ih =>
    change (xorAll (xorInto d v) vs)[i]? = _
    rw [ih _ fun v hv => h v (List.mem_cons_of_mem _ hv)]
    exact getElem?_xorInto_of_zero d (h v (List.mem_cons_self ..))

theorem xorAll_zeros (h : ∀ v ∈ vs, v = zeros d.length) : xorAll d vs = d := by
  induction vs with
  | nil => rfl
  | cons v vs ih =>
    change xorAll (xorInto d v) vs = d
    rw [h v (List.mem_cons_self ..), xorInto_zeros]
    exact ih fun v hv => h v (List.mem_cons_of_mem _ hv)

end CudaqQec.Frames
