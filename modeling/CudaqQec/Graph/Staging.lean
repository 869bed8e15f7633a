import CudaqQec.Graph.Stager

/-!
# What a stager has folded

A stager reassembles the rounds of a shot: `Stages` says which of the intervals that came its frame has
folded and which wait in its slots. One interval more is put in its place, and what follows on the
frontier is folded.
-/

namespace CudaqQec

open Frames Piece Checked

namespace Delta

def isWhole (d : Delta) : Bool := decide (d.stop = wholeShot)

def commits (ds : List Delta) : List Delta := ds.filter fun d => !isWhole d

def wholes (ds : List Delta) : List Delta := ds.filter isWhole

/-- What is left of the deltas before one of few. -/
theorem length_filter_filter_lt {ds pre post : List Delta} {d : Delta} {capacity : Nat}
    (he : ds = pre ++ d :: post) (hlen : ds.length ≤ capacity) (p q : Delta → Bool) :
    ((pre.filter p).filter q).length < capacity := by
  rw [he, List.length_append, List.length_cons] at hlen
  calc ((pre.filter p).filter q).length
      ≤ (pre.filter p).length := List.length_filter_le ..
    _ ≤ pre.length := List.length_filter_le ..
    _ < capacity := by omega

def loads (ds : List Delta) : List (List UInt8) := ds.map Piece.load

theorem commits_append (ds es : List Delta) : commits (ds ++ es) = commits ds ++ commits es :=
  List.filter_append ..

theorem loads_append (ds es : List Delta) : loads (ds ++ es) = loads ds ++ loads es :=
  List.map_append ..

theorem wholes_append (ds es : List Delta) : wholes (ds ++ es) = wholes ds ++ wholes es :=
  List.filter_append ..

theorem perm_commits_wholes (ds : List Delta) : (commits ds ++ wholes ds).Perm ds := by
  refine List.perm_append_comm.trans ?_
  exact List.filter_append_perm isWhole ds

end Delta

open Delta

namespace OutputStager

/-- Of the intervals `l`, the stager has folded `absorbed` and keeps `waiting` in its slots. -/
structure Stages (s : OutputStager) (l absorbed waiting : List Delta) : Prop where
  assembled : Assembled l s.frontier absorbed waiting
  view : s.pending.map (intervalAt s.intervals) = waiting
  slots : (s.pending ++ s.spare).Perm (List.range s.capacity)
  size : s.intervals.length = s.capacity

variable {s : OutputStager} {l absorbed waiting : List Delta} {d : Delta}

/-! ## Folding -/

/-- What the loop folds is what follows on the frontier. -/
theorem advance_eq (s : OutputStager) (advanced : Bool) (pending : List Nat) :
    ∃ drained kept, pending = drained ++ kept ∧
      (drain s.frontier (pending.map (intervalAt s.intervals))).1 =
        drained.map (intervalAt s.intervals) ∧
      (drain s.frontier (pending.map (intervalAt s.intervals))).2.2 =
        kept.map (intervalAt s.intervals) ∧
      s.advance advanced pending = ({ s with
        bits := xorAll s.bits (loads (drained.map (intervalAt s.intervals)))
        frontier := (drain s.frontier (pending.map (intervalAt s.intervals))).2.1
        spare := s.spare ++ drained
        pending := kept }, advanced || !drained.isEmpty) := by
  induction pending generalizing s advanced with
  | nil =>
    refine ⟨[], [], rfl, rfl, rfl, ?_⟩
    simp [advance, loads, xorAll, drain]
  | cons next rest ih =>
    by_cases hbegin : (intervalAt s.intervals next).begin = s.frontier
    · simp only [advance, List.map_cons, drain, hbegin, if_true]
      obtain ⟨drained, kept, hrest, hdrain, hkept, heq⟩ := ih { s with
        bits := xorInto s.bits (intervalAt s.intervals next).load
        frontier := (intervalAt s.intervals next).stop
        spare := s.spare ++ [next] } true
      refine ⟨next :: drained, kept, by rw [hrest, List.cons_append], ?_, hkept, ?_⟩
      · dsimp only at hdrain
        rw [List.map_cons, ← hdrain]
      · rw [heq]
        simp [loads, xorAll]
    · simp only [advance, List.map_cons, drain, hbegin, if_false]
      refine ⟨[], next :: rest, rfl, rfl, rfl, ?_⟩
      simp [loads, xorAll]

theorem intervalAt_set_of_ne {intervals : List Delta} {slot other : Nat} (h : other ≠ slot) :
    intervalAt (intervals.set slot d) other = intervalAt intervals other := by
  unfold intervalAt
  rw [List.getD_eq_getElem?_getD, List.getD_eq_getElem?_getD, List.getElem?_set_ne (Ne.symm h)]

theorem intervalAt_set_self {intervals : List Delta} {slot : Nat} (h : slot < intervals.length) :
    intervalAt (intervals.set slot d) slot = d := by
  unfold intervalAt
  rw [List.getD_eq_getElem?_getD, List.getElem?_set_self h]
  rfl

/-- The slots in order with one more in its place, seen as intervals. -/
theorem map_insert {intervals : List Delta} {pending : List Nat} {slot : Nat}
    (hslot : slot < intervals.length) (hnot : slot ∉ pending) :
    (pending.takeWhile (fun entry => decide ((intervalAt intervals entry).begin ≤ d.begin)) ++ slot ::
      pending.dropWhile fun entry => decide ((intervalAt intervals entry).begin ≤ d.begin)).map
        (intervalAt (intervals.set slot d)) =
      Piece.insert d (pending.map (intervalAt intervals)) := by
  have hold : ∀ ps : List Nat, (∀ e ∈ ps, e ∈ pending) →
      ps.map (intervalAt (intervals.set slot d)) = ps.map (intervalAt intervals) := by
    intro ps hps
    apply List.map_congr_left
    intro e he
    apply intervalAt_set_of_ne
    rintro rfl
    exact hnot (hps e he)
  rw [List.map_append, List.map_cons, intervalAt_set_self hslot,
    hold _ fun e he => (List.takeWhile_sublist _).mem he,
    hold _ fun e he => (List.dropWhile_sublist _).mem he]
  unfold Piece.insert
  rw [List.takeWhile_map, List.dropWhile_map]
  rfl

/-! ## One more interval -/

theorem pending_lt (h : s.Stages l absorbed waiting) (hroom : waiting.length < s.capacity) :
    s.pending.length < s.capacity := by
  have hlen := congrArg List.length h.view
  rw [List.length_map] at hlen
  omega

theorem exists_spare (h : s.Stages l absorbed waiting) (hroom : waiting.length < s.capacity) :
    ∃ slot, s.spare.getLast? = some slot ∧ s.spare = s.spare.dropLast ++ [slot] := by
  have hlen := h.slots.length_eq
  rw [List.length_append, List.length_range] at hlen
  have := pending_lt h hroom
  cases hs : s.spare.getLast? with
  | none =>
    rw [List.getLast?_eq_none_iff] at hs
    rw [hs, List.length_nil] at hlen
    omega
  | some slot => exact ⟨slot, rfl, (List.dropLast_append_getLast? slot hs).symm⟩

/-- An interval that overlaps none that came is staged: it and what follows on it is folded as soon as it
meets the frontier. -/
theorem stageDelta_interval (name : String) (h : s.Stages l absorbed waiting) (hfinite : d.stop ≠ wholeShot)
    (hne : d.begin < d.stop) (hdis : ∀ p ∈ l, Piece.Disjoint p d)
    (hroom : waiting.length < s.capacity) :
    ∃ s' folded waiting', s.stageDelta name d = .ok s' ∧
      s'.Stages (l ++ [d]) (absorbed ++ folded) waiting' ∧
      s'.bits = xorAll s.bits (loads folded) ∧
      s'.generation = s.generation + (if folded = [] then 0 else 1) ∧
      s'.begin = s.begin ∧ s'.whole = s.whole ∧ s'.hasWhole = s.hasWhole ∧
      s'.capacity = s.capacity := by
  obtain ⟨slot, hlast, hspare⟩ := exists_spare h hroom
  have hfront := h.assembled.frontier_le hne hdis
  have hroom' := pending_lt h hroom
  -- the slot is free and within the slots
  have hmem : slot ∈ List.range s.capacity := by
    apply h.slots.mem_iff.mp
    rw [hspare]
    simp
  have hslot : slot < s.intervals.length := by
    rw [h.size]
    exact List.mem_range.mp hmem
  have hnodup : (s.pending ++ s.spare).Nodup := h.slots.nodup_iff.mpr List.nodup_range
  have hnot : slot ∉ s.pending := by
    intro hp
    have hspareMem : slot ∈ s.spare := by
      rw [hspare]
      simp
    exact (List.nodup_append.mp hnodup).2.2 slot hp slot hspareMem rfl
  let before := fun entry => decide ((intervalAt s.intervals entry).begin ≤ d.begin)
  let queue := s.pending.takeWhile before ++ slot :: s.pending.dropWhile before
  have hqueue : queue.map (intervalAt (s.intervals.set slot d)) = Piece.insert d waiting := by
    rw [← h.view]
    exact map_insert hslot hnot
  have hperm : (queue ++ s.spare.dropLast).Perm (List.range s.capacity) := by
    refine List.Perm.trans ?_ h.slots
    have hq : queue.Perm (slot :: s.pending) := by
      refine List.perm_middle.trans ?_
      rw [List.takeWhile_append_dropWhile]
    refine (hq.append_right _).trans ?_
    rw [hspare, List.dropLast_concat, ← List.append_assoc]
    exact (List.perm_append_singleton slot _).symm
  obtain ⟨drained, kept, hsplit, hdrained, hkept, hadvance⟩ := advance_eq { s with
    intervals := s.intervals.set slot d
    spare := s.spare.dropLast } false queue
  dsimp only at hdrained hkept hadvance
  rw [hqueue] at hdrained hkept hadvance
  have haccept := h.assembled.accept hne hdis
  rw [hdrained, hkept] at haccept
  have hslots : (kept ++ (s.spare.dropLast ++ drained)).Perm (List.range s.capacity) := by
    refine List.Perm.trans ?_ hperm
    rw [hsplit, List.append_assoc, ← List.append_assoc kept]
    exact List.perm_append_comm
  have hcall : s.stageDelta name d = .ok
      (if (!drained.isEmpty) = true then
        { s with
          bits := xorAll s.bits (loads (drained.map (intervalAt (s.intervals.set slot d))))
          frontier := (drain s.frontier (Piece.insert d waiting)).2.1
          intervals := s.intervals.set slot d
          spare := s.spare.dropLast ++ drained
          pending := kept
          generation := s.generation + 1 }
      else
        { s with
          bits := xorAll s.bits (loads (drained.map (intervalAt (s.intervals.set slot d))))
          frontier := (drain s.frontier (Piece.insert d waiting)).2.1
          intervals := s.intervals.set slot d
          spare := s.spare.dropLast ++ drained
          pending := kept }) := by
    unfold stageDelta
    rw [if_neg hfinite, if_neg (by omega), if_neg (by omega), if_neg (by omega), hlast]
    change Except.ok (if (advance _ false queue).2 = true then _ else _) = _
    rw [hadvance]
    rfl
  refine ⟨_, drained.map (intervalAt (s.intervals.set slot d)),
    kept.map (intervalAt (s.intervals.set slot d)), hcall, ?_⟩
  cases drained with
  | nil =>
    refine ⟨⟨haccept, rfl, hslots, ?_⟩, rfl, rfl, rfl, rfl, rfl, rfl⟩
    rw [← h.size]
    exact List.length_set
  | cons first drained =>
    refine ⟨⟨haccept, rfl, hslots, ?_⟩, rfl, rfl, rfl, rfl, rfl, rfl⟩
    rw [← h.size]
    exact List.length_set

end OutputStager

end CudaqQec
