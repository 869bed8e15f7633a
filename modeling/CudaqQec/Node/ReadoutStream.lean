import CudaqQec.Lib.LastKept
import CudaqQec.Lib.Parity
import CudaqQec.Node.LogicalReadout

/-!
# A readout's stream

However a shot's measurements are cut into chunks, the node has read of each reading round of the prefix
what lies in the measurements received, and keeps the last ones in its ring.

* `execute`: the node on a whole shot.
* `Streaming`: what the node knows after part of a shot.
* `Streaming.taken`: one chunk.
* `Streaming.flush`: the value published at the end is `execute`'s.
-/

namespace CudaqQec

open Checked Parity LastKept

/-! ## Measurements that are read -/

namespace ReadingRound

variable (h : ReadingRound) (i : Nat)

/-- The measurements of a round that flip an observable, each as often as it does. The round's first one
is at `start`. -/
def named (start : Nat) : List Nat :=
  (List.range h.width).flatMap fun p => List.replicate ((h.observables.getD p []).count i) (start + p)

def between (lo hi : Nat) : List Nat :=
  (List.range' lo (hi - lo)).flatMap fun p =>
    List.replicate ((h.observables.getD (p - h.begin) []).count i) p

def below (n : Nat) : List Nat := h.between i h.begin (min (h.begin + h.width) n)

variable {h i}

theorem below_of_le {n : Nat} (hle : h.begin + h.width ≤ n) : h.below i n = h.named i h.begin := by
  unfold below between named
  rw [Nat.min_eq_left hle, Nat.add_sub_cancel_left, List.range'_eq_map_range, List.flatMap_map]
  apply List.flatMap_congr
  intro p _
  rw [Nat.add_sub_cancel_left]

theorem below_of_le_begin {n : Nat} (hle : n ≤ h.begin) : h.below i n = [] := by
  unfold below between
  rw [show min (h.begin + h.width) n - h.begin = 0 by omega]
  rfl

/-- More measurements add those that follow. -/
theorem below_append {n n' : Nat} (hle : n ≤ n') : h.below i n' =
    h.below i n ++ h.between i (max h.begin n) (min (h.begin + h.width) n') := by
  unfold below between
  rw [← List.flatMap_append]
  congr 1
  by_cases hbegin : n ≤ h.begin
  · rw [show min (h.begin + h.width) n - h.begin = 0 by omega, Nat.max_eq_left hbegin]
    rfl
  by_cases hend : h.begin + h.width ≤ n
  · rw [Nat.min_eq_left hend, Nat.min_eq_left (hend.trans hle),
      show h.begin + h.width - max h.begin n = 0 by omega]
    simp
  · have hmin : min (h.begin + h.width) n = n := Nat.min_eq_right (by omega)
    have hmax : max h.begin n = n := Nat.max_eq_right (by omega)
    have hsplit : List.range' h.begin (n - h.begin) ++ List.range' (h.begin + (n - h.begin))
        (min (h.begin + h.width) n' - n) = _ := List.range'_append_1
    rw [Nat.add_sub_cancel' (by omega)] at hsplit
    rw [hmin, hmax, hsplit]
    congr 1
    clear * - hle hbegin hend
    omega

theorem mem_below {n p : Nat} (hp : p ∈ h.below i n) : p < n := by
  obtain ⟨q, hq, hp⟩ := List.mem_flatMap.mp hp
  rw [List.eq_of_mem_replicate hp]
  have := List.mem_range'_1.mp hq
  omega

theorem mem_named {start p : Nat} (hp : p ∈ h.named i start) : p < start + h.width := by
  obtain ⟨q, hq, hp⟩ := List.mem_flatMap.mp hp
  rw [List.eq_of_mem_replicate hp]
  have := List.mem_range.mp hq
  omega

end ReadingRound

def measured (bits : List UInt8) (p : Nat) : UInt8 := bits.getD p 0

/-! ## Parities of what is read -/

theorem measured_append {bits bits' : List UInt8} {p : Nat} (h : p < bits.length) :
    measured (bits ++ bits') p = measured bits p := by
  unfold measured
  rw [List.getD_eq_getElem?_getD, List.getD_eq_getElem?_getD, List.getElem?_append_left h]

/-- A measurement flips an observable once for each time it is named. -/
theorem getElem?_reading {round : ReadingRound} {read : Nat → UInt8} {b : UInt8} {p at_ i : Nat}
    (hb : b = read at_) (value : List UInt8) :
    (if b &&& 1 ≠ 0 then addReading round p value else value)[i]? = value[i]?.map fun x =>
      x ^^^ parity read (List.replicate ((round.observables.getD p []).count i) at_) := by
  subst hb
  rcases and_one_cases (read at_) with hzero | hone
  · rw [if_neg (by rw [hzero]; decide), parity_replicate_zero hzero]
    simp
  · rw [if_pos (by rw [hone]; decide), addReading]
    generalize round.observables.getD p [] = flipped
    induction flipped generalizing value with
    | nil => simp
    | cons o flipped ih =>
      rw [List.foldl_cons, ih, List.getElem?_modify, List.count_cons, Option.map_eq_map, Option.map_map]
      by_cases ho : o = i
      · subst ho
        simp only [if_true, beq_self_eq_true, List.replicate_succ, parity_cons, hone]
        congr 1
        funext x
        rw [Function.comp_apply, UInt8.xor_assoc]
      · simp only [if_neg ho, beq_iff_eq, Nat.add_zero]
        congr 1

/-- Measurements one after the other. -/
theorem getElem?_foldl_reading {ι : Type} {round : ReadingRound} {read : Nat → UInt8} {i : Nat}
    {flips : ι → UInt8} (here at_ : ι → Nat) {ps : List ι} (hflips : ∀ p ∈ ps, flips p = read (at_ p))
    (value : List UInt8) :
    (ps.foldl (fun value p => if flips p &&& 1 ≠ 0 then addReading round (here p) value else value)
      value)[i]? = value[i]?.map fun x => x ^^^ parity read (ps.flatMap fun p =>
        List.replicate ((round.observables.getD (here p) []).count i) (at_ p)) := by
  induction ps generalizing value with
  | nil => simp
  | cons p ps ih =>
    rw [List.foldl_cons, ih fun q hq => hflips q (List.mem_cons_of_mem _ hq),
      getElem?_reading (hflips p List.mem_cons_self), Option.map_map, List.flatMap_cons, parity_append]
    congr 1
    funext x
    rw [Function.comp_apply, UInt8.xor_assoc]

theorem getElem?_foldl_named {round : ReadingRound} {read : Nat → UInt8} {i start : Nat}
    {flips : Nat → UInt8} (hflips : ∀ p < round.width, flips p = read (start + p)) (value : List UInt8) :
    ((List.range round.width).foldl (fun value p =>
      if flips p &&& 1 ≠ 0 then addReading round p value else value) value)[i]? =
      value[i]?.map fun x => x ^^^ parity read (round.named i start) :=
  getElem?_foldl_reading id (start + ·) (fun p hp => hflips p (List.mem_range.mp hp)) value

theorem getElem?_foldl_rounds {read : Nat → UInt8} {i : Nat} {flips : ReadingRound → Nat → UInt8}
    (start : ReadingRound → Nat) {rounds : List ReadingRound}
    (hflips : ∀ h ∈ rounds, ∀ p < h.width, flips h p = read (start h + p)) (value : List UInt8) :
    (rounds.foldl (fun value h => (List.range h.width).foldl (fun value p =>
      if flips h p &&& 1 ≠ 0 then addReading h p value else value) value) value)[i]? =
      value[i]?.map fun x => x ^^^ parity read (rounds.flatMap fun h => h.named i (start h)) := by
  induction rounds generalizing value with
  | nil => simp
  | cons h rounds ih =>
    rw [List.foldl_cons, ih fun g hg => hflips g (List.mem_cons_of_mem _ hg),
      getElem?_foldl_named (hflips h List.mem_cons_self), Option.map_map, List.flatMap_cons,
      parity_append]
    congr 1
    funext x
    rw [Function.comp_apply, UInt8.xor_assoc]

@[simp] theorem length_addReading (round : ReadingRound) (p : Nat) (value : List UInt8) :
    (addReading round p value).length = value.length := by
  unfold addReading
  generalize round.observables.getD p [] = flipped
  induction flipped generalizing value with
  | nil => rfl
  | cons o flipped ih => rw [List.foldl_cons, ih, List.length_modify]

theorem length_foldl_reading {ι : Type} {round : ReadingRound} (flips : ι → Prop) [DecidablePred flips]
    (here : ι → Nat) (ps : List ι) (value : List UInt8) :
    (ps.foldl (fun value p => if flips p then addReading round (here p) value else value)
      value).length = value.length := by
  induction ps generalizing value with
  | nil => rfl
  | cons p ps ih =>
    rw [List.foldl_cons, ih]
    split
    · exact length_addReading round _ value
    · rfl

theorem length_foldl_rounds {flips : ReadingRound → Nat → Prop} [∀ h, DecidablePred (flips h)]
    (rounds : List ReadingRound) (value : List UInt8) :
    (rounds.foldl (fun value h => (List.range h.width).foldl (fun value p =>
      if flips h p then addReading h p value else value) value) value).length = value.length := by
  induction rounds generalizing value with
  | nil => rfl
  | cons h rounds ih =>
    rw [List.foldl_cons, ih]
    exact length_foldl_reading (flips h) id _ value

/-! ## A whole shot -/

/-- `execute_indexed`, on the shot's measurements. -/
def executeReadout (l : LogicalReadout) (bits : List UInt8) : Except Error (List UInt8) := do
  throwIf (bits.length < l.head + l.tail)
    (.invalidArgument ("logical_readout: the shot holds " ++ toString bits.length ++
      " measurements, fewer than the " ++ toString (l.head + l.tail) ++
      " of its prefix and suffix rounds"))
  let value := l.headRounds.foldl (fun value round => (List.range round.width).foldl (fun value p =>
    if bits.getD (round.begin + p) 0 &&& 1 ≠ 0 then addReading round p value else value) value)
    (List.replicate l.numObservables 0)
  return l.tailRounds.foldl (fun value round => (List.range round.width).foldl (fun value p =>
    if bits.getD (bits.length - l.tail + round.begin + p) 0 &&& 1 ≠ 0 then addReading round p value
    else value) value) value

def LogicalReadout.reads (l : LogicalReadout) (i n : Nat) : List Nat :=
  (l.headRounds.flatMap fun h => h.named i h.begin) ++
    l.tailRounds.flatMap fun h => h.named i (n - l.tail + h.begin)

theorem executeReadout_eq {l : LogicalReadout} {bits : List UInt8}
    (hlength : l.head + l.tail ≤ bits.length) : ∃ value, executeReadout l bits = .ok value ∧
      value.length = l.numObservables ∧
      ∀ i < l.numObservables, value[i]? = some (parity (measured bits) (l.reads i bits.length)) := by
  unfold executeReadout
  rw [throwIf_of_not (by omega), ok_bind]
  refine ⟨_, rfl, ?_, fun i hi => ?_⟩
  · exact (length_foldl_rounds _ _).trans ((length_foldl_rounds _ _).trans List.length_replicate)
  refine (getElem?_foldl_rounds (fun h => bits.length - l.tail + h.begin)
    (fun h _ p _ => (rfl : _ = measured bits (_ + p))) _).trans ?_
  refine (congrArg _ (getElem?_foldl_rounds (fun h => h.begin)
    (fun h _ p _ => (rfl : _ = measured bits (_ + p))) _)).trans ?_
  rw [List.getElem?_replicate, if_pos hi, LogicalReadout.reads, parity_append]
  simp

/-! ## Part of a shot -/

/-- Where the rounds of a node lie: in order and apart, those of the prefix among the first `head`
measurements and those of the suffix among the last `tail`. -/
structure Placed (l : LogicalReadout) : Prop where
  ordered : ReadoutState.Ordered l
  apart : l.headRounds.Pairwise fun g h => g.begin + g.width ≤ h.begin
  head : ∀ h ∈ l.headRounds, h.begin + h.width ≤ l.head
  tail : ∀ h ∈ l.tailRounds, h.begin + h.width ≤ l.tail
  pos : ∀ h ∈ l.headRounds, 0 < h.width

namespace ReadoutState

variable {l : LogicalReadout} {stream msyn : List UInt8} {s : ReadoutState} {i : Nat}

/-! ## What a readout has read -/

/-- What has been read of the rounds up to `nextRound` and of those after it, `n` and `m` being how many
measurements of the shot have been looked at. -/
def readSoFar (l : LogicalReadout) (i next n m : Nat) : List Nat :=
  ((l.headRounds.take next).flatMap fun h => h.below i n) ++
    (l.headRounds.drop next).flatMap fun h => h.below i m

theorem readSoFar_self (next n : Nat) :
    readSoFar l i next n n = l.headRounds.flatMap fun h => h.below i n := by
  rw [readSoFar, ← List.flatMap_append, List.take_append_drop]

/-- What the node knows after part of a shot. -/
structure Streaming (l : LogicalReadout) (stream : List UInt8) (s : ReadoutState) : Prop where
  seen : s.seen = stream.length
  ended : s.ended = false
  published : s.published = false
  done : ∀ h ∈ l.headRounds.take s.nextRound, h.begin + h.width ≤ stream.length
  waiting : ∀ h ∈ l.headRounds.drop s.nextRound, stream.length < h.begin + h.width
  covered : ∀ h ∈ l.headRounds.take s.nextRound, h.round < s.readEnd
  front : ∀ h ∈ l.headRounds.drop s.nextRound, s.readEnd ≤ h.round
  length : s.read.length = l.numObservables
  read : ∀ i < l.numObservables, s.read[i]? = some (parity (measured stream)
    (l.headRounds.flatMap fun h => h.below i stream.length))
  ring : l.tail = 0 ∨ Holds l.tail s.kept s.next stream
  value : s.current = true → (∃ h ∈ l.headRounds, s.readEnd = h.round + 1) ∧
    ∀ i < l.numObservables, s.corrections[i]? = some (parity (measured stream)
      ((l.headRounds.take s.nextRound).flatMap fun h => h.named i h.begin))

/-- In the loop over the rounds, with a chunk that follows `stream`. -/
structure Within (l : LogicalReadout) (stream msyn : List UInt8) (s : ReadoutState) (fired : Bool) :
    Prop where
  seen : s.seen = stream.length
  done : ∀ h ∈ l.headRounds.take s.nextRound, h.begin + h.width ≤ (stream ++ msyn).length
  waiting : ∀ h ∈ l.headRounds.drop s.nextRound, stream.length < h.begin + h.width
  covered : ∀ h ∈ l.headRounds.take s.nextRound, h.round < s.readEnd
  front : ∀ h ∈ l.headRounds.drop s.nextRound, s.readEnd ≤ h.round
  length : s.read.length = l.numObservables
  read : ∀ i < l.numObservables, s.read[i]? = some (parity (measured (stream ++ msyn))
    (readSoFar l i s.nextRound (stream ++ msyn).length stream.length))
  fresh : fired = true → (∃ h ∈ l.headRounds, s.readEnd = h.round + 1) ∧
    ∀ h ∈ l.headRounds.drop s.nextRound, stream.length ≤ h.begin

/-- After the loop. -/
structure Found (l : LogicalReadout) (stream msyn : List UInt8) (s : ReadoutState) (fired : Bool) :
    Prop where
  done : ∀ h ∈ l.headRounds.take s.nextRound, h.begin + h.width ≤ (stream ++ msyn).length
  waiting : ∀ h ∈ l.headRounds.drop s.nextRound, (stream ++ msyn).length < h.begin + h.width
  covered : ∀ h ∈ l.headRounds.take s.nextRound, h.round < s.readEnd
  front : ∀ h ∈ l.headRounds.drop s.nextRound, s.readEnd ≤ h.round
  length : s.read.length = l.numObservables
  read : ∀ i < l.numObservables, s.read[i]? = some (parity (measured (stream ++ msyn))
    (l.headRounds.flatMap fun h => h.below i (stream ++ msyn).length))
  value : s.current = true → fired = true ∧ ∀ i < l.numObservables, s.corrections[i]? =
    some (parity (measured (stream ++ msyn))
      ((l.headRounds.take s.nextRound).flatMap fun h => h.named i h.begin))
  fresh : fired = true → (∃ h ∈ l.headRounds, s.readEnd = h.round + 1) ∧
    (s.current = true ∨ l.headRounds.drop s.nextRound = [])

/-! ## The last measurements -/

/-- What the loop leaves alone. -/
structure SameRing (s s' : ReadoutState) : Prop where
  kept : s'.kept = s.kept
  next : s'.next = s.next
  seen : s'.seen = s.seen
  ended : s'.ended = s.ended
  published : s'.published = s.published

theorem SameRing.refl (s : ReadoutState) : SameRing s s := by constructor <;> rfl

theorem SameRing.trans {s s' s'' : ReadoutState} (h : SameRing s s') (h' : SameRing s' s'') :
    SameRing s s'' :=
  ⟨h'.kept.trans h.kept, h'.next.trans h.next, h'.seen.trans h.seen, h'.ended.trans h.ended,
    h'.published.trans h.published⟩

theorem length_readChunk (round : ReadingRound) :
    (s.readChunk msyn round).read.length = s.read.length :=
  length_foldl_reading _ _ _ _

theorem getElem?_readChunk (hseen : s.seen = stream.length) (round : ReadingRound) :
    (s.readChunk msyn round).read[i]? = s.read[i]?.map fun x =>
      x ^^^ parity (measured (stream ++ msyn)) (round.between i (max round.begin stream.length)
        (min (round.begin + round.width) (stream ++ msyn).length)) := by
  unfold readChunk ReadingRound.between
  rw [hseen, List.length_append]
  refine getElem?_foldl_reading (fun p => p - round.begin) id (fun p hp => ?_) s.read
  have hp := List.mem_range'_1.mp hp
  unfold measured
  rw [List.getD_eq_getElem?_getD, List.getD_eq_getElem?_getD,
    List.getElem?_append_right (by change _ ≤ p; omega)]
  rfl

/-- The rounds from the next one on. -/
structure AtRound (l : LogicalReadout) (s : ReadoutState) (round : ReadingRound)
    (rest : List ReadingRound) : Prop where
  drop : l.headRounds.drop s.nextRound = round :: rest
  drop_succ : l.headRounds.drop (s.nextRound + 1) = rest
  take_succ : l.headRounds.take (s.nextRound + 1) = l.headRounds.take s.nextRound ++ [round]
  after : ∀ g ∈ rest, round.begin + round.width ≤ g.begin
  later : ∀ g ∈ rest, round.round < g.round

theorem atRound_of_drop (hp : Placed l) {round : ReadingRound} {rest : List ReadingRound}
    (hdrop : l.headRounds.drop s.nextRound = round :: rest) : AtRound l s round rest where
  drop := hdrop
  drop_succ := by
    rw [← List.drop_drop, hdrop]
    rfl
  take_succ := by
    have hhead : l.headRounds[s.nextRound]? = some round := by
      rw [← List.head?_drop, hdrop]
      rfl
    rw [List.take_add_one, hhead]
    rfl
  after := by
    have happart := hp.apart.sublist (List.drop_sublist s.nextRound l.headRounds)
    rw [hdrop] at happart
    exact (List.pairwise_cons.mp happart).1
  later := by
    have hordered := hp.ordered.sublist (List.drop_sublist s.nextRound l.headRounds)
    rw [hdrop] at hordered
    exact (List.pairwise_cons.mp hordered).1

variable {fired : Bool} {round : ReadingRound} {rest : List ReadingRound}

theorem length_le_append : stream.length ≤ (stream ++ msyn).length := by
  rw [List.length_append]
  exact Nat.le_add_right _ _

/-! ## One round -/

/-- Once a round's part is read, the round is read as far as the measurements go. -/
theorem Within.readChunk (h : Within l stream msyn s fired) (hat : AtRound l s round rest)
    (hi : i < l.numObservables) : (s.readChunk msyn round).read[i]? =
      some (parity (measured (stream ++ msyn))
        (((l.headRounds.take s.nextRound).flatMap fun h => h.below i (stream ++ msyn).length) ++
          (round.below i (stream ++ msyn).length ++
            rest.flatMap fun h => h.below i stream.length))) := by
  rw [getElem?_readChunk h.seen, h.read i hi, readSoFar, hat.drop, List.flatMap_cons, Option.map_some,
    ReadingRound.below_append length_le_append]
  congr 1
  simp only [parity_append, UInt8.xor_assoc]
  congr 2
  rw [UInt8.xor_comm]

/-- A chunk that ends in a round: nothing of the later ones is in it. -/
theorem Within.starts (h : Within l stream msyn s fired) (hat : AtRound l s round rest)
    (hcurrent : s.current = fired) (hvalue : fired = true → ∀ i < l.numObservables, s.corrections[i]? =
      some (parity (measured (stream ++ msyn))
        ((l.headRounds.take s.nextRound).flatMap fun h => h.named i h.begin)))
    (hend : (stream ++ msyn).length < round.begin + round.width) :
    Found l stream msyn (s.readChunk msyn round) fired where
  done := h.done
  waiting := by
    change ∀ g ∈ l.headRounds.drop s.nextRound, _
    rw [hat.drop]
    intro g hg
    rcases List.mem_cons.mp hg with rfl | hg
    · exact hend
    · have := hat.after g hg
      omega
  covered := h.covered
  front := h.front
  length := (length_readChunk round).trans h.length
  read i hi := by
    have hnone : rest.flatMap (fun g => g.below i stream.length) =
        rest.flatMap fun g => g.below i (stream ++ msyn).length := by
      apply List.flatMap_congr
      intro g hg
      have hle := hend.le.trans (hat.after g hg)
      rw [ReadingRound.below_of_le_begin hle,
        ReadingRound.below_of_le_begin (length_le_append.trans hle)]
    rw [h.readChunk hat hi, hnone, ← readSoFar_self s.nextRound, readSoFar, hat.drop, List.flatMap_cons]
  value hc := ⟨hcurrent.symm.trans hc, hvalue (hcurrent.symm.trans hc)⟩
  fresh hf := ⟨(h.fresh hf).1, .inl (hcurrent.trans hf)⟩

/-- A round is completed. -/
theorem Within.completes (h : Within l stream msyn s fired) (hat : AtRound l s round rest)
    (hend : round.begin + round.width ≤ (stream ++ msyn).length) :
    Within l stream msyn { s.readChunk msyn round with
      readEnd := round.round + 1
      nextRound := s.nextRound + 1 } true where
  seen := h.seen
  -- the round that was completed joins those before it
  done := by
    change ∀ g ∈ l.headRounds.take (s.nextRound + 1), _
    rw [hat.take_succ]
    intro g hg
    rcases List.mem_append.mp hg with hg | hg
    · exact h.done g hg
    · rw [List.mem_singleton.mp hg]
      exact hend
  waiting := by
    change ∀ g ∈ l.headRounds.drop (s.nextRound + 1), _
    rw [hat.drop_succ]
    intro g hg
    exact h.waiting g (hat.drop ▸ List.mem_cons_of_mem _ hg)
  covered := by
    change ∀ g ∈ l.headRounds.take (s.nextRound + 1), g.round < round.round + 1
    rw [hat.take_succ]
    intro g hg
    rcases List.mem_append.mp hg with hg | hg
    · have hcovered := h.covered g hg
      have hfront := h.front round (hat.drop ▸ List.mem_cons_self)
      omega
    · rw [List.mem_singleton.mp hg]
      exact Nat.lt_succ_self _
  front := by
    change ∀ g ∈ l.headRounds.drop (s.nextRound + 1), round.round + 1 ≤ g.round
    rw [hat.drop_succ]
    exact hat.later
  length := (length_readChunk round).trans h.length
  -- of what is read it has its whole part now, and the later rounds theirs
  read i hi := by
    change (s.readChunk msyn round).read[i]? = _
    rw [h.readChunk hat hi, readSoFar]
    change _ = some (parity _ ((l.headRounds.take (s.nextRound + 1)).flatMap _ ++
      (l.headRounds.drop (s.nextRound + 1)).flatMap _))
    rw [hat.take_succ, hat.drop_succ, List.flatMap_append, List.flatMap_singleton, List.append_assoc]
  fresh _ := by
    refine ⟨⟨round, List.mem_of_mem_drop (hat.drop ▸ List.mem_cons_self), rfl⟩, ?_⟩
    change ∀ g ∈ l.headRounds.drop (s.nextRound + 1), _
    rw [hat.drop_succ]
    intro g hg
    have hwaiting := h.waiting round (hat.drop ▸ List.mem_cons_self)
    exact hwaiting.le.trans (hat.after g hg)

/-- What has been completed is published before a round that the chunk only starts. -/
theorem Within.publish (h : Within l stream msyn s true) : Within l stream msyn s.publish true ∧
    ∀ i < l.numObservables, s.publish.corrections[i]? = some (parity (measured (stream ++ msyn))
      ((l.headRounds.take s.nextRound).flatMap fun h => h.named i h.begin)) := by
  refine ⟨⟨h.seen, h.done, h.waiting, h.covered, h.front, h.length, h.read, h.fresh⟩, fun i hi => ?_⟩
  have hnone : (l.headRounds.drop s.nextRound).flatMap (fun g => g.below i stream.length) = [] := by
    rw [List.flatMap_eq_nil_iff]
    intro g hg
    exact ReadingRound.below_of_le_begin ((h.fresh rfl).2 g hg)
  have hdone : (l.headRounds.take s.nextRound).flatMap
      (fun g => g.below i (stream ++ msyn).length) =
        (l.headRounds.take s.nextRound).flatMap fun g => g.named i g.begin := by
    apply List.flatMap_congr
    intro g hg
    exact ReadingRound.below_of_le (h.done g hg)
  change s.read[i]? = _
  rw [h.read i hi, readSoFar, hnone, hdone, List.append_nil]

theorem sameRing_readRounds (msyn : List UInt8) (rounds : List ReadingRound) (s : ReadoutState) (fired : Bool) :
    SameRing s (ReadoutState.readRounds msyn s fired rounds).1 := by
  induction rounds generalizing s fired with
  | nil => exact SameRing.refl s
  | cons round rounds ih =>
    unfold ReadoutState.readRounds
    dsimp only
    split
    · split <;> constructor <;> rfl
    · refine SameRing.trans ?_ (ih _ _)
      split <;> constructor <;> rfl

/-- The loop over the reading rounds. -/
theorem Within.readRounds (hp : Placed l) {rounds : List ReadingRound}
    (hdrop : l.headRounds.drop s.nextRound = rounds) (hcurrent : s.current = false)
    (h : Within l stream msyn s fired) :
    Found l stream msyn (readRounds msyn s fired rounds).1 (readRounds msyn s fired rounds).2 := by
  induction rounds generalizing s fired with
  | nil =>
    refine ⟨h.done, ?_, h.covered, h.front, h.length, fun i hi => ?_, fun hc => ?_, fun hr => ?_⟩
    · change ∀ g ∈ l.headRounds.drop s.nextRound, _
      rw [hdrop]
      intro g hg
      cases hg
    · change s.read[i]? = _
      rw [h.read i hi, readSoFar, hdrop, ← readSoFar_self (s.nextRound), readSoFar, hdrop]
      rfl
    · change s.current = true at hc
      rw [hcurrent] at hc
      cases hc
    · exact ⟨(h.fresh hr).1, .inr hdrop⟩
  | cons round rest ih =>
    have hat := atRound_of_drop hp hdrop
    -- the chunk ends inside the round, or the round is read whole and the next one follows
    by_cases hstarts : s.seen + msyn.length < round.begin + round.width
    · have hend : (stream ++ msyn).length < round.begin + round.width := by
        rw [List.length_append, ← h.seen]
        exact hstarts
      -- a round that starts after another was completed publishes what was read so far
      cases fired with
      | false =>
        have hr : ReadoutState.readRounds msyn s false (round :: rest) =
            (s.readChunk msyn round, false) := by
          simp only [ReadoutState.readRounds, hstarts, Bool.false_eq_true, false_and, if_true, if_false]
        rw [hr]
        exact h.starts hat hcurrent (fun hfired => by cases hfired) hend
      | true =>
        have hr : ReadoutState.readRounds msyn s true (round :: rest) =
            (s.publish.readChunk msyn round, true) := by
          simp only [ReadoutState.readRounds, hstarts, and_self, if_true]
        obtain ⟨hpublish, hvalue⟩ := h.publish
        rw [hr]
        exact hpublish.starts (atRound_of_drop hp hdrop) rfl (fun _ => hvalue) hend
    · have hend : round.begin + round.width ≤ (stream ++ msyn).length := by
        rw [List.length_append, ← h.seen]
        exact not_lt.mp hstarts
      have hr : ReadoutState.readRounds msyn s fired (round :: rest) =
          ReadoutState.readRounds msyn { s.readChunk msyn round with
            readEnd := round.round + 1
            nextRound := s.nextRound + 1 } true rest := by
        simp only [ReadoutState.readRounds, hstarts, and_false, if_false]
        rfl
      rw [hr]
      exact ih (s := { s.readChunk msyn round with
        readEnd := round.round + 1
        nextRound := s.nextRound + 1 }) hat.drop_succ hcurrent (h.completes hat hend)

/-! ## A chunk -/

/-- A chunk, up to the check that ends a shot. -/
def taken (l : LogicalReadout) (s : ReadoutState) (msyn : List UInt8) : ReadoutState × Bool :=
  let r := ReadoutState.readRounds msyn { s with current := false } false (l.headRounds.drop s.nextRound)
  let s := if l.tail = 0 then r.1 else (msyn.drop (msyn.length - l.tail)).foldl (keep l) r.1
  let s := { s with seen := s.seen + msyn.length }
  (if r.2 ∧ !s.current then s.publish else s, r.2)

theorem enqueue_of_open (hended : s.ended = false) {type : RoundType} (htype : type ≠ .final) :
    s.enqueue l msyn type = .ok (s.taken l msyn) := by
  unfold enqueue
  rw [throwIf_of_not (by rw [hended]; decide), ok_bind]
  simp only [if_neg htype]
  rfl

theorem enqueue_final (hended : s.ended = false) (hseen : l.head + l.tail ≤ (s.taken l msyn).1.seen) :
    s.enqueue l msyn .final =
      .ok ({ (s.taken l msyn).1 with ended := true }, (s.taken l msyn).2) := by
  unfold enqueue
  rw [throwIf_of_not (by rw [hended]; decide), ok_bind]
  change (throwIf ((s.taken l msyn).1.seen < l.head + l.tail) _ >>= fun _ =>
    Except.ok ({ (s.taken l msyn).1 with ended := true }, (s.taken l msyn).2)) = _
  rw [throwIf_of_not (not_lt.mpr hseen), ok_bind]

/-- Only the ring changes when measurements are kept. -/
theorem foldl_keep_eq (bs : List UInt8) (s : ReadoutState) : bs.foldl (keep l) s = { s with
    kept := (bs.foldl (keep l) s).kept
    next := (bs.foldl (keep l) s).next } := by
  obtain ⟨kept, next, heq⟩ := foldl_keep (l := l) bs s
  rw [heq]

theorem holds_foldl_keep (bs : List UInt8) (h : Holds l.tail s.kept s.next stream) :
    Holds l.tail (bs.foldl (keep l) s).kept (bs.foldl (keep l) s).next (stream ++ bs) := by
  induction bs generalizing s stream with
  | nil => simpa using h
  | cons b bs ih =>
    rw [List.foldl_cons, List.append_cons]
    exact ih (h.push b)

/-- A chunk longer than the ring is kept by its last ringful. -/
theorem holds_chunk (h : Holds l.tail s.kept s.next stream) :
    Holds l.tail ((msyn.drop (msyn.length - l.tail)).foldl (keep l) s).kept
      ((msyn.drop (msyn.length - l.tail)).foldl (keep l) s).next (stream ++ msyn) := by
  have hkept := holds_foldl_keep (msyn.drop (msyn.length - l.tail)) h
  by_cases hlong : l.tail ≤ msyn.length
  · have hsplit : stream ++ msyn = (stream ++ msyn.take (msyn.length - l.tail)) ++
        msyn.drop (msyn.length - l.tail) := by
      rw [List.append_assoc, List.take_append_drop]
    rw [hsplit]
    apply hkept.of_append
    rw [List.length_drop]
    omega
  · rw [show msyn.length - l.tail = 0 by omega] at hkept ⊢
    exact hkept

theorem ring_chunk (msyn : List UInt8) (h : l.tail = 0 ∨ Holds l.tail s.kept s.next stream) :
    ∃ kept next,
    (if l.tail = 0 then s else (msyn.drop (msyn.length - l.tail)).foldl (keep l) s) =
      { s with kept := kept, next := next } ∧
    (l.tail = 0 ∨ Holds l.tail kept next (stream ++ msyn)) := by
  by_cases hzero : l.tail = 0
  · rw [if_pos hzero]
    exact ⟨s.kept, s.next, rfl, .inl hzero⟩
  · rw [if_neg hzero]
    exact ⟨_, _, foldl_keep_eq _ s, .inr (holds_chunk (h.resolve_left hzero))⟩

/-- What the chunk completed is published, if it is not yet. -/
theorem Found.streaming (h : Found l stream msyn s fired) (hseen : s.seen = (stream ++ msyn).length)
    (hended : s.ended = false) (hpublished : s.published = false)
    (hring : l.tail = 0 ∨ Holds l.tail s.kept s.next (stream ++ msyn)) :
    Streaming l (stream ++ msyn) (if fired ∧ !s.current then s.publish else s) := by
  split
  · next hcond =>
    obtain ⟨hfired, hnot⟩ := hcond
    obtain ⟨hpos, hcurrent⟩ := h.fresh hfired
    refine ⟨hseen, hended, hpublished, h.done, h.waiting, h.covered, h.front, h.length, h.read, hring,
      fun _ => ⟨hpos, fun i hi => ?_⟩⟩
    have hdrop : l.headRounds.drop s.nextRound = [] := by
      rcases hcurrent with hcurrent | hdrop
      · rw [hcurrent] at hnot
        cases hnot
      · exact hdrop
    change s.read[i]? = some (parity _ ((l.headRounds.take s.nextRound).flatMap _))
    rw [h.read i hi, ← readSoFar_self s.nextRound, readSoFar, hdrop, List.flatMap_nil, List.append_nil]
    congr 2
    apply List.flatMap_congr
    intro g hg
    exact ReadingRound.below_of_le (h.done g hg)
  · refine ⟨hseen, hended, hpublished, h.done, h.waiting, h.covered, h.front, h.length, h.read, hring,
      fun hc => ?_⟩
    obtain ⟨hfired, hvalue⟩ := h.value hc
    exact ⟨(h.fresh hfired).1, hvalue⟩

/-- A chunk starts with nothing of it read. -/
theorem Streaming.within (h : Streaming l stream s) (msyn : List UInt8) :
    Within l stream msyn { s with current := false } false := by
  refine ⟨h.seen, fun g hg => (h.done g hg).trans length_le_append, h.waiting, h.covered, h.front,
    h.length, fun i hi => ?_, nofun⟩
  have hdone : readSoFar l i s.nextRound (stream ++ msyn).length stream.length =
      l.headRounds.flatMap fun g => g.below i stream.length := by
    rw [← readSoFar_self s.nextRound, readSoFar, readSoFar]
    congr 1
    apply List.flatMap_congr
    intro g hg
    rw [ReadingRound.below_of_le (h.done g hg),
      ReadingRound.below_of_le ((h.done g hg).trans length_le_append)]
  change s.read[i]? =
    some (parity _ (readSoFar l i s.nextRound (stream ++ msyn).length stream.length))
  rw [h.read i hi, hdone]
  congr 1
  apply parity_congr
  intro p hp
  obtain ⟨g, -, hp⟩ := List.mem_flatMap.mp hp
  exact (measured_append (ReadingRound.mem_below hp)).symm

theorem Streaming.taken (hp : Placed l) (h : Streaming l stream s) (msyn : List UInt8) :
    Streaming l (stream ++ msyn) (s.taken l msyn).1 := by
  have hfound := (h.within msyn).readRounds hp rfl rfl
  have hsame := sameRing_readRounds msyn (l.headRounds.drop s.nextRound)
    { s with current := false } false
  unfold ReadoutState.taken
  generalize ReadoutState.readRounds msyn { s with current := false } false
    (l.headRounds.drop s.nextRound) = r at hfound hsame
  have hring : l.tail = 0 ∨ Holds l.tail r.1.kept r.1.next stream := by
    rw [hsame.kept, hsame.next]
    exact h.ring
  obtain ⟨kept, next, heq, hring⟩ := ring_chunk msyn hring
  have hnew : Found l stream msyn { r.1 with
      kept := kept
      next := next
      seen := r.1.seen + msyn.length } r.2 :=
    ⟨hfound.done, hfound.waiting, hfound.covered, hfound.front, hfound.length, hfound.read, hfound.value,
      hfound.fresh⟩
  simp only [heq]
  refine hnew.streaming ?_ (hsame.ended.trans h.ended) (hsame.published.trans h.published) hring
  change r.1.seen + msyn.length = _
  rw [hsame.seen, List.length_append]
  exact congrArg (· + msyn.length) h.seen

/-! ## The end of a shot -/

/-- Where the ring keeps a measurement of the suffix. -/
theorem kept_eq (h : Holds l.tail s.kept s.next stream) (hle : l.tail ≤ stream.length) {j : Nat}
    (hj : j < l.tail) :
    s.kept.getD (if l.tail ≤ s.next + j then s.next + j - l.tail else s.next + j) 0 =
      measured stream (stream.length - l.tail + j) := by
  have hlast := h.last j hj (by omega)
  unfold measured
  rw [List.getD_eq_getElem?_getD, List.getD_eq_getElem?_getD]
  change (s.kept[place l.tail s.next j]?).getD 0 = _
  rw [hlast]
  congr 2
  omega

/-- At the end the value is what the node reads on the whole shot. -/
theorem Streaming.flush (hp : Placed l) (h : Streaming l stream s)
    (hlength : l.head + l.tail ≤ stream.length) :
    (({ s with ended := true } : ReadoutState).flush l).2 = true ∧
    (({ s with ended := true } : ReadoutState).flush l).1.corrections.length = l.numObservables ∧
    ∀ i < l.numObservables, (({ s with ended := true } : ReadoutState).flush l).1.corrections[i]? =
      some (parity (measured stream) (l.reads i stream.length)) := by
  have hflush : ({ s with ended := true } : ReadoutState).flush l = ({ s with
      ended := true
      corrections := s.readTail l
      readEnd := wholeShot
      current := true
      published := true }, true) := by
    unfold ReadoutState.flush
    rw [if_neg (by rw [h.published]; simp)]
    rfl
  rw [hflush]
  refine ⟨rfl, (length_foldl_rounds _ _).trans h.length, fun i hi => ?_⟩
  have hhead : (l.headRounds.flatMap fun g => g.below i stream.length) =
      l.headRounds.flatMap fun g => g.named i g.begin := by
    apply List.flatMap_congr
    intro g hg
    have := hp.head g hg
    exact ReadingRound.below_of_le (by omega)
  have htail : ∀ g ∈ l.tailRounds, ∀ p < g.width,
      s.kept.getD (if l.tail ≤ s.next + g.begin + p then s.next + g.begin + p - l.tail
        else s.next + g.begin + p) 0 = measured stream (stream.length - l.tail + g.begin + p) := by
    intro g hg p hlt
    have hend := hp.tail g hg
    have hring := h.ring.resolve_left (by omega)
    have hkept := kept_eq hring (by omega) (j := g.begin + p) (by omega)
    rwa [← Nat.add_assoc, ← Nat.add_assoc] at hkept
  change (s.readTail l)[i]? = _
  unfold readTail
  refine (getElem?_foldl_rounds (fun g => stream.length - l.tail + g.begin) htail _).trans ?_
  rw [h.read i hi, hhead, LogicalReadout.reads, parity_append]
  rfl

/-! ## Shots one after the other -/

end ReadoutState

inductive ReadoutCall where
  | enqueue (msyn : List UInt8) (type : RoundType)
  | flush
  | clear
  | reset

namespace ReadoutState

variable {l : LogicalReadout} {stream : List UInt8} {s : ReadoutState}

/-- The state after a call. A chunk after FINAL changes nothing; one that ends a shot too short is
taken and leaves the shot open. -/
def after (l : LogicalReadout) (s : ReadoutState) : ReadoutCall → ReadoutState
  | .enqueue msyn type =>
    match s.enqueue l msyn type with
    | .ok r => r.1
    | .error _ => if s.ended then s else (s.taken l msyn).1
  | .flush => (s.flush l).1
  | .clear => s.clear l
  | .reset => s.reset l

/-- Where a shot may start: after construction, after a shot that has ended once the corrections are
cleared, and after a reset at any time. -/
inductive Between (l : LogicalReadout) : ReadoutState → Prop
  | construct : Between l (start l)
  | clear (calls : List ReadoutCall) (hended : (calls.foldl (after l) (start l)).ended = true) :
    Between l ((calls.foldl (after l) (start l)).clear l)
  | reset (calls : List ReadoutCall) : Between l ((calls.foldl (after l) (start l)).reset l)

def enqueueAll (l : LogicalReadout) (s : ReadoutState) (chunks : List (List UInt8)) :
    Except Error ReadoutState :=
  chunks.foldlM (fun s msyn => do
    let r ← s.enqueue l msyn .bulk
    return r.1) s

theorem length_kept_taken (msyn : List UInt8) : (s.taken l msyn).1.kept.length = s.kept.length := by
  have hkeep : ∀ (bs : List UInt8) (s : ReadoutState),
      (bs.foldl (keep l) s).kept.length = s.kept.length := by
    intro bs
    induction bs with
    | nil => exact fun _ => rfl
    | cons b bs ih =>
      intro s
      rw [List.foldl_cons, ih]
      exact List.length_set
  have hpublish : ∀ (c : Prop) [Decidable c] (s : ReadoutState),
      (if c then s.publish else s).kept = s.kept := by
    intro c _ s
    split <;> rfl
  unfold taken
  dsimp only
  rw [hpublish]
  change (if l.tail = 0 then _ else _ : ReadoutState).kept.length = _
  split
  · rw [(sameRing_readRounds _ _ _ _).kept]
  · rw [hkeep, (sameRing_readRounds _ _ _ _).kept]

theorem kept_of_enqueue {msyn : List UInt8} {type : RoundType} {r : ReadoutState × Bool}
    (hr : s.enqueue l msyn type = .ok r) : r.1.kept = (s.taken l msyn).1.kept := by
  unfold enqueue at hr
  obtain ⟨-, -, hr⟩ := bind_eq_ok.mp hr
  dsimp only at hr
  split at hr
  · obtain ⟨-, -, hr⟩ := bind_eq_ok.mp hr
    rw [← Except.ok.inj hr]
    rfl
  · rw [← Except.ok.inj hr]
    rfl

/-- The ring keeps its size. -/
theorem length_kept_after (call : ReadoutCall) : (s.after l call).kept.length = s.kept.length := by
  cases call with
  | enqueue msyn type =>
    simp only [after]
    split
    · next r hr => rw [kept_of_enqueue hr, length_kept_taken]
    · split
      · rfl
      · exact length_kept_taken msyn
  | flush =>
    change (s.flush l).1.kept.length = _
    unfold ReadoutState.flush
    split <;> rfl
  | clear =>
    change (s.clear l).kept.length = _
    unfold ReadoutState.clear
    split <;> rfl
  | reset => rfl

theorem length_kept_run (calls : List ReadoutCall) :
    (calls.foldl (after l) s).kept.length = s.kept.length := by
  induction calls generalizing s with
  | nil => rfl
  | cons call calls ih => rw [List.foldl_cons, ih, length_kept_after]

/-- Where a shot starts only the ring has a past. -/
theorem Between.eq_reset (h : Between l s) :
    ∃ s' : ReadoutState, s = s'.reset l ∧ s'.kept.length = l.tail := by
  have hstart : (start l).kept.length = l.tail := List.length_replicate
  cases h with
  | construct => exact ⟨start l, rfl, hstart⟩
  | clear calls hended =>
    exact ⟨_, if_pos hended, (length_kept_run calls).trans hstart⟩
  | reset calls => exact ⟨_, rfl, (length_kept_run calls).trans hstart⟩

theorem Between.streaming (hp : Placed l) (h : Between l s) : Streaming l [] s := by
  obtain ⟨s', rfl, hlength⟩ := h.eq_reset
  refine ⟨rfl, rfl, rfl, nofun, fun g hg => ?_, nofun, fun _ _ => Nat.zero_le _, List.length_replicate,
    fun i hi => ?_, ?_, nofun⟩
  · have := hp.pos g (List.mem_of_mem_drop hg)
    change 0 < _
    omega
  · have hnone : (l.headRounds.flatMap fun g => g.below i 0) = [] := by
      rw [List.flatMap_eq_nil_iff]
      intro g _
      exact ReadingRound.below_of_le_begin (Nat.zero_le _)
    change (List.replicate l.numObservables (0 : UInt8))[i]? = some (parity _
      (l.headRounds.flatMap fun g => g.below i 0))
    rw [hnone, List.getElem?_replicate, if_pos hi]
    rfl
  · rcases Nat.eq_zero_or_pos l.tail with hzero | hpos
    · exact .inl hzero
    · exact .inr (holds_nil hlength hpos)

theorem Streaming.enqueueAll (hp : Placed l) (chunks : List (List UInt8)) (h : Streaming l stream s) :
    ∃ s', s.enqueueAll l chunks = .ok s' ∧ Streaming l (stream ++ chunks.flatten) s' := by
  induction chunks generalizing s stream with
  | nil => exact ⟨s, rfl, by simpa using h⟩
  | cons msyn chunks ih =>
    obtain ⟨s', hs', hstreaming⟩ := ih (h.taken hp msyn)
    refine ⟨s', ?_, ?_⟩
    · unfold ReadoutState.enqueueAll
      rw [List.foldlM_cons, enqueue_of_open h.ended (by decide), ok_bind]
      exact hs'
    · rw [List.flatten_cons, ← List.append_assoc]
      exact hstreaming

end ReadoutState

end CudaqQec
