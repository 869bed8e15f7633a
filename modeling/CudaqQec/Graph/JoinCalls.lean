import CudaqQec.Graph.JoinSteps

/-!
# The calls of a join keep its ledger

`Ledger.deliverIndexed` for a delivery and `Ledger.resolveScan` for the loop of a flush: neither throws
on disciplined producers, but for an input that was lost, and both leave a ledger of what was queued.
-/

namespace CudaqQec.JoinNode

variable (node : JoinNode) {V : Type}

/-- What a call leaves: its fires are queued after those before. -/
def After (all done rest : List (JoinDelivery node.inputs V)) (fires : List IndexedFire)
    (queued : List Nat) (r : Joins node.inputs V × List JoinEvent) : Prop :=
  node.Ledger all done rest (fun _ => True) r.1 (fires ++ r.2.filterMap JoinEvent.fire?)
    (queued ++ (r.2.filterMap JoinEvent.fire?).map IndexedFire.index)

variable {node} {all done rest : List (JoinDelivery node.inputs V)}
  {joins : Joins node.inputs V} {fires : List IndexedFire} {queued : List Nat} {k cell : Nat}
  {d : JoinDelivery node.inputs V} {e e' : JoinEntry node.inputs V}

namespace Ledger

theorem after_nil (h : node.Ledger all done rest (fun _ => True) joins fires queued)
    {events : List JoinEvent} (hno : events.filterMap JoinEvent.fire? = []) :
    node.After all done rest fires queued (joins, events) := by
  unfold After
  rw [hno, List.map_nil, List.append_nil, List.append_nil]
  exact h

/-! ## Freeing an entry -/

theorem dropInstance (h : node.Ledger all done rest (fun _ => True) joins fires queued)
    (hlack : node.Lacking all k) :
    node.After all done rest fires queued (joins.dropInstance k) := by
  unfold Joins.dropInstance
  split
  · exact h.after_nil rfl
  · have hadd : node.Ledger all done rest (fun _ => True)
        { joins with dropped := joins.dropped.add k } fires queued :=
      { h with
        dropped := fun j hj => by
          rcases DroppedInstances.mem_add hj with hj | rfl
          · exact h.dropped j hj
          · exact hlack }
    exact hadd.after_nil rfl

/-- An entry with nothing missing has every required input, and nothing new comes for it. -/
theorem records_complete (hrec : node.Records all done rest k e) (hp : e.pending = 0) :
    (∀ i, node.required i = true → ∃ v, Published done i (node.source k i) v) ∧
      ∀ i, Delivered rest i (node.source k i) → Delivered done i (node.source k i) := by
  constructor
  · intro i hi
    cases hstate : e.state i with
    | missing => exact absurd hstate (hrec.state_ne_missing hp i)
    | present v => exact ⟨v, hrec.present i v hstate⟩
    | absent =>
      have hno := (hrec.absent i hstate).1
      rw [hi] at hno
      cases hno
  · intro i hdel
    cases hstate : e.state i with
    | missing => exact absurd hstate (hrec.state_ne_missing hp i)
    | present v => exact (hrec.present i v hstate).delivered
    | absent => exact (hrec.absent i hstate).2.2 hdel

theorem complete (h : node.Ledger all done rest (· ≠ k) joins fires queued)
    (hhas : joins.table.Has k cell e) (hold : e.pending ≠ 0) (hrec : node.Records all done rest k e')
    (htouched : node.Touched done k) (hmore : e'.pending ≠ 0 →
      node.Ghost all rest queued k e' ∨ node.Open done queued k e')
    (hlast : e'.pending = 0 → k ∉ queued) :
    node.After all done rest fires queued (node.complete joins k cell e') := by
  have hentry := h.entry_ne hhas hold
  have hwrite : node.Ledger all done rest (· ≠ k) { joins with table := joins.table.write cell e' }
      fires queued := h.rewrite hhas fun f hf he => absurd he (hentry f hf)
  have hhas' : (joins.table.write cell e').Has k cell e' :=
    HomeTable.Valid.has_write_self.mpr ⟨⟨e, hhas⟩, rfl⟩
  unfold JoinNode.complete
  split
  · next hp => exact (hwrite.restore hhas' hrec (.inr (hmore hp))).after_nil rfl
  · next hp =>
    have hp : e'.pending = 0 := not_not.mp hp
    have hpush := hwrite.push hhas' hp (hlast hp) hentry
      ⟨htouched, records_complete hrec hp⟩ e'.operation
    have hkind : node.Kind all done rest (fires ++ [⟨k, cell, e'.operation⟩]) (queued ++ [k]) k cell
        e' := .inl ⟨hp, ⟨k, cell, e'.operation⟩, by simp, rfl⟩
    exact hpush.restore hhas' hrec hkind

/-! ## A delivery -/

section Delivery

variable (hall : all = done ++ d :: rest) (hdis : node.Disciplined all)
  (haddr : d.index = node.source k d.slot)

/-! ## The event that is delivered -/

include hall in
theorem mem_all : d ∈ all := by
  rw [hall]
  exact List.mem_append_right _ (List.mem_cons_self ..)

include haddr in
theorem addressed_iff (l : Nat) : d.index = node.source l d.slot ↔ l = k := by
  rw [haddr]
  unfold source
  omega

include haddr in
theorem advance_but (h : node.Ledger all done (d :: rest) (fun _ => True) joins fires queued) :
    node.Ledger all (done ++ [d]) rest (· ≠ k) joins fires queued := by
  apply h.advance.mono
  intro l hl
  refine ⟨trivial, fun he => hl ((addressed_iff haddr l).mp he)⟩

include haddr in
theorem delivered_self : Delivered (done ++ [d]) d.slot (node.source k d.slot) :=
  ⟨d, by simp, rfl, haddr⟩

/-! ## An entry that was there -/

include haddr in
/-- What the delivery told of its input stands in the entry. -/
theorem settle (h : node.Ledger all done (d :: rest) (fun _ => True) joins fires queued)
    (hhas : joins.table.Has k cell e) (hslot : e.state d.slot = .missing) (x : InputState V)
    (op : Nat) (hx : x.isMissing = false)
    (hpresent : ∀ v, x = .present v → d.value = some v)
    (habsent : x = .absent → node.required d.slot = false ∧
      ∀ v, ¬ Published all d.slot (node.source k d.slot) v) :
    node.After all (done ++ [d]) rest fires queued
      (node.complete joins k cell ⟨e.pending - 1, Function.update e.state d.slot x, op⟩) := by
  have hrec := h.records k cell e trivial hhas
  have hadv := records_advance hrec
  have hpos : e.pending ≠ 0 := by
    rw [hrec.pending]
    exact Nat.pos_iff_ne_zero.mp (JoinEntry.missing_pos hslot)
  -- an entry with this input missing is a ghost for another input, or open
  have hkind : node.Ghost all rest queued k
        ⟨e.pending - 1, Function.update e.state d.slot x, op⟩ ∨ node.Open done queued k e := by
    rcases h.kinds k cell e trivial hhas with ⟨hp, -⟩ | hghost | hopen
    · exact absurd hp hpos
    · left
      obtain ⟨hk, i, hreq, hi, hno⟩ := hghost
      have hne : i ≠ d.slot := by
        rintro rfl
        cases x with
        | missing => cases hx
        | present v =>
          exact hno v ⟨d, List.mem_cons_self .., rfl, haddr, hpresent v rfl⟩
        | absent =>
          have hopt := (habsent rfl).1
          rw [hreq] at hopt
          cases hopt
      refine ⟨hk, i, hreq, ?_, fun v hv => hno v (hv.mono fun _ hd => List.mem_cons_of_mem _ hd)⟩
      change Function.update e.state d.slot x i = _
      rw [Function.update_of_ne hne]
      exact hi
    · exact .inr hopen
  have hrec' : node.Records all (done ++ [d]) rest k
      ⟨e.pending - 1, Function.update e.state d.slot x, op⟩ := by
    refine ⟨hrec.touched, ?_, fun i v hi => ?_, fun i hi => ?_⟩
    · change e.pending - 1 = _
      rw [hrec.pending]
      exact (JoinEntry.missing_update hslot hx).symm
    · change Function.update e.state d.slot x i = _ at hi
      by_cases he : i = d.slot
      · subst he
        rw [Function.update_self] at hi
        exact ⟨d, by simp, rfl, haddr, hpresent v hi⟩
      · rw [Function.update_of_ne he] at hi
        exact hadv.present i v hi
    · change Function.update e.state d.slot x i = _ at hi
      by_cases he : i = d.slot
      · subst he
        rw [Function.update_self] at hi
        obtain ⟨hopt, hno⟩ := habsent hi
        exact ⟨hopt, hno, fun _ => delivered_self haddr⟩
      · rw [Function.update_of_ne he] at hi
        exact hadv.absent i hi
  apply (h.advance_but haddr).complete hhas hpos hrec' ⟨d.slot, delivered_self haddr⟩
  · intro hmore
    rcases hkind with hghost | ⟨hk, -, hmissing⟩
    · exact .inl hghost
    · right
      refine ⟨hk, Nat.pos_of_ne_zero hmore, fun i hi => ?_⟩
      change Function.update e.state d.slot x i = _ at hi
      have hne : i ≠ d.slot := by
        rintro rfl
        rw [Function.update_self] at hi
        rw [hi] at hx
        cases hx
      rw [Function.update_of_ne hne] at hi
      rintro ⟨a, ha, haslot, haindex⟩
      rcases List.mem_append.mp ha with ha | ha
      · exact hmissing i hi ⟨a, ha, haslot, haindex⟩
      · rw [List.mem_singleton.mp ha] at haslot
        exact hne haslot.symm
  · intro hlast
    rcases hkind with hghost | hopen
    · exact absurd hlast (Nat.pos_iff_ne_zero.mp (hghost.pending_pos hrec'))
    · exact hopen.1

include hall hdis haddr in
theorem fill (h : node.Ledger all done (d :: rest) (fun _ => True) joins fires queued)
    (hhas : joins.table.Has k cell e) (hslot : e.state d.slot = .missing) (op : Nat) :
    node.After all (done ++ [d]) rest fires queued
      (node.fill joins k cell ⟨e.pending - 1, e.state, op⟩ d) := by
  have hrec := h.records k cell e trivial hhas
  have hpos : e.pending ≠ 0 := by
    rw [hrec.pending]
    exact Nat.pos_iff_ne_zero.mp (JoinEntry.missing_pos hslot)
  unfold JoinNode.fill
  cases hvalue : d.value with
  | some v =>
    refine h.settle haddr hhas hslot (.present v) op rfl ?_ (by intro hv; cases hv)
    intro w hw
    rw [hvalue, InputState.present.inj hw]
  | none =>
    have hno : ∀ v, ¬ Published all d.slot (node.source k d.slot) v := fun v =>
      hdis.not_published_of_absent (mem_all hall) hvalue rfl haddr
    cases hreq : node.required d.slot with
    | true =>
      have hlack : node.Lacking all k := ⟨d.slot, hreq, hno⟩
      exact ((h.advance_but haddr).free hhas (h.entry_ne hhas hpos) (.inr hlack)).dropInstance hlack
    | false =>
      exact h.settle haddr hhas hslot .absent op rfl (by intro w hw; cases hw) fun _ => ⟨hreq, hno⟩

include hall hdis haddr in
theorem fileAt (h : node.Ledger all done (d :: rest) (fun _ => True) joins fires queued)
    (hhas : joins.table.Has k cell e) (fresh : Bool)
    (hfresh : fresh = true → e.state d.slot = .missing) :
    ∃ r, node.fileAt joins k cell fresh d = .ok r ∧
      node.After all (done ++ [d]) rest fires queued r := by
  have hrec := h.records k cell e trivial hhas
  unfold JoinNode.fileAt
  simp only [hhas.2.2]
  cases hstate : e.state d.slot with
  | present v =>
    -- it came before, so it does not come again
    have hpub := hrec.present d.slot v hstate
    rw [hall] at hdis
    have hdel : Delivered done d.slot d.index := by
      rw [haddr]
      exact hpub.delivered
    obtain ⟨-, hno, -⟩ := hdis.absent_again (List.mem_cons_self ..) hdel
    rw [haddr] at hno
    exact absurd hpub (hno v)
  | absent =>
    have hnone : d.value = none := by
      cases hvalue : d.value with
      | none => rfl
      | some v => exact absurd ⟨d, mem_all hall, rfl, haddr, hvalue⟩ ((hrec.absent d.slot hstate).2.1 v)
    have hstale : fresh = false := by
      cases fresh with
      | false => rfl
      | true =>
        rw [hfresh rfl] at hstate
        cases hstate
    subst hstale
    simp only [hnone, Option.isSome_none, Bool.false_eq_true, if_false, Bool.not_false, Bool.true_or,
      if_true]
    refine ⟨_, rfl, ?_⟩
    -- only the operation is noted
    have hrec' : node.Records all (done ++ [d]) rest k
        ⟨e.pending, e.state, max e.operation d.operation⟩ := by
      have hadv := records_advance hrec
      exact ⟨hadv.touched, hadv.pending, hadv.present, hadv.absent⟩
    have hkind := kind_advance (h.kinds k cell e trivial hhas) fun i hi hslot => by
      rw [← hslot, hstate] at hi
      cases hi
    refine Ledger.after_nil ?_ rfl
    refine ((h.advance_but haddr).rewrite hhas fun f hf he => ?_).restore
      (HomeTable.Valid.has_write_self.mpr ⟨⟨e, hhas⟩, rfl⟩) hrec' hkind
    rw [← he] at hhas
    exact (h.index_eq hf hhas).2
  | missing => exact ⟨_, rfl, h.fill hall hdis haddr hhas hstate _⟩

/-! ### An instance without an entry -/

theorem freshEntry_missing {i : Fin node.inputs} (hi : 0 ≤ node.source k i) :
    (node.freshEntry k : JoinEntry node.inputs V).state i = .missing := by
  have hnot : node.belowZero k i = false := decide_eq_false (by unfold source at hi; omega)
  unfold freshEntry
  simp [hnot]

theorem not_belowZero_of_required (hlack : node.lacksRequired k = false) {i : Fin node.inputs}
    (hi : node.required i = true) : 0 ≤ node.source k i := by
  unfold lacksRequired at hlack
  have hnot := List.any_eq_false.mp hlack i (List.mem_finRange i)
  unfold belowZero at hnot
  unfold source
  simp only [hi, Bool.and_true, decide_eq_true_eq] at hnot
  omega

theorem source_nonneg (hdis : node.Disciplined all) {i : Fin node.inputs}
    (h : Delivered all i (node.source k i)) : 0 ≤ node.source k i := by
  obtain ⟨a, ha, -, hindex⟩ := h
  rw [← hindex]
  exact hdis.nonneg a ha

theorem freshEntry_records (hdis : node.Disciplined all) (htouched : node.Touched all k)
    (hsub : ∀ a, a ∈ done ∨ a ∈ rest → a ∈ all) (hlack : node.lacksRequired k = false) :
    node.Records all done rest k (node.freshEntry k) := by
  have hmissing : ∀ i, (node.freshEntry k : JoinEntry node.inputs V).state i = .absent →
      node.source k i < 0 := by
    intro i hi
    by_contra hneg
    rw [freshEntry_missing (by omega)] at hi
    cases hi
  refine ⟨htouched, ?_, fun i v hi => ?_, fun i hi => ⟨?_, fun v hv => ?_, fun hdel => ?_⟩⟩
  · change (List.finRange node.inputs).countP _ = _
    rw [countP_finRange, JoinEntry.missing]
    congr 1
    ext i
    rw [Finset.mem_filter, Finset.mem_filter]
    unfold freshEntry
    cases hb : node.belowZero k i <;> simp [InputState.isMissing, hb]
  · unfold freshEntry at hi
    cases hb : node.belowZero k i <;> simp [hb] at hi
  · cases hreq : node.required i with
    | false => rfl
    | true =>
      have := not_belowZero_of_required hlack hreq
      have := hmissing i hi
      omega
  · have := source_nonneg hdis hv.delivered
    have := hmissing i hi
    omega
  · have := source_nonneg hdis (hdel.mono fun a ha => hsub a (.inr ha))
    have := hmissing i hi
    omega

include hall hdis haddr in
/-- An entry made for a delivery is open, or a ghost if its instance was fired or dropped before. -/
theorem freshEntry_kind (h : node.Ledger all done (d :: rest) (fun _ => True) joins fires queued)
    (habsent : ∀ i b, ¬ joins.table.Has k i b) (hlack : node.lacksRequired k = false) (cell : Nat) :
    node.Kind all done (d :: rest) fires queued k cell (node.freshEntry k) := by
  have hsub : ∀ a, a ∈ done ∨ a ∈ d :: rest → a ∈ all := by
    intro a ha
    rw [hall]
    exact List.mem_append.mpr ha
  have hrec : node.Records all done (d :: rest) k (node.freshEntry k) :=
    freshEntry_records hdis ⟨d.slot, d, mem_all hall, rfl, haddr⟩ hsub hlack
  right
  by_cases htouched : node.Touched done k
  · left
    rcases h.touched k trivial htouched with hq | hlacking | ⟨c, x, hc, -⟩
    · obtain ⟨-, hreq, hspent⟩ := h.queued_done k hq
      -- the delivery only repeats an absence, so there is a required input, which came before
      have hdel : Delivered done d.slot d.index := by
        rw [haddr]
        exact hspent d.slot ⟨d, List.mem_cons_self .., rfl, haddr⟩
      have hsplit := hdis
      rw [hall] at hsplit
      obtain ⟨-, -, i, hi⟩ := hsplit.absent_again (List.mem_cons_self ..) hdel
      obtain ⟨v, hv⟩ := hreq i hi
      refine ⟨.inl hq, i, hi, freshEntry_missing (not_belowZero_of_required hlack hi),
        fun w hw => ?_⟩
      obtain ⟨b, hb, hbslot, hbindex, -⟩ := hw
      have hbdel : Delivered done b.slot b.index := by
        rw [hbslot, hbindex]
        exact hv.delivered
      obtain ⟨-, hno, -⟩ := hsplit.absent_again hb hbdel
      rw [hbslot, hbindex] at hno
      exact hno v hv
    · exact hrec.ghost_of_lacking hsub hlacking
    · exact absurd hc (habsent c x)
  · right
    refine ⟨fun hq => htouched (h.queued_done k hq).1, ?_, fun i _ hdel => htouched ⟨i, hdel⟩⟩
    rw [hrec.pending]
    apply JoinEntry.missing_pos
    exact freshEntry_missing (haddr ▸ hdis.nonneg d (mem_all hall))

omit hall hdis haddr in
theorem claimJoin_table (joins : Joins node.inputs V) (k : Nat) (entry : JoinEntry node.inputs V) :
    (joins.claimJoin k entry).table = joins.table.claim k entry := by
  unfold Joins.claimJoin
  split <;> rfl

theorem mem_dropped_claimJoin {entry : JoinEntry node.inputs V} {j : Nat}
    (h : some j ∈ (joins.claimJoin k entry).dropped.ring) : some j ∈ joins.dropped.ring := by
  unfold Joins.claimJoin at h
  split at h
  · exact DroppedInstances.mem_grow h
  · exact h

/-- An entry for an instance that has none leaves the other instances as they were. -/
theorem claim_but (h : node.Ledger all done rest (fun _ => True) joins fires queued)
    (habsent : ∀ i b, ¬ joins.table.Has k i b) (entry : JoinEntry node.inputs V) :
    node.Ledger all done rest (· ≠ k) (joins.claimJoin k entry) fires queued := by
  have hhas : ∀ l c x, (joins.claimJoin k entry).table.Has l c x ↔
      joins.table.Has l c x ∨ l = k ∧ c = joins.table.freeCell k ∧ x = entry := by
    intro l c x
    rw [claimJoin_table]
    exact h.valid.has_claim
  have hother : ∀ l c x, l ≠ k → (joins.claimJoin k entry).table.Has l c x →
      joins.table.Has l c x := by
    intro l c x hl hc
    exact ((hhas l c x).mp hc).resolve_right fun hk => hl hk.1
  refine ⟨?_, fun l c x hl hc => h.records l c x trivial (hother l c x hl hc),
    fun l c x hl hc => h.kinds l c x trivial (hother l c x hl hc), fun f hf => ?_, h.fires_once,
    h.queued_once, h.queued_done, fun l hl htouched => ?_,
    fun j hj => h.dropped j (mem_dropped_claimJoin hj)⟩
  · rw [claimJoin_table]
    exact h.valid.claim habsent
  · obtain ⟨hq, x, hx, hp⟩ := h.live f hf
    exact ⟨hq, x, (hhas _ _ _).mpr (.inl hx), hp⟩
  · rcases h.touched l trivial htouched with hq | hlack | ⟨c, x, hc, hopen⟩
    · exact .inl hq
    · exact .inr (.inl hlack)
    · exact .inr (.inr ⟨c, x, (hhas l c x).mpr (.inl hc), hopen⟩)

theorem has_claimJoin (h : node.Ledger all done rest (fun _ => True) joins fires queued)
    (entry : JoinEntry node.inputs V) :
    (joins.claimJoin k entry).table.Has k (joins.table.freeCell k) entry := by
  rw [claimJoin_table]
  exact h.valid.has_claim.mpr (.inr ⟨rfl, rfl, rfl⟩)

include hall hdis haddr in
theorem fileFresh (h : node.Ledger all done (d :: rest) (fun _ => True) joins fires queued)
    (habsent : ∀ i b, ¬ joins.table.Has k i b) :
    ∃ r, (if node.lacksRequired k then
        .ok (((joins.claimJoin k (node.freshEntry k)).releaseJoin
          (joins.table.freeCell k)).dropInstance k)
      else node.fileAt (joins.claimJoin k (node.freshEntry k)) k (joins.table.freeCell k) true d) =
        .ok r ∧ node.After all (done ++ [d]) rest fires queued r := by
  have hbut := h.claim_but habsent (node.freshEntry k)
  have hhas := h.has_claimJoin (k := k) (node.freshEntry k)
  cases hlack : node.lacksRequired k with
  -- an instance that can never be complete is given up at once
  | true =>
    refine ⟨_, if_pos rfl, ?_⟩
    obtain ⟨i, -, hi⟩ := List.any_eq_true.mp hlack
    rw [Bool.and_eq_true] at hi
    have hneg : node.source k i < 0 := of_decide_eq_true hi.1
    have hlacking : node.Lacking all k := by
      refine ⟨i, hi.2, fun v hv => ?_⟩
      have := source_nonneg hdis hv.delivered
      omega
    have hentry : ∀ f ∈ fires, f.entry ≠ joins.table.freeCell k := by
      intro f hf he
      obtain ⟨-, x, hx, -⟩ := h.live f hf
      rw [he] at hx
      exact h.valid.freeCell_notMem k hx.1
    have hadv : node.Ledger all (done ++ [d]) rest (· ≠ k) (joins.claimJoin k (node.freshEntry k))
        fires queued := by
      apply hbut.advance.mono
      exact fun l hl => ⟨hl, fun he => hl ((addressed_iff haddr l).mp he)⟩
    exact (hadv.free hhas hentry (.inr hlacking)).dropInstance hlacking
  -- a new entry is filed as one that was there
  | false =>
    rw [if_neg (by decide)]
    have hsub : ∀ a, a ∈ done ∨ a ∈ d :: rest → a ∈ all := by
      intro a ha
      rw [hall]
      exact List.mem_append.mpr ha
    have htouched : node.Touched all k := ⟨d.slot, d, mem_all hall, rfl, haddr⟩
    have hfull := hbut.restore hhas (freshEntry_records hdis htouched hsub hlack)
      (h.freshEntry_kind hall hdis haddr habsent hlack _)
    apply hfull.fileAt hall hdis haddr hhas
    intro _
    exact freshEntry_missing (haddr ▸ hdis.nonneg d (mem_all hall))

end Delivery

/-- What is delivered to an instance that lacks a required input changes nothing. -/
theorem restore_lacking (h : node.Ledger all done rest (· ≠ k) joins fires queued)
    (hsub : ∀ a, a ∈ done ∨ a ∈ rest → a ∈ all) (hlack : node.Lacking all k)
    (hrec : ∀ c x, joins.table.Has k c x → node.Records all done rest k x) :
    node.Ledger all done rest (fun _ => True) joins fires queued := by
  refine ⟨h.valid, fun l c x _ hc => ?_, fun l c x _ hc => ?_, h.live, h.fires_once, h.queued_once,
    h.queued_done, fun l _ hl => ?_, h.dropped⟩
  · by_cases hl : l = k
    · subst hl
      exact hrec c x hc
    · exact h.records l c x hl hc
  · by_cases hl : l = k
    · subst hl
      exact .inr (.inl ((hrec c x hc).ghost_of_lacking hsub hlack))
    · exact h.kinds l c x hl hc
  · by_cases hlk : l = k
    · exact .inr (.inl (hlk ▸ hlack))
    · exact h.touched l hlk hl

/-- A disciplined delivery does not throw, and what it queues is in order. -/
theorem deliverIndexed (hall : all = done ++ d :: rest) (hdis : node.Disciplined all)
    (h : node.Ledger all done (d :: rest) (fun _ => True) joins fires queued) :
    ∃ r, node.deliverIndexed joins d = .ok r ∧
      node.After all (done ++ [d]) rest fires queued r := by
  have hnonneg := hdis.nonneg d (mem_all hall)
  have hindex : ¬ d.index = noIndex := by
    unfold noIndex
    omega
  unfold JoinNode.deliverIndexed
  rw [if_neg hindex]
  by_cases hneg : d.index - node.offset d.slot < 0
  · -- no instance reads it
    rw [if_pos (.inl hneg)]
    refine ⟨_, rfl, Ledger.after_nil ?_ rfl⟩
    apply h.advance.mono
    intro l _
    refine ⟨trivial, ?_⟩
    unfold source
    omega
  · have haddr : d.index = node.source (d.index - node.offset d.slot).toNat d.slot := by
      unfold source
      omega
    generalize (d.index - node.offset d.slot).toNat = k at haddr ⊢
    by_cases hdropped : joins.dropped.contains k = true
    · rw [if_pos (.inr hdropped)]
      refine ⟨_, rfl, Ledger.after_nil ?_ rfl⟩
      have hlack := h.dropped k (DroppedInstances.mem_of_contains hdropped)
      refine (h.advance_but haddr).restore_lacking (fun a ha => ?_) hlack fun c x hc =>
        records_advance (h.records k c x trivial hc)
      rw [hall, List.append_cons]
      exact List.mem_append.mpr ha
    · rw [if_neg (not_or.mpr ⟨hneg, hdropped⟩)]
      rcases h.valid.find_cases k with ⟨hfind, habsent⟩ | ⟨hfind, hhas⟩
      · rw [if_pos hfind]
        exact h.fileFresh hall hdis haddr habsent
      · rw [if_neg (Nat.ne_of_lt hfind)]
        exact h.fileAt hall hdis haddr hhas false (by intro hf; cases hf)

/-! ## A flush -/

/-! ## What the scan leaves -/

/-- What a flush leaves, with nothing more to come. -/
def Flushed (all : List (JoinDelivery node.inputs V)) (fires : List IndexedFire) (queued : List Nat)
    (r : Joins node.inputs V × List IndexedFire × Bool) : Prop :=
  node.Ledger all all [] (fun _ => True) r.1 (fires ++ r.2.1)
    (queued ++ r.2.1.map IndexedFire.index)

/-! ## Closing an entry -/

theorem closeEntry_state (i : Fin node.inputs) : (node.closeEntry e).state i ≠ .missing := by
  unfold closeEntry
  cases hstate : e.state i <;> simp [hstate, InputState.isMissing]

theorem closeEntry_records (hrec : node.Records all all [] k e) (hopen : node.Open all queued k e)
    (hopt : ∀ i, e.state i = .missing → node.required i = false) :
    node.Records all all [] k (node.closeEntry e) := by
  refine ⟨hrec.touched, ?_, fun i v hi => ?_, fun i hi => ?_⟩
  · by_contra hne
    obtain ⟨i, hi⟩ := JoinEntry.exists_missing fun h => hne h.symm
    exact closeEntry_state i hi
  · apply hrec.present i v
    unfold closeEntry at hi
    cases hstate : e.state i <;> simp_all [InputState.isMissing]
  · cases hstate : e.state i with
    | missing =>
      have hno := hopen.2.2 i hstate
      exact ⟨hopt i hstate, fun v hv => hno hv.delivered, fun hdel => by
        obtain ⟨a, ha, -⟩ := hdel
        exact absurd ha List.not_mem_nil⟩
    | present v =>
      unfold closeEntry at hi
      simp [hstate, InputState.isMissing] at hi
    | absent => exact hrec.absent i hstate

/-- A pending entry whose missing inputs are all optional is open. -/
theorem open_of_optional (h : node.Ledger all all [] (fun _ => True) joins fires queued)
    (hhas : joins.table.Has k cell e) (hp : e.pending ≠ 0)
    (hopt : ∀ i, e.state i = .missing → node.required i = false) : node.Open all queued k e := by
  rcases h.kinds k cell e trivial hhas with ⟨hp0, -⟩ | ⟨-, i, hreq, hi, -⟩ | hopen
  · exact absurd hp0 hp
  · rw [hopt i hi] at hreq
    cases hreq
  · exact hopen

/-- A pending entry without a required input is of an instance that was fired, or never exists. -/
theorem settled_of_required (h : node.Ledger all all [] (fun _ => True) joins fires queued)
    (hhas : joins.table.Has k cell e) (hp : e.pending ≠ 0) {i : Fin node.inputs}
    (hi : e.state i = .missing) (hreq : node.required i = true) :
    k ∈ queued ∨ node.Lacking all k := by
  rcases h.kinds k cell e trivial hhas with ⟨hp0, -⟩ | hghost | hopen
  · exact absurd hp0 hp
  · exact hghost.1
  · exact .inr ⟨i, hreq, fun v hv => hopen.2.2 i hi hv.delivered⟩

theorem exists_of_open (hrec : node.Records all all [] k e)
    (hopt : ∀ i, e.state i = .missing → node.required i = false) : node.Exists all k := by
  refine ⟨hrec.touched, fun i hi => ?_⟩
  cases hstate : e.state i with
  | missing =>
    rw [hopt i hstate] at hi
    cases hi
  | present v => exact ⟨v, hrec.present i v hstate⟩
  | absent =>
    rw [(hrec.absent i hstate).1] at hi
    cases hi

/-- A flush queues the fire of a pending entry whose missing inputs are all optional. -/
theorem closeEntry (h : node.Ledger all all [] (fun _ => True) joins fires queued)
    (hhas : joins.table.Has k cell e) (hp : e.pending ≠ 0)
    (hopt : ∀ i, e.state i = .missing → node.required i = false) :
    node.Ledger all all [] (fun _ => True)
      { joins with table := joins.table.write cell (node.closeEntry e) }
      (fires ++ [⟨k, cell, (node.closeEntry e).operation⟩]) (queued ++ [k]) := by
  have hopen := h.open_of_optional hhas hp hopt
  have hrec := closeEntry_records (h.records k cell e trivial hhas) hopen hopt
  have hbut : node.Ledger all all [] (· ≠ k) joins fires queued := h.mono fun _ _ => trivial
  exact hbut.complete hhas hp hrec hrec.touched (fun hne => absurd rfl hne) fun _ => hopen.1

/-! ## The scan -/

/-- The scan throws only for an instance that exists and lost a guaranteed input; otherwise it leaves a
ledger, in which nothing is pending unless it stopped early. -/
theorem resolveScan (slots : Nat) (scan : List Nat) (free : Nat)
    (h : node.Ledger all all [] (fun _ => True) joins fires queued)
    (hlt : ∀ c ∈ scan, c < joins.table.size)
    (hscan : ∀ l c x, joins.table.Has l c x → x.pending ≠ 0 → c ∈ scan) :
    (∃ r, node.resolveScan slots scan free joins = .ok r ∧ Flushed all fires queued r ∧
      (r.2.2 = false → ∀ l c x, r.1.table.Has l c x → x.pending = 0)) ∨
    ∃ l i, node.resolveScan slots scan free joins = .error (node.neverArrived l i) ∧
      node.Exists all l ∧ node.guaranteed i l = true ∧
      ∀ v, ¬ Published all i (node.source l i) v := by
  induction scan generalizing free joins fires queued with
  | nil =>
    left
    refine ⟨_, rfl, ?_, fun _ l c x hc => ?_⟩
    · simpa [Flushed] using h
    · by_contra hp
      exact absurd (hscan l c x hc hp) List.not_mem_nil
  | cons index scan ih =>
    have hlt' : ∀ c ∈ scan, c < joins.table.size := fun c hc => hlt c (List.mem_cons_of_mem _ hc)
    unfold JoinNode.resolveScan
    -- a cell that is unused or has fired is passed over
    by_cases hskip : (!(joins.table.cells index).used || decide
        ((joins.table.cells index).content.pending = 0)) = true
    · simp only [hskip, if_true]
      refine ih free h hlt' fun l c x hc hp => ?_
      rcases List.mem_cons.mp (hscan l c x hc hp) with rfl | hmem
      · rw [h.valid.used hc.1, hc.2.2] at hskip
        simp [hp] at hskip
      · exact hmem
    · simp only [hskip, Bool.false_eq_true, if_false]
      rw [Bool.or_eq_true, not_or] at hskip
      have hused : (joins.table.cells index).used = true := by simpa using hskip.1
      have hp : (joins.table.cells index).content.pending ≠ 0 := by simpa using hskip.2
      have hhas : joins.table.Has (joins.table.cells index).key index
          (joins.table.cells index).content :=
        ⟨(h.valid.mem_live index).mpr ⟨hlt index (List.mem_cons_self ..), hused⟩, rfl, rfl⟩
      generalize (joins.table.cells index).content = e at hp hhas ⊢
      generalize (joins.table.cells index).key = k at hhas ⊢
      -- the scan stops early when half of the slots are queued
      by_cases hfull : free ≤ slots / 2
      · rw [if_pos hfull]
        refine .inl ⟨_, rfl, ?_, fun hno => by cases hno⟩
        simpa [Flushed] using h
      · rw [if_neg hfull]
        -- a required input will not arrive any more: the entry is freed without firing
        cases hany : (List.finRange node.inputs).any fun i => (e.state i).isMissing &&
            node.required i with
        | true =>
          rw [if_pos rfl]
          obtain ⟨i, -, hi⟩ := List.any_eq_true.mp hany
          rw [Bool.and_eq_true, InputState.isMissing_iff] at hi
          have hbut : node.Ledger all all [] (· ≠ k) joins fires queued := h.mono fun _ _ => trivial
          have hfree := hbut.free hhas (h.entry_ne hhas hp) (h.settled_of_required hhas hp hi.1 hi.2)
          have hsize : (joins.releaseJoin index).table.size = joins.table.size := by
            unfold Joins.releaseJoin HomeTable.release
            dsimp only
            split <;> rfl
          refine ih free hfree (by rw [hsize]; exact hlt') fun l c x hc hne => ?_
          obtain ⟨hc, hcell⟩ := (h.valid.has_release hhas.1).mp hc
          exact (List.mem_cons.mp (hscan l c x hc hne)).resolve_left hcell
        | false =>
          rw [if_neg (by decide)]
          have hopt : ∀ i, e.state i = .missing → node.required i = false := by
            intro i hi
            have hnot := List.any_eq_false.mp hany i (List.mem_finRange i)
            rw [InputState.isMissing_iff.mpr hi, Bool.true_and] at hnot
            exact Bool.eq_false_iff.mpr hnot
          -- only optional inputs are missing: the entry fires, unless one of them was guaranteed
          cases hlost : node.lostInput? k e with
          | some i =>
            right
            have hi := List.find?_some hlost
            rw [Bool.and_eq_true, InputState.isMissing_iff] at hi
            have hopen := h.open_of_optional hhas hp hopt
            exact ⟨k, i, rfl, exists_of_open (h.records k index e trivial hhas) hopt, hi.2,
              fun v hv => hopen.2.2 i hi.1 hv.delivered⟩
          | none =>
            have hnext := ih (free - 1) (h.closeEntry hhas hp hopt) hlt' fun l c x hc hne => ?_
            · rcases hnext with ⟨r, hr, hflushed, hdone⟩ | ⟨l, i, herr, hlost⟩
              · left
                refine ⟨(r.1, ⟨k, index, (node.closeEntry e).operation⟩ :: r.2.1, r.2.2), ?_, ?_,
                  hdone⟩
                · rw [hr]
                  rfl
                · unfold Flushed at hflushed ⊢
                  rw [List.append_assoc, List.append_assoc] at hflushed
                  exact hflushed
              · right
                refine ⟨l, i, ?_, hlost⟩
                rw [herr]
                rfl
            · by_cases hcell : c = index
              · subst hcell
                obtain ⟨-, rfl⟩ := HomeTable.Valid.has_write_self.mp hc
                exact absurd rfl hne
              · have hc := (HomeTable.Valid.has_write_of_ne hcell).mp hc
                exact (List.mem_cons.mp (hscan l c x hc hne)).resolve_left hcell

end Ledger

end CudaqQec.JoinNode
