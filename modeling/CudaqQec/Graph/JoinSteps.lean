import CudaqQec.Graph.JoinLedger

/-!
# One call of a join

`JoinNode.Ledger` ties the joins of a node, its queued and running fires and the instances queued so far
to the deliveries. It is stated of the instances in a set, so that a call can be followed in two parts:
the instance that it addresses is taken out (`Ledger.advance`), and put back as the call leaves it
(`Ledger.write`, `Ledger.queue`, `Ledger.release`).
-/

namespace CudaqQec.JoinNode

variable (node : JoinNode) {V : Type}

/-- The kind of a live entry. -/
def Kind (all done rest : List (JoinDelivery node.inputs V)) (fires : List IndexedFire)
    (queued : List Nat) (k cell : Nat) (e : JoinEntry node.inputs V) : Prop :=
  (e.pending = 0 ∧ ∃ f ∈ fires, f.entry = cell) ∨ node.Ghost all rest queued k e ∨
    node.Open done queued k e

/-- The joins, told by what was delivered, for the instances in `P`. -/
structure Ledger (all done rest : List (JoinDelivery node.inputs V)) (P : Nat → Prop)
    (joins : Joins node.inputs V) (fires : List IndexedFire) (queued : List Nat) : Prop where
  valid : joins.table.Valid
  records : ∀ k cell e, P k → joins.table.Has k cell e → node.Records all done rest k e
  kinds : ∀ k cell e, P k → joins.table.Has k cell e →
    node.Kind all done rest fires queued k cell e
  live : ∀ f ∈ fires, f.index ∈ queued ∧
    ∃ e, joins.table.Has f.index f.entry e ∧ e.pending = 0
  fires_once : (fires.map IndexedFire.entry).Nodup
  queued_once : queued.Nodup
  queued_done : ∀ k ∈ queued, node.Touched done k ∧
    (∀ i, node.required i = true → ∃ v, Published done i (node.source k i) v) ∧
    ∀ i, Delivered rest i (node.source k i) → Delivered done i (node.source k i)
  touched : ∀ k, P k → node.Touched done k → k ∈ queued ∨ node.Lacking all k ∨
    ∃ cell e, joins.table.Has k cell e ∧ node.Open done queued k e
  dropped : ∀ k, some k ∈ joins.dropped.ring → node.Lacking all k

variable {node} {all done rest : List (JoinDelivery node.inputs V)} {P : Nat → Prop}
  {joins : Joins node.inputs V} {fires fires' : List IndexedFire} {queued : List Nat} {k cell : Nat}
  {d : JoinDelivery node.inputs V} {e e' : JoinEntry node.inputs V}

namespace Ledger

theorem mono {Q : Nat → Prop} (h : node.Ledger all done rest P joins fires queued)
    (hsub : ∀ k, Q k → P k) : node.Ledger all done rest Q joins fires queued where
  valid := h.valid
  records k cell e hk := h.records k cell e (hsub k hk)
  kinds k cell e hk := h.kinds k cell e (hsub k hk)
  live := h.live
  fires_once := h.fires_once
  queued_once := h.queued_once
  queued_done := h.queued_done
  touched k hk := h.touched k (hsub k hk)
  dropped := h.dropped

theorem perm (h : node.Ledger all done rest P joins fires queued) (hp : fires.Perm fires') :
    node.Ledger all done rest P joins fires' queued where
  valid := h.valid
  records := h.records
  kinds k cell e hk hhas := by
    rcases h.kinds k cell e hk hhas with ⟨hp0, f, hf, he⟩ | hkind
    · exact .inl ⟨hp0, f, hp.mem_iff.mp hf, he⟩
    · exact .inr hkind
  live f hf := h.live f (hp.mem_iff.mpr hf)
  fires_once := (hp.map _).nodup_iff.mp h.fires_once
  queued_once := h.queued_once
  queued_done := h.queued_done
  touched := h.touched
  dropped := h.dropped

theorem index_eq (h : node.Ledger all done rest P joins fires queued) {f : IndexedFire}
    (hf : f ∈ fires) (hhas : joins.table.Has k f.entry e) : f.index = k ∧ e.pending = 0 := by
  obtain ⟨-, e₀, ⟨hmem, hkey, hcontent⟩, hp⟩ := h.live f hf
  refine ⟨hkey.symm.trans hhas.2.1, ?_⟩
  rw [← hhas.2.2, hcontent]
  exact hp

/-! ## A delivery is taken from those to come -/

theorem delivered_rest {i : Fin node.inputs} {m : Int}
    (h : Delivered (d :: rest) i m → Delivered done i m) (hr : Delivered rest i m) :
    Delivered (done ++ [d]) i m :=
  (h (hr.mono fun _ hd => List.mem_cons_of_mem _ hd)).mono fun _ hd =>
    List.mem_append_left _ hd

theorem records_advance (h : node.Records all done (d :: rest) k e) :
    node.Records all (done ++ [d]) rest k e where
  touched := h.touched
  pending := h.pending
  present i v hi := (h.present i v hi).mono fun _ hd => List.mem_append_left _ hd
  absent i hi := by
    obtain ⟨hreq, hno, hspent⟩ := h.absent i hi
    exact ⟨hreq, hno, delivered_rest hspent⟩

theorem ghost_advance (h : node.Ghost all (d :: rest) queued k e) :
    node.Ghost all rest queued k e := by
  obtain ⟨hk, i, hreq, hi, hno⟩ := h
  exact ⟨hk, i, hreq, hi, fun v hv => hno v (hv.mono fun _ hd => List.mem_cons_of_mem _ hd)⟩

theorem open_advance (h : node.Open done queued k e)
    (hne : ∀ i, e.state i = .missing → d.slot = i → d.index ≠ node.source k i) :
    node.Open (done ++ [d]) queued k e := by
  obtain ⟨hk, hp, hmissing⟩ := h
  refine ⟨hk, hp, fun i hi hdel => ?_⟩
  obtain ⟨a, ha, hslot, hindex⟩ := hdel
  rcases List.mem_append.mp ha with ha | ha
  · exact hmissing i hi ⟨a, ha, hslot, hindex⟩
  · rw [List.mem_singleton.mp ha] at hslot hindex
    exact hne i hi hslot hindex

theorem kind_advance (h : node.Kind all done (d :: rest) fires queued k cell e)
    (hne : ∀ i, e.state i = .missing → d.slot = i → d.index ≠ node.source k i) :
    node.Kind all (done ++ [d]) rest fires queued k cell e := by
  rcases h with h | h | h
  · exact .inl h
  · exact .inr (.inl (ghost_advance h))
  · exact .inr (.inr (open_advance h hne))

/-- The instances that the delivery does not address are as they were. -/
theorem advance (h : node.Ledger all done (d :: rest) P joins fires queued) :
    node.Ledger all (done ++ [d]) rest (fun k => P k ∧ d.index ≠ node.source k d.slot) joins fires
      queued where
  valid := h.valid
  records k cell e hk hhas := records_advance (h.records k cell e hk.1 hhas)
  kinds k cell e hk hhas := kind_advance (h.kinds k cell e hk.1 hhas) fun i _ hslot => by
    rw [← hslot]
    exact hk.2
  live := h.live
  fires_once := h.fires_once
  queued_once := h.queued_once
  queued_done k hk := by
    obtain ⟨⟨i, htouched⟩, hreq, hspent⟩ := h.queued_done k hk
    refine ⟨⟨i, htouched.mono fun _ hd => List.mem_append_left _ hd⟩, fun i hi => ?_, fun i =>
      delivered_rest (hspent i)⟩
    obtain ⟨v, hv⟩ := hreq i hi
    exact ⟨v, hv.mono fun _ hd => List.mem_append_left _ hd⟩
  touched k hk htouched := by
    obtain ⟨i, a, ha, hslot, hindex⟩ := htouched
    rcases List.mem_append.mp ha with ha | ha
    · rcases h.touched k hk.1 ⟨i, a, ha, hslot, hindex⟩ with hq | hl | ⟨cell, e, hhas, hopen⟩
      · exact .inl hq
      · exact .inr (.inl hl)
      · exact .inr (.inr ⟨cell, e, hhas, open_advance hopen fun j _ hj => hj ▸ hk.2⟩)
    · rw [List.mem_singleton.mp ha] at hslot hindex
      rw [← hslot] at hindex
      exact absurd hindex hk.2
  dropped := h.dropped

/-! ## The addressed instance is put back -/

theorem restore (h : node.Ledger all done rest (· ≠ k) joins fires queued)
    (hhas : joins.table.Has k cell e) (hrec : node.Records all done rest k e)
    (hkind : node.Kind all done rest fires queued k cell e) :
    node.Ledger all done rest (fun _ => True) joins fires queued := by
  refine ⟨h.valid, fun l c x _ hc => ?_, fun l c x _ hc => ?_, h.live, h.fires_once, h.queued_once,
    h.queued_done, fun l _ hl => ?_, h.dropped⟩
  · by_cases hl : l = k
    · subst hl
      obtain ⟨rfl, rfl⟩ := h.valid.has_unique hc hhas
      exact hrec
    · exact h.records l c x hl hc
  · by_cases hl : l = k
    · subst hl
      obtain ⟨rfl, rfl⟩ := h.valid.has_unique hc hhas
      exact hkind
    · exact h.kinds l c x hl hc
  · by_cases hlk : l = k
    · subst hlk
      rcases hkind with ⟨-, f, hf, rfl⟩ | hghost | hopen
      · left
        rw [← (h.index_eq hf hhas).1]
        exact (h.live f hf).1
      · rcases hghost.1 with hq | hlack
        · exact .inl hq
        · exact .inr (.inl hlack)
      · exact .inr (.inr ⟨cell, e, hhas, hopen⟩)
    · exact h.touched l hlk hl

theorem has_of_write (hhas : joins.table.Has k cell e) {l c : Nat} {x : JoinEntry node.inputs V}
    (hl : l ≠ k) : (joins.table.write cell e').Has l c x ↔ joins.table.Has l c x := by
  by_cases he : c = cell
  · subst he
    constructor
    · intro hc
      obtain ⟨⟨a, ha⟩, -⟩ := HomeTable.Valid.has_write_self.mp hc
      exact absurd (ha.2.1.symm.trans hhas.2.1) hl
    · intro hc
      exact absurd (hc.2.1.symm.trans hhas.2.1) hl
  · exact HomeTable.Valid.has_write_of_ne he

/-- New content for the addressed instance leaves the others as they were. -/
theorem rewrite (h : node.Ledger all done rest (· ≠ k) joins fires queued)
    (hhas : joins.table.Has k cell e) (hfire : ∀ f ∈ fires, f.entry = cell → e'.pending = 0) :
    node.Ledger all done rest (· ≠ k) { joins with table := joins.table.write cell e' } fires
      queued where
  valid := h.valid.write
  records l c x hl hc := h.records l c x hl ((has_of_write hhas hl).mp hc)
  kinds l c x hl hc := h.kinds l c x hl ((has_of_write hhas hl).mp hc)
  live f hf := by
    obtain ⟨hq, x, hx, hp⟩ := h.live f hf
    refine ⟨hq, ?_⟩
    by_cases he : f.entry = cell
    · refine ⟨e', ?_, hfire f hf he⟩
      rw [he] at hx ⊢
      exact HomeTable.Valid.has_write_self.mpr ⟨⟨x, hx⟩, rfl⟩
    · exact ⟨x, (HomeTable.Valid.has_write_of_ne he).mpr hx, hp⟩
  fires_once := h.fires_once
  queued_once := h.queued_once
  queued_done := h.queued_done
  touched l hl htouched := by
    rcases h.touched l hl htouched with hq | hlack | ⟨c, x, hc, hopen⟩
    · exact .inl hq
    · exact .inr (.inl hlack)
    · exact .inr (.inr ⟨c, x, (has_of_write hhas hl).mpr hc, hopen⟩)
  dropped := h.dropped

/-! ## Firing and freeing -/

/-- A fire of the addressed instance is queued. -/
theorem push (h : node.Ledger all done rest (· ≠ k) joins fires queued)
    (hhas : joins.table.Has k cell e) (hp : e.pending = 0) (hk : k ∉ queued)
    (hentry : ∀ f ∈ fires, f.entry ≠ cell)
    (hdone : node.Touched done k ∧
      (∀ i, node.required i = true → ∃ v, Published done i (node.source k i) v) ∧
      ∀ i, Delivered rest i (node.source k i) → Delivered done i (node.source k i)) (op : Nat) :
    node.Ledger all done rest (· ≠ k) joins (fires ++ [⟨k, cell, op⟩]) (queued ++ [k]) where
  valid := h.valid
  records := h.records
  -- the addressed instance is left out, so no entry changes what it is
  kinds l c x hl hc := by
    rcases h.kinds l c x hl hc with ⟨hx, f, hf, he⟩ | ⟨hq, hghost⟩ | ⟨hq, hopen⟩
    · exact .inl ⟨hx, f, List.mem_append_left _ hf, he⟩
    · refine .inr (.inl ⟨?_, hghost⟩)
      exact hq.imp_left fun hq => List.mem_append_left _ hq
    · refine .inr (.inr ⟨?_, hopen⟩)
      intro hmem
      rcases List.mem_append.mp hmem with hmem | hmem
      · exact hq hmem
      · exact hl (List.mem_singleton.mp hmem)
  live f hf := by
    rcases List.mem_append.mp hf with hf | hf
    · obtain ⟨hq, hx⟩ := h.live f hf
      exact ⟨List.mem_append_left _ hq, hx⟩
    · rw [List.mem_singleton.mp hf]
      exact ⟨List.mem_append_right _ (List.mem_singleton_self k), e, hhas, hp⟩
  fires_once := by
    rw [List.map_append]
    apply List.nodup_append.mpr
    refine ⟨h.fires_once, List.nodup_singleton _, fun x hx y hy => ?_⟩
    obtain ⟨f, hf, rfl⟩ := List.mem_map.mp hx
    rw [List.mem_singleton.mp hy]
    exact hentry f hf
  queued_once := by
    apply List.nodup_append.mpr
    refine ⟨h.queued_once, List.nodup_singleton _, fun x hx y hy he => ?_⟩
    rw [he, List.mem_singleton.mp hy] at hx
    exact hk hx
  queued_done l hl := by
    rcases List.mem_append.mp hl with hl | hl
    · exact h.queued_done l hl
    · rw [List.mem_singleton.mp hl]
      exact hdone
  -- another instance is not in the queue for having been added
  touched l hl htouched := by
    rcases h.touched l hl htouched with hq | hlack | ⟨c, x, hc, hq, hopen⟩
    · exact .inl (List.mem_append_left _ hq)
    · exact .inr (.inl hlack)
    · refine .inr (.inr ⟨c, x, hc, ?_, hopen⟩)
      intro hmem
      rcases List.mem_append.mp hmem with hmem | hmem
      · exact hq hmem
      · exact hl (List.mem_singleton.mp hmem)
  dropped := h.dropped

theorem entry_ne (h : node.Ledger all done rest P joins fires queued)
    (hhas : joins.table.Has k cell e) (hp : e.pending ≠ 0) : ∀ f ∈ fires, f.entry ≠ cell := by
  rintro f hf rfl
  exact hp (h.index_eq hf hhas).2

/-- A fire is over; its instance is taken out. -/
theorem drop_fire {f : IndexedFire}
    (h : node.Ledger all done rest (fun _ => True) joins (f :: fires) queued) :
    node.Ledger all done rest (· ≠ f.index) joins fires queued where
  valid := h.valid
  records l c x _ hc := h.records l c x trivial hc
  kinds l c x hl hc := by
    rcases h.kinds l c x trivial hc with ⟨hp, g, hg, he⟩ | hkind
    · rcases List.mem_cons.mp hg with rfl | hg
      · rw [← he] at hc
        exact absurd (h.index_eq (List.mem_cons_self ..) hc).1.symm hl
      · exact .inl ⟨hp, g, hg, he⟩
    · exact .inr hkind
  live g hg := h.live g (List.mem_cons_of_mem _ hg)
  fires_once := (List.nodup_cons.mp h.fires_once).2
  queued_once := h.queued_once
  queued_done := h.queued_done
  touched l _ hl := h.touched l trivial hl
  dropped := h.dropped

theorem entry_ne_rest {f : IndexedFire}
    (h : node.Ledger all done rest P joins (f :: fires) queued) :
    ∀ g ∈ fires, g.entry ≠ f.entry := by
  intro g hg he
  have hnot := (List.nodup_cons.mp h.fires_once).1
  rw [← he] at hnot
  exact hnot (List.mem_map_of_mem hg)

/-- An entry of the addressed instance is freed; its fire, if it had one, is over. -/
theorem free (h : node.Ledger all done rest (· ≠ k) joins fires queued)
    (hhas : joins.table.Has k cell e) (hentry : ∀ f ∈ fires, f.entry ≠ cell)
    (hk : k ∈ queued ∨ node.Lacking all k) :
    node.Ledger all done rest (fun _ => True) (joins.releaseJoin cell) fires queued := by
  have hhas' : ∀ l c x, (joins.releaseJoin cell).table.Has l c x ↔
      joins.table.Has l c x ∧ c ≠ cell := fun l c x => h.valid.has_release hhas.1
  have hne : ∀ l c x, (joins.releaseJoin cell).table.Has l c x → l ≠ k := by
    rintro l c x hc rfl
    obtain ⟨hc, hcell⟩ := (hhas' l c x).mp hc
    exact hcell (h.valid.has_unique hc hhas).1
  refine ⟨h.valid.release hhas.1, fun l c x _ hc => ?_, fun l c x _ hc => ?_, fun f hf => ?_,
    h.fires_once, h.queued_once, h.queued_done, fun l _ hl => ?_, h.dropped⟩
  · exact h.records l c x (hne l c x hc) ((hhas' l c x).mp hc).1
  · exact h.kinds l c x (hne l c x hc) ((hhas' l c x).mp hc).1
  · obtain ⟨hq, x, hx, hp⟩ := h.live f hf
    exact ⟨hq, x, (hhas' _ _ _).mpr ⟨hx, hentry f hf⟩, hp⟩
  · by_cases hlk : l = k
    · rw [hlk]
      exact hk.imp_right Or.inl
    · rcases h.touched l hlk hl with hq | hlack | ⟨c, x, hc, hopen⟩
      · exact .inl hq
      · exact .inr (.inl hlack)
      · refine .inr (.inr ⟨c, x, (hhas' l c x).mpr ⟨hc, ?_⟩, hopen⟩)
        rintro rfl
        exact hlk (hc.2.1.symm.trans hhas.2.1)

end Ledger

end CudaqQec.JoinNode
