import CudaqQec.Commitment.Schedule

/-!
# What a schedule is, and what its checks accept

A schedule that `schedule_windows` returns is `scheduleOf`: each layer's instances, placed. The four
checks are then conditions on the windows themselves.

* `scheduleWindows_eq_ok`: when a shot is scheduled, and what the schedule is.
* `checkDeliveries_eq_ok`, `checkCommits_eq_ok`, `checkRows_eq_ok`, `checkImported_eq_ok`: what each
  check accepts.
-/

namespace CudaqQec

open Checked WindowRequest

/-! ## Lists -/

section
variable {α β : Type}

/-- Exactly one element of a list without repeats passes a filter. -/
theorem length_filter_eq_one_iff {l : List α} (hl : l.Nodup) (p : α → Bool) :
    (l.filter p).length = 1 ↔ ∃ a ∈ l, p a = true ∧ ∀ b ∈ l, p b = true → b = a := by
  rw [List.length_eq_one_iff]
  constructor
  · rintro ⟨a, ha⟩
    have hmem : ∀ b, b ∈ l.filter p ↔ b = a := by simp [ha]
    have h := List.mem_filter.mp ((hmem a).mpr rfl)
    exact ⟨a, h.1, h.2, fun b hb hp => (hmem b).mp (List.mem_filter.mpr ⟨hb, hp⟩)⟩
  · rintro ⟨a, ha, hpa, huniq⟩
    refine ⟨a, ?_⟩
    have hnd : (l.filter p).Nodup := hl.filter _
    have hmem : ∀ b, b ∈ l.filter p ↔ b ∈ [a] := by
      intro b
      rw [List.mem_singleton, List.mem_filter]
      constructor
      · rintro ⟨hb, hpb⟩
        exact huniq b hb hpb
      · rintro rfl
        exact ⟨ha, hpa⟩
    exact List.perm_singleton.mp ((List.perm_ext_iff_of_nodup hnd (by simp)).mpr hmem)

/-- A step of every element of a list returns exactly when each element's step does. -/
theorem mapM_eq_ok_iff {ε : Type} {f : α → Except ε β} {P : α → Prop} {g : α → β} {l : List α}
    (h : ∀ a ∈ l, ∀ b, f a = .ok b ↔ P a ∧ b = g a) {out : List β} :
    l.mapM f = .ok out ↔ (∀ a ∈ l, P a) ∧ out = l.map g := by
  induction l generalizing out with
  | nil => simp [pure, Except.pure, eq_comm]
  | cons a l ih =>
    have ha := h a (by simp)
    have ih : ∀ out, l.mapM f = .ok out ↔ (∀ a ∈ l, P a) ∧ out = l.map g :=
      fun _ => ih fun b hb => h b (by simp [hb])
    simp only [List.mapM_cons, bind_eq_ok, ha, ih, pure, Except.pure, Except.ok.injEq,
      List.mem_cons, forall_eq_or_imp, List.map_cons]
    constructor
    · rintro ⟨_, ⟨h1, rfl⟩, _, ⟨h2, rfl⟩, rfl⟩
      exact ⟨⟨h1, h2⟩, rfl⟩
    · rintro ⟨⟨h1, h2⟩, rfl⟩
      exact ⟨_, ⟨h1, rfl⟩, _, ⟨h2, rfl⟩, rfl⟩

end

/-! ## The schedule of a shot -/

/-- Layers and edges that `schedule_windows` accepts, whatever the shot. -/
structure WindowGraph (layers : List WindowLayer) (edges : List TaskGraphEdge) : Prop where
  offsets : ∀ e ∈ edges, -windowRoundLimit ≤ e.indexOffset ∧ e.indexOffset ≤ windowRoundLimit
  requests : ∀ l ∈ layers, checkRequest l.request = .ok ()
  nodes : (layers.map WindowLayer.node).Nodup
  producers : ∀ e ∈ edges, ∃ p ∈ layers, p.node = e.fromNode ∧
    ∃ send ∈ p.request.sends, send.id = e.fromOutput
  consumers : ∀ e ∈ edges, ∃ c ∈ layers, c.node = e.toNode

section
variable {layers : List WindowLayer} {edges : List TaskGraphEdge}

theorem checkLayers_eq_ok {seen : List String} {u : Unit} : checkLayers layers seen = .ok u ↔
    (∀ l ∈ layers, checkRequest l.request = .ok ()) ∧ (layers.map WindowLayer.node).Nodup ∧
      ∀ l ∈ layers, l.node ∉ seen := by
  induction layers generalizing seen with
  | nil => simp [checkLayers]
  | cons l layers ih =>
    simp only [checkLayers, bind_eq_ok, throwIf_eq_ok, ih, List.mem_cons, forall_eq_or_imp,
      List.map_cons, List.nodup_cons, List.mem_map, not_exists, not_and, not_or]
    constructor
    · rintro ⟨_, h1, _, h2, h3, h4, h5⟩
      exact ⟨⟨h1, h3⟩, ⟨fun x hx => (h5 x hx).1, h4⟩, h2, fun x hx => (h5 x hx).2⟩
    · rintro ⟨⟨h1, h3⟩, ⟨h5, h4⟩, h2, h6⟩
      exact ⟨(), h1, (), h2, h3, h4, fun x hx => ⟨h5 x hx, h6 x hx⟩⟩

theorem findLayer_eq_some (h : (layers.map WindowLayer.node).Nodup) {node : String}
    {l : WindowLayer} : findLayer layers node = some l ↔ l ∈ layers ∧ l.node = node := by
  constructor
  · intro hf
    exact ⟨List.mem_of_find?_eq_some hf, by simpa using List.find?_some hf⟩
  · rintro ⟨hl, rfl⟩
    cases hf : findLayer layers l.node with
    | none =>
      have := List.find?_eq_none.mp hf l hl
      simp at this
    | some l' =>
      have h' : l'.node = l.node := by simpa using List.find?_some hf
      have hmem := List.mem_of_find?_eq_some hf
      rw [List.inj_on_of_nodup_map h hmem hl h']

theorem checkEdge_eq_ok (h : (layers.map WindowLayer.node).Nodup) {e : TaskGraphEdge} {u : Unit} :
    checkEdge layers e = .ok u ↔
      (∃ p ∈ layers, p.node = e.fromNode ∧ ∃ send ∈ p.request.sends, send.id = e.fromOutput) ∧
        ∃ c ∈ layers, c.node = e.toNode := by
  unfold checkEdge
  split
  · next p c hp hc =>
    rw [findLayer_eq_some h] at hp hc
    have hu : ∀ p' ∈ layers, p'.node = e.fromNode → p' = p := fun p' hp' hn =>
      List.inj_on_of_nodup_map h hp' hp.1 (hn.trans hp.2.symm)
    simp only [throwIf_eq_ok, Bool.not_eq_true, Bool.not_eq_false', List.any_eq_true,
      decide_eq_true_eq]
    constructor
    · intro hs
      exact ⟨⟨p, hp.1, hp.2, hs⟩, c, hc⟩
    · rintro ⟨⟨p', hp', hn, hs⟩, -⟩
      rwa [hu p' hp' hn] at hs
  · next hnone =>
    simp only [reduceCtorEq, false_iff]
    rintro ⟨⟨p, hp, hn, -⟩, c, hc, hcn⟩
    exact hnone p c ((findLayer_eq_some h).mpr ⟨hp, hn⟩) ((findLayer_eq_some h).mpr ⟨hc, hcn⟩)

def dependencyAt (layers : List WindowLayer) (R : Nat) (k : Int) (e : TaskGraphEdge) :
    WindowDependency :=
  ⟨e.fromNode, e.fromOutput, k + e.indexOffset, e.toInput,
    (findLayer layers e.fromNode).any fun p => k + e.indexOffset ∈ p.request.instances R⟩

/-- Window `k` of a layer, as it is scheduled. -/
def scheduledOf (t : TemplateData) (layers : List WindowLayer) (edges : List TaskGraphEdge) (R : Nat)
    (layer : WindowLayer) (k : Int) : ScheduledWindow :=
  let w := placed t layer.request k R
  { node := layer.node
    k := k
    variant := windowVariant (boundsOf t layer.request) layer.request k R
    rounds := w.rounds
    commit := w.commit
    buffers := w.buffers
    input := w.input
    output := w.output
    sends := w.sends
    inputs := (edges.filter fun e => e.toNode = layer.node).map (dependencyAt layers R k) }

def scheduledLayer (t : TemplateData) (layers : List WindowLayer) (edges : List TaskGraphEdge)
    (R : Nat) (layer : WindowLayer) : List ScheduledWindow :=
  (layer.request.instances R).toList.map (scheduledOf t layers edges R layer)

def scheduleOf (t : TemplateData) (layers : List WindowLayer) (edges : List TaskGraphEdge)
    (R : Nat) : WindowSchedule :=
  ⟨R, layers.flatMap (scheduledLayer t layers edges R)⟩

variable {t : TemplateData} {R : Nat}

theorem WindowGraph.dependencyOf_eq (h : WindowGraph layers edges) {e : TaskGraphEdge}
    (he : e ∈ edges) (k : Int) :
    dependencyOf layers R k e = .ok (dependencyAt layers R k e) := by
  obtain ⟨p, hp, hn, -⟩ := h.producers e he
  have hf : findLayer layers e.fromNode = some p := (findLayer_eq_some h.nodes).mpr ⟨hp, hn⟩
  have ha := (checkRequest_valid (h.requests p hp)).toAnchored
  simp [dependencyOf, dependencyAt, hf, shotInstances_eq ha, pure, Except.pure]

theorem WindowGraph.scheduleWindow_eq_ok (h : WindowGraph layers edges) (hR : t.Admits R)
    (hR0 : 0 < R) {l : WindowLayer} (hl : l ∈ layers) {k : Int}
    (hk : k ∈ l.request.instances R) {w : ScheduledWindow} :
    scheduleWindow t layers edges R l k = .ok w ↔
      SendsFit t l.request k R ∧ w = scheduledOf t layers edges R l k := by
  have hreq := h.requests l hl
  have ha := (checkRequest_valid hreq).toAnchored
  have hinputs : (edges.filter fun e => e.toNode = l.node).mapM (dependencyOf layers R k) =
      .ok ((edges.filter fun e => e.toNode = l.node).map (dependencyAt layers R k)) := by
    rw [mapM_eq_ok_iff (P := fun _ => True) (g := dependencyAt layers R k)]
    · simp
    · intro e he d
      rw [h.dependencyOf_eq (List.mem_filter.mp he).1]
      simp [eq_comm]
  have hclip := (mem_instances_iff_clip ha hR0).mp hk
  simp only [scheduleWindow, bind_eq_ok, placeWindow_eq_ok, windowVariantOf_eq ha, hinputs]
  constructor
  · rintro ⟨_, ⟨-, -, -, hfit, rfl⟩, _, h1, _, h2, h3⟩
    cases h1
    cases h2
    exact ⟨hfit, (Except.ok.inj h3).symm⟩
  · rintro ⟨hfit, rfl⟩
    exact ⟨_, ⟨hreq, hR, hclip, hfit, rfl⟩, _, rfl, _, rfl, rfl⟩

theorem WindowGraph.scheduleLayer_eq_ok (h : WindowGraph layers edges) (hR : t.Admits R)
    (hR0 : 0 < R) {l : WindowLayer} (hl : l ∈ layers) {ws : List ScheduledWindow} :
    scheduleLayer t layers edges R l = .ok ws ↔
      (∀ k ∈ l.request.instances R, SendsFit t l.request k R) ∧
        ws = scheduledLayer t layers edges R l := by
  have ha := (checkRequest_valid (h.requests l hl)).toAnchored
  rw [scheduleLayer, shotInstances_eq ha, ok_bind,
    mapM_eq_ok_iff (P := fun k => SendsFit t l.request k R) (g := scheduledOf t layers edges R l)]
  · simp only [IndexRange.mem_toList, scheduledLayer]
  · intro k hk w
    exact h.scheduleWindow_eq_ok hR hR0 hl (IndexRange.mem_toList.mp hk)

/-- A shot is scheduled exactly when its layers and edges fit together and no send's row number
wraps around; the schedule holds each layer's instances. -/
theorem scheduleWindows_eq_ok (hR : t.Admits R) (hR0 : 0 < R) {s : WindowSchedule} :
    scheduleWindows t layers edges R = .ok s ↔ WindowGraph layers edges ∧
      (∀ l ∈ layers, ∀ k ∈ l.request.instances R, SendsFit t l.request k R) ∧
      s = scheduleOf t layers edges R := by
  simp only [scheduleWindows, bind_eq_ok, checkLayers_eq_ok, forM_eq_ok, checkIndexOffsets,
    throwIf_eq_ok]
  constructor
  · rintro ⟨_, h1, _, ⟨h2, h3, -⟩, _, h4, ws, h5, h6⟩
    have hg : WindowGraph layers edges :=
      { offsets := fun e he => by have := h1 e he; omega
        requests := h2
        nodes := h3
        producers := fun e he => ((checkEdge_eq_ok h3).mp (h4 e he)).1
        consumers := fun e he => ((checkEdge_eq_ok h3).mp (h4 e he)).2 }
    rw [mapM_eq_ok_iff
      (P := fun l => ∀ k ∈ l.request.instances R, SendsFit t l.request k R)
      (g := scheduledLayer t layers edges R)
      fun l hl ws => hg.scheduleLayer_eq_ok hR hR0 hl] at h5
    obtain ⟨h5, rfl⟩ := h5
    exact ⟨hg, h5, (Except.ok.inj h6).symm⟩
  · rintro ⟨hg, hfit, rfl⟩
    refine ⟨(), fun e he => by have := hg.offsets e he; omega, (), ⟨hg.requests, hg.nodes, by simp⟩,
      (), fun e he => (checkEdge_eq_ok hg.nodes).mpr ⟨hg.producers e he, hg.consumers e he⟩,
      layers.map (scheduledLayer t layers edges R), ?_, rfl⟩
    rw [mapM_eq_ok_iff
      (P := fun l => ∀ k ∈ l.request.instances R, SendsFit t l.request k R)
      (g := scheduledLayer t layers edges R)
      fun l hl ws => hg.scheduleLayer_eq_ok hR hR0 hl]
    exact ⟨hfit, rfl⟩

/-! ## The windows of a schedule -/

theorem mem_scheduleOf {w : ScheduledWindow} : w ∈ (scheduleOf t layers edges R).windows ↔
    ∃ l ∈ layers, ∃ k ∈ l.request.instances R, scheduledOf t layers edges R l k = w := by
  simp only [scheduleOf, scheduledLayer, List.mem_flatMap, List.mem_map, IndexRange.mem_toList]

theorem WindowGraph.eq_of_node_k (h : WindowGraph layers edges) {w w' : ScheduledWindow}
    (hw : w ∈ (scheduleOf t layers edges R).windows)
    (hw' : w' ∈ (scheduleOf t layers edges R).windows) (hn : w.node = w'.node) (hk : w.k = w'.k) :
    w = w' := by
  obtain ⟨l, hl, k, -, rfl⟩ := mem_scheduleOf.mp hw
  obtain ⟨l', hl', k', -, rfl⟩ := mem_scheduleOf.mp hw'
  have hll : l = l' := List.inj_on_of_nodup_map h.nodes hl hl' hn
  have hkk : k = k' := hk
  rw [hll, hkk]

theorem WindowGraph.nodup_windows (h : WindowGraph layers edges) :
    (scheduleOf t layers edges R).windows.Nodup := by
  have hl : layers.Nodup := h.nodes.of_map _
  refine List.nodup_flatMap.mpr ⟨?_, ?_⟩
  · intro l _
    refine List.Nodup.map ?_ (RoundRange.nodup_toList _)
    intro k k' hk
    exact congrArg ScheduledWindow.k hk
  · refine hl.imp_of_mem ?_
    intro l l' hlm hlm' hne
    rw [Function.onFun, List.disjoint_left]
    rintro w hw hw'
    obtain ⟨k, -, rfl⟩ := List.mem_map.mp hw
    obtain ⟨k', -, hk'⟩ := List.mem_map.mp hw'
    have hn : l'.node = l.node := congrArg ScheduledWindow.node hk'
    exact hne (List.inj_on_of_nodup_map h.nodes hlm hlm' hn.symm)

theorem WindowGraph.windowAt_eq_ok (h : WindowGraph layers edges) {node : String} {k : Int}
    {w : ScheduledWindow} : (scheduleOf t layers edges R).windowAt node k = .ok w ↔
      w ∈ (scheduleOf t layers edges R).windows ∧ w.node = node ∧ w.k = k := by
  unfold WindowSchedule.windowAt
  split
  · next w' hf =>
    have hmem := List.mem_of_find?_eq_some hf
    have hp : w'.node = node ∧ w'.k = k := by simpa using List.find?_some hf
    rw [Except.ok.injEq]
    constructor
    · rintro rfl
      exact ⟨hmem, hp⟩
    · rintro ⟨hw, hn, hk⟩
      exact h.eq_of_node_k hmem hw (hp.1.trans hn.symm) (hp.2.trans hk.symm)
  · next hf =>
    simp only [reduceCtorEq, false_iff]
    rintro ⟨hw, hn, hk⟩
    have := List.find?_eq_none.mp hf w hw
    simp [hn, hk] at this

/-! ## Edges and their sends -/

/-- The layer an edge comes from, and the send it carries. -/
structure EdgeSource (layers : List WindowLayer) (e : TaskGraphEdge) (p : WindowLayer)
    (send : SendRequest) : Prop where
  mem : p ∈ layers
  node : p.node = e.fromNode
  sends : send ∈ p.request.sends
  id : send.id = e.fromOutput

theorem WindowGraph.exists_source (h : WindowGraph layers edges) {e : TaskGraphEdge}
    (he : e ∈ edges) : ∃ p send, EdgeSource layers e p send := by
  obtain ⟨p, hp, hn, send, hs, hid⟩ := h.producers e he
  exact ⟨p, send, hp, hn, hs, hid⟩

theorem EdgeSource.unique (h : WindowGraph layers edges) {e : TaskGraphEdge} {p p' : WindowLayer}
    {send send' : SendRequest} (hs : EdgeSource layers e p send)
    (hs' : EdgeSource layers e p' send') : p = p' ∧ send = send' := by
  have hp : p = p' :=
    List.inj_on_of_nodup_map h.nodes hs.mem hs'.mem (hs.node.trans hs'.node.symm)
  subst hp
  have hids := (checkSends_nodup (checkRequest_valid (h.requests p hs.mem)).sends).1
  exact ⟨rfl, List.inj_on_of_nodup_map hids hs.sends hs'.sends (hs.id.trans hs'.id.symm)⟩

/-- An input is there exactly when its producer is an instance of the shot. -/
theorem EdgeSource.present_iff (h : WindowGraph layers edges) {e : TaskGraphEdge} {p : WindowLayer}
    {send : SendRequest} (hs : EdgeSource layers e p send) {k : Int} :
    (dependencyAt layers R k e).present = true ↔ k + e.indexOffset ∈ p.request.instances R := by
  have hf : findLayer layers e.fromNode = some p :=
    (findLayer_eq_some h.nodes).mpr ⟨hs.mem, hs.node⟩
  simp [dependencyAt, hf]

/-- The send an input reads is the one its edge carries. -/
theorem EdgeSource.sendOf_eq (h : WindowGraph layers edges) {e : TaskGraphEdge} {p : WindowLayer}
    {send : SendRequest} (hs : EdgeSource layers e p send) (j : Int) {d : WindowDependency}
    (hd : d.fromOutput = e.fromOutput) :
    sendOf (scheduledOf t layers edges R p j) d = placedSend t p.request j R send := by
  have hids := (checkSends_nodup (checkRequest_valid (h.requests p hs.mem)).sends).1
  have hfind : (p.request.sends.map (placedSend t p.request j R)).find?
      (fun x => x.id = d.fromOutput) = some (placedSend t p.request j R send) := by
    rw [List.find?_map]
    have hf : p.request.sends.find? ((fun x => decide (x.id = d.fromOutput)) ∘
        placedSend t p.request j R) = some send := by
      cases hf : p.request.sends.find? ((fun x => decide (x.id = d.fromOutput)) ∘
          placedSend t p.request j R) with
      | none =>
        have := List.find?_eq_none.mp hf send hs.sends
        simp [placedSend, hd, hs.id] at this
      | some send' =>
        have hid : send'.id = d.fromOutput := by
          have hfound := List.find?_some hf
          exact of_decide_eq_true hfound
        rw [List.inj_on_of_nodup_map hids (List.mem_of_find?_eq_some hf) hs.sends
          (hid.trans (hd.trans hs.id.symm))]
    rw [hf, Option.map_some]
  show (List.find? _ (p.request.sends.map (placedSend t p.request j R))).getD _ = _
  rw [hfind, Option.getD_some]

/-- The producer of an input that is there. -/
theorem EdgeSource.windowAt_eq (h : WindowGraph layers edges) {e : TaskGraphEdge} {p : WindowLayer}
    {send : SendRequest} (hs : EdgeSource layers e p send) {j : Int}
    (hj : j ∈ p.request.instances R) :
    (scheduleOf t layers edges R).windowAt e.fromNode j =
      .ok (scheduledOf t layers edges R p j) :=
  h.windowAt_eq_ok.mpr ⟨mem_scheduleOf.mpr ⟨p, hs.mem, j, hj, rfl⟩, hs.node, rfl⟩

/-! ## Deliveries -/

theorem firstDifference_eq_none {xs ys : List Int} : firstDifference xs ys = none ↔ xs = ys := by
  induction xs generalizing ys with
  | nil => cases ys <;> simp [firstDifference]
  | cons x xs ih =>
    cases ys with
    | nil => simp [firstDifference]
    | cons y ys =>
      simp only [firstDifference, List.cons.injEq]
      split
      · simp only [reduceCtorEq, false_iff, not_and]
        omega
      · split
        · simp only [reduceCtorEq, false_iff, not_and]
          omega
        · rw [ih]
          simp only [iff_and_self]
          omega

/-- What one input of consumer `c` delivers: a delta on its own rounds, or a residual on exactly its
imports. -/
def Delivers (send : WindowSend) (c : ScheduledWindow) : Prop :=
  (send.mode = .delta → ∀ r ∈ send.rounds, c.rounds.begin ≤ r.begin ∧ r.stop ≤ c.rounds.stop) ∧
  (send.mode = .residual → send.rounds.flatMap RoundRange.toList = c.output.imports.toList)

/-- Two inputs that read one send. -/
def SameSend (d d' : WindowDependency) : Prop :=
  d.fromNode = d'.fromNode ∧ d.k = d'.k ∧ d.fromOutput = d'.fromOutput

theorem checkDelivery_eq_ok {s : WindowSchedule} {c : ScheduledWindow}
    {received : List WindowDependency} {d : WindowDependency} {u : Unit} :
    checkDelivery s c received d = .ok u ↔ (∃ p, s.windowAt d.fromNode d.k = .ok p ∧
      Delivers (sendOf p d) c) ∧ ∀ d' ∈ received, ¬ SameSend d' d := by
  simp only [checkDelivery, bind_eq_ok, throwIf_eq_ok, ne_eq, not_not, List.find?_eq_none,
    decide_eq_true_eq]
  constructor
  · rintro ⟨p, hp, _, hr, hd⟩
    refine ⟨⟨p, hp, ?_⟩, fun d' hd' h => hr d' hd' h⟩
    split at hd
    · next hm =>
      refine ⟨fun _ => ?_, fun hn => by simp [hm] at hn⟩
      simpa [checkDelta, forM_eq_ok] using hd
    · next hm =>
      refine ⟨fun hn => by simp [hm] at hn, fun _ => ?_⟩
      simpa [checkResidual, firstDifference_eq_none] using hd
  · rintro ⟨⟨p, hp, hd⟩, hr⟩
    refine ⟨p, hp, (), fun d' hd' h => hr d' hd' h, ?_⟩
    split
    · next hm => simpa [checkDelta, forM_eq_ok] using hd.1 hm
    · next hm => simpa [checkResidual, firstDifference_eq_none] using hd.2 hm

theorem checkInputs_eq_ok {s : WindowSchedule} {c : ScheduledWindow}
    {inputs received : List WindowDependency} {u : Unit} :
    checkInputs s c inputs received = .ok u ↔
      (∀ d ∈ inputs, d.present = true → ∃ p, s.windowAt d.fromNode d.k = .ok p ∧
        Delivers (sendOf p d) c) ∧
      (inputs.filter WindowDependency.present).Pairwise (fun d d' => ¬ SameSend d d') ∧
      ∀ d ∈ inputs, d.present = true → ∀ d' ∈ received, ¬ SameSend d' d := by
  induction inputs generalizing received with
  | nil => simp [checkInputs]
  | cons d inputs ih =>
    unfold checkInputs
    by_cases hp : d.present = true
    · rw [if_pos hp, bind_eq_ok]
      simp only [checkDelivery_eq_ok, ih, List.mem_cons, forall_eq_or_imp, hp, forall_const,
        List.filter_cons_of_pos, List.pairwise_cons, List.mem_filter, and_imp, List.mem_append,
        List.not_mem_nil, or_false]
      constructor
      · rintro ⟨_, ⟨h1, h2⟩, h3, h4, h5⟩
        exact ⟨⟨h1, h3⟩, ⟨fun x hx hpx => h5 x hx hpx d (.inr rfl), h4⟩, h2,
          fun x hx hpx x' hx' => h5 x hx hpx x' (.inl hx')⟩
      · rintro ⟨⟨h1, h3⟩, ⟨h6, h4⟩, h2, h5⟩
        refine ⟨(), ⟨h1, h2⟩, h3, h4, ?_⟩
        rintro x hx hpx x' (hx' | rfl)
        · exact h5 x hx hpx x' hx'
        · exact h6 x hx hpx
    · rw [if_neg hp, ih]
      simp [hp]

/-- Every input that is there delivers, and no send arrives twice. -/
theorem checkDeliveries_eq_ok {s : WindowSchedule} {u : Unit} : checkDeliveries s = .ok u ↔
    ∀ c ∈ s.windows,
      (∀ d ∈ c.inputs, d.present = true → ∃ p, s.windowAt d.fromNode d.k = .ok p ∧
        Delivers (sendOf p d) c) ∧
      (c.inputs.filter WindowDependency.present).Pairwise fun d d' => ¬ SameSend d d' := by
  simp only [checkDeliveries, forM_eq_ok, checkInputs_eq_ok]
  constructor
  · intro h c hc
    exact ⟨(h c hc).1, (h c hc).2.1⟩
  · intro h c hc
    exact ⟨(h c hc).1, (h c hc).2, by simp⟩

/-! ## Commits and rows -/

/-- Every round with a detectable fault is committed by one window. -/
theorem WindowGraph.checkCommits_eq_ok (h : WindowGraph layers edges) {u : Unit} :
    checkCommits t (scheduleOf t layers edges R) = .ok u ↔
      ∀ q < R, (touchAt t R q).firstDetectable ≠ none →
        ∃ w ∈ (scheduleOf t layers edges R).windows, (q : Int) ∈ w.commit ∧
          ∀ w' ∈ (scheduleOf t layers edges R).windows, (q : Int) ∈ w'.commit → w' = w := by
  have hR : (scheduleOf t layers edges R).numRounds = R := rfl
  simp only [checkCommits, forM_eq_ok, throwIf_eq_ok, List.mem_range, hR, not_and, not_not]
  refine forall_congr' fun q => forall_congr' fun hq => forall_congr' fun hd => ?_
  rw [committers, length_filter_eq_one_iff h.nodup_windows]
  simp only [decide_eq_true_eq]

def Holds (w : ScheduledWindow) (q : Int) : Prop := q ∈ w.rounds ∨ q ∈ w.output.imports

/-- F3: the faults of round `x`, where another window commits them, reach `f` by a send that holds
round `q`. -/
def Learns (s : WindowSchedule) (f : ScheduledWindow) (q x : Int) : Prop :=
  ∀ p ∈ s.windows, x ∈ p.commit → p.node = f.node ∧ p.k = f.k ∨ sendsRound p f q = true

/-- F1 and F3 on a row of round `q`. -/
def RowSettled (s : WindowSchedule) (q : Int) (own incoming : Bool) : Prop :=
  ∃ f ∈ s.windows, Holds f q ∧ finalizes f q own incoming = true ∧
    (∀ w ∈ s.windows, Holds w q → finalizes w q own incoming = true → w = f) ∧
    (own = true → Learns s f q q) ∧ (incoming = true → Learns s f q (q - 1))

theorem WindowGraph.imports_disjoint (h : WindowGraph layers edges) {w : ScheduledWindow}
    (hw : w ∈ (scheduleOf t layers edges R).windows) (hR0 : 0 < R) {q : Int} (hq : q ∈ w.rounds) :
    q ∉ w.output.imports := by
  obtain ⟨l, hl, k, hk, rfl⟩ := mem_scheduleOf.mp hw
  have hv := checkRequest_valid (h.requests l hl)
  have hc := (mem_instances_iff_clip hv.toAnchored hR0).mp hk
  have hrounds := placedRounds_eq hv hc
  have himp := relativeImports_begin (t := t) hv
  change q ∈ placedRounds l.request (l.request.anchor k) R at hq
  show q ∉ (placedOutput t l.request (l.request.anchor k)
    (placedRounds l.request (l.request.anchor k) R).stop R).imports
  rw [mem_placedOutput_imports]
  rintro ⟨-, -, hi⟩
  rw [hrounds, mem_clipRounds, RoundRange.mem_def] at hq
  rw [mem_clipRounds, RoundRange.mem_def] at hi
  omega

theorem WindowGraph.holders_eq (h : WindowGraph layers edges) (hR0 : 0 < R) (q : Int) :
    holders (scheduleOf t layers edges R) q =
      (scheduleOf t layers edges R).windows.filter fun w => q ∈ w.rounds ∨ q ∈ w.output.imports := by
  have hdis : ∀ w ∈ (scheduleOf t layers edges R).windows, q ∈ w.rounds → q ∉ w.output.imports :=
    fun w hw => h.imports_disjoint hw hR0
  unfold holders
  generalize (scheduleOf t layers edges R).windows = ws at hdis
  induction ws with
  | nil => rfl
  | cons w ws ih =>
    rw [List.flatMap_cons, ih fun w' hw' => hdis w' (by simp [hw']), List.filter_cons]
    have hw := hdis w (by simp)
    by_cases h1 : q ∈ w.rounds
    · simp [h1, hw h1]
    · by_cases h2 : q ∈ w.output.imports <;> simp [h1, h2]

theorem checkLearned_eq_ok {s : WindowSchedule} {f : ScheduledWindow} {q i x : Nat}
    {fault : Option Nat} {u : Unit} :
    checkLearned t s f q i x fault = .ok u ↔ (fault.isSome = true → Learns s f q x) := by
  cases fault with
  | none => simp [checkLearned]
  | some column =>
    simp only [checkLearned, forM_eq_ok, throwIf_eq_ok, committers, List.mem_filter,
      decide_eq_true_eq, and_imp, Learns, not_and, Bool.not_eq_false, Option.isSome_some,
      forall_const]
    refine forall_congr' fun p => forall_congr' fun _ => forall_congr' fun _ => ?_
    tauto

theorem WindowGraph.checkRow_eq_ok (h : WindowGraph layers edges) (hR0 : 0 < R) {q i : Nat}
    {own incoming : Option Nat} (hq : incoming ≠ none → 0 < q) {u : Unit} :
    checkRow t (scheduleOf t layers edges R) q i own incoming = .ok u ↔
      (own ≠ none ∨ incoming ≠ none →
        RowSettled (scheduleOf t layers edges R) q own.isSome incoming.isSome) := by
  have hcast : incoming ≠ none → ((q - 1 : Nat) : Int) = (q : Int) - 1 := fun hi => by
    have := hq hi
    omega
  unfold checkRow
  by_cases hnone : own = none ∧ incoming = none
  · simp [hnone]
  rw [if_neg hnone, h.holders_eq hR0, List.filter_filter]
  have hsome : own ≠ none ∨ incoming ≠ none := by tauto
  simp only [hsome, forall_const]
  have hnd := h.nodup_windows (t := t) (R := R)
  -- The finalizers among the holders, as one filter of the windows.
  set p : ScheduledWindow → Bool := fun w =>
    finalizes w q own.isSome incoming.isSome && decide ((q : Int) ∈ w.rounds ∨
      (q : Int) ∈ w.output.imports) with hp
  have hpiff : ∀ w, p w = true ↔ Holds w q ∧ finalizes w q own.isSome incoming.isSome = true := by
    intro w
    simp only [hp, Bool.and_eq_true, decide_eq_true_eq, Holds]
    tauto
  constructor
  · intro hrow
    split at hrow
    · cases hrow
    · next f hf =>
      have hlen : ((scheduleOf t layers edges R).windows.filter p).length = 1 := by simp [hf]
      obtain ⟨f', hf', hpf', huniq⟩ := (length_filter_eq_one_iff hnd p).mp hlen
      have hff : f' = f := by
        have : f' ∈ (scheduleOf t layers edges R).windows.filter p :=
          List.mem_filter.mpr ⟨hf', hpf'⟩
        rw [hf] at this
        exact List.mem_singleton.mp this
      subst hff
      rw [bind_eq_ok] at hrow
      obtain ⟨_, h1, h2⟩ := hrow
      refine ⟨f', hf', ((hpiff f').mp hpf').1, ((hpiff f').mp hpf').2,
        fun w hw hh hfin => huniq w hw ((hpiff w).mpr ⟨hh, hfin⟩), ?_, ?_⟩
      · exact checkLearned_eq_ok.mp h1
      · intro hi
        rw [← hcast (Option.isSome_iff_ne_none.mp hi)]
        exact checkLearned_eq_ok.mp h2 hi
    · cases hrow
  · rintro ⟨f, hf, hh, hfin, huniq, h1, h2⟩
    have hfilter : (scheduleOf t layers edges R).windows.filter p = [f] := by
      have hlen := (length_filter_eq_one_iff hnd p).mpr
        ⟨f, hf, (hpiff f).mpr ⟨hh, hfin⟩, fun w hw hpw =>
          huniq w hw ((hpiff w).mp hpw).1 ((hpiff w).mp hpw).2⟩
      obtain ⟨f', hf'⟩ := List.length_eq_one_iff.mp hlen
      have : f ∈ (scheduleOf t layers edges R).windows.filter p :=
        List.mem_filter.mpr ⟨hf, (hpiff f).mpr ⟨hh, hfin⟩⟩
      rw [hf'] at this ⊢
      rw [List.mem_singleton.mp this]
    rw [hfilter]
    refine bind_eq_ok.mpr ⟨(), checkLearned_eq_ok.mpr h1, checkLearned_eq_ok.mpr fun hi => ?_⟩
    rw [hcast (Option.isSome_iff_ne_none.mp hi)]
    exact h2 hi

/-- Row `i` of round `q` as `check_rows` sees it: which faults touch it. -/
def TouchedRow (t : TemplateData) (R q i : Nat) (own incoming : Bool) : Prop :=
  i < (touchAt t R q).own.length ∧ own = ((touchAt t R q).own.getD i none).isSome ∧
    incoming = (incomingAt t R q i).isSome ∧ (own = true ∨ incoming = true)

theorem WindowGraph.checkRows_eq_ok (h : WindowGraph layers edges) (hR0 : 0 < R) {u : Unit} :
    checkRows t (scheduleOf t layers edges R) = .ok u ↔
      ∀ q < R, ∀ i own incoming, TouchedRow t R q i own incoming →
        RowSettled (scheduleOf t layers edges R) q own incoming := by
  have hR : (scheduleOf t layers edges R).numRounds = R := rfl
  have hinc : ∀ q i, incomingAt t R q i ≠ none → 0 < q := by
    intro q i hn
    by_contra h0
    simp [incomingAt, Nat.eq_zero_of_not_pos h0] at hn
  simp only [checkRows, forM_eq_ok, List.mem_range, hR]
  constructor
  · rintro hall q hq i own incoming ⟨hi, rfl, rfl, htouch⟩
    refine (h.checkRow_eq_ok hR0 (hinc q i)).mp (hall q hq i hi) ?_
    simpa [Option.isSome_iff_ne_none] using htouch
  · intro hall q hq i hi
    rw [h.checkRow_eq_ok hR0 (hinc q i)]
    intro htouch
    exact hall q hq i _ _ ⟨hi, rfl, rfl, by simpa [Option.isSome_iff_ne_none] using htouch⟩

/-! ## Faults that reach the next round -/

/-- A row of a seam's band that some fault touches is one the faults of the chunk reach. -/
theorem reachesNextRound_of_bandTouch {chunk : ExtendedDem} {id : SeamId} {i : Nat}
    (h : (bandTouch chunk id).getD i none ≠ none) : reachesNextRound chunk id = true := by
  unfold bandTouch at h
  unfold reachesNextRound
  cases hs : chunk.findSeam id with
  | none => simp [hs] at h
  | some seam =>
    simp only [hs, List.getD_eq_getElem?_getD, List.getElem?_map] at h
    by_cases hi : i < seam.rowEnd - seam.rowBegin
    · rw [List.getElem?_range' hi, Option.map_some, Option.getD_some, ne_eq,
        List.min?_eq_none_iff] at h
      obtain ⟨c, hc⟩ := List.exists_mem_of_ne_nil _ h
      have hcount : 0 < chunk.H.count (seam.rowBegin + 1 * i) c := by
        rw [← SparseBinaryMatrix.count_toNestedCsr, List.getD_eq_getElem?_getD]
        exact List.count_pos_iff.mpr hc
      rw [← SparseBinaryMatrix.count_toNestedCsc, List.count_pos_iff,
        ← SparseBinaryMatrix.groups_toCsc] at hcount
      simp only [List.any_eq_true]
      exact ⟨_, getD_mem hcount, _, hcount, by simp [Seam.covers]; omega⟩
    · simp [hi] at h

theorem ExperimentTemplate.maxSpan_of_incoming (t : ExperimentTemplate) {R q i : Nat} (hq : q < R)
    (h : incomingAt t.toTemplateData R q i ≠ none) : t.maxSpan = 1 := by
  have h1 := t.maxSpan_le_one
  by_contra hn
  have h0 := t.reachesNextRound_eq_false (by omega) (t.phase (q - 1) R)
  unfold incomingAt at h
  split at h
  · exact h rfl
  · next hq0 =>
    have hchunk : t.chunk (q - 1) R = (t.phaseChunks (t.phase (q - 1) R)).inner :=
      if_pos (by omega)
    have h2 := reachesNextRound_of_bandTouch h
    rw [hchunk, h0] at h2
    cases h2

/-! ## Imports -/

/-- An input that is a residual from a window of the shot. -/
def IsResidual (s : WindowSchedule) (d : WindowDependency) : Prop :=
  d.present = true ∧ ∃ p, s.windowAt d.fromNode d.k = .ok p ∧ (sendOf p d).mode = .residual

instance (s : WindowSchedule) (d : WindowDependency) : Decidable (IsResidual s d) :=
  match hw : s.windowAt d.fromNode d.k with
  | .ok p => decidable_of_iff (d.present = true ∧ (sendOf p d).mode = .residual) (by
      simp only [IsResidual, hw, Except.ok.injEq, exists_eq_left'])
  | .error _ => isFalse (by simp [IsResidual, hw])

theorem countResiduals_eq_ok {s : WindowSchedule} {inputs : List WindowDependency}
    (h : ∀ d ∈ inputs, d.present = true → ∃ p, s.windowAt d.fromNode d.k = .ok p) :
    countResiduals s inputs = .ok (inputs.countP fun d => IsResidual s d) := by
  induction inputs with
  | nil => rfl
  | cons d inputs ih =>
    have ih := ih fun d' hd' => h d' (by simp [hd'])
    unfold countResiduals
    by_cases hp : d.present = true
    · obtain ⟨p, hw⟩ := h d (by simp) hp
      rw [if_pos hp, hw, ok_bind, ih, ok_bind, List.countP_cons]
      have hiff : decide (IsResidual s d) = decide ((sendOf p d).mode = .residual) := by
        simp [IsResidual, hp, hw]
      rw [hiff]
      by_cases hm : (sendOf p d).mode = .residual <;> simp [hm, pure, Except.pure]
    · rw [if_neg hp, ih, List.countP_cons]
      simp [IsResidual, hp]

theorem checkImported_eq_ok {s : WindowSchedule}
    (h : ∀ c ∈ s.windows, ∀ d ∈ c.inputs, d.present = true →
      ∃ p, s.windowAt d.fromNode d.k = .ok p) {u : Unit} :
    checkImported s = .ok u ↔ ∀ c ∈ s.windows, ¬ c.output.imports.Empty →
      (c.inputs.countP fun d => IsResidual s d) = 1 := by
  simp only [checkImported, forM_eq_ok]
  refine forall_congr' fun c => forall_congr' fun hc => ?_
  unfold checkImportsOf
  split
  · next he => simp [he]
  · next he => simp [he, countResiduals_eq_ok (h c hc)]

end

end CudaqQec
