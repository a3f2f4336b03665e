import Mathlib.Data.Finset.Card
import Patchbay.Proofs.Outcome
import Patchbay.Proofs.Planning.Order

/-!
# Walking through a graph

What is proved about plans is proved along the walk that makes them. A `Client` says what it keeps:
an invariant of the draft and of the frames on the stack, and what a node must satisfy to be visited.
It answers for the few places where planning changes more than the state of a node, and
`fullDraft_spec` carries its invariant through the whole walk, which always ends with every node
placed.
-/

namespace Patchbay

variable {U : Type} [Device U]

/-! ## Lists of steps -/

section Lists

variable {α : Type} {l m pre post : List α} {a : α}

/-- A member of a list that another list does not have lies in front of that one. -/
theorem eq_append_of_append_eq (h : l ++ m = pre ++ a :: post) (ha : a ∉ m) :
    ∃ post', l = pre ++ a :: post' := by
  rcases List.append_eq_append_iff.1 h with ⟨as, -, hm⟩ | ⟨bs, hl, hbs⟩
  · exact absurd (by simp [hm]) ha
  · cases bs with
    | nil =>
      rw [List.nil_append] at hbs
      exact absurd (by simp [← hbs]) ha
    | cons b bs =>
      rw [List.cons_append, List.cons.injEq] at hbs
      exact ⟨bs, hbs.1 ▸ hl⟩

/-- A member of a list with one more at its end is that one, or lies in front of it. -/
theorem eq_or_eq_append_of_append_singleton {b : α} (h : l ++ [b] = pre ++ a :: post) :
    pre = l ∧ a = b ∨ ∃ post', l = pre ++ a :: post' := by
  rcases List.eq_nil_or_concat post with rfl | ⟨post', c, rfl⟩
  · obtain ⟨hl, ha⟩ := List.append_inj' h rfl
    exact .inl ⟨hl.symm, by simpa using ha.symm⟩
  · have h' : l ++ [b] = (pre ++ a :: post') ++ [c] := by simpa using h
    exact .inr ⟨post', (List.append_inj' h' rfl).1⟩

end Lists

/-- That a draft has got steps that are sums. -/
def Draft.AddsSums (d d' : Draft) : Prop :=
  ∃ sums, d'.steps.toList = d.steps.toList ++ sums ∧ ∀ x, .unit x ∉ sums

namespace Draft.AddsSums

variable {d d' d'' : Draft}

theorem of_steps (h : d'.steps = d.steps) : d.AddsSums d' := ⟨[], by simp [h], by simp⟩

theorem trans (h : d.AddsSums d') (h' : d'.AddsSums d'') : d.AddsSums d'' := by
  obtain ⟨l, hl, hnot⟩ := h
  obtain ⟨l', hl', hnot'⟩ := h'
  refine ⟨l ++ l', by rw [hl', hl, List.append_assoc], fun x hx => ?_⟩
  rcases List.mem_append.1 hx with hx | hx
  · exact hnot x hx
  · exact hnot' x hx

end Draft.AddsSums

namespace Graph

/-! ## What each part of planning leaves alone -/

section Keeps

variable {g : Graph U}

omit [Device U] in
theorem releaseAll_keeps {d d' : Draft} {buffers : List BufferId}
    (h : d.releaseAll buffers = .ok d') :
    d'.visits = d.visits ∧ d'.bindings = d.bindings ∧ d'.steps = d.steps := by
  obtain ⟨pool, -, h⟩ := bind_eq_ok.1 h
  cases h
  exact ⟨rfl, rfl, rfl⟩

omit [Device U] in
theorem addToSum_keeps {s s' : BufferId × Draft} {b : BufferId} (h : addToSum s b = .ok s') :
    s'.2.visits = s.2.visits ∧ s'.2.bindings = s.2.bindings ∧ s.2.AddsSums s'.2 := by
  obtain ⟨d, hd, h⟩ := bind_eq_ok.1 h
  cases h
  obtain ⟨hv, hb, hs⟩ := releaseAll_keeps hd
  exact ⟨hv, hb, [_], by rw [hs, Array.toList_push], by simp⟩

omit [Device U] in
/-- Binding an inlet changes neither the state of a node nor a binding. -/
theorem mixInlet_keeps {x : UnitId} {n : Node U} {d : Draft} {inlet : Nat} {r : BufferId × Draft}
    (h : g.mixInlet x n d inlet = .ok r) :
    r.2.visits = d.visits ∧ r.2.bindings = d.bindings ∧ d.AddsSums r.2 := by
  obtain ⟨⟨feed, d₁⟩, hfeed, h⟩ := bind_eq_ok.1 h
  have hd₁ : d₁.visits = d.visits ∧ d₁.bindings = d.bindings ∧ d.AddsSums d₁ := by
    unfold boundaryFeed at hfeed
    split at hfeed
    · split at hfeed
      · cases hfeed
        exact ⟨rfl, rfl, .of_steps rfl⟩
      · split at hfeed
        · cases hfeed
          exact ⟨rfl, rfl, .of_steps rfl⟩
        · obtain ⟨pool, -, hfeed⟩ := bind_eq_ok.1 hfeed
          cases hfeed
          exact ⟨rfl, rfl, .of_steps rfl⟩
    · cases hfeed
      exact ⟨rfl, rfl, .of_steps rfl⟩
  dsimp only at h
  split at h
  · cases h
    exact hd₁
  · next first rest _ =>
    have hfold : ∀ (l : List BufferId) (s : BufferId × Draft),
        l.foldlM addToSum s = .ok r →
          r.2.visits = s.2.visits ∧ r.2.bindings = s.2.bindings ∧ s.2.AddsSums r.2 := by
      intro l
      induction l with
      | nil =>
        intro s hs
        cases hs
        exact ⟨rfl, rfl, .of_steps rfl⟩
      | cons b l ih =>
        intro s hs
        obtain ⟨s', hs', hs⟩ := bind_eq_ok.1 hs
        obtain ⟨hv, hb, hsum⟩ := addToSum_keeps hs'
        obtain ⟨hv', hb', hsum'⟩ := ih s' hs
        exact ⟨hv'.trans hv, hb'.trans hb, hsum.trans hsum'⟩
    obtain ⟨hv, hb, hsum⟩ := hfold rest _ h
    exact ⟨hv.trans hd₁.1, hb.trans hd₁.2.1, hd₁.2.2.trans hsum⟩

/-- Binding the outlets of a unit changes the state of no node, and no other binding. -/
theorem placeUnit_keeps {x : UnitId} {n : Node U} {u : U} {inlets : Array BufferId} {d d' : Draft}
    (h : g.placeUnit x n u inlets d = .ok d') :
    d'.visits = d.visits ∧ d'.bindings.size = d.bindings.size ∧
    (∀ y, y ≠ x → d'.binding y = d.binding y) ∧
    d'.steps = if n.body.computes then d.steps.push (.unit x) else d.steps := by
  obtain ⟨b, -, h⟩ := bind_eq_ok.1 h
  obtain ⟨d₁, hd₁, h⟩ := bind_eq_ok.1 h
  obtain ⟨hv, hb, hs⟩ := releaseAll_keeps hd₁
  have hother : ∀ (bd : Binding) (y : UnitId), y ≠ x → (d₁.bind x bd).binding y = d₁.binding y := by
    intro bd y hy
    have : x.index ≠ y.index := fun he => hy (by cases x; cases y; simp_all)
    simp [Draft.binding, Draft.bind, this]
  have hd₁' : ∀ y, d₁.binding y = d.binding y := fun y => by simp [Draft.binding, hb]
  dsimp only at h
  split at h
  · next hc =>
    cases h
    refine ⟨hv, by simp [Draft.bind, hb], fun y hy => (hother _ y hy).trans (hd₁' y), ?_⟩
    rw [if_pos hc, ← hs]
    rfl
  · next hc =>
    cases h
    refine ⟨hv, by simp [Draft.bind, hb], fun y hy => (hother _ y hy).trans (hd₁' y), ?_⟩
    rw [if_neg hc, ← hs]
    rfl

omit [Device U] in
/-- Closing a subgraph changes the state of no node, and no other binding. -/
theorem closeContents_keeps {x : UnitId} {inlets : Array BufferId} {d d' : Draft}
    (h : g.closeContents x inlets d = .ok d') :
    d'.visits = d.visits ∧ d'.bindings.size = d.bindings.size ∧
    (∀ y, y ≠ x → d'.binding y = d.binding y) ∧ d'.steps = d.steps := by
  obtain ⟨hv, hb, hs⟩ := releaseAll_keeps h
  refine ⟨hv, by simp [hb, Draft.bind], fun y hy => ?_, hs⟩
  have : x.index ≠ y.index := fun he => hy (by cases x; cases y; simp_all)
  simp [Draft.binding, hb, Draft.bind, this]

end Keeps

/-! ## Clients -/

/-- What a proof keeps along a walk through a graph. -/
structure Client (g : Graph U) where
  /-- The faults that the proof allows for. -/
  Faulty : Fault → Prop
  /-- What holds in the middle of the nodes on the stack. -/
  Inv : List Frame → Draft → Prop
  /-- What holds of a node that is to be visited, besides that it does not wait. -/
  Ready : Draft → UnitId → Prop
  ready_advances : ∀ {d d' : Draft} {x : UnitId}, d.Advances d' → Ready d x → Ready d' x
  ready_top : ∀ {d : Draft} {x : UnitId}, g.Orderly [] d → Ready d x
  ready_owner : ∀ {d : Draft} {x o : UnitId}, g.owner? x = some o → d.visit o = .unvisited →
    Ready d x → Ready d o
  ready_source : ∀ {fs : List Frame} {d : Draft} {x s : UnitId}, g.Entering fs d x → Ready d x →
    g.Streams s x → Ready (d.mark x .binding) s
  ready_parent : ∀ {fs : List Frame} {d : Draft} {x p : UnitId}, g.Entering fs d x → Ready d x →
    p ∈ g.orderingParents x → Ready (d.mark x .binding) p
  ready_child : ∀ {fs : List Frame} {d : Draft} {x c : UnitId}, g.Entering fs d x → Ready d x →
    g.owner? c = some x → Ready (d.mark x .filling) c
  ready_later : ∀ {fs : List Frame} {d : Draft} {x p : UnitId}, g.Entering fs d x → Ready d x →
    p ∈ g.orderingParents x → Ready (d.mark x .placed) p
  /-- A node is entered. -/
  enter : ∀ {fs : List Frame} {d : Draft} {x : UnitId}, g.Entering fs d x → Inv fs d →
    Inv (⟨x, #[]⟩ :: fs) (d.mark x .binding)
  /-- An inlet is bound. -/
  mix : ∀ {fs : List Frame} {d : Draft} {x : UnitId} {n : Node U} {inlets : Array BufferId},
    g.Orderly (⟨x, inlets⟩ :: fs) d → Inv (⟨x, inlets⟩ :: fs) d → g.node? x = some n →
    d.visit x = .binding → inlets.size < (g.ports x).streamInlets →
    (∀ c ∈ g.streamSources x inlets.size, d.visit c.source = .placed) →
    Outcome Faulty (fun r => Inv (⟨x, inlets.push r.1⟩ :: fs) r.2) (g.mixInlet x n d inlets.size)
  /-- A unit is placed. Those that should come before it have been, or waited when the unit was
  entered. -/
  unit : ∀ {fs : List Frame} {d₀ d : Draft} {x : UnitId} {n : Node U} {u : U}
    {inlets : Array BufferId}, g.Entering fs d₀ x → Ready d₀ x →
    (d₀.mark x .binding).Advances d →
    (∀ p ∈ g.orderingParents x, d.visit p = .placed ∨ g.Waits (d₀.mark x .binding) p) →
    g.Orderly (⟨x, inlets⟩ :: fs) d → Inv (⟨x, inlets⟩ :: fs) d → g.node? x = some n →
    n.body = .device u → d.visit x = .binding → inlets.size = (g.ports x).streamInlets →
    Outcome Faulty (fun d' => Inv fs (d'.mark x .placed)) (g.placeUnit x n u inlets d)
  /-- A subgraph is opened. -/
  fill : ∀ {fs : List Frame} {d : Draft} {x : UnitId} {inlets : Array BufferId},
    g.Orderly (⟨x, inlets⟩ :: fs) d → Inv (⟨x, inlets⟩ :: fs) d → d.visit x = .binding →
    g.isSubgraph x = true → inlets.size = (g.ports x).streamInlets →
    Inv (⟨x, inlets⟩ :: fs) (openContents x inlets d)
  /-- A subgraph is placed, with all that it holds. -/
  close : ∀ {fs : List Frame} {d : Draft} {x : UnitId} {inlets : Array BufferId},
    g.Orderly (⟨x, inlets⟩ :: fs) d → Inv (⟨x, inlets⟩ :: fs) d → d.visit x = .filling →
    (∀ c, g.owner? c = some x → d.visit c = .placed) →
    Outcome Faulty (fun d' => Inv fs (d'.mark x .placed)) (g.closeContents x inlets d)

/-- The number of nodes that planning has not come to. -/
def left (g : Graph U) (d : Draft) : Nat :=
  ((Finset.range g.nodes.size).filter fun i => d.visit ⟨i⟩ = .unvisited).card

omit [Device U] in
theorem left_le {g : Graph U} {d d' : Draft} (h : d.Advances d') : g.left d' ≤ g.left d := by
  refine Finset.card_le_card fun i hi => ?_
  rw [Finset.mem_filter] at hi ⊢
  exact ⟨hi.1, h.unvisited hi.2⟩

omit [Device U] in
theorem left_mark_lt {g : Graph U} {d : Draft} {x : UnitId} (hx : g.contains x = true)
    (hlt : x.index < d.visits.size) (hu : d.visit x = .unvisited) {v : Visit}
    (hv : v ≠ .unvisited) : g.left (d.mark x v) < g.left d := by
  refine Finset.card_lt_card (Finset.ssubset_iff_of_subset (fun i hi => ?_) |>.2 ⟨x.index, ?_, ?_⟩)
  · rw [Finset.mem_filter, Draft.visit_mark hlt] at hi
    rw [Finset.mem_filter]
    refine ⟨hi.1, ?_⟩
    split at hi
    · exact absurd hi.2 hv
    · exact hi.2
  · rw [Finset.mem_filter, Finset.mem_range]
    exact ⟨lt_size_of_contains hx, hu⟩
  · rw [Finset.mem_filter, Draft.visit_mark hlt]
    simp [hv]

namespace Client

variable {g : Graph U} (C : Client g)

/-- What a visit of `y` makes of a draft. -/
structure Visited (fs : List Frame) (d : Draft) (y : UnitId) (d' : Draft) : Prop where
  orderly : g.Orderly fs d'
  inv : C.Inv fs d'
  advances : d.Advances d'
  placed : g.contains y = true → ¬ d.Busy y → d'.visit y = .placed

/-- That `visit` may be called as long as no more than `k` nodes are left. -/
def Visits (k : Nat) (visit : UnitId → Draft → Except Fault Draft) : Prop :=
  ∀ {fs : List Frame} {d : Draft} {y : UnitId}, g.left d ≤ k → g.Orderly fs d → C.Inv fs d →
    (d.visit y = .unvisited → g.contains y = true → ¬ g.Waits d y ∧ C.Ready d y) →
    Outcome C.Faulty (C.Visited fs d y) (visit y d)

variable {C} {k : Nat} {visit : UnitId → Draft → Except Fault Draft}

/-- What is visited unless it waits is placed unless it waits. -/
theorem placeUnlessWaiting_spec (hg : g.Sound) (hvisit : C.Visits k visit) {fs : List Frame}
    {d : Draft} {y : UnitId} (hk : g.left d ≤ k) (ho : g.Orderly fs d) (hi : C.Inv fs d)
    (hy : g.contains y = true) (hr : C.Ready d y) :
    Outcome C.Faulty (fun d' => g.Orderly fs d' ∧ C.Inv fs d' ∧ d.Advances d' ∧
      (d'.visit y = .placed ∨ g.Waits d y)) (g.placeUnlessWaiting visit d y) := by
  obtain ⟨b, hb, hw⟩ := waits_eq (d := d) hg.wired hg.nested hy
  unfold placeUnlessWaiting
  rw [hb]
  cases b with
  | true => exact ⟨ho, hi, .refl d, .inr (hw.1 rfl)⟩
  | false =>
    have hidle : ¬ g.Waits d y := fun h => by simpa using hw.2 h
    refine (hvisit hk ho hi fun _ _ => ⟨hidle, hr⟩).mono fun d' h => ⟨h.orderly, h.inv, h.advances,
      .inl (h.placed hy fun hbusy => hidle (.busy hy hbusy))⟩

/-- Placing the ordering parents of a node that was just entered. -/
theorem placeParents_spec (hg : g.Sound) (hvisit : C.Visits k visit) {fs : List Frame}
    {d₀ : Draft} {x : UnitId} (he : g.Entering fs d₀ x) (hr : C.Ready d₀ x)
    (hk : g.left (d₀.mark x .binding) ≤ k) (ho : g.Orderly (⟨x, #[]⟩ :: fs) (d₀.mark x .binding))
    (hi : C.Inv (⟨x, #[]⟩ :: fs) (d₀.mark x .binding)) :
    Outcome C.Faulty
      (fun r => g.Orderly (⟨x, #[]⟩ :: fs) r.2 ∧ C.Inv (⟨x, #[]⟩ :: fs) r.2 ∧
        (d₀.mark x .binding).Advances r.2 ∧
        (∀ p ∈ g.orderingParents x, r.2.visit p = .placed ∨ g.Waits (d₀.mark x .binding) p) ∧
        ∀ p ∈ r.1, p ∈ g.orderingParents x)
      (g.placeParents visit x (d₀.mark x .binding)) := by
  refine Outcome.foldlM (fun (done : List UnitId) (r : List UnitId × Draft) =>
    g.Orderly (⟨x, #[]⟩ :: fs) r.2 ∧ C.Inv (⟨x, #[]⟩ :: fs) r.2 ∧ (d₀.mark x .binding).Advances r.2 ∧
    (∀ p ∈ done, r.2.visit p = .placed ∨ g.Waits (d₀.mark x .binding) p) ∧
    ∀ p ∈ r.1, p ∈ g.orderingParents x) ⟨ho, hi, .refl _, by simp, by simp⟩ ?_
  rintro done p rest ⟨deferred, d⟩ hl ⟨ho, hi, hadv, hdone, hdef⟩
  have hp : p ∈ g.orderingParents x := by simp [hl]
  have hc := contains_of_mem_orderingParents hg hp
  obtain ⟨b, hb, hw⟩ := waits_eq (d := d) hg.wired hg.nested hc
  dsimp only at hadv hdone hdef ⊢
  rw [hb]
  cases b with
  | true =>
    refine ⟨ho, hi, hadv, fun q hq => ?_, fun q hq => ?_⟩
    · rcases List.mem_append.1 hq with hq | hq
      · exact hdone q hq
      · rw [List.mem_singleton.1 hq]
        exact .inr ((hw.1 rfl).of_advances hadv)
    · rcases List.mem_append.1 hq with hq | hq
      · exact hdef q hq
      · rw [List.mem_singleton.1 hq]
        exact hp
  | false =>
    have hidle : ¬ g.Waits d p := fun h => by simpa using hw.2 h
    have hready := C.ready_advances hadv (C.ready_parent he hr hp)
    refine (hvisit ((left_le hadv).trans hk) ho hi fun _ _ => ⟨hidle, hready⟩).bind fun d' h => ?_
    refine ⟨h.orderly, h.inv, hadv.trans h.advances, fun q hq => ?_, hdef⟩
    rcases List.mem_append.1 hq with hq | hq
    · exact (hdone q hq).imp_left h.advances.placed
    · rw [List.mem_singleton.1 hq]
      exact .inl (h.placed hc fun hbusy => hidle (.busy hc hbusy))

/-- Placing what an inlet reads. -/
theorem placeSources_spec (hg : g.Sound) (hvisit : C.Visits k visit) {fs fs' : List Frame}
    {d₀ d : Draft} {x : UnitId} (he : g.Entering fs d₀ x) (hr : C.Ready d₀ x)
    (hk : g.left (d₀.mark x .binding) ≤ k) (hadv : (d₀.mark x .binding).Advances d)
    (ho : g.Orderly fs' d) (hi : C.Inv fs' d) (inlet : Nat) :
    Outcome C.Faulty
      (fun d' => g.Orderly fs' d' ∧ C.Inv fs' d' ∧ d.Advances d' ∧
        ∀ c ∈ g.streamSources x inlet, d'.visit c.source = .placed)
      ((g.streamSources x inlet).foldlM (fun d c => visit c.source d) d) := by
  refine Outcome.foldlM (fun (done : List Connection) (d' : Draft) => g.Orderly fs' d' ∧
    C.Inv fs' d' ∧ d.Advances d' ∧ ∀ c ∈ done, d'.visit c.source = .placed) ⟨ho, hi, .refl _, by simp⟩ ?_
  rintro done c rest d' hl ⟨ho, hi, hadv', hdone⟩
  have hc : c ∈ g.streamSources x inlet := by simp [hl]
  obtain ⟨hc, hkind, hdest, -⟩ := mem_streamSources.1 hc
  have hs : g.Streams c.source x := ⟨c, hc, hkind, rfl, hdest⟩
  have hadv₂ := hadv.trans hadv'
  have hidle : ¬ g.Waits d' c.source := fun h =>
    not_waits_source hg.wired hg.nested he.contains he.unvisited he.owner he.idle hs
      (h.of_advances hadv₂)
  have hready := C.ready_advances hadv₂ (C.ready_source he hr hs)
  refine (hvisit ((left_le hadv₂).trans hk) ho hi fun _ _ => ⟨hidle, hready⟩).mono fun d'' h =>
    ⟨h.orderly, h.inv, hadv'.trans h.advances, fun e hmem => ?_⟩
  rcases List.mem_append.1 hmem with hmem | hmem
  · exact h.advances.placed (hdone e hmem)
  · rw [List.mem_singleton.1 hmem]
    exact h.placed (hg.wired.source c hc) fun hbusy =>
      hidle (.busy (hg.wired.source c hc) hbusy)

/-- Binding the inlets of a node. -/
theorem bindInlets_spec (hg : g.Sound) (hvisit : C.Visits k visit) {fs : List Frame}
    {d₀ d : Draft} {x : UnitId} {n : Node U} (hn : g.node? x = some n) (he : g.Entering fs d₀ x)
    (hr : C.Ready d₀ x) (hk : g.left (d₀.mark x .binding) ≤ k)
    (hadv : (d₀.mark x .binding).Advances d) (ho : g.Orderly (⟨x, #[]⟩ :: fs) d)
    (hi : C.Inv (⟨x, #[]⟩ :: fs) d) :
    Outcome C.Faulty
      (fun r => g.Orderly (⟨x, r.1⟩ :: fs) r.2 ∧ C.Inv (⟨x, r.1⟩ :: fs) r.2 ∧ d.Advances r.2 ∧
        r.1.size = (g.ports x).streamInlets)
      (g.bindInlets visit x n d) := by
  have hports : g.ports x = n.ports := by simp [ports, hn]
  have hlt := he.orderly.lt_visits he.contains
  suffices Outcome C.Faulty
      (fun r => g.Orderly (⟨x, r.1⟩ :: fs) r.2 ∧ C.Inv (⟨x, r.1⟩ :: fs) r.2 ∧ d.Advances r.2 ∧
        r.1.size = (List.range n.ports.streamInlets).length) (g.bindInlets visit x n d) from
    this.mono fun r h => by simpa [hports] using h
  refine Outcome.foldlM (fun (done : List Nat) (r : Array BufferId × Draft) =>
    g.Orderly (⟨x, r.1⟩ :: fs) r.2 ∧ C.Inv (⟨x, r.1⟩ :: fs) r.2 ∧ d.Advances r.2 ∧ r.1.size = done.length)
    ⟨ho, hi, .refl _, rfl⟩ ?_
  rintro done inlet rest ⟨inlets, d'⟩ hl ⟨ho, hi, hadv', hsize⟩
  dsimp only at hadv' hsize ⊢
  -- the inlets are bound in order, so the next one is the number of those that are bound
  have hinlet : inlet = inlets.size ∧ inlets.size < n.ports.streamInlets := by
    have hget := congrArg (·[done.length]?) hl
    have hlen := congrArg List.length hl
    simp at hget hlen
    rw [List.getElem?_range (by omega)] at hget
    simp at hget
    omega
  obtain ⟨rfl, hlt'⟩ := hinlet
  unfold bindInlet
  have hb : ∀ {d : Draft}, (d₀.mark x .binding).Advances d → d.visit x = .binding := fun h => by
    rw [h.visit_eq (by simp [Draft.visit_mark_self hlt]), Draft.visit_mark_self hlt]
  rw [bind_assoc]
  refine (placeSources_spec hg hvisit he hr hk (hadv.trans hadv') ho hi inlets.size).bind ?_
  rintro d₁ ⟨ho₁, hi₁, hadv₁, hplaced⟩
  have hb₁ := hb (hadv.trans (hadv'.trans hadv₁))
  refine (C.mix ho₁ hi₁ hn hb₁ (hports ▸ hlt') hplaced).attach.bind ?_
  rintro ⟨b, d₂⟩ ⟨hi₂, heq⟩
  obtain ⟨hv, hbind, -⟩ := mixInlet_keeps heq
  dsimp only at hv hbind
  have ho₂ := (ho₁.push hb₁ (hports ▸ hlt') hplaced b).congr hv (congrArg Array.size hbind)
    (fun f _ _ => by simp [Draft.binding, hbind])
  exact ⟨ho₂, hi₂, hadv'.trans (hadv₁.trans (.of_visits hv)), by simp [hsize]⟩

/-- Placing what a subgraph holds. -/
theorem placeContents_spec (hg : g.Sound) (hvisit : C.Visits k visit) {fs : List Frame}
    {d₀ d : Draft} {x : UnitId} {inlets : Array BufferId} (he : g.Entering fs d₀ x)
    (hr : C.Ready d₀ x) (hk : g.left (d₀.mark x .binding) ≤ k)
    (hadv : (d₀.mark x .binding).Advances d) (ho : g.Orderly (⟨x, inlets⟩ :: fs) d)
    (hi : C.Inv (⟨x, inlets⟩ :: fs) d) (hsub : g.isSubgraph x = true)
    (hsize : inlets.size = (g.ports x).streamInlets) :
    Outcome C.Faulty
      (fun d' => g.Orderly fs (d'.mark x .placed) ∧ C.Inv fs (d'.mark x .placed) ∧
        d₀.Advances (d'.mark x .placed))
      (g.placeContents visit x inlets d) := by
  have hlt := he.orderly.lt_visits he.contains
  have hb : d.visit x = .binding := by
    rw [hadv.visit_eq (by simp [Draft.visit_mark_self hlt]), Draft.visit_mark_self hlt]
  have ho₁ := ho.fill hb hg.wired hsub hsize
  have hi₁ := C.fill ho hi hb hsub hsize
  have hadv₁ : (d₀.mark x .filling).Advances (openContents x inlets d) := by
    intro y
    rw [Draft.visit_mark hlt, openContents, Draft.visit_mark (by exact ho.lt_visits he.contains)]
    split
    · exact .inl rfl
    · next hy =>
      have := hadv y
      rw [Draft.visit_mark_of_ne hy] at this
      exact this
  have hk₁ : g.left (openContents x inlets d) ≤ k := by
    refine le_trans ((left_le hadv₁).trans (le_of_eq ?_)) hk
    simp only [left, Draft.visit_mark hlt]
    congr 1
    ext i
    by_cases hx : (⟨i⟩ : UnitId) = x <;> simp [hx]
  have hready : ∀ {d' : Draft} {c : UnitId}, (d₀.mark x .filling).Advances d' →
      g.owner? c = some x → C.Ready d' c := fun h hc =>
    C.ready_advances h (C.ready_child he hr hc)
  have hfill : ∀ {d' : Draft}, (d₀.mark x .filling).Advances d' → d'.visit x = .filling :=
    fun h => by
      rw [h.visit_eq (by simp [Draft.visit_mark_self hlt]), Draft.visit_mark_self hlt]
  -- nothing inside had been reached when the subgraph was entered
  have hidle : ∀ {d' : Draft} {c : UnitId}, (d₀.mark x .filling).Advances d' →
      g.owner? c = some x → ¬ g.Waits d' c := by
    intro d' c h hc
    refine not_waits_inside hg.wired hg.nested (hfill h) (fun y hyx hy hbusy => ?_) hc
    have hu : d₀.visit y = .unvisited := by
      clear hyx hbusy
      induction hy using Relation.ReflTransGen.head_induction_on with
      | refl => exact he.unvisited
      | head hyo _ ih =>
        by_contra hne
        exact he.orderly.reached hyo hne ih
    have := h.visit_of_busy hbusy
    rw [Draft.visit_mark_of_ne hyx, hu] at this
    rcases hbusy with hb | hb <;> rw [← this] at hb <;> cases hb
  have hchild : ∀ c ∈ g.children x, g.contains c = true ∧ g.owner? c = some x := fun c hc =>
    ⟨contains_of_owner? (hg.nested.mem_children.1 hc), hg.nested.mem_children.1 hc⟩
  unfold placeContents
  -- the roots are visited, whether they wait or not: they never do
  refine (Outcome.foldlM (fun (_ : List UnitId) (d' : Draft) => g.Orderly (⟨x, inlets⟩ :: fs) d' ∧
    C.Inv (⟨x, inlets⟩ :: fs) d' ∧ (openContents x inlets d).Advances d')
    ⟨ho₁, hi₁, .refl _⟩ ?_).bind ?_
  · rintro done c rest d' hl ⟨ho', hi', hadv'⟩
    have hc := (hchild c (List.mem_filter.1 (by rw [hl]; simp :
      c ∈ (g.children x).filter g.isRoot)).1).2
    have hadv₂ := hadv₁.trans hadv'
    refine (hvisit ((left_le hadv').trans hk₁) ho' hi' fun _ _ =>
      ⟨hidle hadv₂ hc, hready hadv₂ hc⟩).mono fun d'' h =>
        ⟨h.orderly, h.inv, hadv'.trans h.advances⟩
  rintro d₂ ⟨ho₂, hi₂, hadv₂⟩
  refine (Outcome.foldlM (fun (done : List UnitId) (d' : Draft) => g.Orderly (⟨x, inlets⟩ :: fs) d' ∧
    C.Inv (⟨x, inlets⟩ :: fs) d' ∧ (openContents x inlets d).Advances d' ∧
    ∀ c ∈ done, d'.visit c = .placed) ⟨ho₂, hi₂, hadv₂, by simp⟩ ?_).bind ?_
  · rintro done c rest d' hl ⟨ho', hi', hadv', hdone⟩
    obtain ⟨hcc, hc⟩ := hchild c (by simp [hl])
    have hadv₃ := hadv₁.trans hadv'
    refine (placeUnlessWaiting_spec hg hvisit ((left_le hadv').trans hk₁) ho' hi' hcc
      (hready hadv₃ hc)).mono ?_
    rintro d'' ⟨ho'', hi'', hadv'', hplaced⟩
    refine ⟨ho'', hi'', hadv'.trans hadv'', fun e hmem => ?_⟩
    rcases List.mem_append.1 hmem with hmem | hmem
    · exact hadv''.placed (hdone e hmem)
    · rw [List.mem_singleton.1 hmem]
      exact hplaced.resolve_right (hidle hadv₃ hc)
  rintro d₃ ⟨ho₃, hi₃, hadv₃, hplaced⟩
  have hinside : ∀ c, g.owner? c = some x → d₃.visit c = .placed := fun c hc =>
    hplaced c (hg.nested.mem_children.2 hc)
  refine (C.close ho₃ hi₃ (hfill (hadv₁.trans hadv₃)) hinside).attach.mono ?_
  rintro d₄ ⟨hi₄, heq⟩
  obtain ⟨hv, hbs, hbinding, -⟩ := closeContents_keeps heq
  have hvisit₄ : ∀ y, d₄.visit y = d₃.visit y := fun y => by simp [Draft.visit, hv]
  have ho₄ := ho₃.leave hg.wired hsize hinside
  refine ⟨ho₄.congr (by simp [Draft.mark, hv]) (by simp [Draft.mark, hbs]) ?_, hi₄, ?_⟩
  · intro f hf _
    have hne : f.node ≠ x := by
      intro hfx
      have := ho₃.nodup
      rw [List.map_cons, List.nodup_cons] at this
      exact this.1 (List.mem_map.2 ⟨f, hf, hfx⟩)
    exact congrArg Binding.inlets (hbinding _ hne)
  · refine .mark (fun y hy => ?_) he.unvisited ?_
    · rw [hvisit₄]
      have := hadv₁.trans hadv₃ y
      rwa [Draft.visit_mark_of_ne hy] at this
    · rw [hv]
      exact ho₃.lt_visits he.contains

/-- Placing a node that may be entered. -/
theorem placeNode_spec (hg : g.Sound) (hvisit : C.Visits k visit) {fs : List Frame}
    {d : Draft} {x : UnitId} {n : Node U} (hn : g.node? x = some n) (he : g.Entering fs d x)
    (hr : C.Ready d x) (hi : C.Inv fs d) (hk : g.left (d.mark x .binding) ≤ k) :
    Outcome C.Faulty (C.Visited fs d x) (g.placeNode visit x n d) := by
  have hlt := he.orderly.lt_visits he.contains
  unfold placeNode
  refine (placeParents_spec hg hvisit he hr hk (he.enter hg.nested) (C.enter he hi)).bind ?_
  rintro ⟨deferred, d₁⟩ ⟨ho₁, hi₁, hadv₁, hparents, hdeferred⟩
  refine (bindInlets_spec hg hvisit hn he hr hk hadv₁ ho₁ hi₁).bind ?_
  rintro ⟨inlets, d₂⟩ ⟨ho₂, hi₂, hadv₂, hsize⟩
  dsimp only at hadv₁ hparents hdeferred ho₂ hi₂ hadv₂ hsize ⊢
  have hadv := hadv₁.trans hadv₂
  have hb : d₂.visit x = .binding := by
    rw [hadv.visit_eq (by simp [Draft.visit_mark_self hlt]), Draft.visit_mark_self hlt]
  -- the node itself is placed; what is left are the nodes that were put off
  suffices hplace : ∀ d₃ : Draft, g.Orderly fs (d₃.mark x .placed) →
      C.Inv fs (d₃.mark x .placed) → d.Advances (d₃.mark x .placed) →
      Outcome C.Faulty (C.Visited fs d x)
        (deferred.foldlM (g.placeUnlessWaiting visit) (d₃.mark x .placed)) by
    cases hbody : n.body with
    | subgraph =>
      have hsub : g.isSubgraph x = true := by simp [isSubgraph, hn, Node.isSubgraph, hbody]
      exact (placeContents_spec hg hvisit he hr hk hadv ho₂ hi₂ hsub hsize).bind
        fun d₃ h => hplace d₃ h.1 h.2.1 h.2.2
    | device u =>
      have hsub : g.isSubgraph x = false := by simp [isSubgraph, hn, Node.isSubgraph, hbody]
      refine (C.unit he hr hadv (fun p hp => (hparents p hp).imp_left hadv₂.placed) ho₂ hi₂ hn
        hbody hb hsize).attach.bind ?_
      rintro d₃ ⟨hi₃, heq⟩
      obtain ⟨hv, hbs, hbinding, -⟩ := placeUnit_keeps heq
      have hvisit₃ : ∀ y, d₃.visit y = d₂.visit y := fun y => by simp [Draft.visit, hv]
      have ho₃ := ho₂.leave hg.wired hsize fun c hc => by
        rw [hg.nested.holder hc] at hsub
        cases hsub
      refine hplace d₃ (ho₃.congr (by simp [Draft.mark, hv]) (by simp [Draft.mark, hbs]) ?_) hi₃ ?_
      · intro f hf _
        have hne : f.node ≠ x := by
          intro hfx
          have := ho₂.nodup
          rw [List.map_cons, List.nodup_cons] at this
          exact this.1 (List.mem_map.2 ⟨f, hf, hfx⟩)
        exact congrArg Binding.inlets (hbinding _ hne)
      · refine .mark (fun y hy => ?_) he.unvisited ?_
        · rw [hvisit₃]
          have := hadv y
          rwa [Draft.visit_mark_of_ne hy] at this
        · rw [hv]
          exact ho₂.lt_visits he.contains
  intro d₃ ho₃ hi₃ hadv₃
  have hlt₃ : x.index < d₃.visits.size := by
    simpa [Draft.mark] using ho₃.lt_visits he.contains
  have hstart : (d.mark x .placed).Advances (d₃.mark x .placed) := by
    intro y
    rw [Draft.visit_mark hlt, Draft.visit_mark hlt₃]
    split
    · exact .inl rfl
    · next hy =>
      have := hadv₃ y
      rwa [Draft.visit_mark_of_ne hy] at this
  have hk₃ : g.left (d₃.mark x .placed) ≤ k := by
    refine le_trans ((left_le hstart).trans (le_of_eq ?_)) hk
    simp only [left, Draft.visit_mark hlt]
    congr 1
    ext i
    by_cases hx : (⟨i⟩ : UnitId) = x <;> simp [hx]
  refine (Outcome.foldlM (fun (_ : List UnitId) (d' : Draft) => g.Orderly fs d' ∧ C.Inv fs d' ∧
    (d₃.mark x .placed).Advances d') ⟨ho₃, hi₃, .refl _⟩ ?_).mono ?_
  · rintro done p rest d' hl ⟨ho', hi', hadv'⟩
    have hp := hdeferred p (by simp [hl])
    have hready := C.ready_advances (hstart.trans hadv') (C.ready_later he hr hp)
    refine (placeUnlessWaiting_spec hg hvisit ((left_le hadv').trans hk₃) ho' hi'
      (contains_of_mem_orderingParents hg hp) hready).mono ?_
    rintro d'' ⟨ho'', hi'', hadv'', -⟩
    exact ⟨ho'', hi'', hadv'.trans hadv''⟩
  · rintro d' ⟨ho', hi', hadv'⟩
    exact ⟨ho', hi', hadv₃.trans hadv', fun _ _ =>
      hadv'.placed (by simp [Draft.visit_mark_self hlt₃])⟩

/-- Visiting a node that has not been reached. -/
theorem visit_succ {depth : Nat} {d : Draft} {x : UnitId} {n : Node U} (hn : g.node? x = some n)
    (hv : d.visit x = .unvisited) :
    g.visit (depth + 1) x d = (do
      let d ← match n.owner with
        | some owner => if g.isUnvisited d owner then g.visit depth owner d else pure d
        | none => pure d
      if d.visit x ≠ .unvisited then return d
      else g.placeNode (g.visit depth) x n d) := by
  rw [Graph.visit.eq_def, hn]
  exact if_neg fun h => h hv

/-- Visiting a node that has been reached does nothing. -/
theorem visit_of_reached {depth : Nat} {d : Draft} {x : UnitId} {n : Node U}
    (hn : g.node? x = some n) (hv : d.visit x ≠ .unvisited) : g.visit depth x d = .ok d := by
  rw [Graph.visit.eq_def, hn]
  simp only [hv, ne_eq, not_false_eq_true, if_true]

theorem visit_of_missing {depth : Nat} {d : Draft} {x : UnitId} (hn : g.node? x = none) :
    g.visit depth x d = .ok d := by
  rw [Graph.visit.eq_def, hn]

/-- A visit ends within a depth that the number of nodes left and the number of the node bound. -/
theorem visit_spec (hg : g.Sound) (depth : Nat) : ∀ {fs : List Frame} {d : Draft} {x : UnitId},
    (g.contains x = true → g.left d * (g.nodes.size + 1) + x.index < depth) →
    g.Orderly fs d → C.Inv fs d →
    (d.visit x = .unvisited → g.contains x = true → ¬ g.Waits d x ∧ C.Ready d x) →
    Outcome C.Faulty (C.Visited fs d x) (g.visit depth x d) := by
  induction depth with
  | zero =>
    intro fs d x hdepth ho hi _
    cases hn : g.node? x with
    | none =>
      have hx : g.contains x ≠ true := by simp [contains, hn]
      rw [visit_of_missing hn]
      exact ⟨ho, hi, .refl d, fun h => absurd h hx⟩
    | some n => exact absurd (hdepth (contains_iff.2 ⟨n, hn⟩)) (Nat.not_lt_zero _)
  | succ depth ih =>
    intro fs d x hdepth ho hi henter
    cases hn : g.node? x with
    | none =>
      have hx : g.contains x ≠ true := by simp [contains, hn]
      rw [visit_of_missing hn]
      exact ⟨ho, hi, .refl d, fun h => absurd h hx⟩
    | some n =>
      have hx := contains_iff.2 ⟨n, hn⟩
      by_cases hv : d.visit x = .unvisited
      · obtain ⟨hidle, hready⟩ := henter hv hx
        -- once the owner has been reached, the node itself is placed
        have hplace : (∀ o, g.owner? x = some o → d.visit o ≠ .unvisited) →
            Outcome C.Faulty (C.Visited fs d x) (g.placeNode (g.visit depth) x n d) := by
          intro howner
          have hlt := left_mark_lt hx (ho.lt_visits hx) hv (v := .binding) (by simp)
          refine placeNode_spec (k := g.left (d.mark x .binding)) hg ?_ hn
            ⟨ho, hx, hv, howner, hidle⟩ hready hi (le_refl _)
          intro fs' d' y hk ho' hi' hy
          refine ih (fun hyc => ?_) ho' hi' hy
          have h₁ := lt_size_of_contains hyc
          have h₂ := hdepth hx
          have h₃ : (g.left d' + 1) * (g.nodes.size + 1) ≤ g.left d * (g.nodes.size + 1) :=
            Nat.mul_le_mul_right _ (by omega)
          rw [Nat.add_mul] at h₃
          omega
        rw [visit_succ hn hv]
        cases ho' : n.owner with
        | none =>
          simp only [pure_bind, hv, ne_eq, not_true, if_false]
          refine hplace fun o h => ?_
          simp [owner?, hn, ho'] at h
        | some o =>
          have howner : g.owner? x = some o := by simp [owner?, hn, ho']
          have hoc := contains_of_isSubgraph (hg.nested.holder howner)
          by_cases hvo : d.visit o = .unvisited
          · have hun : g.isUnvisited d o = true := by simp [isUnvisited, hoc, hvo]
            have hwo : ¬ g.Waits d o := fun h => hidle (.step hx hv (.inr (.inr ⟨howner, hvo⟩)) h)
            simp only [hun, if_true]
            refine (ih (fun _ => ?_) ho hi fun _ _ =>
              ⟨hwo, C.ready_owner howner hvo hready⟩).bind ?_
            · have h₁ := hg.nested.older howner
              have h₂ := hdepth hx
              omega
            · intro d' h
              have hpo := h.placed hoc fun hb => by
                rcases hb with hb | hb <;> rw [hvo] at hb <;> cases hb
              have hpx := h.orderly.closed howner hpo
              have hne : d'.visit x ≠ .unvisited := by simp [hpx]
              simp only [hne, ne_eq, not_false_eq_true, if_true]
              exact ⟨h.orderly, h.inv, h.advances, fun _ _ => hpx⟩
          · have hun : g.isUnvisited d o = false := by simp [isUnvisited, hvo]
            simp only [hun, Bool.false_eq_true, if_false, pure_bind, hv, ne_eq, not_true]
            refine hplace fun o' h => ?_
            rw [howner] at h
            cases h
            exact hvo
      · rw [visit_of_reached hn hv]
        refine ⟨ho, hi, .refl d, fun _ hb => ?_⟩
        cases hvx : d.visit x with
        | unvisited => exact absurd hvx hv
        | binding => exact absurd (.inl hvx) hb
        | filling => exact absurd (.inr hvx) hb
        | placed => rfl

end Client

/-! ## The whole walk -/

variable {g : Graph U}

omit [Device U] in
theorem visit_startDraft {x : UnitId} (hx : g.contains x = true) :
    g.startDraft.visit x = .unvisited := by
  simp [startDraft, Draft.visit, lt_size_of_contains hx]

omit [Device U] in
theorem orderly_startDraft (hg : g.Sound) : g.Orderly [] g.startDraft := by
  have hown : ∀ {x o}, g.owner? x = some o → g.startDraft.visit o = .unvisited := fun hx =>
    visit_startDraft (contains_of_isSubgraph (hg.nested.holder hx))
  constructor
  · simp [startDraft]
  · simp [startDraft]
  · exact fun ho hx => absurd (visit_startDraft (contains_of_owner? ho)) hx
  · intro x o ho h
    rw [hown ho] at h
    cases h
  · exact fun ho _ hx => absurd (visit_startDraft (contains_of_owner? ho)) hx
  · intro c hc _ h
    rw [visit_startDraft (hg.wired.dest c hc)] at h
    simp at h
  · simp
  · intro x hx
    simp [Draft.Busy, visit_startDraft hx]
  · simp
  · simp
  · simp

/-- The walk through a whole graph keeps what its parts keep, and leaves every node placed. -/
theorem fullDraft_spec (hg : g.Sound) (C : Client g) (hi : C.Inv [] g.startDraft) :
    Outcome C.Faulty
      (fun d => g.Orderly [] d ∧ C.Inv [] d ∧ ∀ x, g.contains x = true → d.visit x = .placed)
      g.fullDraft := by
  have hidle : ∀ {d : Draft} {x : UnitId}, g.Orderly [] d → ¬ d.Busy x ∨ g.contains x = false := by
    intro d x ho
    cases hx : g.contains x with
    | false => exact .inr rfl
    | true => exact .inl fun hb => by simpa using (ho.busy hx).1 hb
  have hvisit : ∀ {d : Draft} {x : UnitId}, g.Orderly [] d → C.Inv [] d →
      Outcome C.Faulty (C.Visited [] d x) (g.visit g.visitDepth x d) := by
    intro d x ho hi
    refine C.visit_spec hg _ (fun hx => ?_) ho hi fun _ _ =>
      ⟨ho.not_waits_of_nil hg.nested x, C.ready_top ho⟩
    have h₁ : g.left d ≤ g.nodes.size := by
      simpa [left] using Finset.card_filter_le (Finset.range g.nodes.size) _
    have h₂ := lt_size_of_contains hx
    have h₃ := Nat.mul_le_mul_right (g.nodes.size + 1) h₁
    rw [visitDepth, Nat.add_mul]
    omega
  unfold fullDraft
  refine (Outcome.foldlM (fun (_ : List UnitId) (d : Draft) => g.Orderly [] d ∧ C.Inv [] d)
    ⟨orderly_startDraft hg, hi⟩ ?_).bind ?_
  · rintro done x rest d hl ⟨ho, hi⟩
    exact (hvisit ho hi).mono fun d' h => ⟨h.orderly, h.inv⟩
  · rintro d ⟨ho, hi⟩
    refine (Outcome.foldlM (fun (done : List UnitId) (d : Draft) => g.Orderly [] d ∧ C.Inv [] d ∧
      ∀ x ∈ done, d.visit x = .placed) ⟨ho, hi, by simp⟩ ?_).mono ?_
    · rintro done x rest d hl ⟨ho, hi, hdone⟩
      have hx : g.contains x = true := mem_ids.1 (by simp [hl])
      refine (hvisit ho hi).mono fun d' h => ⟨h.orderly, h.inv, fun y hy => ?_⟩
      rcases List.mem_append.1 hy with hy | hy
      · exact h.advances.placed (hdone y hy)
      · rw [List.mem_singleton.1 hy]
        exact h.placed hx ((hidle ho).resolve_right (by simp [hx]))
    · rintro d' ⟨ho, hi, hplaced⟩
      exact ⟨ho, hi, fun x hx => hplaced x (mem_ids.2 hx)⟩

end Graph
end Patchbay
