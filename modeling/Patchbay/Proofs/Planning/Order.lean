import Patchbay.Proofs.Planning.Waiting

/-!
# The order of a walk

A walk through a graph keeps a stack of **frames**, one for each node that it is in the middle of,
with the inlets that are bound so far. `Orderly` says how far planning may have come with each node,
given that stack. Its two consequences are why a walk never runs into itself: what a node reads does
not wait (`not_waits_source`), and neither does what a subgraph holds (`not_waits_inside`).
-/

namespace Patchbay

open Relation

variable {U : Type}

/-! ## What comes first -/

namespace Graph

/-- The seat of a node in the registry. -/
def seat? (g : Graph U) (x : UnitId) : Option Seat := (g.registration? x).map Registration.seat

/-- Whether two nodes are joined by a name such that the first must be computed before the second:
an emitter and a collector of one link, or an owner and a reader of one delay line. -/
def Named (g : Graph U) (e c : UnitId) : Prop :=
  (∃ family name, g.seat? e = some (.emitter family name) ∧
    g.seat? c = some (.collector family name)) ∨
  ∃ name, g.seat? e = some (.owner .delayLine name) ∧ g.seat? c = some (.accessor .delayLine name)

/-- Whether a connection for messages leads from one node to another. -/
def Sends (g : Graph U) (x y : UnitId) : Prop :=
  ∃ c ∈ g.connections, g.kindOf c = .message ∧ c.source = x ∧ c.dest = y

theorem contains_of_seat? {g : Graph U} {x : UnitId} {s : Seat} (h : g.seat? x = some s) :
    g.contains x = true := by
  obtain ⟨role, hrole, -⟩ := Option.map_eq_some_iff.1 h
  obtain ⟨n, hn, -⟩ := Option.bind_eq_some_iff.1 hrole
  exact contains_iff.2 ⟨n, hn⟩

/-- The nodes that come first without a buffer are those that send messages, and those that a name
puts first. -/
theorem mem_orderingParents {g : Graph U} (hg : g.Sound) {x p : UnitId} :
    p ∈ g.orderingParents x ↔ g.Sends p x ∨ g.Named p x := by
  cases hn : g.node? x with
  | none =>
    have hx : g.contains x ≠ true := by simp [contains, hn]
    simp only [orderingParents, hn, List.not_mem_nil, false_iff, not_or]
    constructor
    · rintro ⟨c, hc, -, -, rfl⟩
      exact hx (hg.wired.dest c hc)
    · rintro (⟨_, _, -, h⟩ | ⟨_, -, h⟩) <;> exact hx (contains_of_seat? h)
  | some n =>
    have hreg : g.registration? x = n.registration := by simp [registration?, hn]
    have hhandle : g.handle? x = n.handle := by simp [handle?, hn]
    have hsend : p ∈ ((List.range n.ports.inlets).flatMap fun i =>
        (g.messageSources x i).map (·.source)) ↔ g.Sends p x := by
      have hports : g.ports x = n.ports := by simp [ports, hn]
      simp only [List.mem_flatMap, List.mem_range, List.mem_map, mem_messageSources]
      constructor
      · rintro ⟨i, -, c, ⟨hc, hk, hd, -⟩, rfl⟩
        exact ⟨c, hc, hk, rfl, hd⟩
      · rintro ⟨c, hc, hk, rfl, rfl⟩
        exact ⟨c.inlet, hports ▸ hg.wired.inlet c hc, c, ⟨hc, hk, rfl, rfl⟩, rfl⟩
    simp only [orderingParents, hn, List.mem_append, hsend]
    refine or_congr_right ?_
    have hseat : g.seat? x = n.registration.map Registration.seat := by rw [seat?, hreg]
    have hnone : (∀ family name, g.seat? x ≠ some (.collector family name)) →
        (∀ name, g.seat? x ≠ some (.accessor .delayLine name)) → ¬ g.Named p x := by
      rintro h₁ h₂ (⟨_, _, -, h⟩ | ⟨_, -, h⟩)
      · exact h₁ _ _ h
      · exact h₂ _ h
    cases hr : n.registration with
    | none =>
      rw [hr] at hseat
      simpa using hnone (by simp [hseat]) (by simp [hseat])
    | some role =>
      rw [hr] at hseat
      have hself : x ∈ g.names.seated role.seat := hg.registered.seated.2 (by rw [hreg, hr]; rfl)
      have hslot : n.handle = g.names.slot? role.seat := by
        rw [← hhandle]
        exact hg.registered.handle (by rw [hreg, hr])
      cases role with
      | collector family name =>
        obtain ⟨slot, h⟩ := Names.slot?_collector (List.ne_nil_of_mem hself)
        have hh : n.handle = some (.link slot) := hslot.trans h
        simp only [hh, Names.emitters_of_slot h hg.registered.names, hg.registered.seated, Named,
          hseat]
        simp [seat?, Registration.seat]
      | accessor kind name =>
        obtain ⟨slot, h⟩ := Names.slot?_accessor (List.ne_nil_of_mem hself)
        have hh : n.handle = some (.store slot) := hslot.trans h
        cases kind with
        | table =>
          simpa using hnone (by simp [hseat, Registration.seat])
            (by simp [hseat, Registration.seat])
        | delayLine =>
          simp only [hh, Names.owners_of_slot h hg.registered.names, hg.registered.seated, Named,
            hseat]
          simp [seat?, Registration.seat]
      | emitter family name =>
        simpa using hnone (by simp [hseat, Registration.seat]) (by simp [hseat, Registration.seat])
      | receiver name =>
        simpa using hnone (by simp [hseat, Registration.seat]) (by simp [hseat, Registration.seat])
      | owner kind name length =>
        simpa using hnone (by simp [hseat, Registration.seat]) (by simp [hseat, Registration.seat])

theorem contains_of_mem_orderingParents {g : Graph U} (hg : g.Sound) {x p : UnitId}
    (h : p ∈ g.orderingParents x) : g.contains p = true := by
  rcases (mem_orderingParents hg).1 h with ⟨c, hc, -, rfl, -⟩ | ⟨_, _, h, -⟩ | ⟨_, h, -⟩
  · exact hg.wired.source c hc
  · exact contains_of_seat? h
  · exact contains_of_seat? h

end Graph

/-! ## Drafts -/

namespace Draft

theorem visit_mark {d : Draft} {x : UnitId} (hx : x.index < d.visits.size) (v : Visit) (y : UnitId) :
    (d.mark x v).visit y = if y = x then v else d.visit y := by
  simp only [visit, mark, Array.getElem?_setIfInBounds]
  by_cases h : y = x
  · simp [h, hx]
  · have : x.index ≠ y.index := fun he => h (by cases x; cases y; simp_all)
    simp [h, this]

theorem visit_mark_self {d : Draft} {x : UnitId} (hx : x.index < d.visits.size) (v : Visit) :
    (d.mark x v).visit x = v := by simp [visit_mark hx]

theorem visit_mark_of_ne {d : Draft} {x y : UnitId} (h : y ≠ x) (v : Visit) :
    (d.mark x v).visit y = d.visit y := by
  have : x.index ≠ y.index := fun he => h (by cases x; cases y; simp_all)
  simp [visit, mark, this]

@[simp]
theorem binding_mark (d : Draft) (x y : UnitId) (v : Visit) :
    (d.mark x v).binding y = d.binding y := rfl

@[simp]
theorem visit_bind (d : Draft) (x y : UnitId) (b : Binding) :
    (d.bind x b).visit y = d.visit y := rfl

theorem binding_bind {d : Draft} {x : UnitId} (hx : x.index < d.bindings.size) (b : Binding)
    (y : UnitId) : (d.bind x b).binding y = if y = x then b else d.binding y := by
  simp only [binding, bind, Array.getElem?_setIfInBounds]
  by_cases h : y = x
  · simp [h, hx]
  · have : x.index ≠ y.index := fun he => h (by cases x; cases y; simp_all)
    simp [h, this]

/-- Planning has gone on: nodes have been placed, and nothing else has changed about how far it has
come with each. -/
def Advances (d d' : Draft) : Prop :=
  ∀ x, d'.visit x = d.visit x ∨ d.visit x = .unvisited ∧ d'.visit x = .placed

namespace Advances

variable {d d' d'' : Draft}

theorem refl (d : Draft) : d.Advances d := fun _ => .inl rfl

theorem trans (h : d.Advances d') (h' : d'.Advances d'') : d.Advances d'' := by
  intro x
  rcases h' x with h₂ | ⟨h₂, h₂'⟩
  · rw [h₂]
    exact h x
  · rcases h x with h₁ | ⟨-, h₁⟩
    · exact .inr ⟨h₁ ▸ h₂, h₂'⟩
    · rw [h₁] at h₂
      cases h₂

theorem of_visits (h : d'.visits = d.visits) : d.Advances d' := fun x => by simp [visit, h]

/-- What has been reached stays as it is. -/
theorem visit_eq (h : d.Advances d') {x : UnitId} (hx : d.visit x ≠ .unvisited) :
    d'.visit x = d.visit x := by
  rcases h x with h | ⟨h, -⟩
  · exact h
  · exact absurd h hx

theorem placed (h : d.Advances d') {x : UnitId} (hx : d.visit x = .placed) :
    d'.visit x = .placed := by
  rw [h.visit_eq (by simp [hx]), hx]

/-- What has not been reached had not been reached before. -/
theorem unvisited (h : d.Advances d') {x : UnitId} (hx : d'.visit x = .unvisited) :
    d.visit x = .unvisited := by
  rcases h x with h | ⟨h, -⟩
  · rw [← h, hx]
  · exact h

theorem visit_of_busy (h : d.Advances d') {x : UnitId} (hx : d'.Busy x) :
    d.visit x = d'.visit x := by
  rcases h x with h | ⟨-, h⟩
  · exact h.symm
  · rcases hx with hx | hx <;> rw [h] at hx <;> cases hx

/-- Only what was busy before is busy. -/
theorem busy_iff (h : d.Advances d') {x : UnitId} : d'.Busy x ↔ d.Busy x := by
  constructor
  · intro hx
    simpa only [Busy, h.visit_of_busy hx] using hx
  · intro hx
    have hne : d.visit x ≠ .unvisited := by
      rcases hx with hx | hx <;> simp [hx]
    simpa only [Busy, h.visit_eq hne] using hx

/-- Placing a node that had not been reached is progress. -/
theorem mark (h : ∀ y, y ≠ x → d'.visit y = d.visit y ∨ d.visit y = .unvisited ∧ d'.visit y = .placed)
    (hx : d.visit x = .unvisited) (hlt : x.index < d'.visits.size) :
    d.Advances (d'.mark x .placed) := by
  intro y
  rw [visit_mark hlt]
  split
  · next hy => exact .inr ⟨hy ▸ hx, rfl⟩
  · next hy => exact h y hy

end Advances

end Draft

namespace Graph

variable {g : Graph U} {d d' : Draft}

/-- Planning on does not make a node wait. -/
theorem Waits.of_advances (h : d.Advances d') {x : UnitId} (hx : g.Waits d' x) : g.Waits d x := by
  induction hx with
  | busy hc hb => exact .busy hc (h.busy_iff.1 hb)
  | feed hv ho hp hb =>
    exact .feed (h.unvisited hv) ho hp ((h.visit_of_busy (.inl hb)).trans hb)
  | step hc hv hl _ ih =>
    exact .step hc (h.unvisited hv) (hl.imp_right (.imp_right fun hl => ⟨hl.1, h.unvisited hl.2⟩)) ih

/-- A node waits for one that is busy. -/
theorem Waits.exists_busy (hg : g.Nested) {x : UnitId} (hx : g.Waits d x) :
    ∃ y, g.contains y = true ∧ d.Busy y := by
  induction hx with
  | busy hc hb => exact ⟨_, hc, hb⟩
  | feed hv ho hp hb => exact ⟨_, contains_of_isSubgraph (hg.holder ho), .inl hb⟩
  | step _ _ _ _ ih => exact ih

/-! ## What a node reads -/

theorem level_of_transGen (hw : g.Wired) {x y : UnitId} (h : TransGen g.Streams x y) :
    g.owner? x = g.owner? y := by
  induction h with
  | single h =>
    obtain ⟨c, hc, -, rfl, rfl⟩ := h
    exact hw.level c hc
  | tail _ h ih =>
    obtain ⟨c, hc, -, rfl, rfl⟩ := h
    exact ih.trans (hw.level c hc)

/-- What lies within something that streams lead from to `x` does not hold `x`. -/
theorem not_within_of_streams (hw : g.Wired) (hg : g.Nested) {x t : UnitId}
    (h : TransGen g.Streams t x) : ¬ g.Within x t := by
  intro hxt
  have := hg.eq_of_within_of_level hxt (level_of_transGen hw h).symm
  exact hw.acyclic x (this ▸ h)

/-- If a node does not wait, then neither does what it reads while its inlets are being bound:
streams never run in a loop. -/
theorem not_waits_source (hw : g.Wired) (hg : g.Nested) {x s : UnitId} (hx : g.contains x = true)
    (hv : d.visit x = .unvisited)
    (howner : ∀ o, g.owner? x = some o → d.visit o ≠ .unvisited) (hidle : ¬ g.Waits d x)
    (hs : g.Streams s x) : ¬ g.Waits (d.mark x .binding) s := by
  -- what placing `s` leads to lies within nodes that streams lead from to `x`; `x` does not
  suffices ∀ y, g.Waits (d.mark x .binding) y →
      (∃ t, TransGen g.Streams t x ∧ g.Within y t) → g.Waits d y from
    fun h => hidle (.step hx hv (.inl hs) (this s h ⟨s, .single hs, .refl g s⟩))
  intro y h
  induction h with
  | @busy y hc hb =>
    rintro ⟨t, ht, hyt⟩
    have hne : y ≠ x := by
      rintro rfl
      exact not_within_of_streams hw hg ht hyt
    exact .busy hc (by simpa only [Draft.Busy, Draft.visit_mark_of_ne hne] using hb)
  | @feed y o k hvy ho hp hb =>
    rintro ⟨t, ht, hyt⟩
    have hne : y ≠ x := by
      rintro rfl
      exact not_within_of_streams hw hg ht hyt
    have hox : o ≠ x := by
      rintro rfl
      rcases hyt.cases_owner with rfl | ⟨o', ho', hot⟩
      · have := hg.older ((level_of_transGen hw ht).symm.trans ho)
        omega
      · rw [ho] at ho'
        cases ho'
        exact not_within_of_streams hw hg ht hot
    rw [Draft.visit_mark_of_ne hne] at hvy
    rw [Draft.visit_mark_of_ne hox] at hb
    exact .feed hvy ho hp hb
  | @step y z hc hvy hl hz ih =>
    rintro ⟨t, ht, hyt⟩
    have hne : y ≠ x := by
      rintro rfl
      exact not_within_of_streams hw hg ht hyt
    rw [Draft.visit_mark_of_ne hne] at hvy
    rcases hl with hl | hl | ⟨hl, hvz⟩
    · refine .step hc hvy (.inl hl) (ih ?_)
      rcases hyt.cases_owner with rfl | ⟨o, ho, hot⟩
      · exact ⟨z, .head hl ht, .refl g z⟩
      · exact ⟨t, ht, .of_owner ((level_of_transGen hw (.single hl)).trans ho) hot⟩
    · exact .step hc hvy (.inr (.inl hl)) (ih ⟨t, ht, .of_owner hl hyt⟩)
    · have hzx : z ≠ x := by
        rintro rfl
        rcases hyt.cases_owner with rfl | ⟨o', ho', hot⟩
        · have := hg.older ((level_of_transGen hw ht).symm.trans hl)
          omega
        · rw [hl] at ho'
          cases ho'
          exact not_within_of_streams hw hg ht hot
      rw [Draft.visit_mark_of_ne hzx] at hvz
      rcases hyt.cases_owner with rfl | ⟨o', ho', hot⟩
      · exact absurd hvz (howner z ((level_of_transGen hw ht).symm.trans hl))
      · rw [hl] at ho'
        cases ho'
        exact .step hc hvy (.inr (.inr ⟨hl, hvz⟩)) (ih ⟨t, ht, hot⟩)

/-- While a subgraph is being filled, nothing inside it waits unless something inside it is busy. -/
theorem not_waits_inside (hw : g.Wired) (hg : g.Nested) {x c : UnitId} (hx : d.visit x = .filling)
    (hidle : ∀ y, y ≠ x → g.Within y x → ¬ d.Busy y) (hc : g.owner? c = some x) :
    ¬ g.Waits d c := by
  have hne : ∀ {y o}, g.owner? y = some o → g.Within o x → y ≠ x := by
    rintro y o ho hox rfl
    have h₁ := hg.index_le hox
    have h₂ := hg.older ho
    omega
  suffices ∀ y, g.Waits d y → y ≠ x → g.Within y x → False from
    fun h => this c h (hne hc (.refl g x)) (.of_owner hc (.refl g x))
  intro y h
  induction h with
  | @busy y _ hb => exact fun hyx hy => hidle y hyx hy hb
  | @feed y o k _ ho _ hb =>
    intro hyx hy
    rcases hy.cases_owner with rfl | ⟨o', ho', hox⟩
    · exact hyx rfl
    · rw [ho] at ho'
      cases ho'
      refine hidle o ?_ hox (.inl hb)
      rintro rfl
      rw [hx] at hb
      cases hb
  | @step y z _ _ hl _ ih =>
    intro hyx hy
    rcases hy.cases_owner with rfl | ⟨o, ho, hox⟩
    · exact hyx rfl
    · rcases hl with hl | hl | ⟨hl, hvz⟩
      · have hoz := (level_of_transGen hw (.single hl)).trans ho
        exact ih (hne hoz hox) (.of_owner hoz hox)
      · exact ih (hne hl hy) (.of_owner hl hy)
      · rw [ho] at hl
        cases hl
        refine ih ?_ hox
        rintro rfl
        rw [hx] at hvz
        cases hvz

/-! ## Frames -/

/-- A node that a walk is in the middle of, with the buffers of the inlets bound so far. -/
structure Frame where
  node : UnitId
  inlets : Array BufferId := #[]

/-- How far planning may have come with each node in the middle of the nodes `fs`, the innermost
first. -/
structure Orderly (g : Graph U) (fs : List Frame) (d : Draft) : Prop where
  visits : d.visits.size = g.nodes.size
  bindings : d.bindings.size = g.nodes.size
  reached : ∀ {x o}, g.owner? x = some o → d.visit x ≠ .unvisited → d.visit o ≠ .unvisited
  closed : ∀ {x o}, g.owner? x = some o → d.visit o = .placed → d.visit x = .placed
  fed : ∀ {x o k}, g.owner? x = some o → g.port? x = some (.inlet, k) →
    d.visit x ≠ .unvisited → d.visit o = .filling ∨ d.visit o = .placed
  sourced : ∀ c ∈ g.connections, g.kindOf c = .stream →
    d.visit c.dest = .filling ∨ d.visit c.dest = .placed → d.visit c.source = .placed
  nodup : (fs.map Frame.node).Nodup
  busy : ∀ {x}, g.contains x = true → (d.Busy x ↔ x ∈ fs.map Frame.node)
  framed : ∀ f ∈ fs, g.contains f.node = true ∧ f.inlets.size ≤ (g.ports f.node).streamInlets
  filling : ∀ f ∈ fs, d.visit f.node = .filling → g.isSubgraph f.node = true ∧
    f.inlets.size = (g.ports f.node).streamInlets ∧ (d.binding f.node).inlets = f.inlets
  read : ∀ f ∈ fs, ∀ c ∈ g.connections, g.kindOf c = .stream → c.dest = f.node →
    c.inlet < f.inlets.size → d.visit c.source = .placed

/-- A node that is about to be placed: it has not been reached, its owner has, and it does not
wait. -/
structure Entering (g : Graph U) (fs : List Frame) (d : Draft) (x : UnitId) : Prop where
  orderly : g.Orderly fs d
  contains : g.contains x = true
  unvisited : d.visit x = .unvisited
  owner : ∀ o, g.owner? x = some o → d.visit o ≠ .unvisited
  idle : ¬ g.Waits d x

namespace Orderly

variable {fs : List Frame}

theorem lt_visits (h : g.Orderly fs d) {x : UnitId} (hx : g.contains x = true) :
    x.index < d.visits.size := h.visits ▸ lt_size_of_contains hx

theorem lt_bindings (h : g.Orderly fs d) {x : UnitId} (hx : g.contains x = true) :
    x.index < d.bindings.size := h.bindings ▸ lt_size_of_contains hx

theorem not_waits_of_nil (hg : g.Nested) (h : g.Orderly [] d) (x : UnitId) : ¬ g.Waits d x := by
  intro hw
  obtain ⟨y, hy, hb⟩ := hw.exists_busy hg
  simpa using (h.busy hy).1 hb

/-- What order there is depends on the state of the nodes and the bindings of those being filled. -/
theorem congr (h : g.Orderly fs d) (hv : d'.visits = d.visits)
    (hsize : d'.bindings.size = d.bindings.size)
    (hb : ∀ f ∈ fs, d.visit f.node = .filling →
      (d'.binding f.node).inlets = (d.binding f.node).inlets) : g.Orderly fs d' := by
  have hvisit : ∀ x, d'.visit x = d.visit x := fun x => by simp [Draft.visit, hv]
  constructor <;> (try simp only [hvisit, Draft.Busy])
  · exact hv ▸ h.visits
  · exact hsize ▸ h.bindings
  · exact h.reached
  · exact h.closed
  · exact h.fed
  · exact h.sourced
  · exact h.nodup
  · exact h.busy
  · exact h.framed
  · intro f hf hfill
    obtain ⟨h₁, h₂, h₃⟩ := h.filling f hf hfill
    exact ⟨h₁, h₂, (hb f hf hfill).trans h₃⟩
  · exact h.read

/-- Binding one more inlet of the innermost node, whose sources are all placed. -/
theorem push (h : g.Orderly (⟨x, inlets⟩ :: fs) d) (hv : d.visit x = .binding)
    (hlt : inlets.size < (g.ports x).streamInlets)
    (hsources : ∀ c ∈ g.streamSources x inlets.size, d.visit c.source = .placed) (b : BufferId) :
    g.Orderly (⟨x, inlets.push b⟩ :: fs) d where
  visits := h.visits
  bindings := h.bindings
  reached := h.reached
  closed := h.closed
  fed := h.fed
  sourced := h.sourced
  nodup := h.nodup
  busy := h.busy
  framed := by
    intro f hf
    rcases List.mem_cons.1 hf with rfl | hf
    · exact ⟨(h.framed _ List.mem_cons_self).1, by simpa [Nat.succ_le_iff] using hlt⟩
    · exact h.framed f (List.mem_cons_of_mem _ hf)
  filling := by
    intro f hf hfill
    rcases List.mem_cons.1 hf with rfl | hf
    · rw [hv] at hfill
      cases hfill
    · exact h.filling f (List.mem_cons_of_mem _ hf) hfill
  read := by
    intro f hf c hc hk hd hin
    rcases List.mem_cons.1 hf with rfl | hf
    · rw [Array.size_push] at hin
      by_cases hlast : c.inlet = inlets.size
      · exact hsources c (mem_streamSources.2 ⟨hc, hk, hd, hlast⟩)
      · exact h.read _ List.mem_cons_self c hc hk hd (by dsimp only; omega)
    · exact h.read f (List.mem_cons_of_mem _ hf) c hc hk hd hin

/-- A subgraph whose inlets are bound is opened. -/
theorem fill (h : g.Orderly (⟨x, inlets⟩ :: fs) d) (hv : d.visit x = .binding)
    (hw : g.Wired) (hsub : g.isSubgraph x = true)
    (hsize : inlets.size = (g.ports x).streamInlets) :
    g.Orderly (⟨x, inlets⟩ :: fs) (openContents x inlets d) := by
  obtain ⟨hc, -⟩ := h.framed _ List.mem_cons_self
  have hlt := h.lt_visits hc
  have hvisit : ∀ y, (openContents x inlets d).visit y = if y = x then .filling else d.visit y :=
    fun y => by rw [openContents, Draft.visit_mark (by exact hlt)]; rfl
  have hbinding : ∀ y, (openContents x inlets d).binding y =
      if y = x then { d.binding x with inlets } else d.binding y :=
    fun y => Draft.binding_bind (h.lt_bindings hc) _ y
  have hne : ∀ {f}, f ∈ fs → f.node ≠ x := by
    intro f hf he
    have := h.nodup
    rw [List.map_cons, List.nodup_cons] at this
    exact this.1 (List.mem_map.2 ⟨f, hf, he⟩)
  constructor
  · simpa [openContents, Draft.mark, Draft.bind] using h.visits
  · simpa [openContents, Draft.mark, Draft.bind] using h.bindings
  · intro y o ho hy
    rw [hvisit] at hy ⊢
    split
    · simp
    · split at hy
      · next hyx =>
        subst hyx
        exact h.reached ho (by simp [hv])
      · exact h.reached ho hy
  · intro y o ho hoy
    rw [hvisit] at hoy ⊢
    split at hoy
    · cases hoy
    · have hy := h.closed ho hoy
      split
      · next hyx =>
        subst hyx
        rw [hv] at hy
        cases hy
      · exact hy
  · intro y o k ho hp hy
    rw [hvisit] at hy ⊢
    split
    · exact .inl rfl
    · split at hy
      · next hyx =>
        subst hyx
        exact h.fed ho hp (by simp [hv])
      · exact h.fed ho hp hy
  · intro c hc' hk hy
    have hsource : d.visit c.source = .placed := by
      rw [hvisit] at hy
      split at hy
      · next hyx =>
        exact h.read _ List.mem_cons_self c hc' hk hyx
          (by simpa [hsize, hyx] using hw.streamInlet c hc' hk)
      · exact h.sourced c hc' hk hy
    rw [hvisit]
    split
    · next hyx =>
      rw [hyx, hv] at hsource
      cases hsource
    · exact hsource
  · exact h.nodup
  · intro y hy
    rw [← h.busy hy, Draft.Busy, hvisit]
    split
    · next hyx => simp [Draft.Busy, hyx, hv]
    · rfl
  · exact h.framed
  · intro f hf hfill
    rcases List.mem_cons.1 hf with rfl | hf
    · exact ⟨hsub, hsize, by simp [hbinding]⟩
    · rw [hvisit, if_neg (hne hf)] at hfill
      rw [hbinding, if_neg (hne hf)]
      exact h.filling f (List.mem_cons_of_mem _ hf) hfill
  · intro f hf c hc' hk hd hin
    have hsource := h.read f hf c hc' hk hd hin
    rw [hvisit]
    split
    · next hyx =>
      rw [hyx, hv] at hsource
      cases hsource
    · exact hsource

/-- The innermost node is placed once it has been worked on to the end. -/
theorem leave (h : g.Orderly (⟨x, inlets⟩ :: fs) d) (hw : g.Wired)
    (hsize : inlets.size = (g.ports x).streamInlets)
    (hinside : ∀ c, g.owner? c = some x → d.visit c = .placed) :
    g.Orderly fs (d.mark x .placed) := by
  obtain ⟨hc, -⟩ := h.framed _ List.mem_cons_self
  have hb : d.Busy x := (h.busy hc).2 (by simp)
  have hreached : d.visit x ≠ .unvisited := by rcases hb with hb | hb <;> simp [hb]
  have hvisit := Draft.visit_mark (h.lt_visits hc) .placed
  have hnodup := h.nodup
  rw [List.map_cons, List.nodup_cons] at hnodup
  have hne : ∀ {f}, f ∈ fs → f.node ≠ x := by
    intro f hf he
    exact hnodup.1 (List.mem_map.2 ⟨f, hf, he⟩)
  constructor
  · simpa [Draft.mark] using h.visits
  · exact h.bindings
  · intro y o ho hy
    rw [hvisit] at hy ⊢
    split
    · simp
    · split at hy
      · next hyx =>
        subst hyx
        exact h.reached ho hreached
      · exact h.reached ho hy
  · intro y o ho hoy
    rw [hvisit] at hoy ⊢
    split
    · rfl
    · split at hoy
      · next hox =>
        subst hox
        exact hinside y ho
      · exact h.closed ho hoy
  · intro y o k ho hp hy
    rw [hvisit] at hy ⊢
    split
    · exact .inr rfl
    · split at hy
      · next hyx =>
        subst hyx
        exact h.fed ho hp hreached
      · exact h.fed ho hp hy
  · intro c hc' hk hy
    rw [hvisit]
    split
    · rfl
    · rw [hvisit] at hy
      split at hy
      · next hyx =>
        exact h.read _ List.mem_cons_self c hc' hk hyx
          (by simpa [hsize, hyx] using hw.streamInlet c hc' hk)
      · exact h.sourced c hc' hk hy
  · exact hnodup.2
  · intro y hy
    rw [Draft.Busy, hvisit]
    split
    · next hyx => simp [hyx, hnodup.1]
    · next hyx =>
      have := h.busy hy
      simp only [List.map_cons, List.mem_cons, hyx, false_or] at this
      exact this
  · exact fun f hf => h.framed f (List.mem_cons_of_mem _ hf)
  · intro f hf hfill
    rw [hvisit, if_neg (hne hf)] at hfill
    exact h.filling f (List.mem_cons_of_mem _ hf) hfill
  · intro f hf c hc' hk hd hin
    rw [hvisit]
    split
    · rfl
    · exact h.read f (List.mem_cons_of_mem _ hf) c hc' hk hd hin

end Orderly

/-- A node that is about to be placed becomes the innermost one. -/
theorem Entering.enter {fs : List Frame} {x : UnitId} (h : g.Entering fs d x) (hg : g.Nested) :
    g.Orderly (⟨x, #[]⟩ :: fs) (d.mark x .binding) := by
  have ho := h.orderly
  have hvisit := Draft.visit_mark (ho.lt_visits h.contains) .binding
  have hnot : x ∉ fs.map Frame.node := by
    intro hx
    rcases (ho.busy h.contains).2 hx with hb | hb <;> rw [h.unvisited] at hb <;> cases hb
  have hne : ∀ {f}, f ∈ fs → f.node ≠ x := by
    rintro f hf rfl
    exact hnot (List.mem_map_of_mem hf)
  have hother : ∀ {y}, d.visit y = .placed → (d.mark x .binding).visit y = .placed := by
    intro y hy
    rw [hvisit, if_neg]
    · exact hy
    · rintro rfl
      rw [h.unvisited] at hy
      cases hy
  constructor
  · simpa [Draft.mark] using ho.visits
  · exact ho.bindings
  · intro y o hoy hy
    rw [hvisit] at hy ⊢
    split
    · simp
    · split at hy
      · next hyx => exact h.owner o (hyx ▸ hoy)
      · exact ho.reached hoy hy
  · intro y o hoy hoy'
    rw [hvisit] at hoy'
    split at hoy'
    · cases hoy'
    · exact hother (ho.closed hoy hoy')
  · intro y o k hoy hp hy
    rw [hvisit] at hy ⊢
    split at hy
    · next hyx =>
      -- an inlet of a subgraph waits as long as the inlets of the subgraph are being bound
      subst hyx
      have hox : o ≠ y := by
        rintro rfl
        have := hg.older hoy
        omega
      rw [if_neg hox]
      cases hvo : d.visit o with
      | unvisited => exact absurd hvo (h.owner o hoy)
      | binding => exact absurd (.feed h.unvisited hoy hp hvo) h.idle
      | filling => exact .inl rfl
      | placed => exact .inr rfl
    · have := ho.fed hoy hp hy
      split
      · next hox =>
        rw [hox, h.unvisited] at this
        simp at this
      · exact this
  · intro c hc hk hy
    rw [hvisit] at hy
    split at hy
    · simp at hy
    · exact hother (ho.sourced c hc hk hy)
  · exact List.nodup_cons.2 ⟨hnot, ho.nodup⟩
  · intro y hy
    rw [Draft.Busy, hvisit]
    split
    · next hyx => simp [hyx]
    · next hyx =>
      rw [List.map_cons, List.mem_cons]
      simp only [hyx, false_or]
      exact ho.busy hy
  · intro f hf
    rcases List.mem_cons.1 hf with rfl | hf
    · exact ⟨h.contains, by simp⟩
    · exact ho.framed f hf
  · intro f hf hfill
    rcases List.mem_cons.1 hf with rfl | hf
    · simp [hvisit] at hfill
    · rw [hvisit, if_neg (hne hf)] at hfill
      exact ho.filling f hf hfill
  · intro f hf c hc hk hd hin
    rcases List.mem_cons.1 hf with rfl | hf
    · simp at hin
    · exact hother (ho.read f hf c hc hk hd hin)

end Graph
end Patchbay
