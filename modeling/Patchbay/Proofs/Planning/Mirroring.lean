import Patchbay.Proofs.Planning.Ending
import Patchbay.Proofs.Planning.Topology

/-!
# Planning two graphs of one topology

Planning two graphs of one topology takes the same way through both. At each point the two drafts say
the same about every node (`Mirrors`), however many numbers have been given out, and however many
buffers there are, on either side. So the plans have the same steps and bind the same ports to the same
buffers (`fullDraft_tracks`).

Numbers that were given out make the larger graph's bound on nested visits larger. Neither bound is ever
reached.
-/

namespace Patchbay

variable {U : Type} [Device U]

namespace Draft

/-- That two drafts say the same about the nodes of a graph. -/
structure Mirrors (g : Graph U) (d d' : Draft) : Prop where
  visits : ∀ x, g.contains x = true → d'.visit x = d.visit x
  visitable : ∀ x, g.contains x = true → x.index < d.visits.size ∧ x.index < d'.visits.size
  bindings : ∀ x, d'.binding x = d.binding x
  bindable : ∀ x, g.contains x = true → x.index < d.bindings.size ∧ x.index < d'.bindings.size
  steps : d'.steps = d.steps
  pools : d.pool.Ahead d'.pool

/-- That two drafts say the same, and come with the same. -/
def MirrorsWith {α : Type} (g : Graph U) (r r' : α × Draft) : Prop :=
  r'.1 = r.1 ∧ r.2.Mirrors g r'.2

namespace Mirrors

variable {g : Graph U} {d d' : Draft} {x : UnitId} (h : d.Mirrors g d')
include h

omit [Device U] in
theorem outlet (x : UnitId) (k : Nat) : d'.outlet x k = d.outlet x k := by
  rw [Draft.outlet, Draft.outlet, h.bindings]

omit [Device U] in
theorem mark (hx : g.contains x = true) (v : Visit) : (d.mark x v).Mirrors g (d'.mark x v) where
  visits y hy := by
    obtain ⟨hlt, hlt'⟩ := h.visitable x hx
    rw [visit_mark hlt, visit_mark hlt', h.visits y hy]
  visitable y hy := by simpa [Draft.mark] using h.visitable y hy
  bindings := h.bindings
  bindable := h.bindable
  steps := h.steps
  pools := h.pools

omit [Device U] in
theorem bind (hx : g.contains x = true) (b : Binding) : (d.bind x b).Mirrors g (d'.bind x b) where
  visits := h.visits
  visitable := h.visitable
  bindings y := by
    obtain ⟨hlt, hlt'⟩ := h.bindable x hx
    rw [binding_bind hlt, binding_bind hlt', h.bindings]
  bindable y hy := by simpa [Draft.bind] using h.bindable y hy
  steps := h.steps
  pools := h.pools

omit [Device U] in
theorem withPools {p q : Pool} (hpq : p.Ahead q) :
    Mirrors g { d with pool := p } { d' with pool := q } :=
  ⟨h.visits, h.visitable, h.bindings, h.bindable, h.steps, hpq⟩

omit [Device U] in
theorem push (s : Step) :
    Mirrors g { d with steps := d.steps.push s } { d' with steps := d'.steps.push s } :=
  ⟨h.visits, h.visitable, h.bindings, h.bindable, by rw [h.steps], h.pools⟩

omit [Device U] in
theorem releaseAll (l : List BufferId) :
    Tracks (Mirrors g) (d.releaseAll l) (d'.releaseAll l) :=
  (Tracks.foldlM l (fun b _ _ _ hpq => hpq.release b) h.pools).bind fun _ _ hpq =>
    .ok (h.withPools hpq)

end Mirrors
end Draft

namespace Graph

open Draft

variable {g g' : Graph U} {d d' : Draft} {x : UnitId} {n n' : Node U}

/-! ## Inlets -/

omit [Device U] in
theorem addToSum_tracks (hm : d.Mirrors g d') (left right : BufferId) :
    Tracks (MirrorsWith g) (addToSum (left, d) right) (addToSum (left, d') right) := by
  obtain ⟨hout, hpools⟩ := hm.pools.acquire 1
  simp only [addToSum, hout]
  exact (((hm.withPools hpools).push _).releaseAll _).bind fun _ _ hm => .ok ⟨rfl, hm⟩

theorem boundaryFeed_tracks (hn : n.PlannedAlike n') (hm : d.Mirrors g d') (inlet : Nat) :
    Tracks (MirrorsWith g) (boundaryFeed d n inlet) (boundaryFeed d' n' inlet) := by
  unfold boundaryFeed
  rw [hn.owner, hn.port]
  split
  · rw [hm.bindings]
    split
    · exact .ok ⟨rfl, hm⟩
    · split
      · exact .ok ⟨rfl, hm⟩
      · next buffer _ =>
        exact (hm.pools.reserve buffer 1).bind fun _ _ hpq => .ok ⟨rfl, hm.withPools hpq⟩
  · exact .ok ⟨rfl, hm⟩

section Same

variable (h : g.SameTopology g')
include h

theorem mixInlet_tracks (hn : n.PlannedAlike n') (hm : d.Mirrors g d') (inlet : Nat) :
    Tracks (MirrorsWith g) (g.mixInlet x n d inlet) (g'.mixInlet x n' d' inlet) := by
  unfold mixInlet
  refine (boundaryFeed_tracks hn hm inlet).bind ?_
  rintro ⟨_, d₁⟩ ⟨feed, d₁'⟩ ⟨rfl, hm₁⟩
  have houtlet : ∀ c : Connection, d₁'.outlet c.source c.outlet = d₁.outlet c.source c.outlet :=
    fun c => hm₁.outlet c.source c.outlet
  dsimp only
  simp only [h.streams, houtlet]
  split
  · exact .ok ⟨rfl, hm₁⟩
  · refine Tracks.foldlM _ ?_ ⟨rfl, hm₁⟩
    rintro right - ⟨_, d₂⟩ ⟨sum, d₂'⟩ ⟨rfl, hm₂⟩
    exact addToSum_tracks hm₂ sum right

/-! ## Outlets -/

/-- That the outlets bound so far have the same buffers. -/
structure OutletBinding.Mirrors (b b' : OutletBinding) : Prop where
  outlets : b'.outlets = b.outlets
  sources : b'.sources = b.sources
  unread : b'.unread = b.unread
  pools : b.pool.Ahead b'.pool

theorem bindOutlet_tracks (hn : n.PlannedAlike n') {u u' : U} (hu : PlannedAlike u u')
    (inlets : Array BufferId) {b b' : OutletBinding} (hb : b.Mirrors b') (outlet : Nat) :
    Tracks OutletBinding.Mirrors (g.bindOutlet x n u inlets b outlet)
      (g'.bindOutlet x n' u' inlets b' outlet) := by
  unfold bindOutlet
  rw [h.fanOut, h.ownerFanOut hn, hu.source]
  dsimp only
  split
  · obtain ⟨hout, hpools⟩ := hb.pools.acquire
      (max (g.fanOut x outlet + if outlet = 0 then g.ownerFanOut n else 0) 1)
    rw [hout, hb.outlets, hb.sources, hb.unread]
    exact .ok ⟨rfl, rfl, rfl, hpools⟩
  · refine (hb.pools.reserve _ _).bind fun p q hpq => ?_
    rw [hb.outlets, hb.sources, hb.unread]
    exact .ok ⟨rfl, rfl, rfl, hpq⟩

theorem placeUnit_tracks (hx : g.contains x = true) (hn : n.PlannedAlike n') {u u' : U}
    (hu : PlannedAlike u u') (inlets : Array BufferId) (hm : d.Mirrors g d') :
    Tracks (Mirrors g) (g.placeUnit x n u inlets d) (g'.placeUnit x n' u' inlets d') := by
  unfold placeUnit
  rw [hn.ports, hn.computes]
  have hstart : OutletBinding.Mirrors { pool := d.pool } { pool := d'.pool } :=
    ⟨rfl, rfl, rfl, hm.pools⟩
  refine (Tracks.foldlM _ (fun outlet _ _ _ hb => bindOutlet_tracks h hn hu inlets hb outlet)
    hstart).bind fun b b' hb => ?_
  rw [hb.unread, hb.outlets, hb.sources]
  refine ((hm.withPools hb.pools).releaseAll _).bind fun d₁ d₁' hm₁ => ?_
  dsimp only
  split
  · exact .ok ((hm₁.bind hx _).push _)
  · exact .ok (hm₁.bind hx _)

/-! ## Waiting -/

/-- A node that waits in one graph waits in the other. -/
theorem Waits.of_sameTopology (hg : g.Nested)
    (hv : ∀ x, g.contains x = true → d'.visit x = d.visit x) (hw : g.Waits d x) :
    g'.Waits d' x := by
  have howner : ∀ {y o}, g.owner? y = some o → g'.owner? y = some o ∧ d'.visit o = d.visit o :=
    fun ho => ⟨(h.owner? _).trans ho, hv _ (contains_of_isSubgraph (hg.holder ho))⟩
  induction hw with
  | busy hx hb =>
    refine .busy ((h.contains _).trans hx) ?_
    rwa [Draft.Busy, hv _ hx]
  | feed hu ho hp hb =>
    obtain ⟨ho', hvo⟩ := howner ho
    exact .feed ((hv _ (contains_of_owner? ho)).trans hu) ho' ((h.port? _).trans hp)
      (hvo.trans hb)
  | step hx hu hl _ ih =>
    refine .step ((h.contains _).trans hx) ((hv _ hx).trans hu) ?_ ih
    rcases hl with hs | ho | ⟨ho, huo⟩
    · exact .inl (h.streams_iff.2 hs)
    · exact .inr (.inl (howner ho).1)
    · exact .inr (.inr ⟨(howner ho).1, (howner ho).2.trans huo⟩)

/-- The search for a node that is being bound comes to the same in both graphs. -/
theorem waits_eq_waits (hg : g.Sound) (hg' : g'.Sound) (hx : g.contains x = true)
    (hm : d.Mirrors g d') : ∃ b, g.waits d x = .ok b ∧ g'.waits d' x = .ok b := by
  have hiff : g'.Waits d' x ↔ g.Waits d x :=
    ⟨fun hw => hw.of_sameTopology h.symm hg'.nested fun y hy =>
        (hm.visits y ((h.contains y).symm.trans hy)).symm,
      fun hw => hw.of_sameTopology h hg.nested hm.visits⟩
  obtain ⟨b, hb, hw⟩ := waits_eq (d := d) hg.wired hg.nested hx
  obtain ⟨b', hb', hw'⟩ := waits_eq (d := d') hg'.wired hg'.nested ((h.contains x).trans hx)
  have hbb : b' = b := Bool.eq_iff_iff.2 (hw'.trans (hiff.trans hw.symm))
  exact ⟨b, hb, hbb ▸ hb'⟩

/-! ## The walk -/

omit h in
/-- That visits of a node on the two sides come to the same. -/
def Follows (g : Graph U) (visit visit' : UnitId → Draft → Except Fault Draft) : Prop :=
  ∀ {x : UnitId} {d d' : Draft}, g.contains x = true → d.Mirrors g d' →
    Tracks (Mirrors g) (visit x d) (visit' x d')

section Visits

variable {visit visit' : UnitId → Draft → Except Fault Draft} (hvisit : Follows g visit visit')
  (hg : g.Sound)
include hvisit hg

theorem placeUnlessWaiting_tracks (hg' : g'.Sound) (hx : g.contains x = true) (hm : d.Mirrors g d') :
    Tracks (Mirrors g) (g.placeUnlessWaiting visit d x) (g'.placeUnlessWaiting visit' d' x) := by
  obtain ⟨b, hb, hb'⟩ := waits_eq_waits h hg hg' hx hm
  simp only [placeUnlessWaiting, hb, hb', ok_bind]
  cases b with
  | true => exact .ok hm
  | false => exact hvisit hx hm

theorem placeParents_tracks (hg' : g'.Sound) (hm : d.Mirrors g d') :
    Tracks (fun r r' => MirrorsWith g r r' ∧ ∀ p ∈ r.1, g.contains p = true)
      (g.placeParents visit x d) (g'.placeParents visit' x d') := by
  unfold placeParents
  rw [h.orderingParents hg.registered hg'.registered]
  refine Tracks.foldlM _ ?_ ⟨⟨rfl, hm⟩, by simp⟩
  rintro p hp ⟨_, d₁⟩ ⟨deferred, d₁'⟩ ⟨⟨rfl, hm₁⟩, hdeferred⟩
  have hpc := contains_of_mem_orderingParents hg hp
  obtain ⟨b, hb, hb'⟩ := waits_eq_waits h hg hg' hpc hm₁
  simp only [hb, hb', ok_bind]
  cases b with
  | true =>
    refine .ok ⟨⟨rfl, hm₁⟩, fun q hq => ?_⟩
    rcases List.mem_append.1 hq with hq | hq
    · exact hdeferred q hq
    · exact List.mem_singleton.1 hq ▸ hpc
  | false => exact (hvisit hpc hm₁).bind fun _ _ hm₂ => .ok ⟨⟨rfl, hm₂⟩, hdeferred⟩

theorem bindInlet_tracks (hn : n.PlannedAlike n') (hm : d.Mirrors g d') (inlet : Nat) :
    Tracks (MirrorsWith g) (g.bindInlet visit x n d inlet) (g'.bindInlet visit' x n' d' inlet) := by
  unfold bindInlet
  rw [h.streams]
  refine (Tracks.foldlM _ (fun c hc _ _ hm => ?_) hm).bind fun _ _ hm₁ =>
    mixInlet_tracks h hn hm₁ inlet
  exact hvisit (hg.wired.source c (mem_streamSources.1 hc).1) hm

theorem bindInlets_tracks (hn : n.PlannedAlike n') (hm : d.Mirrors g d') :
    Tracks (MirrorsWith g) (g.bindInlets visit x n d) (g'.bindInlets visit' x n' d') := by
  unfold bindInlets
  rw [hn.ports]
  refine Tracks.foldlM _ ?_ ⟨rfl, hm⟩
  rintro inlet - ⟨_, d₁⟩ ⟨inlets, d₁'⟩ ⟨rfl, hm₁⟩
  refine (bindInlet_tracks h hvisit hg hn hm₁ inlet).bind ?_
  rintro ⟨_, d₂⟩ ⟨buffer, d₂'⟩ ⟨rfl, hm₂⟩
  exact .ok ⟨rfl, hm₂⟩

theorem placeContents_tracks (hg' : g'.Sound) (hx : g.contains x = true) (inlets : Array BufferId)
    (hm : d.Mirrors g d') :
    Tracks (Mirrors g) (g.placeContents visit x inlets d)
      (g'.placeContents visit' x inlets d') := by
  have hchild : ∀ c ∈ g.children x, g.contains c = true := fun c hc =>
    contains_of_owner? (hg.nested.mem_children.1 hc)
  have hroot : (g'.children x).filter g'.isRoot = (g.children x).filter g.isRoot := by
    rw [h.children]
    exact List.filter_congr fun c _ => h.isRoot c
  unfold placeContents
  dsimp only
  rw [hroot, h.children]
  have hopen : (openContents x inlets d).Mirrors g (openContents x inlets d') := by
    unfold openContents
    rw [hm.bindings]
    exact (hm.bind hx _).mark hx _
  refine (Tracks.foldlM _ ?_ hopen).bind fun d₁ d₁' hm₁ => ?_
  · exact fun c hc _ _ hm => hvisit (hchild c (List.mem_filter.1 hc).1) hm
  refine (Tracks.foldlM _ ?_ hm₁).bind fun d₂ d₂' hm₂ => ?_
  · exact fun c hc _ _ hm => placeUnlessWaiting_tracks h hvisit hg hg' (hchild c hc) hm
  have hinner : ∀ k, g'.innerOutlet d₂' x k = g.innerOutlet d₂ x k := by
    intro k
    unfold innerOutlet
    rw [h.portUnit?]
    split
    · rfl
    · next inner hinner =>
      have hic := contains_of_owner? (hg.nested.portUnit?_eq_some.1 hinner).1
      rw [hm₂.visits inner hic, hm₂.outlet]
  unfold closeContents
  rw [h.ports, hm₂.bindings, funext hinner]
  exact (hm₂.bind hx _).releaseAll _

theorem placeNode_tracks (hg' : g'.Sound) (hx : g.contains x = true) (hn : n.PlannedAlike n')
    (hm : d.Mirrors g d') :
    Tracks (Mirrors g) (g.placeNode visit x n d) (g'.placeNode visit' x n' d') := by
  unfold placeNode
  refine (placeParents_tracks h hvisit hg hg' (hm.mark hx .binding)).bind ?_
  rintro ⟨_, d₁⟩ ⟨deferred, d₁'⟩ ⟨⟨rfl, hm₁⟩, hdeferred⟩
  refine (bindInlets_tracks h hvisit hg hn hm₁).bind ?_
  rintro ⟨_, d₂⟩ ⟨inlets, d₂'⟩ ⟨rfl, hm₂⟩
  -- what was put off is tried again once the node is placed
  have hlater : ∀ {d₃ d₃' : Draft}, d₃.Mirrors g d₃' → Tracks (Mirrors g)
      (deferred.foldlM (g.placeUnlessWaiting visit) (d₃.mark x .placed))
      (deferred.foldlM (g'.placeUnlessWaiting visit') (d₃'.mark x .placed)) := by
    intro d₃ d₃' hm₃
    refine Tracks.foldlM _ ?_ (hm₃.mark hx .placed)
    exact fun p hp _ _ hm => placeUnlessWaiting_tracks h hvisit hg hg' (hdeferred p hp) hm
  have hbody := hn.body
  dsimp only
  cases hb : n.body <;> cases hb' : n'.body <;> rw [hb, hb'] at hbody
  case device.device =>
    exact (placeUnit_tracks h hx hn hbody inlets hm₂).bind fun _ _ hm₃ => hlater hm₃
  case subgraph.subgraph =>
    exact (placeContents_tracks h hvisit hg hg' hx inlets hm₂).bind fun _ _ hm₃ => hlater hm₃
  all_goals cases hbody

end Visits

/-- Visits on the two sides come to the same, as long as they end on the first side. -/
theorem visit_tracks (hg : g.Sound) (hg' : g'.Sound) {depth depth' : Nat} (hle : depth ≤ depth') :
    Follows g (g.visit depth) (g'.visit depth') := by
  induction depth generalizing depth' with
  | zero =>
    intro x d d' hx hm
    obtain ⟨n, hn⟩ := contains_iff.1 hx
    obtain ⟨n', hn', hnn⟩ := h.node hn
    by_cases hv : d.visit x = .unvisited
    · rw [Graph.visit.eq_def, hn]
      simp only [hv, ne_eq, not_true, if_false]
      exact .lost (.inl rfl) _
    · rw [Client.visit_of_reached hn hv, Client.visit_of_reached hn' (hm.visits x hx ▸ hv)]
      exact .ok hm
  | succ depth ih =>
    intro x d d' hx hm
    obtain ⟨n, hn⟩ := contains_iff.1 hx
    obtain ⟨n', hn', hnn⟩ := h.node hn
    obtain ⟨k, rfl⟩ : ∃ k, depth' = k + 1 := ⟨depth' - 1, by omega⟩
    have hfollows : Follows g (g.visit depth) (g'.visit k) := ih (Nat.le_of_succ_le_succ hle)
    by_cases hv : d.visit x = .unvisited
    · rw [Client.visit_succ hn hv, Client.visit_succ hn' ((hm.visits x hx).trans hv)]
      -- what is left once the owner has been reached
      have hrest : ∀ {d₁ d₁' : Draft}, d₁.Mirrors g d₁' →
          Tracks (Mirrors g)
            (if d₁.visit x ≠ .unvisited then pure d₁ else g.placeNode (g.visit depth) x n d₁)
            (if d₁'.visit x ≠ .unvisited then pure d₁' else
              g'.placeNode (g'.visit k) x n' d₁') := by
        intro d₁ d₁' hm₁
        rw [hm₁.visits x hx]
        split
        · exact .ok hm₁
        · exact placeNode_tracks h hfollows hg hg' hx hnn hm₁
      rw [hnn.owner]
      cases ho : n.owner with
      | none => exact hrest hm
      | some o =>
        have hoc : g.contains o = true := contains_of_isSubgraph
          (hg.nested.holder (by simp [owner?, hn, ho] : g.owner? x = some o))
        have hun : g'.isUnvisited d' o = g.isUnvisited d o := by
          rw [isUnvisited, isUnvisited, h.contains, hm.visits o hoc]
        simp only [hun]
        split
        · exact (hfollows hoc hm).bind fun _ _ hm₁ => hrest hm₁
        · exact hrest hm
    · rw [Client.visit_of_reached hn hv, Client.visit_of_reached hn' (hm.visits x hx ▸ hv)]
      exact .ok hm

/-- Planning starts from drafts that say the same. -/
theorem mirrors_startDraft (hpools : g.pool.reset.Ahead g'.pool.reset) :
    g.startDraft.Mirrors g g'.startDraft where
  visits x hx := by rw [visit_startDraft hx, visit_startDraft ((h.contains x).trans hx)]
  visitable x hx := by
    simpa [startDraft] using
      ⟨lt_size_of_contains hx, lt_size_of_contains ((h.contains x).trans hx)⟩
  bindings x := by
    rw [binding_startDraft, binding_startDraft]
    exact h.view (fun n => (n.map fun n => Binding.silent n.ports).getD {})
      (fun n n' hn => by simp [hn.ports]) x
  bindable x hx := by
    simpa [startDraft] using
      ⟨lt_size_of_contains hx, lt_size_of_contains ((h.contains x).trans hx)⟩
  steps := rfl
  pools := hpools

/-- Planning takes the same way through two graphs of one topology. -/
theorem fullDraft_tracks (hg : g.Sound) (hg' : g'.Sound) (hsize : g.nodes.size ≤ g'.nodes.size)
    (hpools : g.pool.reset.Ahead g'.pool.reset) :
    Tracks (Mirrors g) g.fullDraft g'.fullDraft := by
  have hdepth : g.visitDepth ≤ g'.visitDepth :=
    Nat.mul_le_mul (Nat.succ_le_succ hsize) (Nat.succ_le_succ hsize)
  have hvisit : ∀ l : List UnitId, (∀ x ∈ l, g.contains x = true) → ∀ {d d' : Draft},
      d.Mirrors g d' → Tracks (Mirrors g) (l.foldlM (fun d x => g.visit g.visitDepth x d) d)
        (l.foldlM (fun d x => g'.visit g'.visitDepth x d) d') := by
    intro l hl d d' hm
    refine Tracks.foldlM l ?_ hm
    exact fun x hx _ _ hm => visit_tracks h hg hg' hdepth (hl x hx) hm
  have hroots : (g'.ids.filter fun x => (g'.owner? x).isNone && g'.isRoot x) =
      g.ids.filter fun x => (g.owner? x).isNone && g.isRoot x := by
    rw [h.ids]
    exact List.filter_congr fun x _ => by rw [h.owner?, h.isRoot]
  unfold fullDraft
  dsimp only
  rw [hroots, h.ids]
  exact (hvisit _ (fun x hx => mem_ids.1 (List.mem_filter.1 hx).1)
    (mirrors_startDraft h hpools)).bind fun _ _ hm => hvisit _ (fun x hx => mem_ids.1 hx) hm

end Same
end Graph
end Patchbay
