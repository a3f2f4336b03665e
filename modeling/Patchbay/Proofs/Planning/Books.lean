import Patchbay.Proofs.Planning.Placing

/-!
# Keeping the books

Along the whole walk the ledger is kept (`Ledger`), and besides a log of the steps that have been
taken (`Log`): which units have a step, and what the inlets of each hold when its step comes. When
every node is placed nothing is due any more, so every buffer has been given back
(`fullDraft_books`).
-/

namespace Patchbay

variable {U : Type} [Device U]

namespace Graph

variable {g : Graph U} {d d' : Draft} {fs : List Frame} {x : UnitId} {n : Node U} {u : U}

/-! ## The log -/

/-- That the steps of a draft are those of the units that are placed, and sums in between; and that
the inlets of each unit hold what they should when its step comes. -/
structure Log {g : Graph U} (M : g.Meaning) (d : Draft) : Prop where
  pool : g.pool.Extends d.pool
  sums : ∀ s ∈ d.steps.toList, s.Mixes d.pool.size ∨ ∃ x, s = .unit x
  units : ∀ x, .unit x ∈ d.steps.toList ↔
    d.visit x = .placed ∧ ∃ n u, g.node? x = some n ∧ n.body = .device u ∧ n.body.computes = true
  once : (d.steps.toList.filterMap Step.unit?).Nodup
  fits : ∀ x n u, g.node? x = some n → n.body = .device u → d.visit x = .placed →
    g.Fits x u d.pool.size (d.binding x)
  read : ∀ pre x post, d.steps.toList = pre ++ .unit x :: post →
    ∃ d₀ : Draft, d₀.steps.toList = pre ∧ g.Keeps d₀ d ∧
      ∀ (j : Nat) (b : BufferId), (d.binding x).inlets[j]? = some b → M.Holds d₀ b [.inlet x j]

theorem Fits.mono {size size' : Nat} {b : Binding} (h : g.Fits x u size b) (hle : size ≤ size') :
    g.Fits x u size' b where
  inlets := h.inlets
  outlets := h.outlets
  sources := h.sources
  read buffer hb := (h.read buffer hb).mono hle
  own o buffer ho := ⟨(h.own o buffer ho).1, (h.own o buffer ho).2.1.mono hle,
    (h.own o buffer ho).2.2⟩
  once := h.once
  pooled := h.pooled
  forward := h.forward

namespace Log

variable {M : g.Meaning}

/-- Sums change nothing about the steps of units. -/
theorem grow (h : Log M d) (hgrow : d.Grows d') (hkeep : g.Keeps d d')
    (hback : ∀ x, g.isSubgraph x = false → d'.visit x = .placed → d.visit x = .placed) :
    Log M d' := by
  obtain ⟨sums, hsteps, hmixes⟩ := hgrow.sums
  have hnot : ∀ x, .unit x ∉ sums := fun x hx => hmixes _ hx
  have hdevice : ∀ {x n u}, g.node? x = some n → n.body = .device u → g.isSubgraph x = false :=
    fun hn hu => by simp [isSubgraph, hn, Node.isSubgraph, hu]
  have hplaced : ∀ {x}, g.isSubgraph x = false → (d'.visit x = .placed ↔ d.visit x = .placed) :=
    fun hx => ⟨hback _ hx, fun h => (hkeep _ h hx).1⟩
  have hunits : ∀ x, .unit x ∈ d'.steps.toList ↔ .unit x ∈ d.steps.toList := fun x => by
    simp [hsteps, hnot]
  constructor
  · exact h.pool.trans hgrow.pool
  · intro s hs
    rw [hsteps] at hs
    rcases List.mem_append.1 hs with hs | hs
    · exact (h.sums s hs).imp_left fun h => h.mono hgrow.pool.size_le
    · exact .inl (hmixes s hs)
  · intro x
    rw [hunits, h.units]
    refine and_congr_left ?_
    rintro ⟨n, u, hn, hu, -⟩
    exact (hplaced (hdevice hn hu)).symm
  · have : sums.filterMap Step.unit? = [] := by
      rw [List.filterMap_eq_nil_iff]
      intro s hs
      cases s with
      | unit x => exact absurd hs (hnot x)
      | sum => rfl
    rw [hsteps, List.filterMap_append, this, List.append_nil]
    exact h.once
  · intro x n u hn hu hx
    have hx' := (hplaced (hdevice hn hu)).1 hx
    rw [(hkeep x hx' (hdevice hn hu)).2]
    exact (h.fits x n u hn hu hx').mono hgrow.pool.size_le
  · intro pre x post heq
    rw [hsteps] at heq
    obtain ⟨post', heq⟩ := eq_append_of_append_eq heq (hnot x)
    obtain ⟨hx, n, u, hn, hu, -⟩ := (h.units x).1 (by rw [heq]; simp)
    obtain ⟨d₀, hd₀, hkeep₀, hholds⟩ := h.read pre x post' heq
    refine ⟨d₀, hd₀, hkeep₀.trans hkeep, fun j b hb => hholds j b ?_⟩
    rwa [(hkeep x hx (hdevice hn hu)).2] at hb

/-- Placing a unit adds its step, if it computes. -/
theorem place {inlets : Array BufferId} (h : Log M d) (hl : Ledger M (⟨x, inlets⟩ :: fs) d)
    (hn : g.node? x = some n) (hu : n.body = .device u) (hp : g.Placed fs x n u inlets d d') :
    Log M (d'.mark x .placed) := by
  have hkeep := hp.places.keeps
  have hdevice : ∀ {y n u}, g.node? y = some n → n.body = .device u → g.isSubgraph y = false :=
    fun hn hu => by simp [isSubgraph, hn, Node.isSubgraph, hu]
  have hfits : ∀ y n u, g.node? y = some n → n.body = .device u →
      (d'.mark x .placed).visit y = .placed →
      g.Fits y u (d'.mark x .placed).pool.size ((d'.mark x .placed).binding y) := by
    intro y n' u' hn' hu' hy
    by_cases hyx : y = x
    · subst hyx
      rw [hn] at hn'
      cases hn'
      rw [hu] at hu'
      cases hu'
      exact hp.fits
    · rw [hp.places.visits y hyx] at hy
      rw [hp.places.bindings y hyx]
      exact (h.fits y n' u' hn' hu' hy).mono hp.pool.size_le
  -- what was read before is still read
  have hold : ∀ {pre y post}, d.steps.toList = pre ++ .unit y :: post →
      ∃ d₀ : Draft, d₀.steps.toList = pre ∧ g.Keeps d₀ (d'.mark x .placed) ∧
        ∀ (j : Nat) (b : BufferId), ((d'.mark x .placed).binding y).inlets[j]? = some b →
          M.Holds d₀ b [.inlet y j] := by
    intro pre y post heq
    obtain ⟨hy, n', u', hn', hu', -⟩ := (h.units y).1 (by rw [heq]; simp)
    obtain ⟨d₀, hd₀, hkeep₀, hholds⟩ := h.read pre y post heq
    refine ⟨d₀, hd₀, hkeep₀.trans hkeep, fun j b hb => hholds j b ?_⟩
    rwa [(hkeep y hy (hdevice hn' hu')).2] at hb
  have hsteps := hp.places.steps
  have hunplaced : Step.unit x ∉ d.steps.toList := fun hx => hp.places.unplaced ((h.units x).1 hx).1
  have hvisit : ∀ y, y ≠ x →
      ((d'.mark x .placed).visit y = .placed ↔ d.visit y = .placed) := fun y hy => by
    rw [hp.places.visits y hy]
  by_cases hcomputes : n.body.computes = true
  · rw [if_pos hcomputes] at hsteps
    have hlist : (d'.mark x .placed).steps.toList = d.steps.toList ++ [.unit x] := by
      rw [hsteps, Array.toList_push]
    constructor
    · exact h.pool.trans hp.pool
    · intro s hs
      rw [hlist] at hs
      rcases List.mem_append.1 hs with hs | hs
      · exact (h.sums s hs).imp_left fun h => h.mono hp.pool.size_le
      · exact .inr ⟨x, List.mem_singleton.1 hs⟩
    · intro y
      rw [hlist, List.mem_append, List.mem_singleton]
      by_cases hyx : y = x
      · subst hyx
        exact ⟨fun _ => ⟨hp.places.placed, n, u, hn, hu, hcomputes⟩, fun _ => .inr rfl⟩
      · rw [hvisit y hyx, ← h.units]
        exact or_iff_left (by simp [hyx])
    · rw [hlist, List.filterMap_append]
      refine List.nodup_append.2 ⟨h.once, by simp [Step.unit?], fun y hy z hz => ?_⟩
      have hz : z = x := by simpa [Step.unit?] using hz
      rintro rfl
      subst hz
      obtain ⟨s, hs, hsz⟩ := List.mem_filterMap.1 hy
      cases s with
      | unit z' =>
        cases hsz
        exact hunplaced hs
      | sum => cases hsz
    · exact hfits
    · intro pre y post heq
      rw [hlist] at heq
      rcases eq_or_eq_append_of_append_singleton heq with ⟨hpre, hyx⟩ | ⟨post', heq⟩
      · cases hyx
        refine ⟨d, hpre.symm, hkeep, fun j b hb => ?_⟩
        rw [Draft.binding_mark, hp.bound] at hb
        refine hl.holds (b, [.inlet x j]) (List.mem_append_right _ (List.mem_flatMap.2
          ⟨_, List.mem_cons_self, List.mem_map.2 ⟨(b, j), ?_, rfl⟩⟩))
        rw [List.mem_zipIdx_iff_getElem?]
        simpa using hb
      · exact hold heq
  · rw [if_neg hcomputes] at hsteps
    constructor
    · exact h.pool.trans hp.pool
    · intro s hs
      rw [hsteps] at hs
      exact (h.sums s hs).imp_left fun h => h.mono hp.pool.size_le
    · intro y
      rw [hsteps, h.units]
      by_cases hyx : y = x
      · subst hyx
        refine ⟨fun hy => absurd hy.1 hp.places.unplaced, ?_⟩
        rintro ⟨-, n', -, hn', -, hcomputes'⟩
        rw [hn] at hn'
        cases hn'
        exact absurd hcomputes' hcomputes
      · rw [hvisit y hyx]
    · rw [hsteps]
      exact h.once
    · exact hfits
    · intro pre y post heq
      rw [hsteps] at heq
      exact hold heq

end Log

/-! ## Along the walk -/

/-- Both books are kept along the walk. -/
def booksClient (hg : g.Sound) (hfit : g.nodes.size + g.connections.length < halfWordSize)
    (M : g.Meaning) : Client g where
  Faulty _ := False
  Inv fs d := Ledger M fs d ∧ Log M d
  Ready _ _ := True
  ready_advances _ _ := ⟨⟩
  ready_top _ := ⟨⟩
  ready_owner _ _ _ := ⟨⟩
  ready_source _ _ _ := ⟨⟩
  ready_parent _ _ _ := ⟨⟩
  ready_child _ _ _ := ⟨⟩
  ready_later _ _ _ := ⟨⟩
  enter := by
    rintro fs d x he ⟨hl, hlog⟩
    have hvisit := Draft.visit_mark (he.orderly.lt_visits he.contains) .binding
    refine ⟨hl.enter hg he, hlog.grow (.of_steps rfl (.refl _)) (fun y hy _ => ⟨?_, rfl⟩) ?_⟩
    · rw [hvisit, if_neg]
      · exact hy
      · rintro rfl
        rw [he.unvisited] at hy
        cases hy
    · intro y _ hy
      rw [hvisit] at hy
      split at hy
      · cases hy
      · exact hy
  mix := by
    rintro fs d x n inlets ho ⟨hl, hlog⟩ hn hv - hsources
    refine (hl.mix hg hfit ho hn hv hsources).attach.mono ?_
    rintro ⟨b, d'⟩ ⟨⟨hl', hgrow⟩, heq⟩
    obtain ⟨hvisits, hbindings, -⟩ := mixInlet_keeps heq
    dsimp only at hvisits hbindings
    have hvisit : ∀ y, d'.visit y = d.visit y := fun y => by
      rw [Draft.visit, hvisits, Draft.visit]
    have hbinding : ∀ y, d'.binding y = d.binding y := fun y => by
      rw [Draft.binding, hbindings, Draft.binding]
    exact ⟨hl', hlog.grow hgrow (fun y hy _ => ⟨(hvisit y).trans hy, hbinding y⟩)
      fun y _ hy => (hvisit y).symm.trans hy⟩
  unit := by
    rintro fs d₀ d x n u inlets - - - - ho ⟨hl, hlog⟩ hn hu hv hsize
    refine (hl.placeUnit_spec hg hfit ho hn hu hv hsize).mono fun d' hp => ?_
    exact ⟨hl.place hg ho hn hu hv hsize hp, hlog.place hl hn hu hp⟩
  fill := by
    rintro fs d x inlets ho ⟨hl, hlog⟩ hv hsub hsize
    have hc := (ho.framed _ List.mem_cons_self).1
    have hne : ∀ y, g.isSubgraph y = false → y ≠ x := by
      rintro y hy rfl
      rw [hsub] at hy
      cases hy
    have hvisit : ∀ y, y ≠ x → (openContents x inlets d).visit y = d.visit y := fun y hy => by
      rw [openContents, Draft.visit_mark_of_ne hy, Draft.visit_bind]
    refine ⟨hl.fill hg ho hv hsub hsize, hlog.grow (.of_steps rfl (.refl _))
      (fun y hy hunit => ⟨(hvisit y (hne y hunit)).trans hy, ?_⟩) fun y hunit hy => ?_⟩
    · rw [openContents, Draft.binding_mark, Draft.binding_bind (ho.lt_bindings hc),
        if_neg (hne y hunit)]
    · rwa [hvisit y (hne y hunit)] at hy
  close := by
    rintro fs d x inlets ho ⟨hl, hlog⟩ hv hinside
    have hsub := (ho.filling _ List.mem_cons_self hv).1
    have hne : ∀ y, g.isSubgraph y = false → y ≠ x := by
      rintro y hy rfl
      rw [hsub] at hy
      cases hy
    refine (hl.close hg ho hv hinside).attach.mono ?_
    rintro d' ⟨⟨hl', hgrow⟩, heq⟩
    obtain ⟨hvisits, -, hbindings, -⟩ := closeContents_keeps heq
    have hvisit : ∀ y, y ≠ x → (d'.mark x .placed).visit y = d.visit y := fun y hy => by
      rw [Draft.visit_mark_of_ne hy, Draft.visit, hvisits, Draft.visit]
    refine ⟨hl', hlog.grow ⟨hgrow.sums, hgrow.pool⟩ (fun y hy hunit => ?_) fun y hunit hy => ?_⟩
    · exact ⟨(hvisit y (hne y hunit)).trans hy, hbindings y (hne y hunit)⟩
    · rwa [hvisit y (hne y hunit)] at hy

/-! ## The end of the walk -/

omit [Device U] in
/-- At the start, only outlets that no unit is behind are settled. -/
theorem entries_startDraft (hg : g.Sound) {e : Entry} (he : e ∈ g.entries [] g.startDraft) :
    ∃ y k, g.isSubgraph y = true ∧ g.portUnit? y .outlet k = none ∧ e = (.zero, [.outlet y k]) := by
  rw [entries, List.flatMap_nil, List.append_nil] at he
  obtain ⟨c, hc, hdue⟩ := List.mem_filterMap.1 he
  unfold dueAt at hdue
  split at hdue
  · obtain ⟨b, hb, rfl⟩ := Option.map_eq_some_iff.1 hdue
    unfold settled? at hb
    split at hb
    · next hsub =>
      refine ⟨c.source, c.outlet, hsub, ?_⟩
      split at hb
      · next y hy =>
        have := visit_startDraft (contains_of_owner? (hg.nested.portUnit?_eq_some.1 hy).1)
        simp [this] at hb
      · next hnone =>
        cases hb
        exact ⟨hnone, rfl⟩
    · simp [visit_startDraft (hg.wired.source c hc)] at hb
  · cases hdue

theorem ledger_startDraft (hg : g.Sound) (M : g.Meaning) : Ledger M [] g.startDraft where
  balances := by
    refine (Pool.balances_reset g.pool).congr fun i => List.count_eq_zero.2 fun hi => ?_
    obtain ⟨e, he, hei⟩ := List.mem_map.1 hi
    obtain ⟨y, k, -, -, rfl⟩ := entries_startDraft hg he
    cases hei
  holds e he := by
    obtain ⟨y, k, hsub, hnone, rfl⟩ := entries_startDraft hg he
    exact M.closed hsub fun b hb => by simp [hnone] at hb
  taken y k hsub hv _ := by
    rw [visit_startDraft (contains_of_isSubgraph hsub)] at hv
    cases hv
  light := by simp

theorem log_startDraft (M : g.Meaning) : Log M g.startDraft where
  pool := .of_buffers rfl rfl
  sums := by simp [startDraft]
  units x := by
    have : Step.unit x ∉ g.startDraft.steps.toList := by simp [startDraft]
    refine ⟨fun h => absurd h this, ?_⟩
    rintro ⟨hv, n, u, hn, -⟩
    rw [visit_startDraft (contains_iff.2 ⟨n, hn⟩)] at hv
    cases hv
  once := by simp [startDraft]
  fits x n u hn _ hv := by
    rw [visit_startDraft (contains_iff.2 ⟨n, hn⟩)] at hv
    cases hv
  read pre x post h := by simp [startDraft] at h

omit [Device U] in
/-- When every node is placed nothing is due. -/
theorem entries_eq_nil (hg : g.Wired) (hplaced : ∀ x, g.contains x = true → d.visit x = .placed) :
    g.entries [] d = [] := by
  rw [entries, List.flatMap_nil, List.append_nil]
  refine List.filterMap_eq_nil_iff.2 fun c hc => ?_
  rw [dueAt, if_neg]
  exact fun h => h.2 (.inr (.inl (hplaced _ (hg.dest c hc))))

/-- The whole walk meets no fault; at its end no buffer is held, and the log is complete. -/
theorem fullDraft_books (hg : g.Sound)
    (hfit : g.nodes.size + g.connections.length < halfWordSize) (M : g.Meaning) :
    ∃ d, g.fullDraft = .ok d ∧ d.pool.Balances [] ∧ Log M d ∧
      ∀ x, g.contains x = true → d.visit x = .placed := by
  obtain ⟨d, heq, -, ⟨hl, hlog⟩, hplaced⟩ := (fullDraft_spec hg (booksClient hg hfit M)
    ⟨ledger_startDraft hg M, log_startDraft M⟩).exists_ok
  refine ⟨d, heq, ?_, hlog, hplaced⟩
  have := hl.balances
  rwa [entries_eq_nil hg.wired hplaced] at this

end Graph
end Patchbay
