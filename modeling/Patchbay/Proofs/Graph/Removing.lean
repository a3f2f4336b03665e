import Patchbay.Proofs.Graph.Contents
import Patchbay.Proofs.Graph.Wiring

/-!
# Removing nodes

A node goes after everything inside it, and takes its connections with it, so nothing ever refers to
a node that is gone. The walk that takes nodes out looks each of them up while others go. It always
finds them, and comes to dropping them one after the other (`uproot_eq`).
-/

namespace Patchbay

variable {U : Type} [Device U]

namespace Edit

/-- Dropping a connection changes neither the nodes nor the registry. -/
structure Dropped (g g' : Graph U) : Prop where
  size : g'.nodes.size = g.nodes.size
  shape : ∀ x, g'.shape? x = g.shape? x
  names : g'.names = g.names

omit [Device U] in
theorem Dropped.refl (g : Graph U) : Dropped g g := ⟨rfl, fun _ => rfl, rfl⟩

omit [Device U] in
theorem Dropped.trans {g g' g'' : Graph U} (h : Dropped g g') (h' : Dropped g' g'') :
    Dropped g g'' :=
  ⟨h'.size.trans h.size, fun x => (h'.shape x).trans (h.shape x), h'.names.trans h.names⟩

theorem dropped_drop (g : Graph U) (c : Connection) : Dropped g (drop g c) := by
  unfold drop
  dsimp only
  split
  · have h := sameShape_tell { g with connections := g.connections.erase c, plan := none } c.dest
      c.inlet
    exact ⟨h.size, h.shape, rfl⟩
  · exact ⟨rfl, fun _ => rfl, rfl⟩

theorem connections_drop (g : Graph U) (c : Connection) :
    (drop g c).connections = g.connections.erase c := by
  unfold drop
  dsimp only
  split <;> rfl

theorem dropped_foldl (cs : List Connection) (g : Graph U) : Dropped g (cs.foldl drop g) := by
  induction cs generalizing g with
  | nil => exact .refl g
  | cons c cs ih => exact (dropped_drop g c).trans (ih _)

theorem dropped_cutOff (g : Graph U) (id : UnitId) : Dropped g (cutOff g id) := dropped_foldl _ g

omit [Device U] in
theorem shape_vacate (g : Graph U) (id x : UnitId) :
    (vacate g id).shape? x = if x = id then none else g.shape? x := by
  simp only [vacate, Graph.shape?, Graph.node?_eq, Array.getElem?_setIfInBounds]
  by_cases hx : x = id
  · subst hx
    by_cases hlt : x.index < g.nodes.size <;> simp [hlt]
  · have : id.index ≠ x.index := fun he => hx (by cases x; cases id; simp_all)
    simp [hx, this]

omit [Device U] in
theorem connections_vacate (g : Graph U) (id : UnitId) :
    (vacate g id).connections = g.connections := rfl

/-- Dropping a node leaves every other one in shape. -/
theorem shape_dropNode (g : Graph U) (id x : UnitId) :
    (dropNode g id).shape? x = if x = id then none else g.shape? x := by
  rw [dropNode, shape_vacate, (dropped_cutOff g id).shape]

theorem shape_foldl_dropNode (l : List UnitId) (g : Graph U) (x : UnitId) :
    (l.foldl dropNode g).shape? x = if x ∈ l then none else g.shape? x := by
  induction l generalizing g with
  | nil => simp
  | cons y l ih =>
    rw [List.foldl_cons, ih, shape_dropNode]
    by_cases hx : x = y <;> simp [hx]

theorem size_foldl_dropNode (l : List UnitId) (g : Graph U) :
    (l.foldl dropNode g).nodes.size = g.nodes.size := by
  induction l generalizing g with
  | nil => rfl
  | cons x l ih =>
    rw [List.foldl_cons, ih, dropNode, vacate, Array.size_setIfInBounds]
    exact (dropped_cutOff g x).size

/-- No connections go with a node but its own. -/
theorem connections_dropNode (g : Graph U) (id : UnitId) :
    (dropNode g id).connections = (cutOff g id).connections := by
  rw [dropNode, connections_vacate]

/-- A node leaves its seat when it goes. -/
theorem names_dropNode (g : Graph U) (id : UnitId) : (dropNode g id).names =
    match g.registration? id with
    | some role => g.names.unregister id role
    | none => g.names := by
  have h := dropped_cutOff g id
  have hrole : ((cutOff g id).node? id).bind Node.registration = g.registration? id := by
    rw [Graph.registration?_eq_shape, ← h.shape, ← Graph.registration?_eq_shape]
    rfl
  rw [dropNode, vacate, hrole]
  cases g.registration? id with
  | none => exact h.names
  | some role => exact congrArg (Names.unregister · id role) h.names

theorem sound_foldl_drop (cs : List Connection) {g : Graph U} (hg : g.Sound) :
    (cs.foldl drop g).Sound := by
  induction cs generalizing g with
  | nil => exact hg
  | cons c cs ih => exact ih (sound_drop hg c)

theorem connections_foldl_drop (cs : List Connection) (g : Graph U) :
    (cs.foldl drop g).connections = g.connections.diff cs := by
  induction cs generalizing g with
  | nil => rfl
  | cons c cs ih => rw [List.foldl_cons, ih, connections_drop, List.diff_cons]

omit [Device U] in
/-- The connections at a node are those that are listed as leaving or entering it. -/
theorem mem_incident {g : Graph U} (hg : g.Wired) {x : UnitId} {c : Connection}
    (hc : c ∈ g.connections) :
    c ∈ g.allIncoming x ++ g.allOutgoing x ↔ c.source = x ∨ c.dest = x := by
  constructor
  · simp only [Graph.allIncoming, Graph.allOutgoing, List.mem_append, List.mem_flatMap,
      Graph.mem_streamSources, Graph.mem_messageSources, Graph.mem_outgoing]
    rintro ((⟨_, -, -, -, hx, -⟩ | ⟨_, -, -, -, hx, -⟩) | ⟨_, -, -, hx, -⟩)
    · exact .inr hx
    · exact .inr hx
    · exact .inl hx
  · rintro (rfl | rfl)
    · refine List.mem_append_right _ (List.mem_flatMap.2 ⟨c.outlet, ?_, ?_⟩)
      · exact List.mem_range.2 (hg.outlet c hc)
      · simp [Graph.outgoing, hc]
    · have hin := List.mem_range.2 (hg.inlet c hc)
      refine List.mem_append_left _ (List.mem_append.2 ?_)
      cases hk : g.kindOf c with
      | stream =>
        exact .inl (List.mem_flatMap.2 ⟨_, hin, Graph.mem_streamSources.2 ⟨hc, hk, rfl, rfl⟩⟩)
      | message =>
        exact .inr (List.mem_flatMap.2 ⟨_, hin, Graph.mem_messageSources.2 ⟨hc, hk, rfl, rfl⟩⟩)

/-- A node that has been cut off has no connections any more. All others stay, in their order. -/
theorem connections_cutOff {g : Graph U} (hg : g.Wired) (id : UnitId) :
    (cutOff g id).connections = g.connections.filter fun c => c.source ≠ id ∧ c.dest ≠ id := by
  rw [cutOff, connections_foldl_drop, hg.once.sdiff_eq_filter]
  refine List.filter_congr fun c hc => ?_
  simp [mem_incident hg hc, not_or]

theorem ends_cutOff {g : Graph U} (hg : g.Wired) {id : UnitId} {c : Connection}
    (hc : c ∈ (cutOff g id).connections) : c.source ≠ id ∧ c.dest ≠ id := by
  rw [connections_cutOff hg] at hc
  exact of_decide_eq_true (List.mem_filter.1 hc).2

/-! ## The place of a node is emptied -/

/-- That a node is gone that held nothing and had no connections. -/
structure Vacates (g : Graph U) (id : UnitId) (g' : Graph U) : Prop where
  shape : ∀ x, g'.shape? x = if x = id then none else g.shape? x
  connections : g'.connections = g.connections
  ends : ∀ c ∈ g.connections, c.source ≠ id ∧ c.dest ≠ id
  empty : ∀ x, g.owner? x ≠ some id

namespace Vacates

variable {g g' : Graph U} {id : UnitId} (h : Vacates g id g')
include h

omit [Device U] in
theorem shape_of_ne {x : UnitId} (hx : x ≠ id) : g'.shape? x = g.shape? x := by rw [h.shape, if_neg hx]

omit [Device U] in
theorem owner?_eq_some {x o : UnitId} (ho : g'.owner? x = some o) :
    x ≠ id ∧ o ≠ id ∧ g.owner? x = some o := by
  rw [Graph.owner?_eq_shape, h.shape] at ho
  split at ho
  · simp at ho
  · next hx =>
    rw [← Graph.owner?_eq_shape] at ho
    exact ⟨hx, fun he => h.empty x (he ▸ ho), ho⟩

omit [Device U] in
theorem port?_eq_some {x : UnitId} {p : Side × Nat} (hp : g'.port? x = some p) :
    x ≠ id ∧ g.port? x = some p := by
  rw [Graph.port?_eq_shape, h.shape] at hp
  split at hp
  · simp at hp
  · next hx => exact ⟨hx, by rw [Graph.port?_eq_shape, hp]⟩

omit [Device U] in
theorem registration?_eq (x : UnitId) :
    g'.registration? x = if x = id then none else g.registration? x := by
  rw [Graph.registration?_eq_shape, h.shape]
  split
  · rfl
  · rw [Graph.registration?_eq_shape]

omit [Device U] in
theorem registration?_eq_some {x : UnitId} {role : Registration}
    (hrole : g'.registration? x = some role) : x ≠ id ∧ g.registration? x = some role := by
  rw [h.registration?_eq] at hrole
  split at hrole
  · cases hrole
  · next hx => exact ⟨hx, hrole⟩

omit [Device U] in
theorem isSubgraph {x : UnitId} (hx : x ≠ id) : g'.isSubgraph x = g.isSubgraph x := by
  rw [Graph.isSubgraph_eq_shape, h.shape_of_ne hx, ← Graph.isSubgraph_eq_shape]

omit [Device U] in
theorem ports {x : UnitId} (hx : x ≠ id) : g'.ports x = g.ports x := by
  rw [Graph.ports_eq_shape, h.shape_of_ne hx, ← Graph.ports_eq_shape]

omit [Device U] in
theorem kindOf {c : Connection} (hc : c ∈ g.connections) : g'.kindOf c = g.kindOf c := by
  rw [Graph.kindOf, Graph.kindOf, h.ports (h.ends c hc).1]

omit [Device U] in
theorem wired (hg : g.Wired) : g'.Wired := by
  constructor <;> (try rw [h.connections])
  · intro c hc
    rw [Graph.contains_eq_shape, h.shape_of_ne (h.ends c hc).1, ← Graph.contains_eq_shape]
    exact hg.source c hc
  · intro c hc
    rw [Graph.contains_eq_shape, h.shape_of_ne (h.ends c hc).2, ← Graph.contains_eq_shape]
    exact hg.dest c hc
  · intro c hc
    rw [Graph.owner?_eq_shape, Graph.owner?_eq_shape, h.shape_of_ne (h.ends c hc).1,
      h.shape_of_ne (h.ends c hc).2, ← Graph.owner?_eq_shape, ← Graph.owner?_eq_shape]
    exact hg.level c hc
  · exact fun c hc => h.ports (h.ends c hc).1 ▸ hg.outlet c hc
  · exact fun c hc => h.ports (h.ends c hc).2 ▸ hg.inlet c hc
  · exact fun c hc hk => h.ports (h.ends c hc).2 ▸ hg.streamInlet c hc (h.kindOf hc ▸ hk)
  · exact hg.once
  · have hstreams : ∀ x y, g'.Streams x y → g.Streams x y := by
      rintro x y ⟨c, hc, hk, hxy⟩
      rw [h.connections] at hc
      exact ⟨c, hc, h.kindOf hc ▸ hk, hxy⟩
    exact fun x hx => hg.acyclic x (Relation.TransGen.mono hstreams _ _ hx)

omit [Device U] in
theorem nested (hg : g.Nested) : g'.Nested := by
  constructor
  · exact fun ho => hg.older (h.owner?_eq_some ho).2.2
  · intro x o ho
    obtain ⟨-, hne, ho⟩ := h.owner?_eq_some ho
    exact (h.isSubgraph hne).trans (hg.holder ho)
  · intro x p hp
    obtain ⟨hx, hp⟩ := h.port?_eq_some hp
    obtain ⟨o, ho⟩ := hg.portOwned hp
    exact ⟨o, by rw [Graph.owner?_eq_shape, h.shape_of_ne hx, ← Graph.owner?_eq_shape, ho]⟩
  · intro x p hp
    obtain ⟨hx, hp⟩ := h.port?_eq_some hp
    exact (h.isSubgraph hx).trans (hg.portUnit hp)
  · intro x o side k ho hp
    obtain ⟨-, hne, ho⟩ := h.owner?_eq_some ho
    exact h.ports hne ▸ hg.portIndex ho (h.port?_eq_some hp).2
  · exact fun hx hy hpx hpy => hg.portOnce (h.owner?_eq_some hx).2.2 (h.owner?_eq_some hy).2.2
      (h.port?_eq_some hpx).2 (h.port?_eq_some hpy).2
  · intro x hsub
    have hx : x ≠ id := by
      rintro rfl
      simp [Graph.isSubgraph_eq_shape, h.shape] at hsub
    rw [h.ports hx]
    exact hg.inlets (h.isSubgraph hx ▸ hsub)

omit [Device U] in
/-- The registry fits what is left if the node has given up its seat. -/
theorem registered (hg : g.Registered) (hnames : g'.names =
    match g.registration? id with
    | some role => g.names.unregister id role
    | none => g.names) : g'.Registered := by
  have hunit : ∀ {x role}, g'.registration? x = some role → g'.isSubgraph x = false := by
    intro x role hrole
    obtain ⟨hx, hrole⟩ := h.registration?_eq_some hrole
    exact (h.isSubgraph hx).trans (hg.unit hrole)
  have hhandle : ∀ {x}, x ≠ id → g'.handle? x = g.handle? x := fun hx => by
    rw [Graph.handle?_eq_shape, h.shape_of_ne hx, ← Graph.handle?_eq_shape]
  cases hr : g.registration? id with
  | none =>
    simp only [hr] at hnames
    refine ⟨hnames ▸ hg.names, fun {x s} => ?_, fun {x role} hrole => ?_, hunit⟩
    · rw [hnames, h.registration?_eq, hg.seated]
      split
      · next hx => simp [hx, hr]
      · rfl
    · obtain ⟨hx, hrole⟩ := h.registration?_eq_some hrole
      rw [hhandle hx, hnames]
      exact hg.handle hrole
  | some role =>
    simp only [hr] at hnames
    obtain ⟨hsound, hseated, hkeep⟩ := Names.unregister_eq hg.names id role
    have hmem : ∀ {x s}, x ∈ (g.names.unregister id role).seated s ↔
        x ∈ g.names.seated s ∧ x ≠ id := by
      intro x s
      rw [hseated]
      split
      · simp
      · next hs =>
        refine ⟨fun hx => ⟨hx, fun he => hs ?_⟩, fun hx => hx.1⟩
        have := hg.seated.1 hx
        rw [he, hr] at this
        exact (Option.some.inj this).symm
    refine ⟨hnames ▸ hsound, fun {x s} => ?_, fun {x role'} hrole => ?_, hunit⟩
    · rw [hnames, hmem, h.registration?_eq, hg.seated]
      split
      · next hx => simp [hx]
      · next hx => simp [hx]
    · obtain ⟨hx, hrole⟩ := h.registration?_eq_some hrole
      have hx' : x ∈ (g.names.unregister id role).seated role'.seat :=
        hmem.2 ⟨hg.seated.2 (by simp [hrole]), hx⟩
      rw [hhandle hx, hnames, hkeep _ (List.ne_nil_of_mem hx')]
      exact hg.handle hrole

end Vacates

/-- A node that holds nothing is cut off before it goes. -/
theorem vacates_dropNode {g : Graph U} (hg : g.Wired) {id : UnitId}
    (hempty : ∀ x, g.owner? x ≠ some id) : Vacates (cutOff g id) id (dropNode g id) where
  shape := shape_vacate _ id
  connections := connections_dropNode g id
  ends _ := ends_cutOff hg
  empty x := by
    rw [Graph.owner?_eq_shape, (dropped_cutOff g id).shape, ← Graph.owner?_eq_shape]
    exact hempty x

/-- Dropping a node that holds nothing keeps a graph sound. -/
theorem sound_dropNode {g : Graph U} (hg : g.Sound) {id : UnitId}
    (hempty : ∀ x, g.owner? x ≠ some id) : (dropNode g id).Sound := by
  have hcut : (cutOff g id).Sound := sound_foldl_drop _ hg
  have hvacates := vacates_dropNode hg.wired hempty
  have hnames := names_dropNode g id
  rw [← (dropped_cutOff g id).names, Graph.registration?_eq_shape, ← (dropped_cutOff g id).shape,
    ← Graph.registration?_eq_shape] at hnames
  exact ⟨hvacates.wired hcut.wired, hvacates.nested hcut.nested,
    hvacates.registered hcut.registered hnames⟩

/-! ## Contents first -/

omit [Device U] in
/-- In the list of a node behind its contents everything stands behind what it holds. -/
theorem contentsFirst_ordered {g : Graph U} (hg : g.Nested) (id : UnitId) {before after : List UnitId}
    {x : UnitId} (h : g.contentsFirst id = before ++ x :: after) {c : UnitId}
    (hc : g.owner? c = some x) : c ∈ before := by
  -- it is enough to look at the list of one node that `x` is in
  suffices ∀ y before after, g.contentsFirst y = before ++ x :: after → c ∈ before from
    this id before after h
  intro y
  induction y using Graph.contentsFirst.induct g with
  | case1 y ih =>
    intro before after h
    rw [Graph.contentsFirst] at h
    have hflat : ∀ (l : List {z // z ∈ g.children y}) (before after : List UnitId),
        l.flatMap (fun z => g.contentsFirst z.val) = before ++ x :: after → c ∈ before := by
      intro l
      induction l with
      | nil =>
        intro before after h
        simp at h
      | cons z l ihl =>
        intro before after h
        rw [List.flatMap_cons, List.append_eq_append_iff] at h
        rcases h with ⟨mid, rfl, h⟩ | ⟨mid, hz, h⟩
        · exact List.mem_append_right _ (ihl mid after h)
        · cases mid with
          | nil =>
            rw [List.append_nil] at hz
            have := ihl [] after (by simpa using h.symm)
            simp at this
          | cons m mid =>
            rw [List.cons_append, List.cons.injEq] at h
            obtain ⟨rfl, -⟩ := h
            exact ih z before mid hz
    rw [List.append_eq_append_iff] at h
    rcases h with ⟨mid, rfl, h⟩ | ⟨mid, hflat', h⟩
    · cases mid with
      | nil =>
        rw [List.nil_append, List.cons.injEq] at h
        obtain ⟨rfl, -⟩ := h
        have hmem : c ∈ g.children y := hg.mem_children.2 hc
        simp only [List.append_nil, List.mem_flatMap]
        exact ⟨⟨c, hmem⟩, List.mem_attach _ _, g.self_mem_contentsFirst c⟩
      | cons m mid => simp at h
    · cases mid with
      | nil =>
        rw [List.nil_append, List.cons.injEq] at h
        obtain ⟨rfl, -⟩ := h
        have hmem : c ∈ g.children x := hg.mem_children.2 hc
        rw [List.append_nil] at hflat'
        rw [← hflat', List.mem_flatMap]
        exact ⟨⟨c, hmem⟩, List.mem_attach _ _, g.self_mem_contentsFirst c⟩
      | cons m mid =>
        rw [List.cons_append, List.cons.injEq] at h
        obtain ⟨rfl, -⟩ := h
        exact hflat _ before mid hflat'

/-- What holds of a sound graph when certain nodes are gone, and each further node that holds nothing
keeps as it goes, holds as a node and everything inside it go. -/
theorem foldl_dropNode_keeps {P : List UnitId → Graph U → Prop} {g : Graph U} (hg : g.Sound)
    (hP : P [] g)
    (hdrop : ∀ {gone g' x}, g'.Sound → (∀ y, g'.owner? y ≠ some x) → P gone g' →
      P (gone ++ [x]) (dropNode g' x))
    {id : UnitId} (gone : List UnitId) {rest : List UnitId} (h : g.contentsFirst id = gone ++ rest) :
    (gone.foldl dropNode g).Sound ∧ P gone (gone.foldl dropNode g) := by
  induction gone using List.reverseRecOn generalizing rest with
  | nil => exact ⟨hg, hP⟩
  | append_singleton gone x ih =>
    rw [List.append_assoc, List.singleton_append] at h
    obtain ⟨hsound, hkept⟩ := ih h
    have hempty : ∀ c, Graph.owner? (gone.foldl dropNode g) c ≠ some x := by
      intro c hc
      rw [Graph.owner?_eq_shape, shape_foldl_dropNode] at hc
      split at hc
      · cases hc
      · next hnot =>
        rw [← Graph.owner?_eq_shape] at hc
        exact hnot (contentsFirst_ordered hg.nested id h hc)
    rw [List.foldl_append, List.foldl_cons, List.foldl_nil]
    exact ⟨sound_dropNode hsound hempty, hdrop hsound hempty hkept⟩

/-- A graph is sound after a node and everything inside it have been dropped. -/
theorem sound_foldl_dropNode {g : Graph U} (hg : g.Sound) (id : UnitId) :
    ((g.contentsFirst id).foldl dropNode g).Sound :=
  (foldl_dropNode_keeps (P := fun _ _ => True) hg ⟨⟩ (fun _ _ _ => ⟨⟩) _
    (List.append_nil _).symm).1

omit [Device U] in
/-- What goes with a node is the node, or was inside something that goes with it. -/
theorem mem_contentsFirst_cases {g : Graph U} {id x : UnitId} (h : x ∈ g.contentsFirst id) :
    x = id ∨ ∃ o, g.owner? x = some o ∧ o ∈ g.contentsFirst id := by
  induction id using Graph.contentsFirst.induct g with
  | case1 y ih =>
    rw [Graph.contentsFirst, List.mem_append, List.mem_singleton, List.mem_flatMap] at h
    rcases h with ⟨c, -, hc⟩ | h
    · have hsub : ∀ z, z ∈ g.contentsFirst c.val → z ∈ g.contentsFirst y := by
        intro z hz
        rw [Graph.contentsFirst, List.mem_append, List.mem_flatMap]
        exact .inl ⟨c, List.mem_attach _ _, hz⟩
      right
      rcases ih c hc with rfl | ⟨o, ho, hmem⟩
      · exact ⟨y, (Graph.mem_children.1 c.property).2, g.self_mem_contentsFirst y⟩
      · exact ⟨o, ho, hsub o hmem⟩
    · exact .inl h

/-! ## Taking nodes out -/

theorem contains_foldl_dropNode (l : List UnitId) (g : Graph U) {x : UnitId} (hx : x ∉ l) :
    (l.foldl dropNode g).contains x = g.contains x := by
  rw [Graph.contains_eq_shape, shape_foldl_dropNode, if_neg hx, ← Graph.contains_eq_shape]

/-- What a node is when everything inside it is gone and it has lost its connections. -/
def uprooted? (g : Graph U) (id : UnitId) : Option (Body U) :=
  ((cutOff ((g.contents id).foldl dropNode g) id).node? id).map Node.body

/-- Nodes that are side by side are taken out one after the other. What goes with one of them leaves
those behind it as they are. -/
theorem forM_uproot {depth : ℕ} {l : List UnitId} {g : Graph U}
    (huproot : ∀ (g' : Graph U), ∀ c ∈ l, g'.contains c = true → g'.nodes.size = g.nodes.size →
      ∃ body, uproot depth c g' = .ok body ((g'.contentsFirst c).foldl dropNode g'))
    (hlive : ∀ c ∈ l, g.contains c = true)
    (hapart : l.Pairwise fun c d => (g.contentsFirst c).Disjoint (g.contentsFirst d)) :
    l.forM (fun c => discard (uproot depth c)) g =
      .ok ⟨⟩ ((l.flatMap g.contentsFirst).foldl dropNode g) := by
  induction l generalizing g with
  | nil => rfl
  | cons c l ih =>
    obtain ⟨hc, hapart⟩ := List.pairwise_cons.1 hapart
    obtain ⟨body, hbody⟩ := huproot g c List.mem_cons_self (hlive c List.mem_cons_self) rfl
    have hsize := size_foldl_dropNode (g.contentsFirst c) g
    have hstays : ∀ d ∈ l, Graph.contentsFirst ((g.contentsFirst c).foldl dropNode g) d =
        g.contentsFirst d := fun d hd =>
      Graph.contentsFirst_of_shapes hsize (shape_foldl_dropNode _ g) (hc d hd)
    have hrest := ih (g := (g.contentsFirst c).foldl dropNode g)
      (fun g' d hd hg' he => huproot g' d (List.mem_cons_of_mem c hd) hg' (he.trans hsize))
      (fun d hd => by
        rw [contains_foldl_dropNode]
        · exact hlive d (List.mem_cons_of_mem c hd)
        · exact fun hmem => hc d hd hmem (g.self_mem_contentsFirst d))
      (hapart.imp_of_mem fun hd hd' h => by rwa [hstays _ hd, hstays _ hd'])
    rw [List.flatMap_congr hstays] at hrest
    have hdiscard : discard (uproot depth c) g =
        .ok ⟨⟩ ((g.contentsFirst c).foldl dropNode g) := by
      show EStateM.map _ (uproot depth c) g = _
      rw [EStateM.map, hbody]
    show (discard (uproot depth c) >>= fun _ => l.forM fun c => discard (uproot depth c)) g = _
    rw [run_bind, hdiscard, List.flatMap_cons, List.foldl_append]
    exact hrest

/-- A node that is there is taken out, with everything inside it. No look-up on the way fails. -/
theorem uproot_eq {depth : ℕ} {g : Graph U} {id : UnitId} (hid : g.contains id = true)
    (hdepth : g.nodes.size ≤ id.index + depth) :
    ∃ body, uprooted? g id = some body ∧
      uproot depth id g = .ok body ((g.contentsFirst id).foldl dropNode g) := by
  induction depth generalizing g id with
  | zero => exact absurd (Graph.lt_size_of_contains hid) (Nat.not_lt.2 hdepth)
  | succ depth ih =>
    have hchildren : (g.children id).forM (fun c => discard (uproot depth c)) g = _ := forM_uproot
      (fun g' c hc hlive hsize => by
        have hlt := (Graph.lt_of_mem_children hc).1
        obtain ⟨body, -, h⟩ := ih hlive (by omega)
        exact ⟨body, h⟩)
      (fun c hc => Graph.contains_of_mem_children hc) (g.pairwise_disjoint_children id)
    -- the node is still there when its contents are gone, and when its connections are
    have hleft : Graph.contains ((g.contents id).foldl dropNode g) id = true := by
      rw [contains_foldl_dropNode _ _ (g.not_mem_contents id), hid]
    have hcut : Graph.contains (cutOff ((g.contents id).foldl dropNode g) id) id = true := by
      rw [Graph.contains_eq_shape, (dropped_cutOff _ id).shape, ← Graph.contains_eq_shape, hleft]
    obtain ⟨_, -, hnode⟩ := node_of_contains hid
    obtain ⟨_, -, hnode₁⟩ := node_of_contains hleft
    obtain ⟨n, hn, hnode₂⟩ := node_of_contains hcut
    refine ⟨n.body, by rw [uprooted?, hn]; rfl, ?_⟩
    rw [uproot, run_bind, hnode]
    dsimp only
    rw [run_get_bind, run_bind, hchildren]
    dsimp only
    rw [← Graph.contents, run_bind, hnode₁]
    dsimp only
    rw [run_modify_bind, run_bind, hnode₂]
    dsimp only
    rw [run_modify_bind, run_pure, Graph.contentsFirst_eq, List.foldl_append]
    rfl

/-- A node that is there is removed, unless it stands for a port of a subgraph that is there. -/
theorem remove_eq {id : UnitId} {n : Node U} {g : Graph U} (hn : g.node? id = some n)
    (hfree : ¬ (n.port.isSome ∧ n.owner.any g.contains)) :
    ∃ body, uprooted? g id = some body ∧
      remove id g = .ok body ((g.contentsFirst id).foldl dropNode g) := by
  obtain ⟨body, hbody, huproot⟩ :=
    uproot_eq (Graph.contains_iff.2 ⟨n, hn⟩) (Nat.le_add_left g.nodes.size id.index)
  refine ⟨body, hbody, ?_⟩
  rw [remove, run_bind, node_eq_ok.2 ⟨hn, rfl⟩]
  dsimp only
  rw [run_get_bind]
  simp only [hfree, if_false]
  exact huproot

/-- What was refused is not removed, and what was removed is gone with everything inside it. -/
theorem remove_eq_ok {id : UnitId} {body : Body U} {g g' : Graph U}
    (h : remove id g = .ok body g') :
    (∃ n, g.node? id = some n ∧ ¬ (n.port.isSome ∧ n.owner.any g.contains) ∧
      uprooted? g id = some body) ∧ g' = (g.contentsFirst id).foldl dropNode g := by
  have h' := h
  unfold remove at h'
  obtain ⟨n, _, hnode, h'⟩ := run_bind_eq_ok.1 h'
  obtain ⟨hn, rfl⟩ := node_eq_ok.1 hnode
  rw [run_get_bind] at h'
  by_cases hport : n.port.isSome ∧ n.owner.any g.contains
  · simp only [hport] at h'
    cases h'
  · obtain ⟨body', hbody, hremove⟩ := remove_eq hn hport
    rw [h] at hremove
    cases hremove
    exact ⟨⟨n, hn, hport, hbody⟩, rfl⟩

/-- Removing a node and everything inside it keeps a graph sound. -/
theorem sound_remove {g g' : Graph U} {id : UnitId} {body : Body U} (hg : g.Sound)
    (h : remove id g = .ok body g') : g'.Sound := by
  obtain ⟨-, rfl⟩ := remove_eq_ok h
  exact sound_foldl_dropNode hg id

end Edit
end Patchbay
