import Patchbay.Proofs.Graph.Editing

/-!
# What edits look at

An edit looks at the nodes, the connections and the names of a graph, and at nothing else (`Blind`). So
it comes to the same whether the graph has been planned or not.
-/

namespace Patchbay

variable {U : Type}

namespace Graph

/-- That two graphs have the same nodes, connections and names. Their plans and pools may differ. -/
structure SameParts (g g' : Graph U) : Prop where
  nodes : g'.nodes = g.nodes
  connections : g'.connections = g.connections
  names : g'.names = g.names

theorem SameParts.refl (g : Graph U) : g.SameParts g := ⟨rfl, rfl, rfl⟩

theorem SameParts.symm {g g' : Graph U} (h : g.SameParts g') : g'.SameParts g :=
  ⟨h.nodes.symm, h.connections.symm, h.names.symm⟩

theorem SameParts.trans {g g' g'' : Graph U} (h : g.SameParts g') (h' : g'.SameParts g'') :
    g.SameParts g'' :=
  ⟨h'.nodes.trans h.nodes, h'.connections.trans h.connections, h'.names.trans h.names⟩

/-- What is left of a graph is what is not one of its parts. -/
theorem SameParts.eq {g g' : Graph U} (h : g.SameParts g') :
    ∃ pool plan notices, g' = { g with pool, plan, notices } := by
  obtain ⟨nodes, connections, names, pool, plan, notices⟩ := g'
  obtain ⟨rfl, rfl, rfl⟩ := h
  exact ⟨pool, plan, notices, rfl⟩

theorem SameParts.children {g g' : Graph U} (h : g.SameParts g') (id : UnitId) :
    g'.children id = g.children id := by
  obtain ⟨pool, plan, notices, rfl⟩ := h.eq
  rfl

end Graph

namespace Edit

variable {α β : Type} {g g' : Graph U}

/-- That an edit has come to the same on two graphs. -/
inductive Agrees : EStateM.Result Failure (Graph U) α → EStateM.Result Failure (Graph U) α → Prop
  | ok (a : α) {g g' : Graph U} : g.SameParts g' → Agrees (.ok a g) (.ok a g')
  | error (f : Failure) {g g' : Graph U} : g.SameParts g' → Agrees (.error f g) (.error f g')

/-- That an edit looks only at the parts of a graph. -/
def Blind (change : Edit U α) : Prop :=
  ∀ g g' : Graph U, g.SameParts g' → Agrees (change g) (change g')

theorem Agrees.bind {x : Edit U α} {f f' : α → Edit U β} (h : Agrees (x g) (x g'))
    (hf : ∀ a g₁ g₁', Graph.SameParts g₁ g₁' → Agrees (f a g₁) (f' a g₁')) :
    Agrees ((x >>= f) g) ((x >>= f') g') := by
  rw [run_bind, run_bind]
  cases hx : x g <;> cases hx' : x g' <;> rw [hx, hx'] at h <;> cases h
  · next h => exact hf _ _ _ h
  · next h => exact .error _ h

theorem Blind.bind {x : Edit U α} {f : α → Edit U β} (h : Blind x) (hf : ∀ a, Blind (f a)) :
    Blind (x >>= f) := fun g g' hg => (h g g' hg).bind hf

theorem blind_pure (a : α) : Blind (pure a : Edit U α) := fun _ _ hg => .ok a hg

theorem blind_refuse (why : GraphError) : Blind (refuse why : Edit U α) :=
  fun _ _ hg => .error _ hg

theorem blind_ofResult (x : Except Fault α) : Blind (ofResult x : Edit U α) := by
  intro g g' hg
  cases x with
  | error f => exact .error _ hg
  | ok a => exact .ok a hg

theorem blind_modify {f : Graph U → Graph U}
    (hf : ∀ g g' : Graph U, g.SameParts g' → (f g).SameParts (f g')) :
    Blind (modify f : Edit U PUnit) := fun g g' hg => .ok PUnit.unit (hf g g' hg)

theorem blind_node (id : UnitId) : Blind (node (U := U) id) := by
  intro g g' hg
  have hn : g'.node? id = g.node? id := by rw [Graph.node?, Graph.node?, hg.nodes]
  rw [node, run_get_bind, run_get_bind, hn]
  cases g.node? id with
  | none => exact .error _ hg
  | some n => exact .ok n hg

theorem sameParts_modifyNode (hg : g.SameParts g') (id : UnitId) (f : Node U → Node U) :
    (g.modifyNode id f).SameParts (g'.modifyNode id f) := by
  obtain ⟨pool, plan, notices, rfl⟩ := hg.eq
  exact ⟨rfl, rfl, rfl⟩

variable [Device U]

theorem blind_insert (owner : Option UnitId) (body : Body U) : Blind (insert owner body) := by
  intro g g' hg
  obtain ⟨pool, plan, notices, rfl⟩ := hg.eq
  unfold insert
  rw [run_get_bind, run_get_bind]
  cases hr : body.registration with
  | none =>
    simp only [pure_bind]
    exact (blind_ofResult _ _ _ hg).bind fun _ _ _ _ => .ok _ ⟨rfl, rfl, rfl⟩
  | some role =>
    refine (blind_ofResult _ _ _ hg).bind ?_
    rintro ⟨handle, names⟩ g₁ g₁' hg₁
    exact (blind_ofResult _ _ _ hg₁).bind fun _ _ _ _ => .ok _ ⟨rfl, rfl, rfl⟩

theorem blind_insertInto (owner : UnitId) (body : Body U) : Blind (insertInto owner body) := by
  unfold insertInto
  refine (blind_node owner).bind fun holder => ?_
  cases hsub : holder.isSubgraph with
  | false => exact blind_refuse _
  | true =>
    simp only [Bool.not_true, Bool.false_eq_true, if_false]
    cases hside : body.side with
    | none => exact (blind_insert _ body).bind fun id => (blind_node owner).bind fun _ => blind_pure id
    | some side =>
      cases hgrow : holder.ports.grow? body.ports side with
      | none =>
        simp only [hgrow]
        exact blind_refuse _
      | some grown =>
        simp only [hgrow]
        refine (blind_insert _ body).bind fun id => (blind_node owner).bind fun _ => ?_
        refine (blind_modify fun _ _ hg => sameParts_modifyNode hg _ _).bind fun _ => ?_
        refine (blind_node id).bind fun _ => ?_
        exact (blind_modify fun _ _ hg => sameParts_modifyNode hg _ _).bind fun _ => blind_pure id

theorem blind_add (owner : Option UnitId) (body : Body U) : Blind (add owner body) := by
  cases owner with
  | none => exact blind_insert none body
  | some owner => exact blind_insertInto owner body

theorem sameParts_tell (hg : g.SameParts g') (id : UnitId) (inlet : Nat) :
    (tell g id inlet).SameParts (tell g' id inlet) := by
  obtain ⟨pool, plan, notices, rfl⟩ := hg.eq
  exact ⟨rfl, rfl, rfl⟩

theorem sameParts_drop (hg : g.SameParts g') (c : Connection) :
    (drop g c).SameParts (drop g' c) := by
  have hdropped : Graph.SameParts { g with connections := g.connections.erase c, plan := none }
      { g' with connections := g'.connections.erase c, plan := none } :=
    ⟨hg.nodes, by rw [hg.connections], hg.names⟩
  have hkind : g'.kindOf c = g.kindOf c := by
    obtain ⟨pool, plan, notices, rfl⟩ := hg.eq
    rfl
  unfold drop
  dsimp only
  rw [hkind]
  by_cases h : c ∈ g.connections ∧ g.kindOf c = .stream
  · rw [if_pos h, if_pos (hg.connections ▸ h)]
    exact sameParts_tell hdropped _ _
  · rw [if_neg h, if_neg (hg.connections ▸ h)]
    exact hdropped

omit [Device U] in
theorem sameParts_foldl {α : Type} {f : Graph U → α → Graph U}
    (hf : ∀ {g g' : Graph U} (a : α), g.SameParts g' → (f g a).SameParts (f g' a)) (l : List α) :
    ∀ {g g' : Graph U}, g.SameParts g' → (l.foldl f g).SameParts (l.foldl f g') := by
  induction l with
  | nil => exact fun hg => hg
  | cons a l ih => exact fun hg => ih (hf a hg)

theorem sameParts_cutOff (hg : g.SameParts g') (id : UnitId) :
    (cutOff g id).SameParts (cutOff g' id) := by
  have hfold := sameParts_foldl (fun c hg => sameParts_drop hg c) (g.allIncoming id ++ g.allOutgoing id) hg
  obtain ⟨pool, plan, notices, rfl⟩ := hg.eq
  exact hfold

omit [Device U] in
theorem sameParts_vacate (hg : g.SameParts g') (id : UnitId) : (vacate g id).SameParts (vacate g' id) := by
  obtain ⟨pool, plan, notices, rfl⟩ := hg.eq
  exact ⟨rfl, rfl, rfl⟩

omit [Device U] in
theorem Blind.forM {f : β → Edit U PUnit} (hf : ∀ b, Blind (f b)) (l : List β) : Blind (l.forM f) := by
  induction l with
  | nil => exact blind_pure _
  | cons b l ih => exact (hf b).bind fun _ => ih

omit [Device U] in
theorem Blind.discard {x : Edit U α} (h : Blind x) : Blind (discard x) := by
  intro g g' hg
  show Agrees (EStateM.map _ x g) (EStateM.map _ x g')
  unfold EStateM.map
  have hx := h g g' hg
  cases hxg : x g <;> cases hxg' : x g' <;> rw [hxg, hxg'] at hx <;> cases hx
  · next h => exact .ok _ h
  · next h => exact .error _ h

theorem blind_uproot (depth : ℕ) (id : UnitId) : Blind (uproot (U := U) depth id) := by
  induction depth generalizing id with
  | zero => exact fun _ _ hg => .error _ hg
  | succ depth ih =>
    refine (blind_node id).bind fun _ => ?_
    intro g g' hg
    rw [run_get_bind, run_get_bind, hg.children]
    refine (Blind.forM (fun child => (ih child).discard) _).bind (fun _ => ?_) g g' hg
    refine (blind_node id).bind fun _ => ?_
    refine (blind_modify fun _ _ hg => sameParts_cutOff hg id).bind fun _ => ?_
    refine (blind_node id).bind fun n => ?_
    exact (blind_modify fun _ _ hg => sameParts_vacate hg id).bind fun _ => blind_pure n.body

theorem blind_remove (id : UnitId) : Blind (remove (U := U) id) := by
  refine (blind_node id).bind fun n => ?_
  intro g g' hg
  have hcontains : g'.contains = g.contains := by
    obtain ⟨pool, plan, notices, rfl⟩ := hg.eq
    rfl
  rw [run_get_bind, run_get_bind, hcontains]
  by_cases h : n.port.isSome ∧ n.owner.any g.contains
  · simp only [h, and_self, if_true]
    exact .error _ hg
  · simp only [h, if_false]
    show Agrees (uproot g.nodes.size id g) (uproot g'.nodes.size id g')
    rw [hg.nodes]
    exact blind_uproot _ id g g' hg

omit [Device U] in
theorem blind_validate (c : Connection) : Blind (validate (U := U) c) := by
  refine (blind_node c.source).bind fun source => (blind_node c.dest).bind fun dest => ?_
  by_cases howner : source.owner = dest.owner
  · simp only [howner, ne_eq, not_true, if_false]
    cases hkind : source.ports.outletKind c.outlet with
    | none => exact blind_refuse _
    | some kind =>
      by_cases hin : dest.ports.inlets ≤ c.inlet
      · simp only [hin, if_true]
        exact blind_refuse _
      · simp only [hin, if_false]
        split
        · exact blind_refuse _
        · exact blind_pure kind
  · simp only [howner, ne_eq, not_false_eq_true, if_true]
    exact blind_refuse _

theorem blind_connect (c : Connection) : Blind (connect (U := U) c) := by
  refine (blind_validate c).bind fun kind => ?_
  intro g g' hg
  have hreach : streamsReach g' c.dest c.source = streamsReach g c.dest c.source := by
    obtain ⟨pool, plan, notices, rfl⟩ := hg.eq
    rfl
  rw [run_get_bind, run_get_bind, hg.connections, hreach]
  refine (blind_node c.source).bind (fun _ => ?_) g g' hg
  by_cases hmem : c ∈ g.connections
  · simp only [hmem, if_true]
    exact blind_refuse _
  by_cases hcycle : kind = .stream ∧ streamsReach g c.dest c.source
  · simp only [hmem, hcycle, and_self, if_true, if_false]
    exact blind_refuse _
  simp only [hmem, hcycle, if_false]
  refine (blind_modify fun g g' hg => ?_).bind fun _ => (blind_node c.dest).bind fun _ => ?_
  · exact ⟨hg.nodes, by rw [hg.connections], hg.names⟩
  · split
    · exact (blind_modify fun _ _ hg => sameParts_tell hg _ _).bind fun _ => blind_pure kind
    · exact blind_pure kind

theorem blind_disconnect (c : Connection) : Blind (disconnect (U := U) c) := by
  refine (blind_node c.dest).bind fun _ => (blind_node c.source).bind fun _ => ?_
  intro g g' hg
  rw [run_get_bind, run_get_bind, hg.connections]
  split
  · exact .error _ hg
  · exact blind_modify (fun _ _ hg => sameParts_drop hg c) g g' hg

end Edit
end Patchbay
