import Patchbay.Proofs.Graph.Shape

/-!
# Everything inside a node

The contents of a node are listed in two orders, each subgraph before or after what it holds. Both
lists have the same members, each once (`descendants_perm`, `nodup_contentsFirst`), since the nodes
inside one node lie in no other one beside it (`disjoint_contentsFirst`).
-/

namespace Patchbay

open Relation

variable {U : Type} {g g' : Graph U}

namespace Graph

/-- What is in the list of a node behind its contents, but the node itself. -/
def contents (g : Graph U) (id : UnitId) : List UnitId := (g.children id).flatMap g.contentsFirst

theorem contentsFirst_eq (g : Graph U) (id : UnitId) : g.contentsFirst id = g.contents id ++ [id] := by
  rw [contentsFirst, contents]
  simp [List.flatMap_subtype]

theorem descendants_eq {id : UnitId} (hid : g.contains id = true) :
    g.descendants id = id :: (g.children id).flatMap g.descendants := by
  rw [descendants, if_pos hid]
  simp [List.flatMap_subtype]

theorem self_mem_contentsFirst (g : Graph U) (id : UnitId) : id ∈ g.contentsFirst id := by
  simp [contentsFirst_eq]

theorem mem_contents {id x : UnitId} : x ∈ g.contents id ↔ ∃ c ∈ g.children id, x ∈ g.contentsFirst c :=
  List.mem_flatMap

theorem contains_of_mem_children {id c : UnitId} (h : c ∈ g.children id) : g.contains c = true :=
  contains_of_owner? (mem_children.1 h).2

/-! ## Up from the contents -/

/-- From everything in the list of a node one comes up to the node. -/
theorem climbs_of_mem_contentsFirst {id x : UnitId} (h : x ∈ g.contentsFirst id) :
    ReflTransGen (fun c o => c ∈ g.children o) x id := by
  induction id using contentsFirst.induct g with
  | case1 id ih =>
    rw [contentsFirst_eq, List.mem_append, mem_contents, List.mem_singleton] at h
    rcases h with ⟨c, hc, h⟩ | rfl
    · exact (ih ⟨c, hc⟩ h).tail hc
    · exact .refl

/-- Whoever holds others is older than they are. -/
theorem index_le_of_climbs {x y : UnitId} (h : ReflTransGen (fun c o => c ∈ g.children o) x y) :
    y.index ≤ x.index := by
  induction h with
  | refl => exact le_rfl
  | tail _ h ih => exact (lt_of_mem_children h).1.le.trans ih

theorem not_mem_contents (g : Graph U) (id : UnitId) : id ∉ g.contents id := by
  intro h
  obtain ⟨c, hc, h⟩ := mem_contents.1 h
  have hle := index_le_of_climbs (climbs_of_mem_contentsFirst h)
  exact absurd (lt_of_mem_children hc).1 (Nat.not_lt.2 hle)

/-- No node lies in two nodes that are side by side. -/
theorem disjoint_contentsFirst {id c d : UnitId} (hc : c ∈ g.children id) (hd : d ∈ g.children id)
    (hne : c ≠ d) : (g.contentsFirst c).Disjoint (g.contentsFirst d) := by
  -- one of the two would lie in the other, and then so would what holds both
  have hunique : Relator.RightUnique fun c o => c ∈ g.children o := fun x o o' ho ho' =>
    Option.some.inj ((mem_children.1 ho).2.symm.trans (mem_children.1 ho').2)
  have happart : ∀ {c d : UnitId}, c ∈ g.children id → d ∈ g.children id → c ≠ d →
      ¬ ReflTransGen (fun c o => c ∈ g.children o) c d := by
    intro c d hc hd hne h
    rcases ReflTransGen.cases_head h with rfl | ⟨o, ho, h⟩
    · exact hne rfl
    · rw [hunique ho hc] at h
      exact absurd (lt_of_mem_children hd).1 (Nat.not_lt.2 (index_le_of_climbs h))
  intro x hxc hxd
  have hxc := climbs_of_mem_contentsFirst hxc
  have hxd := climbs_of_mem_contentsFirst hxd
  rcases ReflTransGen.total_of_right_unique hunique hxc hxd with h | h
  · exact happart hc hd hne h
  · exact happart hd hc hne.symm h

/-! ## No one is listed twice -/

theorem pairwise_ids (g : Graph U) : g.ids.Pairwise (·.index < ·.index) := by
  unfold ids
  refine List.Pairwise.filter _ (List.pairwise_map.2 ?_)
  exact List.pairwise_lt_range

theorem nodup_ids (g : Graph U) : g.ids.Nodup := by
  refine g.pairwise_ids.imp fun hlt he => ?_
  rw [he] at hlt
  exact lt_irrefl _ hlt

theorem nodup_children (g : Graph U) (id : UnitId) : (g.children id).Nodup := g.nodup_ids.filter _

/-- The contents of nodes that are side by side are apart. -/
theorem pairwise_disjoint_children (g : Graph U) (id : UnitId) :
    (g.children id).Pairwise fun c d => (g.contentsFirst c).Disjoint (g.contentsFirst d) :=
  (g.nodup_children id).imp_of_mem fun hc hd hne => disjoint_contentsFirst hc hd hne

theorem nodup_contentsFirst (g : Graph U) (id : UnitId) : (g.contentsFirst id).Nodup := by
  induction id using contentsFirst.induct g with
  | case1 id ih =>
    rw [contentsFirst_eq]
    refine List.nodup_append.2 ⟨?_, by simp, ?_⟩
    · exact List.nodup_flatMap.2 ⟨fun c hc => ih ⟨c, hc⟩, g.pairwise_disjoint_children id⟩
    · rintro x hx _ hy rfl
      rw [List.mem_singleton] at hy
      exact g.not_mem_contents id (hy ▸ hx)

/-- Whether subgraphs come before or after their contents, the same nodes are listed. -/
theorem descendants_perm {id : UnitId} (hid : g.contains id = true) :
    (g.descendants id).Perm (g.contentsFirst id) := by
  induction id using contentsFirst.induct g with
  | case1 id ih =>
    rw [descendants_eq hid, contentsFirst_eq, contents]
    have hinside : ((g.children id).flatMap g.descendants).Perm
        ((g.children id).flatMap g.contentsFirst) :=
      List.Perm.flatMap_left _ fun c hc => ih ⟨c, hc⟩ (contains_of_mem_children hc)
    exact (hinside.cons id).trans (List.perm_append_singleton id _).symm

/-! ## What stays of the contents -/

/-- Nodes that go elsewhere leave the children of a node as they are. -/
theorem children_of_shapes {gone : List UnitId} (hsize : g'.nodes.size = g.nodes.size)
    (hshape : ∀ x, g'.shape? x = if x ∈ gone then none else g.shape? x) (id : UnitId) :
    g'.children id = (g.children id).filter (· ∉ gone) := by
  unfold children ids
  rw [hsize, List.filter_filter, List.filter_filter, List.filter_filter]
  refine List.filter_congr fun c _ => ?_
  rw [contains_eq_shape, owner?_eq_shape, hshape]
  by_cases hc : c ∈ gone
  · simp [hc]
  · simp [hc, contains_eq_shape, owner?_eq_shape]

/-- Nodes that go elsewhere leave the contents of a node as they are. -/
theorem contentsFirst_of_shapes {gone : List UnitId} (hsize : g'.nodes.size = g.nodes.size)
    (hshape : ∀ x, g'.shape? x = if x ∈ gone then none else g.shape? x) {id : UnitId}
    (hid : gone.Disjoint (g.contentsFirst id)) : g'.contentsFirst id = g.contentsFirst id := by
  induction id using contentsFirst.induct g with
  | case1 id ih =>
    have hinside : ∀ c ∈ g.children id, ∀ x ∈ g.contentsFirst c, x ∈ g.contentsFirst id := by
      intro c hc x hx
      rw [contentsFirst_eq]
      exact List.mem_append_left _ (mem_contents.2 ⟨c, hc, hx⟩)
    have hchildren : g'.children id = g.children id := by
      rw [children_of_shapes hsize hshape, List.filter_eq_self]
      intro c hc
      simpa using fun hgone => hid hgone (hinside c hc c (g.self_mem_contentsFirst c))
    rw [contentsFirst_eq, contentsFirst_eq, contents, contents, hchildren]
    refine congrArg (· ++ [id]) (List.flatMap_congr fun c hc => ih ⟨c, hc⟩ ?_)
    exact fun x hx hxc => hid hx (hinside c hc x hxc)

end Graph
end Patchbay
