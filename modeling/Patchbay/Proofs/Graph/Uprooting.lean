import Patchbay.Proofs.Graph.Enrolling
import Patchbay.Proofs.Graph.Informing
import Patchbay.Proofs.Graph.Representation
import Patchbay.Proofs.Names.Leaving

/-!
# What is left when a node is removed

With a node goes all that lies within it, and nothing else (`Uprooted`). Whatever is left stays in its
place: lists lose those who are gone and keep their order, and a unit changes only in so far as it is
told of streams that it has lost.
-/

namespace Patchbay

variable {U : Type} [Device U]

omit [Device U] in
/-- A node is what its shape, its unit and what waits in it make of it. -/
theorem Node.eq_of_shape {n n' : Node U} (hshape : n'.shape = n.shape)
    (hpending : n'.pending = n.pending) (hpace : n'.pace = n.pace) :
    n' = { n with body := n'.body } := by
  cases n
  cases n'
  simp_all [Node.shape]

namespace Graph

/-- That certain nodes, among them one that holds the others, have gone out of a graph, and what has
been told on the way. -/
structure Uprooted (g : Graph U) (id : UnitId) (gone : List UnitId) (news : List Notice)
    (g' : Graph U) : Prop where
  contains : ∀ x, g'.contains x = true ↔ g.contains x = true ∧ x ∉ gone
  /-- What is left of a node has been told of its streams, and nothing else has happened to it. -/
  node : ∀ x n, g.node? x = some n → x ∉ gone →
    g'.node? x = some { n with body := n.body.informed x news }
  /-- Nobody has been told but those who have lost a stream. -/
  lost : ∀ notice ∈ news, ∃ c ∈ g.connections, g.kindOf c = .stream ∧ c.dest = notice.unit ∧
    (c.source ∈ gone ∨ c.dest ∈ gone)
  outgoing : ∀ x o, g'.outgoing x o =
    (g.outgoing x o).filter fun c => c.source ∉ gone ∧ c.dest ∉ gone
  incoming : ∀ kind x i, g'.incoming kind x i =
    (g.incoming kind x i).filter fun c => c.source ∉ gone ∧ c.dest ∉ gone
  children : ∀ x, x ∉ gone → g'.children x = (g.children x).filter (· ≠ id)
  /-- The ports of subgraphs keep the units that stand for them. -/
  front : ∀ x side, x ∉ gone → g'.front x side = g.front x side
  names : g.names.Without gone g'.names
  pool : g'.pool = g.pool
  plan : g'.plan = none

end Graph
namespace Edit

open Patchbay.Graph

variable {g : Graph U} {id : UnitId}

/-! ## Connections and names -/

/-- Only what leaves or enters a node that is gone is no longer connected. -/
theorem connections_foldl_dropNode (hg : g.Sound) (gone : List UnitId) {rest : List UnitId}
    (h : g.contentsFirst id = gone ++ rest) : (gone.foldl dropNode g).connections =
      g.connections.filter fun c => c.source ∉ gone ∧ c.dest ∉ gone := by
  refine (foldl_dropNode_keeps (P := fun gone g' => g'.connections =
    g.connections.filter fun c => c.source ∉ gone ∧ c.dest ∉ gone) hg ?_
    (fun {gone g' x} hg' _ hconn => ?_) gone h).2
  · simp
  · rw [connections_dropNode, connections_cutOff hg'.wired, hconn, List.filter_filter]
    refine List.filter_congr fun c _ => ?_
    simp only [List.mem_append, List.mem_singleton, not_or, ← Bool.decide_and]
    exact decide_eq_decide.2 (by tauto)

/-- Each node that goes leaves the registry, if it had a seat there. -/
theorem without_dropNode (hg : g.Sound) (hu : g.names.InUse) (x : UnitId) :
    g.names.Without [x] (dropNode g x).names ∧ (dropNode g x).names.InUse := by
  rw [names_dropNode]
  cases hrole : g.registration? x with
  | none =>
    refine ⟨Names.without_of_unlisted hu fun y hy s hs => ?_, hu⟩
    rw [List.mem_singleton.1 hy, hg.registered.seated, hrole] at hs
    cases hs
  | some role =>
    refine ⟨Names.without_unregister hg.registered.names hu fun s hs => ?_,
      hu.unregister hg.registered.names x role⟩
    rw [hg.registered.seated, hrole] at hs
    exact (Option.some.inj hs).symm

theorem without_foldl_dropNode (hg : g.Sound) (hu : g.names.InUse) (gone : List UnitId)
    {rest : List UnitId} (h : g.contentsFirst id = gone ++ rest) :
    g.names.Without gone (gone.foldl dropNode g).names ∧ (gone.foldl dropNode g).names.InUse := by
  refine (foldl_dropNode_keeps
    (P := fun gone g' => g.names.Without gone g'.names ∧ g'.names.InUse) hg ⟨.refl hu, hu⟩
    (fun {gone g' x} hg' _ ⟨hgone, hu'⟩ => ?_) gone h).2
  obtain ⟨hx, hu''⟩ := without_dropNode hg' hu' x
  exact ⟨hgone.trans hx, hu''⟩

/-! ## Nodes -/

/-- What is left of a node has been told of its streams, and is otherwise what it was. -/
theorem node?_foldl_dropNode (l : List UnitId) {news : List Notice}
    (h : g.Informs news (l.foldl dropNode g)) {x : UnitId} {n : Node U} (hn : g.node? x = some n)
    (hx : x ∉ l) :
    Graph.node? (l.foldl dropNode g) x = some { n with body := n.body.informed x news } := by
  have hlt := lt_size_of_node? hn
  have hshape := shape_foldl_dropNode l g x
  rw [if_neg hx, shape?, shape?, hn, Option.map_some, Option.map_eq_some_iff] at hshape
  obtain ⟨n', hn', hshape⟩ := hshape
  have hinherits := inherits_foldl Law.any.heeds (inherits_dropNode Law.any.heeds) l g
  obtain ⟨_, hold, -, hpending, hpace, -⟩ := hinherits.old hn' hlt
  cases hn.symm.trans hold
  obtain ⟨_, hold, hbody⟩ := h.body hn' hlt
  cases hn.symm.trans hold
  rw [hn', ← hbody, ← Node.eq_of_shape hshape hpending hpace]

omit [Device U] in
/-- Of the nodes in one that is left, none goes but the one that is removed. -/
theorem mem_contentsFirst_iff_of_child (hg : g.Nested) {x c : UnitId} (hx : x ∉ g.contentsFirst id)
    (hc : c ∈ g.children x) : c ∈ g.contentsFirst id ↔ c = id := by
  constructor
  · intro h
    rcases mem_contentsFirst_cases h with h | ⟨o, ho, hmem⟩
    · exact h
    · cases ho.symm.trans (hg.mem_children.1 hc)
      exact absurd hmem hx
  · rintro rfl
    exact g.self_mem_contentsFirst c

/-- A node that is left loses at most one of those that it holds. -/
theorem children_foldl_dropNode (hg : g.Nested) {x : UnitId} (hx : x ∉ g.contentsFirst id) :
    Graph.children ((g.contentsFirst id).foldl dropNode g) x = (g.children x).filter (· ≠ id) := by
  rw [children_of_shapes (size_foldl_dropNode _ g) (shape_foldl_dropNode _ g)]
  exact List.filter_congr fun c hc =>
    decide_eq_decide.2 (not_congr (mem_contentsFirst_iff_of_child hg hx hc))

omit [Device U] in
/-- A node that stands for a port of a subgraph is not removed alone. -/
theorem port?_of_free (hg : g.Nested) {n : Node U} (hn : g.node? id = some n)
    (hfree : ¬ (n.port.isSome ∧ n.owner.any g.contains)) : g.port? id = none := by
  cases hp : g.port? id with
  | none => rfl
  | some p =>
    obtain ⟨o, ho⟩ := hg.portOwned hp
    have hholder := contains_of_isSubgraph (hg.holder ho)
    rw [port?, hn, Option.bind_some] at hp
    rw [owner?, hn, Option.bind_some] at ho
    exact absurd ⟨by rw [hp]; rfl, by rw [ho]; exact hholder⟩ hfree

/-- The ports of a subgraph that is left keep the units that stand for them. -/
theorem front_foldl_dropNode (hg : g.Nested) (hport : g.port? id = none) {x : UnitId}
    (hx : x ∉ g.contentsFirst id) (side : Side) :
    Graph.front ((g.contentsFirst id).foldl dropNode g) x side = g.front x side := by
  rw [front, front, children_foldl_dropNode hg hx, List.filter_filter]
  refine List.filter_congr fun c hc => ?_
  by_cases hc' : c = id
  · subst hc'
    simp [hport]
  · have hleft := mt (mem_contentsFirst_iff_of_child hg hx hc).1 hc'
    rw [port?_eq_shape, shape_foldl_dropNode, if_neg hleft, ← port?_eq_shape]
    simp [hc']

/-! ## Removing -/

/-- A node that is removed goes with all that lies within it. Everything else stays as it was. -/
theorem uprooted_of_remove (hg : g.Sound) (hu : g.names.InUse) {g' : Graph U} {body : Body U}
    (h : remove id g = .ok body g') : ∃ news, g.Informs news g' ∧
      g.Uprooted id (g.descendants id) news g' := by
  have hgoes := contains_of_remove hg h
  obtain ⟨hplan, hpool⟩ := (proper_remove id).outdates h
  obtain ⟨⟨n, hn, hfree, -⟩, rfl⟩ := remove_eq_ok h
  have hmem : ∀ x, x ∈ g.descendants id ↔ x ∈ g.contentsFirst id := fun x =>
    (descendants_perm (contains_iff.2 ⟨n, hn⟩)).mem_iff
  have hall := (List.append_nil (g.contentsFirst id)).symm
  obtain ⟨news, hsheds⟩ := sheds_foldl_dropNode hg _ hall
  have hconn := connections_foldl_dropNode hg _ hall
  refine ⟨news, hsheds.toInforms, fun x => ?_, fun x n hn hx => ?_, fun notice hnotice => ?_,
    fun x o => ?_, fun kind x i => ?_, fun x hx => ?_, fun x side hx => ?_, ?_,
    hpool, hplan⟩
  · rw [hgoes, hmem, mem_contentsFirst hg.nested]
  · exact node?_foldl_dropNode _ hsheds.toInforms hn (mt (hmem x).2 hx)
  · obtain ⟨c, hc, hkind, hdest, hends⟩ := hsheds.lost notice hnotice
    exact ⟨c, hc, hkind, hdest, hends.imp (hmem _).2 (hmem _).2⟩
  · simp only [hmem]
    rw [outgoing, outgoing, hconn, List.filter_comm]
  · simp only [hmem]
    rw [incoming_eq_filter, incoming_eq_filter, List.filter_comm, ← hconn]
    refine List.filter_congr fun c hc => ?_
    rw [(hsheds.left c hc).2]
  · exact children_foldl_dropNode hg.nested (mt (hmem x).2 hx)
  · exact front_foldl_dropNode hg.nested (port?_of_free hg.nested hn hfree) (mt (hmem x).2 hx) side
  · exact (without_foldl_dropNode hg hu _ hall).1.congr hmem

end Edit
end Patchbay
