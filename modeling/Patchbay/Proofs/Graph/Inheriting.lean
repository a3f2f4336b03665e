import Patchbay.Proofs.Engine.Delivery
import Patchbay.Proofs.Graph.Removing

/-!
# What edits leave of a node

No edit touches the role of a node or the messages that wait in it, and new nodes have none (`Inherits`).
A unit changes only in so far as it is told of its connections (`Heeds`).
-/

namespace Patchbay

variable {U : Type} [Device U] {R : U → U → Prop}

/-- A relation between a unit and what it becomes that it keeps when it is told of its connections. -/
structure Heeds (R : U → U → Prop) : Prop where
  refl : ∀ u, R u u
  trans : ∀ u v w, R u v → R v w → R u w
  rewired : ∀ u inlet counts, R u (Device.rewired u inlet counts)

theorem Law.heeds (h : Law R) : Heeds R := ⟨h.refl, h.trans, h.rewired⟩

namespace Graph

/-- That every node was there before, with the same role and the same messages waiting in it, or else is
new and has none. -/
structure Inherits (R : U → U → Prop) (g g' : Graph U) : Prop where
  size : g.nodes.size ≤ g'.nodes.size
  old : ∀ {id n'}, g'.node? id = some n' → id.index < g.nodes.size →
    ∃ n, g.node? id = some n ∧ n.body.Becomes R n'.body ∧ n'.pending = n.pending ∧
      n'.pace = n.pace ∧ n'.registration = n.registration
  new : ∀ {id n'}, g'.node? id = some n' → g.nodes.size ≤ id.index →
    n'.pending = [] ∧ n'.pace = .free

namespace Inherits

variable {g g' g'' : Graph U}

omit [Device U] in
theorem of_nodes (hR : ∀ u, R u u) (h : g'.nodes = g.nodes) : g.Inherits R g' where
  size := h ▸ Nat.le_refl _
  old {id n'} hn _ := by
    rw [node?_eq, h] at hn
    exact ⟨n', hn, .refl hR _, rfl, rfl, rfl⟩
  new {id n'} hn hlt := by
    rw [node?_eq, h] at hn
    exact absurd (lt_size_of_node? (g := g) hn) (Nat.not_lt.2 hlt)

omit [Device U] in
theorem trans (hR : ∀ u v w, R u v → R v w → R u w) (h : g.Inherits R g')
    (h' : g'.Inherits R g'') : g.Inherits R g'' where
  size := h.size.trans h'.size
  old {id n''} hn hlt := by
    obtain ⟨n', hn', hb', hp', hc', hr'⟩ := h'.old hn (hlt.trans_le h.size)
    obtain ⟨n, hn, hb, hp, hc, hr⟩ := h.old hn' hlt
    exact ⟨n, hn, hb.trans hR hb', hp'.trans hp, hc'.trans hc, hr'.trans hr⟩
  new {id n''} hn hle := by
    by_cases hlt : id.index < g'.nodes.size
    · obtain ⟨n', hn', -, hp', hc', -⟩ := h'.old hn hlt
      obtain ⟨hp, hc⟩ := h.new hn' hle
      exact ⟨hp'.trans hp, hc'.trans hc⟩
    · exact h'.new hn (Nat.not_lt.1 hlt)

end Inherits

omit [Device U] in
theorem inherits_modifyNode (hR : ∀ u, R u u) (g : Graph U) (id : UnitId) {f : Node U → Node U}
    (hbody : ∀ n : Node U, n.body.Becomes R (f n).body) (hpending : ∀ n, (f n).pending = n.pending)
    (hpace : ∀ n, (f n).pace = n.pace) (hrole : ∀ n, (f n).registration = n.registration) :
    g.Inherits R (g.modifyNode id f) where
  size := by simp
  old {x n'} hn _ := by
    rw [node?_modifyNode] at hn
    split at hn
    · obtain ⟨n, hold, rfl⟩ := Option.map_eq_some_iff.1 hn
      exact ⟨n, hold, hbody n, hpending n, hpace n, hrole n⟩
    · exact ⟨n', hn, .refl hR _, rfl, rfl, rfl⟩
  new {x n'} hn hle := by
    have := lt_size_of_node? hn
    simp at this
    omega

omit [Device U] in
theorem inherits_push (hR : ∀ u, R u u) {g g' : Graph U} {n : Node U}
    (h : g'.nodes = g.nodes.push (some n)) (hpending : n.pending = []) (hpace : n.pace = .free) :
    g.Inherits R g' where
  size := by simp [h]
  old {x n'} hn hlt := by
    rw [node?_eq, h, Array.getElem?_push_lt hlt, ← Array.getElem?_eq_getElem hlt] at hn
    exact ⟨n', hn, .refl hR _, rfl, rfl, rfl⟩
  new {x n'} hn hle := by
    have hlt := lt_size_of_node? hn
    rw [h, Array.size_push] at hlt
    have hx : x.index = g.nodes.size := by omega
    rw [node?_eq, h, hx, Array.getElem?_push_size] at hn
    cases hn
    exact ⟨hpending, hpace⟩

end Graph

namespace Edit

/-! ## What is left of a node -/

theorem inherits_insert {owner : Option UnitId} {body : Body U} {g g' : Graph U} {id : UnitId}
    (hrefl : ∀ u, R u u)
    (h : insert owner body g = .ok id g') : g.Inherits R g' := by
  obtain ⟨handle, names, -, -, rfl⟩ := insert_eq_ok h
  exact Graph.inherits_push hrefl rfl rfl rfl

theorem inherits_add {owner : Option UnitId} {body : Body U} {g g' : Graph U} {id : UnitId}
    (hrefl : ∀ u, R u u) (htrans : ∀ u v w, R u v → R v w → R u w)
    (h : add owner body g = .ok id g') : g.Inherits R g' := by
  cases owner with
  | none => exact inherits_insert hrefl h
  | some owner =>
    obtain ⟨holder, g₁, -, -, hins, h⟩ := insertInto_eq_ok h
    rcases h with ⟨-, rfl⟩ | ⟨side, grown, -, -, rfl⟩
    · exact inherits_insert hrefl hins
    · have hgrows := Graph.inherits_modifyNode hrefl g₁ owner (f := fun n => { n with ports := grown })
        (fun n => .refl hrefl n.body) (fun _ => rfl) (fun _ => rfl) fun _ => rfl
      have hstands := Graph.inherits_modifyNode hrefl
        (g₁.modifyNode owner fun n => { n with ports := grown }) id
        (f := fun n => { n with port := some (side, nextPort holder.ports side) })
        (fun n => .refl hrefl n.body) (fun _ => rfl) (fun _ => rfl) fun _ => rfl
      exact ((inherits_insert hrefl hins).trans htrans hgrows).trans htrans hstands

section Inheriting

variable (hR : Heeds R)
include hR

theorem inherits_notify (g : Graph U) (id : UnitId) (inlet : Nat) (counts : List Nat) :
    g.Inherits R (notify g id inlet counts) := by
  refine (g.inherits_modifyNode hR.refl id (f := fun n => { n with body := n.body.rewired inlet counts })
    (fun n => ?_) (fun _ => rfl) (fun _ => rfl) fun _ => rfl).trans hR.trans (.of_nodes hR.refl rfl)
  cases hb : n.body with
  | device u => exact hR.rewired u inlet counts
  | subgraph => exact ⟨⟩

theorem inherits_drop (g : Graph U) (c : Connection) : g.Inherits R (drop g c) := by
  have hdropped : g.Inherits R { g with connections := g.connections.erase c, plan := none } :=
    .of_nodes hR.refl rfl
  unfold drop
  dsimp only
  split
  · exact hdropped.trans hR.trans (inherits_notify hR _ _ _ _)
  · exact hdropped

theorem inherits_foldl {α : Type} {f : Graph U → α → Graph U}
    (h : ∀ (g : Graph U) a, g.Inherits R (f g a)) (l : List α) (g : Graph U) : g.Inherits R (l.foldl f g) := by
  induction l generalizing g with
  | nil => exact .of_nodes hR.refl rfl
  | cons a l ih => exact (h g a).trans hR.trans (ih _)

theorem inherits_dropNode (g : Graph U) (id : UnitId) : g.Inherits R (dropNode g id) := by
  have hdrops : g.Inherits R (cutOff g id) := inherits_foldl hR (inherits_drop hR) _ g
  refine hdrops.trans hR.trans ?_
  constructor
  · simp [dropNode, vacate]
  · intro x n' hn _
    rw [Graph.node?_eq, dropNode, vacate, Array.getElem?_setIfInBounds] at hn
    split at hn
    · split at hn <;> cases hn
    · exact ⟨n', hn, .refl hR.refl _, rfl, rfl, rfl⟩
  · intro x n' hn hle
    have := Graph.lt_size_of_node? hn
    simp only [dropNode, vacate, Array.size_setIfInBounds] at this
    omega

theorem inherits_connect {c : Connection} {kind : ConnectionKind} {g g' : Graph U}
    (h : connect c g = .ok kind g') : g.Inherits R g' := by
  obtain ⟨-, -, -, rfl⟩ := connect_eq_ok h
  have happended : g.Inherits R { g with connections := g.connections ++ [c], plan := none } :=
    .of_nodes hR.refl rfl
  split
  · exact happended.trans hR.trans (inherits_notify hR _ _ _ _)
  · exact happended

theorem inherits_disconnect {c : Connection} {g g' : Graph U} (h : disconnect c g = .ok ⟨⟩ g') :
    g.Inherits R g' := by
  obtain ⟨-, rfl⟩ := disconnect_eq_ok h
  exact inherits_drop hR g c

theorem inherits_remove {id : UnitId} {body : Body U} {g g' : Graph U}
    (h : remove id g = .ok body g') : g.Inherits R g' := by
  obtain ⟨-, rfl⟩ := remove_eq_ok h
  exact inherits_foldl hR (inherits_dropNode hR) _ g

end Inheriting
end Edit
end Patchbay
