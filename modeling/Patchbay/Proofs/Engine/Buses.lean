import Patchbay.Proofs.Engine.Arrivals
import Patchbay.Proofs.Graph.Enrolling
import Patchbay.Proofs.Names.Refining
import Patchbay.Proofs.Names.Sizes

/-!
# Who writes on a bus

In every engine that commands lead to, each bus has the samples of a block, and only a role gives a
node a handle (`bused_of_reachable`). So nothing but the steps of units at a link writes on its bus,
whichever other links have had the slot before (`bus?_of_moves`).
-/

namespace Patchbay

/-! ## Sizes -/

/-- That every bus has the samples of a block. -/
structure Names.Bused (size : Nat) (n : Names) : Prop where
  blockSize : n.blockSize = size
  buses : n.links.All fun l => l.bus.size = size

theorem Names.Bused.follows {n n' : Names} {size : Nat} {fresh : Prop} (h : n.Bused size)
    (hf : n.Follows fresh n') : n'.Bused size where
  blockSize := hf.blockSize.trans h.blockSize
  buses := hf.links.all (p := fun l => l.bus.size = size) (fun _ _ he hs => he.trans hs)
    (fun _ he => he.2.trans h.blockSize) h.buses

/-- That every bus has the samples of a block, and only a role gives a node a handle. -/
structure Graph.Bused {U : Type} (size : Nat) (g : Graph U) : Prop where
  names : g.names.Bused size
  handles : ∀ x, g.registration? x = none → g.handle? x = none

namespace Graph

variable {U : Type} {g g' : Graph U} {size : Nat}

theorem bused_empty (blockSize : Nat) : (empty blockSize : Graph U).Bused blockSize where
  names := ⟨rfl, fun _ _ h => (by cases h)⟩
  handles x _ := by rw [handle?, node?_empty, Option.bind_none]

/-- It is so as long as nodes keep their shapes or go. -/
theorem Bused.of_shapes (h : g.Bused size) (hnames : g'.names.Bused size)
    (hshape : ∀ x, g'.shape? x = g.shape? x ∨ g'.shape? x = none) : g'.Bused size where
  names := hnames
  handles x hx := by
    rw [registration?_eq_shape] at hx
    rw [handle?_eq_shape]
    rcases hshape x with hs | hs
    · rw [hs] at hx ⊢
      rw [← handle?_eq_shape]
      apply h.handles
      rw [registration?_eq_shape, hx]
    · rw [hs, Option.bind_none]

/-- Whoever has a handle has it from a role. -/
theorem Bused.exists_role (h : g.Bused size) (hg : g.Registered) {x : UnitId} {handle : Handle}
    (hx : g.handle? x = some handle) :
    ∃ role, g.registration? x = some role ∧ g.names.slot? role.seat = some handle := by
  cases hrole : g.registration? x with
  | none =>
    rw [h.handles x hrole] at hx
    cases hx
  | some role =>
    rw [hg.handle hrole] at hx
    exact ⟨role, rfl, hx⟩

/-- Whoever has the handle of a link is registered there. -/
theorem Bused.role_of_handle (h : g.Bused size) (hg : g.Registered) {x : UnitId} {slot : Nat}
    {family : LinkFamily} {name : Symbol} (hslot : g.names.links.find? (family, name) = some slot)
    (hx : g.handle? x = some (.link slot)) :
    ∃ role, g.registration? x = some role ∧ role.seat.key = .link family name :=
  (h.exists_role hg hx).imp fun _ h => ⟨h.1, Names.key_of_link hg.names hslot h.2⟩

end Graph

/-! ## Edits -/

namespace Edit

variable {U : Type} [Device U] {g g' : Graph U} {size : Nat}

theorem bused_insert (h : g.Bused size) (hg : g.Registered) {owner : Option UnitId} {body : Body U}
    {id : UnitId} (he : insert owner body g = .ok id g') : g'.Bused size := by
  obtain ⟨handle, names, hnames, rfl, rfl⟩ := insert_eq_ok he
  have hadded : g.Added { g with
      nodes := g.nodes.push (some
        { body, ports := body.ports, registration := body.registration, handle, owner })
      names, plan := none } ⟨g.nodes.size⟩ _ := Graph.added_of_push rfl rfl
  cases hr : body.registration with
  | none =>
    rw [hr] at hnames hadded
    obtain ⟨rfl, rfl⟩ := hnames
    refine ⟨h.names, fun x hx => ?_⟩
    rw [hadded.registration?] at hx
    rw [hadded.handle?]
    split
    · rfl
    · next hne =>
      rw [if_neg hne] at hx
      exact h.handles x hx
  | some role =>
    rw [hr] at hnames hadded
    refine ⟨h.names.follows (Names.follows_register hg.names hnames), fun x hx => ?_⟩
    rw [hadded.registration?] at hx
    rw [hadded.handle?]
    split
    · next heq =>
      rw [if_pos heq] at hx
      cases hx
    · next hne =>
      rw [if_neg hne] at hx
      exact h.handles x hx

theorem bused_add (h : g.Bused size) (hg : g.Registered) {owner : Option UnitId} {body : Body U}
    {id : UnitId} (he : add owner body g = .ok id g') : g'.Bused size := by
  cases owner with
  | none => exact bused_insert h hg he
  | some owner =>
    obtain ⟨holder, g₁, -, -, hins, hg'⟩ := insertInto_eq_ok he
    have hinserted := bused_insert h hg hins
    rcases hg' with ⟨-, rfl⟩ | ⟨side, grown, -, -, rfl⟩
    · exact hinserted
    · refine ⟨hinserted.names, fun x hx => ?_⟩
      rw [Graph.registration?_stand] at hx
      rw [Graph.handle?_stand]
      exact hinserted.handles x hx

theorem bused_connect (h : g.Bused size) {c : Connection} {kind : ConnectionKind}
    (he : connect c g = .ok kind g') : g'.Bused size := by
  have hnames : g'.names.Bused size := by
    rw [names_connect he]
    exact h.names
  obtain ⟨-, -, -, rfl⟩ := connect_eq_ok he
  refine h.of_shapes hnames fun x => .inl ?_
  split
  · exact (sameShape_tell ..).shape x
  · rfl

theorem bused_disconnect (h : g.Bused size) {c : Connection} (he : disconnect c g = .ok ⟨⟩ g') :
    g'.Bused size := by
  have hnames : g'.names.Bused size := by
    rw [names_disconnect he]
    exact h.names
  obtain ⟨-, rfl⟩ := disconnect_eq_ok he
  exact h.of_shapes hnames fun x => .inl ((dropped_drop g c).shape x)

theorem bused_foldl_dropNode (l : List UnitId) (h : g.names.Bused size) :
    (l.foldl dropNode g).names.Bused size := by
  induction l generalizing g with
  | nil => exact h
  | cons x l ih =>
    rw [List.foldl_cons]
    apply ih
    rw [names_dropNode]
    split
    · exact h.follows (Names.follows_unregister _ _ _)
    · exact h

theorem bused_remove (h : g.Bused size) {id : UnitId} {body : Body U}
    (he : remove id g = .ok body g') : g'.Bused size := by
  obtain ⟨-, rfl⟩ := remove_eq_ok he
  refine h.of_shapes (bused_foldl_dropNode _ h.names) fun x => ?_
  rw [shape_foldl_dropNode]
  split
  · exact .inr rfl
  · exact .inl rfl

theorem bused_of_edited (h : g.Bused size) (hg : g.Sound) {made : Body U → Prop}
    (hedit : Engine.Edited made g g') : g'.Bused size := by
  cases hedit with
  | added _ hadd => exact bused_add h hg.registered hadd
  | connected hconnect => exact bused_connect h hconnect
  | disconnected hdisconnect => exact bused_disconnect h hdisconnect

end Edit

/-! ## Moves -/

namespace Engine

variable {U : Type} [Device U] {own : UnitId → Prop} {command : Engine.Command U}
  {e e' : Engine U}
  {size slot : Nat}

/-- The bus of the link in a slot. -/
def bus? (e : Engine U) (slot : Nat) : Option Samples :=
  (e.graph.names.links.get? slot).map Link.bus

/-- What a move writes into the registry: nothing, unless a unit computes a piece. -/
inductive Writes (own : UnitId → Prop) (e e' : Engine U) : Prop
  | nothing : e'.graph.names = e.graph.names → Writes own e e'
  | piece {id : UnitId} {n : Node U} {unit unit' : U} {ins : Inputs} {outlets : Array Samples}
      {outs : Outputs} {first last : Nat} : own id → e.graph.node? id = some n →
      Device.process unit ins (e.outputs n outlets) first last = .ok (unit', outs) →
      e'.graph.names = writeNamed e.graph.names n.handle outs → Writes own e e'

theorem names_reactQuietly (e : Engine U) (id : UnitId) (unit : U) (script : Script U) :
    (e.reactQuietly id unit script).graph.names = e.graph.names := by
  obtain ⟨unit', hg⟩ := graph_reactQuietly e id unit script
  rw [hg]
  rfl

theorem writes_of_move (h : Move own e e') : Writes own e e' := by
  cases h with
  | ripple hr =>
    cases hr with
    | report | collect | defer => exact .nothing rfl
    | receive => exact .nothing (names_reactQuietly ..)
  | fall | pool | calm => exact .nothing rfl
  | emit => exact .nothing (names_reactQuietly ..)
  | receive => exact .nothing (names_reactQuietly ..)
  | take _ hnext =>
    obtain ⟨n, rest, -, -, rfl⟩ := nextPending?_eq_some hnext
    exact .nothing rfl
  | compute ho hn _ hp => exact .piece ho hn hp rfl

omit [Device U] in
/-- A unit writes no bus but that of its own link. -/
theorem get?_writeNamed {names : Names} {handle : Option Handle} (h : handle ≠ some (.link slot))
    (outs : Outputs) : (writeNamed names handle outs).links.get? slot = names.links.get? slot := by
  unfold writeNamed
  split
  · next slot' bus _ =>
    rw [Names.setBus, Directory.get?_modify]
    split
    · next heq =>
      subst heq
      exact absurd rfl h
    · rfl
  · rfl
  · rfl

/-- A bus that a unit has written is as long as it was. -/
theorem bused_writeNamed (hb : KeepsBuses U) {n : Node U} {unit unit' : U} {ins : Inputs}
    {outlets : Array Samples} {outs : Outputs} {first last : Nat}
    (hp : Device.process unit ins (e.outputs n outlets) first last = .ok (unit', outs))
    (h : e.graph.names.Bused size) : (writeNamed e.graph.names n.handle outs).Bused size := by
  have hsize := hb hp
  unfold writeNamed
  split
  · next slot bus hbus hhandle =>
    refine h.follows (Names.follows_setBus fun l hl => ?_)
    rw [outputs, hbus, hhandle] at hsize
    simpa [hl] using hsize
  · exact ⟨h.blockSize, h.buses⟩
  · exact h

theorem bused_of_move (hb : KeepsBuses U) (hR : Law (Alike (U := U))) (hm : Move own e e')
    (h : e.graph.Bused size) : e'.graph.Bused size := by
  refine h.of_shapes ?_ fun x => .inl ((works_of_move hR hm).graph.shape.shape x)
  cases writes_of_move hm with
  | nothing hnames => exact hnames ▸ h.names
  | piece _ _ hp hnames => exact hnames ▸ bused_writeNamed hb hp h.names

theorem bused_of_moves (hb : KeepsBuses U) (hR : Law (Alike (U := U))) (hm : Moves own e e')
    (h : e.graph.Bused size) : e'.graph.Bused size :=
  hm.keeps (P := fun e => e.graph.Bused size) (fun _ _ => bused_of_move hb hR) h

/-- A bus is written in the steps of units at its link, and at no other time. -/
theorem bus?_of_moves (hR : Law (Alike (U := U))) (hm : Moves own e e')
    (hown : ∀ id, own id → e.graph.handle? id ≠ some (.link slot)) : e'.bus? slot = e.bus? slot := by
  have hall : e'.bus? slot = e.bus? slot ∧ ∀ id, e'.graph.handle? id = e.graph.handle? id := by
    refine hm.keeps (P := fun e₁ => e₁.bus? slot = e.bus? slot ∧
      ∀ id, e₁.graph.handle? id = e.graph.handle? id) ?_ ⟨rfl, fun _ => rfl⟩
    rintro e₁ e₂ hm ⟨hbus, hhandle⟩
    refine ⟨?_, fun id => ((works_of_move hR hm).graph.shape.handle? id).trans (hhandle id)⟩
    rw [← hbus]
    cases writes_of_move hm with
    | nothing hnames => rw [bus?, bus?, hnames]
    | @piece id n _ _ _ _ outs _ _ ho hn _ hnames =>
      have hother := hown id ho
      rw [← hhandle, Graph.handle?, hn, Option.bind_some] at hother
      rw [bus?, bus?, hnames, get?_writeNamed hother]
  exact hall.1

/-! ## Runs -/

theorem graph_compile {plan : Plan} (h : compile e = .ok plan e') :
    e'.graph.nodes = e.graph.nodes ∧ e'.graph.names = e.graph.names := by
  obtain ⟨g, hg, rfl⟩ := compile_eq_ok.1 h
  rcases Graph.compile_cases hg with ⟨-, rfl⟩ | ⟨-, d, -, -, rfl⟩ <;> exact ⟨rfl, rfl⟩

theorem Graph.Bused.of_nodes {U : Type} {g g' : Graph U} (h : g.Bused size)
    (hnodes : g'.nodes = g.nodes) (hnames : g'.names.Bused size) : g'.Bused size :=
  h.of_shapes hnames fun x => .inl (by rw [Graph.shape?, Graph.shape?, Graph.node?, Graph.node?, hnodes])

theorem bused_of_deed (hb : KeepsBuses U) (hR : Law (Alike (U := U))) (hg : e.graph.Sound)
    (hd : Deed command e e') (h : e.graph.Bused size) : e'.graph.Bused size := by
  cases hd with
  | idle | declined | scheduled | cancelled | sent | unheard | taken => exact ⟨h.names, h.handles⟩
  | edited hedit =>
    have := Edit.bused_of_edited h hg hedit
    exact ⟨this.names, this.handles⟩
  | removed hremove =>
    have := Edit.bused_remove h hremove
    exact ⟨this.names, this.handles⟩
  | listened => exact ⟨⟨h.names.blockSize, h.names.buses⟩, h.handles⟩
  | planned hplan =>
    obtain ⟨hnodes, hnames⟩ := graph_compile hplan
    exact Graph.Bused.of_nodes h hnodes (hnames ▸ h.names)
  | @played input _ _ _ _ hp =>
    obtain ⟨drained, plan, planned, ended, hdrain, hplan, hplay, rfl⟩ := process_eq_ok hp
    obtain ⟨hnodes, hnames⟩ := graph_compile hplan
    have hopened : (openBlock input e).graph.Bused size :=
      ⟨h.names.follows (Names.follows_clearBuses _), h.handles⟩
    have hdrained := bused_of_moves hb hR (moves_drain (fun _ => False) hdrain) hopened
    have hplanned := Graph.Bused.of_nodes hdrained hnodes (hnames ▸ hdrained.names)
    have hended := bused_of_moves hb hR (moves_play hplay) hplanned
    exact ⟨hended.names, hended.handles⟩

/-- Whatever has been done before, each bus has the samples of a block. -/
theorem bused_of_reachable (hb : KeepsBuses U) (hR : Law (Alike (U := U))) {settings : Settings}
    (h : Reachable settings e) : e.graph.Bused settings.blockSize := by
  induction h with
  | start hnew =>
    rw [graph_of_new hnew]
    exact Graph.bused_empty _
  | step hr hafter ih =>
    exact bused_of_deed hb hR (kept_of_reachable hR hr).sound (deed_of_after hafter) ih

end Engine
end Patchbay
