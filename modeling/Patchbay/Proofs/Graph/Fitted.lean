import Patchbay.Proofs.Catalogue.Fitting
import Patchbay.Proofs.Catalogue.Steady
import Patchbay.Proofs.Graph.Enrolling
import Patchbay.Proofs.Names.Sizes

/-!
# Units that fit their graph

In a graph of the catalogue's units every node has the ports of its unit, every unit fits the settings
and the store that its handle leads to, and all buses and stores have their sizes (`Graph.Fitted`).
Edits keep that if they add no other units.
-/

namespace Patchbay

variable {settings : Settings} {fresh : Prop}

/-! ## Nodes -/

/-- That a node has the ports of its unit, which fits the settings and the store that the handle
leads to. -/
structure Node.Fits (settings : Settings) (names : Names) (n : Node CatalogueUnit) : Prop where
  handle : n.registration = none → n.handle = none
  ports : ∀ u, n.body = .device u → n.ports = u.ports
  unit : ∀ u, n.body = .device u → u.Fits settings (names.room? n.handle)

namespace Node.Fits

variable {names names' : Names} {n : Node CatalogueUnit}

/-- Buses and stores may become others that follow them. -/
theorem follows (h : n.Fits settings names) (hf : names.Follows fresh names')
    (hlive : fresh → names.Leads n.handle) : n.Fits settings names' where
  handle := h.handle
  ports := h.ports
  unit u hu := (h.unit u hu).mono fun _ => hf.room? hlive

/-- A unit is told of its connections. -/
theorem rewired (h : n.Fits settings names) (inlet : Nat) (counts : List Nat) :
    Node.Fits settings names { n with body := n.body.rewired inlet counts } := by
  cases hb : n.body with
  | subgraph => exact ⟨h.handle, fun _ hu => (by cases hu), fun _ hu => (by cases hu)⟩
  | device u =>
    refine ⟨h.handle, fun v hv => ?_, fun v hv => ?_⟩
    · cases hv
      exact (h.ports u hb).trans (CatalogueUnit.kindred_rewired u counts).ports.symm
    · cases hv
      exact CatalogueUnit.fits_rewired (h.unit u hb) counts

/-- A unit becomes another with the same ports. -/
theorem device (h : n.Fits settings names) {u v : CatalogueUnit} (hu : n.body = .device u)
    (hports : v.ports = u.ports) (hv : v.Fits settings (names.room? n.handle)) :
    Node.Fits settings names { n with body := .device v } where
  handle := h.handle
  ports w hw := by
    cases hw
    exact (h.ports u hu).trans hports.symm
  unit w hw := by
    cases hw
    exact hv

end Node.Fits

/-! ## Graphs -/

namespace Graph

/-- That everything in a graph has its size. -/
structure Fitted (settings : Settings) (g : Graph CatalogueUnit) : Prop where
  names : g.names.Sized settings.blockSize
  nodes : ∀ id n, g.node? id = some n → n.Fits settings g.names

variable {g g' : Graph CatalogueUnit}

theorem fitted_empty (settings : Settings) : (empty settings.blockSize).Fitted settings where
  names := Names.sized_fresh _
  nodes id n hn := by
    rw [node?_empty] at hn
    cases hn

/-- A handle to a store leads to one. -/
theorem Fitted.leads (h : g.Fitted settings) (hg : g.Registered) {id : UnitId}
    {n : Node CatalogueUnit} (hn : g.node? id = some n) : g.names.Leads n.handle := by
  intro slot hslot
  cases hrole : n.registration with
  | none =>
    rw [(h.nodes id n hn).handle hrole] at hslot
    cases hslot
  | some role =>
    have hregistered : g.registration? id = some role := by
      rw [registration?, hn]
      exact hrole
    have hhandle := hg.handle hregistered
    rw [handle?, hn, Option.bind_some, hslot] at hhandle
    cases role with
    | emitter | collector =>
      obtain ⟨_, -, he⟩ := Option.map_eq_some_iff.1 hhandle.symm
      cases he
    | receiver => cases hhandle
    | owner | accessor =>
      obtain ⟨_, hfind, he⟩ := Option.map_eq_some_iff.1 hhandle.symm
      cases he
      exact hg.names.stores.isSome_of_find? hfind

namespace Fitted

theorem of_nodes (h : g.Fitted settings) (hnodes : g'.nodes = g.nodes) (hnames : g'.names = g.names) :
    g'.Fitted settings where
  names := hnames ▸ h.names
  nodes id n hn := by
    rw [node?_eq, hnodes, ← node?_eq] at hn
    rw [hnames]
    exact h.nodes id n hn

/-- Buses and stores become others that follow them. -/
theorem follows (h : g.Fitted settings) {names : Names} (hf : g.names.Follows False names) :
    Graph.Fitted settings { g with names } where
  names := hf.sized h.names
  nodes id n hn := (h.nodes id n hn).follows hf False.elim

/-- A node is replaced by another that fits. -/
theorem modifyNode (h : g.Fitted settings) (id : UnitId) {f : Node CatalogueUnit → Node CatalogueUnit}
    (hf : ∀ n, g.node? id = some n → n.Fits settings g.names → (f n).Fits settings g.names) :
    (g.modifyNode id f).Fitted settings where
  names := h.names
  nodes x n' hn' := by
    rw [node?_modifyNode] at hn'
    split at hn'
    · next hx =>
      subst hx
      obtain ⟨n, hn, rfl⟩ := Option.map_eq_some_iff.1 hn'
      exact hf n hn (h.nodes x n hn)
    · exact h.nodes x n' hn'

end Fitted
end Graph

/-! ## Edits -/

namespace Edit

open Patchbay.Graph

variable {g g' : Graph CatalogueUnit}

theorem fitted_tell (h : g.Fitted settings) (id : UnitId) (inlet : Nat) :
    (tell g id inlet).Fitted settings :=
  (h.modifyNode id fun _ _ hn => hn.rewired inlet _).of_nodes rfl rfl

theorem fitted_drop (h : g.Fitted settings) (c : Connection) : (drop g c).Fitted settings := by
  have hdropped : Fitted settings { g with connections := g.connections.erase c, plan := none } :=
    h.of_nodes rfl rfl
  unfold drop
  dsimp only
  split
  · exact fitted_tell hdropped c.dest c.inlet
  · exact hdropped

theorem fitted_connect (h : g.Fitted settings) {c : Connection} {kind : ConnectionKind}
    (he : connect c g = .ok kind g') : g'.Fitted settings := by
  obtain ⟨-, -, -, rfl⟩ := connect_eq_ok he
  have happended : Fitted settings { g with connections := g.connections ++ [c], plan := none } :=
    h.of_nodes rfl rfl
  split
  · exact fitted_tell happended c.dest c.inlet
  · exact happended

theorem fitted_disconnect (h : g.Fitted settings) {c : Connection}
    (he : disconnect c g = .ok ⟨⟩ g') : g'.Fitted settings := by
  obtain ⟨-, rfl⟩ := disconnect_eq_ok he
  exact fitted_drop h c

theorem fitted_insert (h : g.Fitted settings) (hg : g.Registered) {owner : Option UnitId}
    {body : Body CatalogueUnit} (hmade : ∀ u, body = .device u → u.Made settings) {id : UnitId}
    (he : insert owner body g = .ok id g') : g'.Fitted settings := by
  obtain ⟨handle, names, hnames, -, rfl⟩ := insert_eq_ok he
  have hfollows : g.names.Follows True names := by
    cases hr : body.registration with
    | none =>
      simp only [hr] at hnames
      rw [hnames.2]
      exact .refl _ _
    | some role =>
      simp only [hr] at hnames
      exact Names.follows_register hg.names hnames
  refine ⟨hfollows.sized h.names, fun x n hn => ?_⟩
  by_cases hx : x.index < g.nodes.size
  · -- a node that was there
    rw [node?_eq, Array.getElem?_push_lt hx, ← Array.getElem?_eq_getElem hx] at hn
    have hold : g.node? x = some n := hn
    exact (h.nodes x n hold).follows hfollows fun _ => h.leads hg hold
  · -- the new node
    have hsize := lt_size_of_node? hn
    rw [Array.size_push] at hsize
    have hlast : x.index = g.nodes.size := by omega
    rw [node?_eq, hlast, Array.getElem?_push_size] at hn
    cases hn
    refine ⟨fun hrole => ?_, ?_, ?_⟩
    · dsimp only at hrole
      simp only [hrole] at hnames
      exact hnames.1
    · rintro u rfl
      rfl
    · rintro u rfl
      exact (hmade u rfl).fits _

theorem fitted_add (h : g.Fitted settings) (hg : g.Sound) {owner : Option UnitId}
    {body : Body CatalogueUnit} (hmade : ∀ u, body = .device u → u.Made settings) {id : UnitId}
    (he : add owner body g = .ok id g') : g'.Fitted settings := by
  cases owner with
  | none => exact fitted_insert h hg.registered hmade he
  | some owner =>
    obtain ⟨holder, g₁, hholder, hsub, hins, hg'⟩ := insertInto_eq_ok he
    have hinserted := fitted_insert h hg.registered hmade hins
    rcases hg' with ⟨-, rfl⟩ | ⟨side, grown, -, -, rfl⟩
    · exact hinserted
    · have howner : ∀ o, some owner = some o → g.isSubgraph o = true := by
        rintro o ⟨⟩
        rw [isSubgraph, hholder]
        exact hsub
      obtain ⟨-, n, hadded, -⟩ := sound_insert hg howner hins
      have hne : owner ≠ id := hadded.ne_of_contains (contains_iff.2 ⟨holder, hholder⟩)
      have hgrown : (g₁.modifyNode owner fun n => { n with ports := grown }).Fitted settings := by
        refine hinserted.modifyNode owner fun m hm hfits => ?_
        -- the owner is a subgraph, so its ports are those of no unit
        have hm' : m = holder := by
          rw [hadded.others owner hne, hholder] at hm
          exact (Option.some.inj hm).symm
        subst hm'
        have hnone : ∀ u, m.body ≠ .device u := fun u hu => by
          rw [Node.isSubgraph, hu] at hsub
          cases hsub
        exact ⟨hfits.handle, fun u hu => (hnone u hu).elim, fun u hu => (hnone u hu).elim⟩
      exact hgrown.modifyNode id fun m _ hfits => ⟨hfits.handle, hfits.ports, hfits.unit⟩

theorem fitted_foldl {α : Type} {f : Graph CatalogueUnit → α → Graph CatalogueUnit}
    (hf : ∀ (g : Graph CatalogueUnit) a, g.Fitted settings → (f g a).Fitted settings) (l : List α)
    (h : g.Fitted settings) : (l.foldl f g).Fitted settings := by
  induction l generalizing g with
  | nil => exact h
  | cons a l ih => exact ih (hf g a h)

theorem fitted_dropNode (h : g.Fitted settings) (id : UnitId) : (dropNode g id).Fitted settings := by
  have hdropped : (cutOff g id).Fitted settings := fitted_foldl (fun _ c h => fitted_drop h c) _ h
  have hnames := (dropped_cutOff g id).names
  have hfollows : g.names.Follows False (dropNode g id).names := by
    rw [names_dropNode]
    split
    · exact Names.follows_unregister _ _ _
    · exact .refl _ _
  refine ⟨hfollows.sized h.names, fun x n hn => ?_⟩
  have hold : (cutOff g id).node? x = some n := by
    rw [node?_eq, dropNode, vacate, Array.getElem?_setIfInBounds] at hn
    split at hn
    · split at hn <;> cases hn
    · exact hn
  have hfits := hdropped.nodes x n hold
  rw [hnames] at hfits
  exact hfits.follows hfollows False.elim

theorem fitted_remove (h : g.Fitted settings) {id : UnitId} {body : Body CatalogueUnit}
    (he : remove id g = .ok body g') : g'.Fitted settings := by
  obtain ⟨-, rfl⟩ := remove_eq_ok he
  exact fitted_foldl (fun _ x h => fitted_dropNode h x) (g.contentsFirst id) h

end Edit
end Patchbay
