import Patchbay.Proofs.Catalogue.Recording
import Patchbay.Proofs.Engine.Buses
import Patchbay.Proofs.Engine.Hosting

/-!
# Who writes into a table

A unit writes into no store but that of its own handle, and of the units at a table only those that record
write into it. So as long as nobody else records there, the table and the unit that does are changed in
that unit's own step, and at no other time (`taped_of_moves`).
-/

namespace Patchbay

open Catalogue

/-! ## Units that leave tables as they are -/

namespace CatalogueUnit

/-- Whether a unit of the catalogue declares a table or reads one. -/
def LeavesTables (c : CatalogueUnit) : Prop := (∃ t, c = .table t) ∨ ∃ r, c = .tableReader r

variable {c c' : CatalogueUnit} {ins : Inputs} {outs outs' : Outputs} {first last : Nat}

theorem store_of_setOutlet {k : Nat} {ys : Samples} (h : outs.setOutlet k first last ys = .ok outs') :
    outs'.store = outs.store := by
  obtain ⟨_, -, h⟩ := bind_eq_ok.1 h
  obtain ⟨_, -, h⟩ := bind_eq_ok.1 h
  obtain ⟨_, -, h⟩ := bind_eq_ok.1 h
  cases h
  rfl

/-- Such a unit stays what it is, and so does its table. -/
theorem process_of_leavesTables (hc : c.LeavesTables)
    (h : c.process ins outs first last = .ok (c', outs')) : c' = c ∧ outs'.store = outs.store := by
  obtain ⟨t, rfl⟩ | ⟨r, rfl⟩ := hc
  · cases h
    exact ⟨rfl, rfl⟩
  · obtain ⟨_, hread, h⟩ := bind_eq_ok.1 h
    cases h
    obtain ⟨_, -, hread⟩ := bind_eq_ok.1 hread
    obtain ⟨_, -, hread⟩ := bind_eq_ok.1 hread
    exact ⟨rfl, store_of_setOutlet hread⟩

theorem unchanging_leavesTables : Unchanging LeavesTables where
  receive := by
    rintro c (⟨t, rfl⟩ | ⟨r, rfl⟩) inlet message here <;> rfl
  emit := by
    rintro c (⟨t, rfl⟩ | ⟨r, rfl⟩) outlet message <;> rfl
  process hc h := (process_of_leavesTables hc h).1
  rewired := by
    rintro c (⟨t, rfl⟩ | ⟨r, rfl⟩) counts <;> rfl

end CatalogueUnit

variable {U : Type} {f : CatalogueUnit → U}

/-- That units which leave tables as they are stay what they are. -/
abbrev LeavesOn (f : CatalogueUnit → U) (u v : U) : Prop :=
  ∀ c : CatalogueUnit, c.LeavesTables → u = f c → v = f c

variable [Device U]

theorem law_leavesOn (hf : Faithful f) : Law (LeavesOn f) :=
  law_of_unchanging hf CatalogueUnit.unchanging_leavesTables

/-! ## A table and who is there -/

namespace Engine

variable {own : UnitId → Prop} {e e' : Engine U} {x : UnitId} {slot : Nat} {t t' : Tape}
  {Q : Pool → Pool → Prop}

/-- The table in a slot of the registry. -/
def table? (e : Engine U) (slot : Nat) : Option Samples :=
  (e.graph.names.stores.get? slot).map Store.samples

/-- That a unit records into the table in a slot, and that nobody else does. -/
structure Taped (f : CatalogueUnit → U) (x : UnitId) (slot : Nat) (t : Tape) (e : Engine U) : Prop where
  writer : e.graph.Hosts f x (.tableWriter t.writer)
  handle : e.graph.handle? x = some (.store slot)
  others : ∀ y ≠ x, e.graph.handle? y = some (.store slot) → ∃ c, c.LeavesTables ∧ e.graph.Hosts f y c
  table : e.table? slot = some t.table

namespace Taped

omit [Device U] in
/-- Work on the graph leaves the others at the table as they are, and what the unit that records becomes
is left to say. -/
theorem of_works (h : e.Taped f x slot t) (hw : e.graph.Works (LeavesOn f) Q e'.graph)
    (hname : t'.writer.name = t.writer.name)
    (hbody : (e'.graph.node? x).map Node.body = some (.device (f (.tableWriter t'.writer))))
    (htable : e'.table? slot = some t'.table) : e'.Taped f x slot t' where
  writer := by
    obtain ⟨n, hn, -, hports, hrole⟩ := h.writer
    obtain ⟨n', hn', hbody⟩ := Option.map_eq_some_iff.1 hbody
    have hshape := hw.shape.shape x
    rw [Graph.shape?, Graph.shape?, hn, hn', Option.map_some, Option.map_some, Option.some.injEq] at hshape
    refine ⟨n', hn', hbody, (congrArg NodeShape.ports hshape).trans hports,
      (congrArg NodeShape.registration hshape).trans (hrole.trans ?_)⟩
    show some (Registration.accessor .table t.writer.name) = some (.accessor .table t'.writer.name)
    rw [hname]
  handle := (hw.shape.handle? x).trans h.handle
  others y hy hhandle := by
    rw [hw.shape.handle?] at hhandle
    obtain ⟨c, hc, hhosts⟩ := h.others y hy hhandle
    exact ⟨c, hc, hhosts.of_unchanging hc hw⟩
  table := htable

omit [Device U] in
theorem body (h : e.Taped f x slot t) :
    (e.graph.node? x).map Node.body = some (.device (f (.tableWriter t.writer))) := by
  obtain ⟨n, hn, hu, -⟩ := h.writer
  rw [hn, Option.map_some, hu]

omit [Device U] in
/-- Work that leaves the unit and the table alone leaves all as it is. -/
theorem works (h : e.Taped f x slot t) (hw : e.graph.Works (LeavesOn f) Q e'.graph)
    (hbody : (e'.graph.node? x).map Node.body = (e.graph.node? x).map Node.body)
    (htable : e'.table? slot = e.table? slot) : e'.Taped f x slot t :=
  h.of_works hw rfl (hbody.trans h.body) (htable.trans h.table)

omit [Device U] in
theorem of_nodes (h : e.Taped f x slot t) (hnodes : e'.graph.nodes = e.graph.nodes)
    (hnames : e'.graph.names = e.graph.names) : e'.Taped f x slot t := by
  have hhandle : ∀ y, e'.graph.handle? y = e.graph.handle? y := fun y => by
    rw [Graph.handle?, Graph.handle?, Graph.node?, Graph.node?, hnodes]
  refine ⟨h.writer.of_nodes hnodes, (hhandle x).trans h.handle, fun y hy hat => ?_, ?_⟩
  · obtain ⟨c, hc, hhosts⟩ := h.others y hy ((hhandle y).symm.trans hat)
    exact ⟨c, hc, hhosts.of_nodes hnodes⟩
  · rw [table?, hnames]
    exact h.table

end Taped

/-! ## What others do -/

omit [Device U] in
theorem body_modifyNode_of_ne (g : Graph U) {id : UnitId} (change : Node U → Node U) (h : x ≠ id) :
    ((g.modifyNode id change).node? x).map Node.body = (g.node? x).map Node.body := by
  rw [Graph.node?_modifyNode, if_neg h]

omit [Device U] in
/-- A change of a node that leaves its unit as it is. -/
theorem body_modifyNode (g : Graph U) (id : UnitId) {change : Node U → Node U}
    (hchange : ∀ n, (change n).body = n.body) :
    ((g.modifyNode id change).node? x).map Node.body = (g.node? x).map Node.body := by
  rw [Graph.node?_modifyNode]
  split
  · cases g.node? x with
    | none => rfl
    | some n => exact congrArg some (hchange n)
  · rfl

/-- The reaction of a unit is to become what its script ends with. -/
theorem body_reactQuietly {P : U → Prop} (e : Engine U) {n : Node U} (hn : e.graph.node? x = some n)
    (unit : U) {script : Script U} (h : script.Ends P) :
    ∃ u, P u ∧ ((e.reactQuietly x unit script).graph.node? x).map Node.body = some (.device u) := by
  obtain ⟨hP, hgraph, -⟩ := carryOut_spec x (Device.label unit) script h e
  refine ⟨_, hP, ?_⟩
  have hnodes : (e.reactQuietly x unit script).graph = e.graph.modifyNode x fun n =>
      { n with body := .device (carryOut x (Device.label unit) script e).1 } := by
    rw [← hgraph]
    rfl
  rw [hnodes, Graph.node?_modifyNode, if_pos rfl, hn]
  rfl

theorem body_reactQuietly_of_ne (e : Engine U) {id : UnitId} (h : x ≠ id) (unit : U)
    (script : Script U) : ((e.reactQuietly id unit script).graph.node? x).map Node.body =
      (e.graph.node? x).map Node.body := by
  obtain ⟨unit', hgraph⟩ := graph_reactQuietly e id unit script
  rw [hgraph]
  exact body_modifyNode_of_ne _ _ h

theorem table?_reactQuietly (e : Engine U) (id : UnitId) (unit : U) (script : Script U) :
    (e.reactQuietly id unit script).table? slot = e.table? slot := by
  rw [table?, names_reactQuietly, table?]

omit [Device U] in
/-- A unit writes into no store but that of its own handle. -/
theorem get?_stores_writeNamed {names : Names} {handle : Option Handle}
    (h : handle ≠ some (.store slot)) (outs : Outputs) :
    (writeNamed names handle outs).stores.get? slot = names.stores.get? slot := by
  unfold writeNamed
  split
  · rfl
  · next slot' store _ =>
    rw [Names.setStore, Directory.get?_modify]
    split
    · next heq =>
      subst heq
      exact absurd rfl h
    · rfl
  · rfl

omit [Device U] in
/-- The store of its own handle has the samples that a unit leaves there. -/
theorem samples_writeNamed {names : Names} {store : Store} (h : names.stores.get? slot = some store)
    {outs : Outputs} {store' : Store} (houts : outs.store = some store') :
    ((writeNamed names (some (.store slot)) outs).stores.get? slot).map Store.samples =
      some store'.samples := by
  have hwritten : writeNamed names (some (.store slot)) outs = names.setStore slot store' := by
    unfold writeNamed
    rw [houts]
  rw [hwritten, Names.setStore, Directory.get?_modify, if_pos rfl, h]
  rfl

variable (hf : Faithful f)
include hf

/-- A unit at the table that does not record leaves it as it is when it computes. -/
theorem Taped.table_of_compute (h : e.Taped f x slot t) {id : UnitId} (hid : id ≠ x) {n : Node U}
    {unit unit' : U} (hn : e.graph.node? id = some n) (hu : n.body = .device unit) {ins : Inputs}
    {outlets : Array Samples} {outs : Outputs} {first last : Nat}
    (hp : Device.process unit ins (e.outputs n outlets) first last = .ok (unit', outs)) :
    (e.afterCompute id n.handle unit' outs).table? slot = e.table? slot := by
  show ((writeNamed e.graph.names n.handle outs).stores.get? slot).map Store.samples = _
  by_cases hhandle : n.handle = some (.store slot)
  · have hat : e.graph.handle? id = some (.store slot) := by
      rw [Graph.handle?, hn, Option.bind_some, hhandle]
    obtain ⟨c, hc, n', hn', hu', -⟩ := h.others id hid hat
    cases hn.symm.trans hn'
    cases hu.symm.trans hu'
    rw [hf.process] at hp
    obtain ⟨⟨c', outs'⟩, hprocess, hp⟩ := bind_eq_ok.1 hp
    cases hp
    obtain ⟨store, hstore, -⟩ := Option.map_eq_some_iff.1 h.table
    have hkept := (CatalogueUnit.process_of_leavesTables hc hprocess).2
    rw [outputs, hhandle] at hkept
    rw [hhandle, samples_writeNamed hstore (hkept.trans hstore), table?, hstore]
    rfl
  · rw [get?_stores_writeNamed hhandle]
    rfl

/-- What is not done in its own step changes neither a unit that records nor its table. -/
theorem taped_of_move (hm : Move own e e') (hx : ¬ own x) (h : e.Taped f x slot t) :
    e'.Taped f x slot t := by
  have hw := (works_of_move (law_leavesOn hf) hm).graph
  have hother : ∀ {id}, own id → x ≠ id := fun ho he => hx (he ▸ ho)
  obtain ⟨n, hn, hu, -⟩ := h.writer
  cases hm with
  | ripple hr =>
    cases hr with
    | report | collect => exact h.works hw rfl rfl
    | defer => exact h.works hw (body_modifyNode _ _ fun _ => rfl) rfl
    | @receive id m unit inlet message hm hunit hcomputes =>
      have hne : x ≠ id := by
        rintro rfl
        cases hn.symm.trans hm
        cases hu.symm.trans hunit
        rw [hf.computes] at hcomputes
        cases hcomputes
      refine h.works hw ?_ (table?_reactQuietly (e.record (.received id inlet message)) id unit _)
      exact body_reactQuietly_of_ne (e.record (.received id inlet message)) hne unit _
  | fall => exact h.works hw rfl rfl
  | @emit id m unit outlet message hm hunit =>
    refine h.works hw ?_ (table?_reactQuietly e id unit _)
    by_cases hid : x = id
    · -- the unit has no events of its own, but if it had one it would stay what it is
      subst hid
      cases hn.symm.trans hm
      cases hu.symm.trans hunit
      have hends : (Device.emit (f (.tableWriter t.writer)) outlet message (e.surroundings x)).Ends
          (· = f (.tableWriter t.writer)) := by
        rw [hf.emit]
        exact .map rfl
      obtain ⟨_, rfl, hbody⟩ := body_reactQuietly e hn (f (.tableWriter t.writer)) hends
      rw [hbody, h.body]
    · exact body_reactQuietly_of_ne e hid unit _
  | pool => exact h.works hw rfl rfl
  | take ho hnext =>
    obtain ⟨m, rest, -, -, rfl⟩ := nextPending?_eq_some hnext
    exact h.works hw (body_modifyNode _ _ fun _ => rfl) rfl
  | compute ho hm hunit hp =>
    refine h.works hw (body_modifyNode_of_ne _ _ (hother ho)) ?_
    exact h.table_of_compute hf (Ne.symm (hother ho)) hm hunit hp
  | @receive id m unit inlet message ho hm hunit =>
    refine h.works hw ?_ (table?_reactQuietly (e.record (.received id inlet message)) id unit _)
    exact body_reactQuietly_of_ne (e.record (.received id inlet message)) (hother ho) unit _
  | calm ho => exact h.works hw (body_modifyNode_of_ne _ _ (hother ho)) rfl

theorem taped_of_moves (hm : Moves own e e') (hx : ¬ own x) (h : e.Taped f x slot t) :
    e'.Taped f x slot t :=
  hm.keeps (P := fun e => e.Taped f x slot t) (fun _ _ hm h => taped_of_move hf hm hx h) h

end Engine
end Patchbay
