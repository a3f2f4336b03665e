import Patchbay.Proofs.Catalogue.Creating
import Patchbay.Proofs.Catalogue.Fitting
import Patchbay.Proofs.Config.Building
import Patchbay.Proofs.Graph.Growing

/-!
# The units that a patch declares

Whether a unit makes sense can be told from the units declared before it (`UnitEntry.flaw?`): its name
must be new and its label known, and a parent must be a subgraph declared before it. On each side of a
subgraph the units that stand for streams come before those that stand for messages.

As long as all units make sense, the graph has just the declared nodes, each at the number of its
declaration, in its parent, and with a port for each unit that stands for one (`Declares`). Building a unit
keeps that, or ends with what `flaw?` says (`outcome_addUnit`).
-/

namespace Patchbay

open Catalogue (Port)

/-! ## Labels -/

namespace Catalogue

/-- Whether there is a unit for a label. -/
def Knows (label : String) : Prop :=
  (numberLabel? label).isSome = true ∨ (find? label).isSome = true

instance (label : String) : Decidable (Knows label) :=
  inferInstanceAs (Decidable ((numberLabel? label).isSome = true ∨ (find? label).isSome = true))

/-- The port of a subgraph that units with a label stand for. -/
def Port.ofLabel? (label : String) : Option Port :=
  [⟨.inlet, true⟩, ⟨.outlet, true⟩, ⟨.inlet, false⟩, ⟨.outlet, false⟩].find? (·.label == label)

section Create

variable {label : String} {args : Message} {settings : Settings} {reports rest : Array Report}
  {made : Option CatalogueUnit}

/-- Something is made exactly for the labels that are known. -/
theorem isSome_of_create (h : create label args settings reports = .ok made rest) :
    made.isSome = true ↔ Knows label := by
  by_cases hlabel : label = "delwrite~"
  · subst hlabel
    rw [create_delwrite_eq] at h
    obtain ⟨unit, -, rfl⟩ := run_map_eq_ok.1 h
    exact iff_of_true rfl (by decide)
  · obtain ⟨made', rest', hmade, hiff⟩ := create_eq_ok hlabel args settings reports
    rw [h] at hmade
    cases hmade
    exact hiff

/-- That a unit is no port, or that of the label of an entry. -/
def Entry.Labels (entry : Entry) : CatalogueUnit → Prop
  | .port p => entry.label = p.label ∧ entry.aliases = []
  | _ => True

/-- Only the entry of a port makes one. -/
theorem labels_of_entry (args : Message) (settings : Settings) :
    ∀ entry ∈ entries, CatalogueUnit.Makes entry.Labels (entry.make args settings) := by
  have hmap : ∀ {α : Type} {entry : Entry} {f : α → CatalogueUnit} (making : Making α),
      (∀ a, entry.Labels (f a)) → CatalogueUnit.Makes entry.Labels (f <$> making) :=
    fun making hf => CatalogueUnit.makes_map (CatalogueUnit.makes_any making) fun a _ => hf a
  simp only [entries, List.forall_mem_cons]
  repeat' apply And.intro
  all_goals first
    | exact hmap _ fun _ => ⟨⟩
    | exact fun _ => ⟨⟩
    | exact fun _ => ⟨rfl, rfl⟩
    | exact fun _ h => absurd h List.not_mem_nil

/-- What is made stands for a port exactly if its label is that of one. -/
theorem ofLabel?_of_create {unit : CatalogueUnit}
    (h : create label args settings reports = .ok (some unit) rest) (p : Port) :
    Port.ofLabel? label = some p ↔ unit = .port p := by
  constructor
  · intro hlabel
    have hp : p.label = label := eq_of_beq (List.find?_some (p := fun p : Port => p.label == label) hlabel)
    subst hp
    have hnumber : numberLabel? p.label = none := by
      obtain ⟨_ | _, _ | _⟩ := p <;> decide
    have hentry : ∃ description, find? p.label = some (portEntry p description) := by
      obtain ⟨_ | _, _ | _⟩ := p <;> exact ⟨_, rfl⟩
    obtain ⟨description, hentry⟩ := hentry
    unfold create at h
    rw [hnumber, hentry] at h
    cases h
    rfl
  · rintro rfl
    unfold create at h
    cases hnumber : numberLabel? label with
    | some value =>
      rw [hnumber] at h
      cases h
    | none =>
      rw [hnumber] at h
      cases hentry : find? label with
      | none =>
        rw [hentry] at h
        cases h
      | some entry =>
        rw [hentry] at h
        obtain ⟨unit, hmade, hunit⟩ := run_map_eq_ok.1 h
        cases hunit
        obtain ⟨hlabel, haliases⟩ := (labels_of_entry args settings entry
          (List.mem_of_find?_eq_some hentry) reports).of_ok hmade
        have hnamed : entry.isNamed label = true :=
          List.find?_some (p := fun e : Entry => e.isNamed label) hentry
        rw [Entry.isNamed, haliases, hlabel, List.contains_nil, Bool.or_false] at hnamed
        rw [← eq_of_beq hnamed]
        obtain ⟨_ | _, _ | _⟩ := p <;> decide

end Create
end Catalogue

/-! ## What makes sense -/

namespace UnitEntry

/-- Whether the label of a unit is known. -/
def isKnown (u : UnitEntry) : Bool := u.isSubgraph || decide (Catalogue.Knows u.label)

/-- The port of its parent that a unit stands for. -/
def port? (u : UnitEntry) : Option Port := Port.ofLabel? u.label

/-- Whether a unit stands for a stream, and one that stands for messages on the same side of its parent
is declared before it. -/
def comesLate (before : List UnitEntry) (u : UnitEntry) : Bool :=
  match u.port? with
  | some ⟨side, true⟩ =>
    before.any fun v => v.parent == u.parent && v.port? == some ⟨side, false⟩
  | _ => false

/-- The unit declared under a name, and its number. -/
def declared? (units : List UnitEntry) (name : String) : Option (UnitEntry × Nat) :=
  units.zipIdx.find? (·.1.name == name)

/-- What is wrong with a unit, if anything, after the units declared before it. -/
def flaw? (before : List UnitEntry) (u : UnitEntry) : Option ConfigError :=
  if (declared? before u.name).isSome then some (.duplicateUnit u.name)
  else
    match u.parent with
    | none => if u.isKnown then none else some (.unknownLabel u.name u.label)
    | some parent =>
      match declared? before parent with
      | none => some (.unknownUnit parent)
      | some (holder, k) =>
        if !u.isKnown then some (.unknownLabel u.name u.label)
        else if !holder.isSubgraph then some (.placement u.name parent (.notASubgraph ⟨k⟩))
        else if u.comesLate before then some (.placement u.name parent (.boundaryOrder ⟨k⟩))
        else none

/-- How many of the units in a subgraph stand for a kind of port. -/
def portCount (units : List UnitEntry) (name : String) (p : Port) : Nat :=
  units.countP fun v => v.parent == some name && v.port? == some p

/-- The ports of a subgraph with a name, one for each unit in it that stands for one. -/
def innerPorts (units : List UnitEntry) (name : String) : Ports where
  streamInlets := portCount units name ⟨.inlet, true⟩
  messageInlets := portCount units name ⟨.inlet, true⟩ + portCount units name ⟨.inlet, false⟩
  streamOutlets := portCount units name ⟨.outlet, true⟩
  messageOutlets := portCount units name ⟨.outlet, false⟩

variable {units before : List UnitEntry} {u v : UnitEntry} {settings : Settings}
  {body : Body CatalogueUnit}

theorem port?_of_isSubgraph (h : u.isSubgraph = true) : u.port? = none := by
  rw [port?, eq_of_beq h]
  decide

theorem isKnown_of_makes (h : u.Makes settings body) : u.isKnown = true := by
  cases h with
  | subgraph hsub => exact Bool.or_eq_true_iff.2 (.inl hsub)
  | device _ hmade =>
    exact Bool.or_eq_true_iff.2 (.inr (decide_eq_true ((Catalogue.isSome_of_create hmade).1 rfl)))

theorem isSubgraph_of_makes (h : u.Makes settings body) :
    u.isSubgraph = true ↔ body = .subgraph := by
  cases h with
  | subgraph hsub => exact iff_of_true hsub rfl
  | device hsub _ => exact iff_of_false (by rw [hsub]; exact nofun) nofun

/-- What a unit is made to stands for the port that its label says. -/
theorem side_of_makes (h : u.Makes settings body) : body.side = u.port?.map Port.side ∧
    ∀ p, u.port? = some p → body.ports = p.ports := by
  cases h with
  | subgraph hsub =>
    rw [port?_of_isSubgraph hsub]
    exact ⟨rfl, nofun⟩
  | @device unit _ hsub hmade =>
    have hport : ∀ p, u.port? = some p ↔ unit = .port p := Catalogue.ofLabel?_of_create hmade
    cases hp : u.port? with
    | some p =>
      obtain rfl := (hport p).1 hp
      exact ⟨rfl, fun q hq => by cases hq; rfl⟩
    | none =>
      refine ⟨?_, nofun⟩
      show Device.side unit = none
      cases unit with
      | port p =>
        have := (hport p).2 rfl
        rw [hp] at this
        cases this
      | _ => rfl

theorem portCount_append (name : String) (p : Port) : portCount (units ++ [u]) name p =
    portCount units name p + if u.parent = some name ∧ u.port? = some p then 1 else 0 := by
  rw [portCount, List.countP_append, List.countP_singleton]
  simp only [Bool.and_eq_true, beq_iff_eq]
  rfl

/-- A unit that stands for no port of a subgraph leaves its ports as they are. -/
theorem innerPorts_append_of_ne {name : String} (h : u.parent = some name → u.port? = none) :
    innerPorts (units ++ [u]) name = innerPorts units name := by
  have hnone : ∀ p, ¬ (u.parent = some name ∧ u.port? = some p) := fun p hp => by
    rw [h hp.1] at hp
    cases hp.2
  simp only [innerPorts, portCount_append, hnone, if_false, Nat.add_zero]

/-- A subgraph with nothing in it has no ports. -/
theorem innerPorts_of_forall {name : String} (h : ∀ v ∈ units, v.parent ≠ some name) :
    innerPorts units name = {} := by
  have hnone : ∀ p, portCount units name p = 0 := fun p => by
    rw [portCount, List.countP_eq_zero]
    intro v hv
    simp [h v hv]
  simp [innerPorts, hnone]

theorem comesLate_eq {name : String} {p : Port} (hparent : u.parent = some name)
    (hp : u.port? = some p) : u.comesLate units =
      (p.stream && decide (0 < portCount units name ⟨p.side, false⟩)) := by
  obtain ⟨side, stream⟩ := p
  unfold comesLate
  rw [hp]
  cases stream with
  | false => rfl
  | true =>
    rw [hparent, Bool.true_and, Bool.eq_iff_iff, decide_eq_true_iff, portCount, List.countP_pos_iff,
      List.any_eq_true]

/-- A unit that stands for a port of a subgraph becomes the next one, unless it comes late. -/
theorem grow?_innerPorts {name : String} {p : Port} (hparent : u.parent = some name)
    (hp : u.port? = some p) : (innerPorts units name).grow? p.ports p.side =
      if u.comesLate units then none else some (innerPorts (units ++ [u]) name) := by
  rw [comesLate_eq hparent hp]
  unfold innerPorts
  simp only [portCount_append, hparent, hp, true_and]
  obtain ⟨_ | _, _ | _⟩ := p <;>
    simp [Ports.grow?, Port.ports, Ports.messages, Nat.add_assoc, Nat.add_comm 1]

end UnitEntry

/-! ## The state of building -/

open UnitEntry (declared? innerPorts)

/-- That just the units of a list have been built. -/
structure Construction.Declares (settings : Settings) (units : List UnitEntry) (c : Construction) :
    Prop where
  fixed : c.engine.settings = settings
  names : c.names = units.zipIdx.map fun x => (x.1.name, ⟨x.2⟩)
  distinct : (units.map UnitEntry.name).Nodup
  size : c.engine.graph.nodes.size = units.length
  bodies : ∀ k u, units[k]? = some u →
    ∃ n, c.engine.graph.node? ⟨k⟩ = some n ∧ u.Makes settings n.body
  owners : ∀ k u, units[k]? = some u → Building.OwnedBy c u (c.engine.graph.owner? ⟨k⟩)
  ports : ∀ k u, units[k]? = some u → u.isSubgraph = true →
    c.engine.graph.ports ⟨k⟩ = innerPorts units u.name
  connections : c.engine.graph.connections = []
  queue : c.engine.queue = {}

namespace UnitEntry

variable {units : List UnitEntry} {u v : UnitEntry} {name : String} {k : Nat}

theorem getElem?_of_declared? (h : declared? units name = some (v, k)) :
    units[k]? = some v ∧ v.name = name := by
  have hmem := List.mem_of_find?_eq_some h
  have hname := List.find?_some (p := fun x : UnitEntry × Nat => x.1.name == name) h
  exact ⟨List.mk_mem_zipIdx_iff_getElem?.1 hmem, eq_of_beq hname⟩

theorem declared?_eq_none : declared? units name = none ↔ name ∉ units.map UnitEntry.name := by
  unfold declared?
  rw [List.find?_eq_none]
  simp only [beq_iff_eq, List.mem_map, not_exists, not_and]
  constructor
  · intro h v hv
    obtain ⟨k, hk, rfl⟩ := List.getElem_of_mem hv
    exact h (_, k) (List.mk_mem_zipIdx_iff_getElem?.2 (List.getElem?_eq_getElem hk))
  · rintro h ⟨v, k⟩ hv
    exact h v (List.mem_of_getElem? (List.mk_mem_zipIdx_iff_getElem?.1 hv))

/-- A unit is found under its name, which no other has. -/
theorem declared?_of_getElem? (hdistinct : (units.map UnitEntry.name).Nodup)
    (hu : units[k]? = some u) : declared? units u.name = some (u, k) := by
  cases hfound : declared? units u.name with
  | none =>
    exact (declared?_eq_none.1 hfound (List.mem_map_of_mem (List.mem_of_getElem? hu))).elim
  | some x =>
    obtain ⟨v, j⟩ := x
    obtain ⟨hv, hname⟩ := getElem?_of_declared? hfound
    have hj : (units.map UnitEntry.name)[j]? = (units.map UnitEntry.name)[k]? := by
      rw [List.getElem?_map, List.getElem?_map, hu, hv, Option.map_some, Option.map_some, hname]
    obtain rfl : j = k := by
      refine (List.getElem?_inj ?_ hdistinct).1 hj
      rw [List.length_map]
      exact (List.getElem?_eq_some_iff.1 hv).1
    rw [hv] at hu
    cases hu
    rfl

end UnitEntry

namespace Construction.Declares

variable {settings : Settings} {units : List UnitEntry} {c : Construction}

theorem unit?_eq (h : c.Declares settings units) (name : String) :
    c.unit? name = (declared? units name).map fun x => ⟨x.2⟩ := by
  unfold Construction.unit? declared?
  rw [h.names, List.find?_map, Option.map_map]
  rfl

/-- The nodes are subgraphs as declared. -/
theorem isSubgraph_eq (h : c.Declares settings units) {k : Nat} {u : UnitEntry}
    (hu : units[k]? = some u) : c.engine.graph.isSubgraph ⟨k⟩ = u.isSubgraph := by
  obtain ⟨n, hn, hmakes⟩ := h.bodies k u hu
  have hsub := UnitEntry.isSubgraph_of_makes hmakes
  unfold Graph.isSubgraph
  rw [hn, Option.any_some, Bool.eq_iff_iff, hsub, Node.isSubgraph]
  cases n.body <;> simp

/-- Each number is that of the unit declared there. -/
theorem nameOf?_eq (h : c.Declares settings units) (id : UnitId) :
    c.nameOf? id = units[id.index]?.map UnitEntry.name := by
  unfold Construction.nameOf?
  rw [h.names, List.find?_map, Option.map_map]
  cases hfound : units.zipIdx.find? ((fun x => x.2 == id) ∘
      fun x : UnitEntry × Nat => (x.1.name, (⟨x.2⟩ : UnitId))) with
  | none =>
    cases hu : units[id.index]? with
    | none => rfl
    | some u =>
      have hnot := List.find?_eq_none.1 hfound (u, id.index) (List.mk_mem_zipIdx_iff_getElem?.2 hu)
      simp at hnot
  | some x =>
    obtain ⟨u, k⟩ := x
    have hid := List.find?_some hfound
    obtain rfl : (⟨k⟩ : UnitId) = id := by simpa using hid
    rw [List.mk_mem_zipIdx_iff_getElem?.1 (List.mem_of_find?_eq_some hfound)]
    rfl

/-- Names and numbers determine each other. -/
theorem unit?_eq_some_iff (h : c.Declares settings units) (name : String) (id : UnitId) :
    c.unit? name = some id ↔ c.nameOf? id = some name := by
  rw [h.unit?_eq, h.nameOf?_eq, Option.map_eq_some_iff, Option.map_eq_some_iff]
  constructor
  · rintro ⟨⟨u, k⟩, hu, rfl⟩
    exact ⟨u, UnitEntry.getElem?_of_declared? hu⟩
  · rintro ⟨u, hu, rfl⟩
    exact ⟨(u, id.index), UnitEntry.declared?_of_getElem? h.distinct hu, rfl⟩

/-- An owner is one of the declared units. -/
theorem cases_of_ownedBy (h : c.Declares settings units) {u : UnitEntry} {owner : Option UnitId}
    (howner : Building.OwnedBy c u owner) : u.parent = none ∧ owner = none ∨
      ∃ parent v k, u.parent = some parent ∧ declared? units parent = some (v, k) ∧
        owner = some ⟨k⟩ := by
  unfold Building.OwnedBy at howner
  cases hparent : u.parent with
  | none =>
    rw [hparent] at howner
    exact .inl ⟨rfl, howner⟩
  | some parent =>
    rw [hparent] at howner
    obtain ⟨id, hid, rfl⟩ := howner
    rw [h.unit?_eq] at hid
    obtain ⟨⟨v, k⟩, hv, rfl⟩ := Option.map_eq_some_iff.1 hid
    exact .inr ⟨parent, v, k, rfl, hv, rfl⟩

end Construction.Declares

/-! ## Adding a unit -/

namespace Edit

variable {U : Type} [Device U] {g : Graph U} {owner : UnitId} {holder : Node U} {body : Body U}

/-- That an edit is refused for no reason but those given. -/
abbrev RefusesFor {α : Type} (reason : GraphError → Prop) (r : EStateM.Result Failure (Graph U) α) :
    Prop :=
  Yields (fun f _ => ∀ why, f = .refused why → reason why) (fun _ _ => True) r

omit [Device U] in
theorem refusesFor_ofResult {α : Type} (reason : GraphError → Prop) (x : Except Fault α)
    (g : Graph U) : RefusesFor reason (ofResult x g) := by
  cases x with
  | ok a => exact ⟨⟩
  | error how => exact fun why h => nomatch h

/-- A node is inserted, unless a rule is broken. -/
theorem refusesFor_insert (reason : GraphError → Prop) (owner : Option UnitId) (body : Body U)
    (g : Graph U) : RefusesFor reason (insert owner body g) := by
  unfold insert
  rw [run_get_bind]
  cases body.registration with
  | none =>
    simp only [pure_bind]
    exact (refusesFor_ofResult reason _ _).bind fun _ _ _ => ⟨⟩
  | some role =>
    exact (refusesFor_ofResult reason _ _).bind fun _ _ _ =>
      (refusesFor_ofResult reason _ _).bind fun _ _ _ => ⟨⟩

/-- Why a node is not added inside another. -/
def Unfit (holder : Node U) (body : Body U) (owner : UnitId) (why : GraphError) : Prop :=
  holder.isSubgraph = false ∧ why = .notASubgraph owner ∨
    holder.isSubgraph = true ∧ why = .boundaryOrder owner ∧
      ∃ side, body.side = some side ∧ holder.ports.grow? body.ports side = none

theorem refusesFor_insertInto (h : g.node? owner = some holder) :
    RefusesFor (Unfit holder body owner) (insertInto owner body g) := by
  unfold insertInto
  rw [run_bind, node_eq_ok.2 ⟨h, rfl⟩]
  dsimp only
  cases hsub : holder.isSubgraph with
  | false =>
    simp only [Bool.not_false, if_true]
    exact fun why h => .inl ⟨hsub, (Failure.refused.inj h).symm⟩
  | true =>
    simp only [Bool.not_true, Bool.false_eq_true, if_false]
    -- what is looked up behind the new node has been there before it
    have hinsert := (refusesFor_insert (Unfit holder body owner) (some owner) body g).and
      fun id g' hok => show g'.contains owner = true ∧ g'.contains id = true by
        rw [contains_insert hok, contains_insert hok, if_pos rfl, Graph.contains_iff.2 ⟨holder, h⟩]
        exact ⟨ite_self _, rfl⟩
    cases hside : body.side with
    | none =>
      refine hinsert.bind fun id g' ⟨_, howner, _⟩ => ?_
      obtain ⟨_, -, hnode⟩ := node_of_contains howner
      rw [run_bind, hnode]
      exact ⟨⟩
    | some side =>
      cases hgrow : holder.ports.grow? body.ports side with
      | none =>
        simp only [hgrow]
        exact fun why h => .inr ⟨hsub, (Failure.refused.inj h).symm, side, hside, hgrow⟩
      | some grown =>
        simp only [hgrow]
        refine hinsert.bind fun id g' ⟨_, howner, hid⟩ => ?_
        obtain ⟨_, -, hnode⟩ := node_of_contains howner
        rw [run_bind, hnode]
        dsimp only
        rw [run_modify_bind]
        have hid' : (g'.modifyNode owner fun n => { n with ports := grown }).contains id = true := by
          simp only [Graph.contains, Graph.node?_modifyNode] at hid ⊢
          split
          · simpa using hid
          · exact hid
        obtain ⟨_, -, hnode'⟩ := node_of_contains hid'
        rw [run_bind, hnode']
        exact ⟨⟩

/-- That a node has been added to a graph: it comes last, and its owner may have one more port. -/
structure Places (g g' : Graph U) (owner : Option UnitId) (body : Body U) (id : UnitId) : Prop where
  fresh : id = ⟨g.nodes.size⟩
  size : g'.nodes.size = g.nodes.size + 1
  connections : g'.connections = g.connections
  bodies : ∀ x, (g'.node? x).map Node.body = if x = id then some body else (g.node? x).map Node.body
  owners : ∀ x, g'.owner? x = if x = id then owner else g.owner? x
  own : g'.ports id = body.ports
  others : ∀ x, x ≠ id → owner ≠ some x ∨ body.side = none → g'.ports x = g.ports x
  holder : ∀ o, owner = some o → g.isSubgraph o = true ∧
    ∀ side, body.side = some side → (g.ports o).grow? body.ports side = some (g'.ports o)

theorem places_add {owner : Option UnitId} {id : UnitId} {g' : Graph U}
    (h : add owner body g = .ok id g') : Places g g' owner body id := by
  -- a node that is just appended leaves all others as they are
  have happend : ∀ {owner : Option UnitId} {g₁ : Graph U}, insert owner body g = .ok id g₁ →
      ∃ n, g.Added g₁ id n ∧ n.body = body ∧ n.owner = owner ∧ n.ports = body.ports ∧
        id = ⟨g.nodes.size⟩ ∧ g₁.nodes.size = g.nodes.size + 1 := by
    intro owner g₁ h
    obtain ⟨handle, names, -, rfl, rfl⟩ := insert_eq_ok h
    exact ⟨_, Graph.added_of_push rfl rfl, rfl, rfl, rfl, rfl, Array.size_push ..⟩
  cases owner with
  | none =>
    obtain ⟨n, hadded, rfl, howner, hports, hid, hsize⟩ := happend h
    refine ⟨hid, hsize, hadded.connections, hadded.view (·.map Node.body), ?_, ?_, ?_, nofun⟩
    · rw [← howner]
      exact hadded.owner?
    · rw [hadded.ports, if_pos rfl, hports]
    · intro x hx _
      rw [hadded.ports, if_neg hx]
  | some o =>
    obtain ⟨holder, g₁, hholder, hsub, hins, hplace⟩ := insertInto_eq_ok h
    obtain ⟨n, hadded, rfl, howner, hports, hid, hsize⟩ := happend hins
    have hholds : g.isSubgraph o = true := by simpa [Graph.isSubgraph, hholder] using hsub
    have hho : g.ports o = holder.ports := by simp [Graph.ports, hholder]
    obtain ⟨hside, rfl⟩ | ⟨side, grown, hside, hgrow, rfl⟩ := hplace
    · refine ⟨hid, hsize, hadded.connections, hadded.view (·.map Node.body), ?_, ?_, ?_, ?_⟩
      · rw [← howner]
        exact hadded.owner?
      · rw [hadded.ports, if_pos rfl, hports]
      · intro x hx _
        rw [hadded.ports, if_neg hx]
      · rintro o' ⟨⟩
        exact ⟨hholds, fun side h => by rw [hside] at h; cases h⟩
    · have hne : o ≠ id := hadded.ne_of_contains (Graph.contains_iff.2 ⟨holder, hholder⟩)
      have ho : g₁.contains o = true := by
        rw [hadded.contains, if_neg hne]
        exact Graph.contains_iff.2 ⟨holder, hholder⟩
      refine ⟨hid, ?_, hadded.connections, fun x => ?_, fun x => ?_, ?_, ?_, ?_⟩
      · simp [Graph.stand, hsize]
      · rw [Graph.view_stand _ _ _ _ _ Node.body (fun _ _ _ => rfl)]
        exact hadded.view (·.map Node.body) x
      · rw [Graph.owner?_stand, ← howner]
        exact hadded.owner? x
      · rw [Graph.ports_stand _ _ _ _ _ ho, if_neg hne.symm, hadded.ports, if_pos rfl, hports]
      · rintro x hx (hx' | hnone)
        · have hxo : x ≠ o := fun h => hx' (h ▸ rfl)
          rw [Graph.ports_stand _ _ _ _ _ ho, if_neg hxo, hadded.ports, if_neg hx]
        · rw [hside] at hnone
          cases hnone
      · rintro o' ⟨⟩
        refine ⟨hholds, fun side' h => ?_⟩
        rw [hside] at h
        cases h
        rw [Graph.ports_stand _ _ _ _ _ ho, if_pos rfl, hho, hgrow]

end Edit

namespace Building

variable {settings : Settings} {before : List UnitEntry} {u : UnitEntry} {c c' : Construction}
  {r : Except ConfigError PUnit}

/-- Of a new unit with a known label only the place can be wrong. -/
theorem flaw?_of_known (hname : declared? before u.name = none) (hknown : u.isKnown = true)
    {parent : String} (hparent : u.parent = some parent) {v : UnitEntry} {k : Nat}
    (hv : declared? before parent = some (v, k)) : u.flaw? before =
      if v.isSubgraph = false then some (.placement u.name parent (.notASubgraph ⟨k⟩))
      else if u.comesLate before = true then some (.placement u.name parent (.boundaryOrder ⟨k⟩))
      else none := by
  unfold UnitEntry.flaw?
  rw [hname, hparent]
  dsimp only
  rw [hv, hknown]
  simp

/-- A subgraph takes a unit with the next port exactly if that does not come late. -/
theorem grow?_eq_none_iff (h : c.Declares settings before) {parent : String}
    (hparent : u.parent = some parent) {v : UnitEntry} {k : Nat}
    (hv : declared? before parent = some (v, k)) (hsub : v.isSubgraph = true)
    {body : Body CatalogueUnit} (hmakes : u.Makes settings body) : u.comesLate before = true ↔
      ∃ side, body.side = some side ∧ (c.engine.graph.ports ⟨k⟩).grow? body.ports side = none := by
  obtain ⟨hk, hname⟩ := UnitEntry.getElem?_of_declared? hv
  obtain ⟨hside, hports⟩ := UnitEntry.side_of_makes hmakes
  rw [h.ports k v hk hsub, hname, hside]
  cases hp : u.port? with
  | none =>
    refine iff_of_false ?_ (by rintro ⟨_, ⟨⟩, _⟩)
    unfold UnitEntry.comesLate
    rw [hp]
    exact Bool.false_ne_true
  | some p =>
    have hgrow : (innerPorts before parent).grow? p.ports p.side = _ :=
      UnitEntry.grow?_innerPorts hparent hp
    rw [hports p hp]
    constructor
    · intro hlate
      rw [hlate, if_pos rfl] at hgrow
      exact ⟨p.side, rfl, hgrow⟩
    · rintro ⟨side, hs, hnone⟩
      cases hs
      by_contra hlate
      rw [hgrow, if_neg hlate] at hnone
      cases hnone

/-- A unit that is added makes sense. -/
theorem flaw?_of_added (h : c.Declares settings before) (hname : c.unit? u.name = none)
    {owner : Option UnitId} {body : Body CatalogueUnit} (howner : OwnedBy c u owner)
    (hmakes : u.Makes settings body) {id : UnitId} {g : Graph CatalogueUnit}
    (hadd : Edit.add owner body c.engine.graph = .ok id g) : u.flaw? before = none := by
  have hnew : declared? before u.name = none := by rwa [h.unit?_eq, Option.map_eq_none_iff] at hname
  have hknown := UnitEntry.isKnown_of_makes hmakes
  obtain ⟨hparent, rfl⟩ | ⟨parent, v, k, hparent, hv, rfl⟩ := h.cases_of_ownedBy howner
  · unfold UnitEntry.flaw?
    rw [hnew, hparent]
    simp [hknown]
  · obtain ⟨hholder, hgrown⟩ := (Edit.places_add hadd).holder _ rfl
    rw [h.isSubgraph_eq (UnitEntry.getElem?_of_declared? hv).1] at hholder
    have hlate : ¬ u.comesLate before = true := by
      rw [grow?_eq_none_iff h hparent hv hholder hmakes]
      rintro ⟨side, hside, hnone⟩
      rw [hgrown side hside] at hnone
      cases hnone
    rw [flaw?_of_known hnew hknown hparent hv, if_neg (by simp [hholder]), if_neg hlate]

/-- A unit that finds no place is said to find none. -/
theorem flaw?_of_misplaced (h : c.Declares settings before) (hname : c.unit? u.name = none)
    {owner : Option UnitId} {body : Body CatalogueUnit} (howner : OwnedBy c u owner)
    (hmakes : u.Makes settings body) {why : GraphError} {g : Graph CatalogueUnit}
    (hadd : Edit.add owner body c.engine.graph = .error (.refused why) g) :
    u.flaw? before = some (.placement u.name (u.parent.getD "") why) := by
  have hnew : declared? before u.name = none := by rwa [h.unit?_eq, Option.map_eq_none_iff] at hname
  have hknown := UnitEntry.isKnown_of_makes hmakes
  obtain ⟨hparent, rfl⟩ | ⟨parent, v, k, hparent, hv, rfl⟩ := h.cases_of_ownedBy howner
  · have hnever := Edit.refusesFor_insert (fun _ => False) none body c.engine.graph
    rw [show Edit.insert none body c.engine.graph = _ from hadd] at hnever
    exact (hnever why rfl).elim
  · obtain ⟨hk, -⟩ := UnitEntry.getElem?_of_declared? hv
    obtain ⟨n, hn, -⟩ := h.bodies k v hk
    have hsub := h.isSubgraph_eq hk
    have hports : c.engine.graph.ports ⟨k⟩ = n.ports := by simp [Graph.ports, hn]
    simp only [Graph.isSubgraph, hn, Option.any_some] at hsub
    have hwhy : Edit.RefusesFor (Edit.Unfit n body ⟨k⟩) (Edit.add (some ⟨k⟩) body c.engine.graph) :=
      Edit.refusesFor_insertInto hn
    rw [hadd] at hwhy
    rw [flaw?_of_known hnew hknown hparent hv, hparent, Option.getD_some, ← hsub]
    obtain ⟨hnot, rfl⟩ | ⟨hholder, rfl, side, hside, hgrow⟩ := hwhy why rfl
    · rw [if_pos hnot]
    · have hlate := (grow?_eq_none_iff h hparent hv (hsub ▸ hholder) hmakes).2
        ⟨side, hside, hports ▸ hgrow⟩
      rw [if_neg (by simp [hholder]), if_pos hlate]

/-- What names stand for is not changed by one that follows. -/
theorem unit?_append_of_some {name : String} {id : UnitId} (h : c.unit? name = some id)
    (e : Engine CatalogueUnit) (x : String × UnitId) :
    Construction.unit? ⟨e, c.names ++ [x]⟩ name = some id := by
  unfold Construction.unit? at h ⊢
  obtain ⟨y, hy, rfl⟩ := Option.map_eq_some_iff.1 h
  rw [List.find?_append, hy]
  rfl

theorem ownedBy_append {v : UnitEntry} {owner : Option UnitId} (h : OwnedBy c v owner)
    (e : Engine CatalogueUnit) (x : String × UnitId) :
    OwnedBy ⟨e, c.names ++ [x]⟩ v owner := by
  unfold OwnedBy at h ⊢
  cases hparent : v.parent with
  | none => rwa [hparent] at h
  | some parent =>
    rw [hparent] at h
    obtain ⟨id, hid, rfl⟩ := h
    exact ⟨id, unit?_append_of_some hid e x, rfl⟩

/-- A unit with a new name is the parent of none of those before it. -/
theorem parent_ne_of_new (h : c.Declares settings before) (hnew : c.unit? u.name = none) :
    ∀ v ∈ before, v.parent ≠ some u.name := by
  intro v hv hparent
  obtain ⟨k, hk, rfl⟩ := List.getElem_of_mem hv
  have howned := h.owners k _ (List.getElem?_eq_getElem hk)
  unfold OwnedBy at howned
  rw [hparent] at howned
  obtain ⟨id, hid, -⟩ := howned
  rw [hnew] at hid
  cases hid

/-- The ports of a subgraph after a unit has been added, maybe inside it. -/
theorem ports_of_added (h : c.Declares settings before) {owner : Option UnitId}
    {body : Body CatalogueUnit} (howner : OwnedBy c u owner) (hmakes : u.Makes settings body)
    {id : UnitId} {g : Graph CatalogueUnit} (hp : Edit.Places c.engine.graph g owner body id)
    {k : Nat} {v : UnitEntry} (hv : before[k]? = some v) (hsub : v.isSubgraph = true)
    (hne : (⟨k⟩ : UnitId) ≠ id) : g.ports ⟨k⟩ = innerPorts (before ++ [u]) v.name := by
  obtain ⟨hside, hports⟩ := UnitEntry.side_of_makes hmakes
  by_cases hinto : owner = some ⟨k⟩ ∧ ∃ p, u.port? = some p
  · obtain ⟨rfl, p, hport⟩ := hinto
    obtain ⟨-, hnone⟩ | ⟨parent, w, k', hparent, hw, hk⟩ := h.cases_of_ownedBy howner
    · cases hnone
    · cases hk
      obtain ⟨hget, rfl⟩ := UnitEntry.getElem?_of_declared? hw
      obtain rfl : v = w := Option.some.inj (hv.symm.trans hget)
      have hgrown := (hp.holder _ rfl).2 p.side (by rw [hside, hport]; rfl)
      rw [h.ports k v hv hsub, hports p hport, UnitEntry.grow?_innerPorts hparent hport] at hgrown
      split at hgrown
      · cases hgrown
      · exact (Option.some.inj hgrown).symm
  · rw [hp.others _ hne, h.ports k v hv hsub, UnitEntry.innerPorts_append_of_ne]
    · intro hparent
      by_contra hport
      refine hinto ⟨?_, Option.ne_none_iff_exists'.1 hport⟩
      unfold OwnedBy at howner
      rw [hparent] at howner
      obtain ⟨id', hid', rfl⟩ := howner
      rw [h.unit?_eq, UnitEntry.declared?_of_getElem? h.distinct hv] at hid'
      cases hid'
      rfl
    · by_contra hboth
      obtain ⟨howned, hsome⟩ := not_or.1 hboth
      rw [hside, Option.map_eq_none_iff] at hsome
      exact hinto ⟨not_not.1 howned, Option.ne_none_iff_exists'.1 hsome⟩

/-- A unit that is added to the declared ones is one of them. -/
theorem declares_of_added (h : c.Declares settings before) (hname : c.unit? u.name = none)
    {owner : Option UnitId} {body : Body CatalogueUnit} (howner : OwnedBy c u owner)
    (hmakes : u.Makes settings body) {id : UnitId} {g : Graph CatalogueUnit} (journal : Journal)
    (hadd : Edit.add owner body c.engine.graph = .ok id g) :
    Construction.Declares settings (before ++ [u])
      ⟨{ c.engine with journal }.withGraph g, c.names ++ [(u.name, id)]⟩ := by
  have hp := Edit.places_add hadd
  have hnew : declared? before u.name = none := by rwa [h.unit?_eq, Option.map_eq_none_iff] at hname
  obtain rfl : id = ⟨before.length⟩ := by rw [hp.fresh, h.size]
  -- a unit of the longer list has been declared before, or it is the new one
  have hcases : ∀ {k v}, (before ++ [u])[k]? = some v →
      before[k]? = some v ∧ (⟨k⟩ : UnitId) ≠ ⟨before.length⟩ ∨ k = before.length ∧ v = u := by
    intro k v hv
    rw [List.getElem?_append] at hv
    split at hv
    · next hk => exact .inl ⟨hv, fun h => hk.ne (congrArg UnitId.index h)⟩
    · next hk =>
      obtain ⟨hk', rfl⟩ := List.getElem?_eq_some_iff.1 hv
      rw [List.length_singleton] at hk'
      exact .inr ⟨by omega, by simp⟩
  refine ⟨h.fixed, ?_, ?_, ?_, fun k v hv => ?_, fun k v hv => ?_, fun k v hv hsub => ?_, ?_, h.queue⟩
  · show c.names ++ _ = _
    rw [List.zipIdx_append, List.map_append, ← h.names, Nat.zero_add]
    rfl
  · rw [List.map_append, List.nodup_append]
    refine ⟨h.distinct, List.nodup_singleton _, ?_⟩
    intro name hmem name' hmem' heq
    cases List.mem_singleton.1 hmem'
    exact UnitEntry.declared?_eq_none.1 hnew (heq ▸ hmem)
  · rw [List.length_append, ← h.size]
    exact hp.size
  · obtain ⟨hv, hne⟩ | ⟨rfl, rfl⟩ := hcases hv
    · obtain ⟨n, hn, hbody⟩ := h.bodies k v hv
      have hnode := hp.bodies ⟨k⟩
      rw [if_neg hne, hn] at hnode
      obtain ⟨n', hn', heq⟩ := Option.map_eq_some_iff.1 hnode
      exact ⟨n', hn', heq ▸ hbody⟩
    · have hnode := hp.bodies ⟨before.length⟩
      rw [if_pos rfl] at hnode
      obtain ⟨n', hn', heq⟩ := Option.map_eq_some_iff.1 hnode
      exact ⟨n', hn', heq ▸ hmakes⟩
  · show OwnedBy _ v (g.owner? ⟨k⟩)
    rw [hp.owners]
    obtain ⟨hv, hne⟩ | ⟨rfl, rfl⟩ := hcases hv
    · rw [if_neg hne]
      exact ownedBy_append (h.owners k v hv) _ _
    · rw [if_pos rfl]
      exact ownedBy_append howner _ _
  · show g.ports ⟨k⟩ = _
    obtain ⟨hv, hne⟩ | ⟨rfl, rfl⟩ := hcases hv
    · exact ports_of_added h howner hmakes hp hv hsub hne
    · -- nothing can be inside a subgraph that is new
      rw [hp.own, (UnitEntry.isSubgraph_of_makes hmakes).1 hsub, UnitEntry.innerPorts_of_forall]
      · rfl
      · intro w hw hparent
        rcases List.mem_append.1 hw with hw | hw
        · exact parent_ne_of_new h hname w hw hparent
        · obtain rfl := List.mem_singleton.1 hw
          unfold OwnedBy at howner
          rw [hparent] at howner
          obtain ⟨id, hid, -⟩ := howner
          rw [hname] at hid
          cases hid
  · exact hp.connections.trans h.connections

/-- Building a unit adds it to the declared ones, or ends with what is wrong with it. -/
theorem declares_of_addsUnit (h : c.Declares settings before) (ha : AddsUnit u c r c') :
    r = ConfigError.verdict (u.flaw? before) ∧
      (u.flaw? before = none → c'.Declares settings (before ++ [u])) := by
  have hdeclared : ∀ name, c.unit? name = none ↔ declared? before name = none := fun name => by
    rw [h.unit?_eq, Option.map_eq_none_iff]
  have hflawed : ∀ {why}, u.flaw? before = some why →
      Except.error why = ConfigError.verdict (u.flaw? before) ∧
        (u.flaw? before = none → c'.Declares settings (before ++ [u])) := by
    intro why hflaw
    rw [hflaw]
    exact ⟨rfl, nofun⟩
  have hnew : c.unit? u.name = none → (declared? before u.name).isSome = false := fun hname => by
    rw [(hdeclared _).1 hname]
    rfl
  cases ha with
  | duplicate hname =>
    apply hflawed
    rw [h.unit?_eq, Option.isSome_map] at hname
    rw [UnitEntry.flaw?, if_pos hname]
  | orphan hname hparent hnone =>
    apply hflawed
    rw [UnitEntry.flaw?, hnew hname, if_neg Bool.false_ne_true, hparent]
    dsimp only
    rw [(hdeclared _).1 hnone]
  | unlisted journal hname howner hsub hmade =>
    apply hflawed
    have hunknown : u.isKnown = false := by
      rw [UnitEntry.isKnown, hsub, Bool.false_or, decide_eq_false_iff_not,
        ← Catalogue.isSome_of_create hmade]
      exact Bool.false_ne_true
    rw [UnitEntry.flaw?, hnew hname, if_neg Bool.false_ne_true]
    obtain ⟨hparent, -⟩ | ⟨parent, v, k, hparent, hv, -⟩ := h.cases_of_ownedBy howner
    · simp [hparent, hunknown]
    · simp [hparent, hv, hunknown]
  | misplaced journal hname howner hmakes hadd =>
    exact hflawed (flaw?_of_misplaced h hname howner (h.fixed ▸ hmakes) hadd)
  | added journal hname howner hmakes hadd =>
    have hflaw := flaw?_of_added h hname howner (h.fixed ▸ hmakes) hadd
    rw [hflaw]
    exact ⟨rfl, fun _ => declares_of_added h hname howner (h.fixed ▸ hmakes) journal hadd⟩

/-- A unit is added to the declared ones, or what is wrong with it ends the building. -/
theorem outcome_addUnit (h : c.Declares settings before) (u : UnitEntry) : Outcome (fun _ => True)
    (fun o => o.1 = ConfigError.verdict (u.flaw? before) ∧
      (u.flaw? before = none → o.2.Declares settings (before ++ [u]))) ((addUnit u).run.run c) :=
  (addsUnit u c).mono fun _ ha => declares_of_addsUnit h ha

end Building
end Patchbay
