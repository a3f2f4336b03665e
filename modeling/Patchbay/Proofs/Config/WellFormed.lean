import Patchbay.Proofs.Config.Declaring
import Patchbay.Proofs.Engine.Addressing
import Patchbay.Proofs.Engine.Connecting

/-!
# Which patches are built

Whether a connection makes sense can be told from the engine in which the units have been placed and the
connections declared before it (`ConnectionEntry.flaw?`), and whether an event does from who receives its
name (`EventEntry.flaw?`). So all that a patch declares can be judged in order: the units, then the
connections, then the events (`Patch.flaw?`). A patch is built exactly if nothing is wrong
(`Patch.WellFormed`), the first flaw is the error, and what is built is what is declared
(`Patch.Realised`).
-/

namespace Patchbay

open Relation
open UnitEntry (declared?)

/-! ## Connections one after another -/

/-- What a unit can become through being told about its connections. -/
def Body.Retold {U : Type} [Device U] : Body U → Body U → Prop :=
  ReflTransGen fun b b' => ∃ inlet counts, b' = b.rewired inlet counts

namespace Engine

variable {U : Type} [Device U] {e e' : Engine U} {c : Connection} {kind : ConnectionKind}

/-- The engine after connections have been made, one after another. -/
def joined (e : Engine U) (cs : List Connection) : Engine U :=
  cs.foldl (fun e c => (e.after (.connect c)).getD e) e

theorem joined_append (e : Engine U) (cs : List Connection) (c : Connection) :
    e.joined (cs ++ [c]) = ((e.joined cs).after (.connect c)).getD (e.joined cs) := by
  rw [joined, List.foldl_append]
  rfl

theorem joined_append_of_ok {cs : List Connection}
    (h : perform (.connect c) (e.joined cs) = .ok (.connected kind) e') :
    e.joined (cs ++ [c]) = e' := by
  rw [joined_append, after, h]
  rfl

/-- A connection is made, or refused for a reason. -/
theorem refusal?_connect_cases (e : Engine U) (c : Connection) :
    (e.refusal? (.connect c) = none ∧
      ∃ kind g, Edit.connect c e.graph = .ok kind g ∧
        perform (.connect c) e = .ok (.connected kind) (e.withGraph g)) ∨
    ∃ why g, e.refusal? (.connect c) = some why ∧
      Edit.connect c e.graph = .error (.refused why) g := by
  rcases Edit.connect_cases c e.graph with ⟨kind, g, hg⟩ | ⟨why, hg⟩
  · have hmade := perform_connect_eq_ok.2 ⟨g, hg, rfl⟩
    refine .inl ⟨?_, kind, g, hg, hmade⟩
    unfold refusal?
    rw [hmade]
  · refine .inr ⟨why, e.graph, refusal?_eq_some.2 ⟨e.withGraph e.graph, ?_⟩, hg⟩
    show EStateM.map _ (edit (Edit.connect c)) e = _
    rw [EStateM.map, edit, hg]

theorem refusal?_connect_eq_none : e.refusal? (.connect c) = none ↔
    ∃ kind e', perform (.connect c) e = .ok (.connected kind) e' := by
  constructor
  · intro hnone
    obtain ⟨-, kind, g, -, hmade⟩ | ⟨why, g, hsome, -⟩ := refusal?_connect_cases e c
    · exact ⟨kind, _, hmade⟩
    · rw [hnone] at hsome
      cases hsome
  · rintro ⟨kind, e', hmade⟩
    unfold refusal?
    rw [hmade]

/-- What making a connection changes: it is appended, and units may be told. -/
structure Joins (e e' : Engine U) (cs : List Connection) : Prop where
  settings : e'.settings = e.settings
  queue : e'.queue = e.queue
  names : e'.graph.names = e.graph.names
  connections : e'.graph.connections = e.graph.connections ++ cs
  size : e'.graph.nodes.size = e.graph.nodes.size
  owners : ∀ x, e'.graph.owner? x = e.graph.owner? x
  bodies : ∀ x n, e.graph.node? x = some n →
    ∃ n', e'.graph.node? x = some n' ∧ n.body.Retold n'.body

theorem Joins.refl (e : Engine U) : e.Joins e [] :=
  ⟨rfl, rfl, rfl, (List.append_nil _).symm, rfl, fun _ => rfl, fun _ n hn => ⟨n, hn, .refl⟩⟩

theorem Joins.trans {e'' : Engine U} {cs cs' : List Connection} (h : e.Joins e' cs)
    (h' : e'.Joins e'' cs') : e.Joins e'' (cs ++ cs') where
  settings := h'.settings.trans h.settings
  queue := h'.queue.trans h.queue
  names := h'.names.trans h.names
  connections := by rw [h'.connections, h.connections, List.append_assoc]
  size := h'.size.trans h.size
  owners x := (h'.owners x).trans (h.owners x)
  bodies x n hn := by
    obtain ⟨n', hn', hbody⟩ := h.bodies x n hn
    obtain ⟨n'', hn'', hbody'⟩ := h'.bodies x n' hn'
    exact ⟨n'', hn'', hbody.trans hbody'⟩

/-- A node that is told something becomes what it is after that. -/
theorem retold_tell {g : Graph U} (x : UnitId) (inlet : Nat) {y : UnitId} {n : Node U}
    (hn : g.node? y = some n) :
    ∃ n', (Edit.tell g x inlet).node? y = some n' ∧ n.body.Retold n'.body := by
  show ∃ n', (g.modifyNode x _).node? y = some n' ∧ _
  rw [Graph.node?_modifyNode, hn]
  split
  · exact ⟨_, rfl, .single ⟨inlet, _, rfl⟩⟩
  · exact ⟨n, rfl, .refl⟩

theorem joins_of_connect (h : perform (.connect c) e = .ok (.connected kind) e') :
    e.Joins e' [c] := by
  obtain ⟨g, hg, rfl⟩ := perform_connect_eq_ok.1 h
  obtain ⟨-, -, -, rfl⟩ := Edit.connect_eq_ok hg
  split
  · let g : Graph U := { e.graph with connections := e.graph.connections ++ [c], plan := none }
    have hsame := Edit.sameShape_tell g c.dest c.inlet
    exact ⟨rfl, rfl, rfl, hsame.connections, hsame.size, hsame.owner?, fun x n hn =>
      retold_tell (g := g) c.dest c.inlet hn⟩
  · exact ⟨rfl, rfl, rfl, rfl, rfl, fun _ => rfl, fun _ n hn => ⟨n, hn, .refl⟩⟩

end Engine

/-! ## What makes sense -/

/-- The connection between the numbers of units that is declared between their names. -/
def ConnectionEntry.connection? (units : List UnitEntry) (x : ConnectionEntry) :
    Option Connection :=
  match declared? units x.source, declared? units x.dest with
  | some (_, source), some (_, dest) => some ⟨⟨source⟩, x.outlet, ⟨dest⟩, x.inlet⟩
  | _, _ => none

/-- What is wrong with a connection, if anything, after the connections declared before it. -/
def ConnectionEntry.flaw? (units : List UnitEntry) (placed : Engine CatalogueUnit)
    (before : List ConnectionEntry) (x : ConnectionEntry) : Option ConfigError :=
  match declared? units x.source with
  | none => some (.unknownUnit x.source)
  | some (_, source) =>
    match declared? units x.dest with
    | none => some (.unknownUnit x.dest)
    | some (_, dest) =>
      ((placed.joined (before.filterMap (connection? units))).refusal?
        (.connect ⟨⟨source⟩, x.outlet, ⟨dest⟩, x.inlet⟩)).map
        (.connection x.source x.outlet x.dest x.inlet)

/-- What is wrong with an event, if anything. -/
def EventEntry.flaw? (names : Names) (x : EventEntry) : Option ConfigError :=
  if !x.time.isFinite then
    some (.invalidSetting "events.time" s!"{writeDouble x.time} is not a finite time")
  else if (names.receivers x.receiver).isEmpty then some (.unknownReceiver x.receiver)
  else none

/-- The events that declared events become: one for each receiver, in order. -/
def EventEntry.events (names : Names) (entries : List EventEntry) : List Event :=
  (entries.flatMap fun x => (names.receivers x.receiver).map fun unit => (x, unit)).mapIdx
    fun k (x, unit) => ⟨⟨k⟩, unit, 0, .parse x.time x.message⟩

namespace Patch

/-- What is wrong with the first entry that makes no sense, if there is one, where `placed` is the engine
with the units in it: first come all units, then all connections, then all events. -/
def flaw? (p : Patch) (placed : Engine CatalogueUnit) : Option ConfigError :=
  (firstFlaw? (fun before u => u.flaw? before) [] p.units).or
    ((firstFlaw? (fun before x => x.flaw? p.units placed before) [] p.connections).or
      (firstFlaw? (fun _ x => x.flaw? placed.graph.names) [] p.events))

/-- That all that a patch declares makes sense, where `placed` is the engine with the units in it. -/
structure WellFormed (p : Patch) (placed : Engine CatalogueUnit) : Prop where
  names : (p.units.map UnitEntry.name).Nodup
  labels : ∀ u ∈ p.units, u.isSubgraph = true ∨ Catalogue.Knows u.label
  parents : ∀ before u rest, p.units = before ++ u :: rest → ∀ parent, u.parent = some parent →
    ∃ holder ∈ before, holder.name = parent ∧ holder.isSubgraph = true ∧ u.comesLate before = false
  connections : ∀ before x rest, p.connections = before ++ x :: rest →
    ∃ c kind e, x.connection? p.units = some c ∧
      Engine.perform (.connect c) (placed.joined (before.filterMap (·.connection? p.units))) =
        .ok (.connected kind) e
  times : ∀ x ∈ p.events, x.time.isFinite = true
  receivers : ∀ x ∈ p.events, placed.graph.names.receivers x.receiver ≠ []

/-- That just what a patch declares has been built. -/
structure Realised (p : Patch) (settings : Settings) (built : Construction) : Prop where
  fixed : built.engine.settings = settings
  numbers : ∀ id, built.nameOf? id = p.units[id.index]?.map UnitEntry.name
  inverse : ∀ name id, built.unit? name = some id ↔ built.nameOf? id = some name
  size : built.engine.graph.nodes.size = p.units.length
  bodies : ∀ k u, p.units[k]? = some u → ∃ made n, u.Makes settings made ∧
    built.engine.graph.node? ⟨k⟩ = some n ∧ made.Retold n.body
  owners : ∀ k u, p.units[k]? = some u → Building.OwnedBy built u (built.engine.graph.owner? ⟨k⟩)
  connections : built.engine.graph.connections.map some =
    p.connections.map (·.connection? p.units)
  events : built.engine.queue.events.Perm (EventEntry.events built.engine.graph.names p.events)
  sorted : built.engine.queue.events.Pairwise Event.Before

end Patch

/-! ## Nothing is wrong -/

/-- No two entries share a name exactly if each name is new where it is declared. -/
theorem nodup_map_iff {α β : Type} (f : α → β) (l : List α) : (l.map f).Nodup ↔
    ∀ before x rest, l = before ++ x :: rest → f x ∉ before.map f := by
  constructor
  · rintro h before x rest rfl hmem
    rw [List.map_append, List.nodup_append] at h
    exact h.2.2 _ hmem _ List.mem_cons_self rfl
  · intro h
    induction l using List.reverseRecOn with
    | nil => exact .nil
    | append_singleton l x ih =>
      rw [List.map_append, List.nodup_append]
      refine ⟨ih fun before y rest hl => h before y (rest ++ [x]) (by simp [hl]),
        List.nodup_singleton _, fun y hy z hz hyz => h l x [] rfl ?_⟩
      cases List.mem_singleton.1 hz
      exact hyz ▸ hy

/-- What holds of each element holds of it wherever it stands. -/
theorem forall_mem_iff_split {α : Type} {P : α → Prop} {l : List α} : (∀ x ∈ l, P x) ↔
    ∀ before x rest, l = before ++ x :: rest → P x := by
  constructor
  · rintro h before x rest rfl
    exact h x (by simp)
  · intro h x hx
    obtain ⟨before, rest, hl⟩ := List.append_of_mem hx
    exact h before x rest hl

theorem UnitEntry.flaw?_eq_none {before : List UnitEntry} {u : UnitEntry} :
    u.flaw? before = none ↔ declared? before u.name = none ∧ u.isKnown = true ∧
      ∀ parent, u.parent = some parent → ∃ holder k, declared? before parent = some (holder, k) ∧
        holder.isSubgraph = true ∧ u.comesLate before = false := by
  unfold flaw?
  cases hname : declared? before u.name with
  | some x => simp
  | none =>
    cases hparent : u.parent with
    | none => simp
    | some parent =>
      cases hholder : declared? before parent with
      | none => simp [hholder]
      | some x =>
        obtain ⟨holder, k⟩ := x
        cases hknown : u.isKnown
        · simp [hholder]
        · cases hsub : holder.isSubgraph
          · simp [hholder, hsub]
          · cases hlate : u.comesLate before <;> simp [hholder, hsub]

theorem ConnectionEntry.flaw?_eq_none {units : List UnitEntry} {placed : Engine CatalogueUnit}
    {before : List ConnectionEntry} {x : ConnectionEntry} : x.flaw? units placed before = none ↔
      ∃ c kind e, x.connection? units = some c ∧ Engine.perform (.connect c)
        (placed.joined (before.filterMap (·.connection? units))) = .ok (.connected kind) e := by
  unfold flaw? connection?
  cases declared? units x.source with
  | none => simp
  | some source =>
    cases declared? units x.dest with
    | none => simp
    | some dest =>
      simp only [Option.map_eq_none_iff, Engine.refusal?_connect_eq_none, Option.some.injEq]
      constructor
      · rintro ⟨kind, e, h⟩
        exact ⟨_, kind, e, rfl, h⟩
      · rintro ⟨_, kind, e, rfl, h⟩
        exact ⟨kind, e, h⟩

theorem EventEntry.flaw?_eq_none {names : Names} {x : EventEntry} :
    x.flaw? names = none ↔ x.time.isFinite = true ∧ names.receivers x.receiver ≠ [] := by
  unfold flaw?
  cases x.time.isFinite <;> simp

/-- Nothing is wrong with a patch exactly if it is well formed. -/
theorem Patch.flaw?_eq_none {p : Patch} {placed : Engine CatalogueUnit} :
    p.flaw? placed = none ↔ p.WellFormed placed := by
  unfold flaw?
  simp only [Option.or_eq_none_iff, firstFlaw?_eq_none, List.nil_append, UnitEntry.flaw?_eq_none,
    ConnectionEntry.flaw?_eq_none, EventEntry.flaw?_eq_none]
  constructor
  · rintro ⟨hunits, hconnections, hevents⟩
    rw [← forall_mem_iff_split] at hevents
    refine ⟨(nodup_map_iff _ _).2 fun before u rest hl => ?_, forall_mem_iff_split.2 ?_, ?_,
      hconnections, fun x hx => (hevents x hx).1, fun x hx => (hevents x hx).2⟩
    · exact UnitEntry.declared?_eq_none.1 (hunits before u rest hl).1
    · intro before u rest hl
      simpa [UnitEntry.isKnown] using (hunits before u rest hl).2.1
    · intro before u rest hl parent hparent
      obtain ⟨holder, k, hholder, hsub, hlate⟩ := (hunits before u rest hl).2.2 parent hparent
      obtain ⟨hk, hname⟩ := UnitEntry.getElem?_of_declared? hholder
      exact ⟨holder, List.mem_of_getElem? hk, hname, hsub, hlate⟩
  · rintro ⟨hnames, hlabels, hparents, hconnections, htimes, hreceivers⟩
    refine ⟨fun before u rest hl => ⟨?_, ?_, fun parent hparent => ?_⟩, hconnections,
      forall_mem_iff_split.1 fun x hx => ⟨htimes x hx, hreceivers x hx⟩⟩
    · exact UnitEntry.declared?_eq_none.2 ((nodup_map_iff _ _).1 hnames before u rest hl)
    · simpa [UnitEntry.isKnown] using hlabels u (by simp [hl])
    · obtain ⟨holder, hmem, rfl, hsub, hlate⟩ := hparents before u rest hl parent hparent
      obtain ⟨k, hk⟩ := List.mem_iff_getElem?.1 hmem
      have hbefore : (before.map UnitEntry.name).Nodup := by
        rw [hl, List.map_append, List.nodup_append] at hnames
        exact hnames.1
      exact ⟨holder, k, UnitEntry.declared?_of_getElem? hbefore hk, hsub, hlate⟩

/-! ## Building what has been declared -/

namespace Building

variable {settings : Settings} {units : List UnitEntry} {placed linked c : Construction}

theorem run_lookUp (name : String) (c : Construction) : (lookUp name).run.run c =
    match c.unit? name with
    | some id => .ok (.ok id, c)
    | none => .ok (.error (.unknownUnit name), c) := by
  unfold lookUp
  rw [run_get_bind]
  cases c.unit? name <;> rfl

/-- That just the connections of a list have been made. -/
structure Links (units : List UnitEntry) (placed : Construction) (before : List ConnectionEntry)
    (c : Construction) : Prop where
  engine : c.engine = placed.engine.joined (before.filterMap (·.connection? units))
  names : c.names = placed.names
  joins : placed.engine.Joins c.engine (before.filterMap (·.connection? units))
  complete : (before.filterMap (·.connection? units)).map some = before.map (·.connection? units)

theorem links_nil (units : List UnitEntry) (placed : Construction) : Links units placed [] placed :=
  ⟨rfl, rfl, .refl _, rfl⟩

/-- A connection that is made follows those made before it. -/
theorem Links.append {before : List ConnectionEntry} (h : Links units placed before c)
    {x : ConnectionEntry} {connection : Connection} {kind : ConnectionKind}
    {e : Engine CatalogueUnit} (hx : x.connection? units = some connection)
    (hmade : Engine.perform (.connect connection) c.engine = .ok (.connected kind) e) :
    Links units placed (before ++ [x]) { c with engine := e } := by
  have hlist : (before ++ [x]).filterMap (·.connection? units) =
      before.filterMap (·.connection? units) ++ [connection] := by simp [hx]
  refine ⟨?_, h.names, ?_, ?_⟩
  · rw [hlist, Engine.joined_append_of_ok (h.engine ▸ hmade)]
  · rw [hlist]
    exact h.joins.trans (Engine.joins_of_connect hmade)
  · rw [hlist, List.map_append, h.complete, List.map_append, List.map_singleton,
      List.map_singleton, hx]

/-- A connection is made between the units with the declared names. -/
theorem run_addConnection (x : ConnectionEntry) (c : Construction) :
    (addConnection x).run.run c =
      match c.unit? x.source with
      | none => .ok (.error (.unknownUnit x.source), c)
      | some source =>
        match c.unit? x.dest with
        | none => .ok (.error (.unknownUnit x.dest), c)
        | some dest =>
          match Edit.connect ⟨source, x.outlet, dest, x.inlet⟩ c.engine.graph with
          | .ok _ g => .ok (.ok ⟨⟩, { c with engine := c.engine.withGraph g })
          | .error (.refused why) g => .ok
              (.error (.connection x.source x.outlet x.dest x.inlet why),
                { c with engine := c.engine.withGraph g })
          | .error (.broken how) _ => .error how := by
  unfold addConnection
  rw [run_bind, run_lookUp]
  cases c.unit? x.source with
  | none => rfl
  | some source =>
    dsimp only
    show ((lookUp x.dest >>= fun dest => _).run.run c) = _
    rw [run_bind, run_lookUp]
    cases c.unit? x.dest with
    | none => rfl
    | some dest =>
      dsimp only
      show ((change _ _ >>= fun _ => _).run.run c) = _
      rw [run_bind, run_change]
      unfold Engine.edit
      cases Edit.connect ⟨source, x.outlet, dest, x.inlet⟩ c.engine.graph with
      | ok kind g => rfl
      | error f g => cases f <;> rfl

/-- A connection is made, or what is wrong with it ends the building. -/
theorem outcome_addConnection (hplaced : placed.Declares settings units)
    {before : List ConnectionEntry} (h : Links units placed before c) (x : ConnectionEntry) :
    Outcome (fun _ => False) (fun o =>
      o.1 = ConfigError.verdict (x.flaw? units placed.engine before) ∧
        (x.flaw? units placed.engine before = none → Links units placed (before ++ [x]) o.2))
      ((addConnection x).run.run c) := by
  have hunit : ∀ name, c.unit? name = (declared? units name).map fun x => ⟨x.2⟩ := fun name => by
    rw [← hplaced.unit?_eq, Construction.unit?, h.names]
    rfl
  unfold ConnectionEntry.flaw?
  rw [run_addConnection, hunit, hunit, ← h.engine]
  cases hsource : declared? units x.source with
  | none => exact ⟨rfl, nofun⟩
  | some source =>
    cases hdest : declared? units x.dest with
    | none => exact ⟨rfl, nofun⟩
    | some dest =>
      dsimp only [Option.map_some]
      obtain ⟨hnone, kind, g, hg, hmade⟩ | ⟨why, g, hwhy, hg⟩ := Engine.refusal?_connect_cases
        c.engine ⟨⟨source.2⟩, x.outlet, ⟨dest.2⟩, x.inlet⟩
      · rw [hg, hnone]
        refine ⟨rfl, fun _ => h.append ?_ hmade⟩
        rw [ConnectionEntry.connection?, hsource, hdest]
      · rw [hg, hwhy]
        exact ⟨rfl, nofun⟩

/-- Messages that are scheduled one after another keep the order of delivery. -/
theorem stable_foldl_insert {q : Queue} (h : q.Stable) (receivers : List UnitId) (message : Message) :
    (receivers.foldl (fun q id => (q.insert id 0 message).2) q).Stable ∧
      (receivers.foldl (fun q id => (q.insert id 0 message).2) q).nextId =
        q.nextId + receivers.length := by
  induction receivers generalizing q with
  | nil => exact ⟨h, rfl⟩
  | cons id receivers ih =>
    obtain ⟨hstable, hnext⟩ := ih (Queue.stable_insert h id 0 message)
    refine ⟨hstable, hnext.trans ?_⟩
    show q.nextId + 1 + receivers.length = q.nextId + (receivers.length + 1)
    omega

theorem isNaN_of_isFinite {x : Float} (h : x.isFinite = true) : x.isNaN = false := by
  revert h
  show x.toModel.unpack.isFinite = true → x.toModel.unpack.isNaN = false
  cases x.toModel.unpack with
  | notANumber => exact nofun
  | _ => exact fun _ => rfl

/-- The events of one more entry come behind those of the entries before it. -/
theorem events_append (names : Names) (before : List EventEntry) (x : EventEntry) :
    EventEntry.events names (before ++ [x]) = EventEntry.events names before ++
      (names.receivers x.receiver).mapIdx fun k unit =>
        ⟨⟨(EventEntry.events names before).length + k⟩, unit, 0, .parse x.time x.message⟩ := by
  unfold EventEntry.events
  rw [List.flatMap_append, List.mapIdx_append, List.length_mapIdx, List.flatMap_singleton]
  congr 1
  apply List.ext_getElem?
  intro k
  rw [List.getElem?_mapIdx, List.getElem?_mapIdx, List.getElem?_map, Option.map_map, Nat.add_comm]
  rfl

/-- That a queue holds just what a list of events becomes. -/
structure Scheduled (names : Names) (entries : List EventEntry) (q : Queue) : Prop extends
    q.Stable where
  count : q.nextId = (EventEntry.events names entries).length
  pending : q.events.Perm (EventEntry.events names entries)

/-- An event that makes sense is scheduled behind those before it. -/
theorem Scheduled.append {names : Names} {before : List EventEntry} {q : Queue}
    (h : Scheduled names before q) {x : EventEntry} (htime : x.time.isFinite = true) :
    Scheduled names (before ++ [x]) ((names.receivers x.receiver).foldl
      (fun q id => (q.insert id 0 (.parse x.time x.message)).2) q) := by
  obtain ⟨hstable, hcount⟩ := stable_foldl_insert h.toStable (names.receivers x.receiver)
    (.parse x.time x.message)
  have hperm := q.foldl_insert_perm (names.receivers x.receiver) (.parse x.time x.message)
  have htimed : (Message.parse x.time x.message).timestamp.isNaN = false := isNaN_of_isFinite htime
  unfold Queue.addressed at hperm
  rw [h.count, Queue.due_eq htimed] at hperm
  refine ⟨hstable, ?_, ?_⟩
  · rw [hcount, events_append, List.length_append, List.length_mapIdx, h.count]
  · rw [events_append]
    exact (hperm.trans (h.pending.append_left _)).trans List.perm_append_comm

/-- The construction with another queue. -/
def withQueue (c : Construction) (q : Queue) : Construction :=
  { c with engine := { c.engine with queue := q } }

/-- With somebody to receive it, a message changes nothing but the queue. -/
theorem sendTo_of_ne_nil {e : Engine CatalogueUnit} {name : String} (message : Message)
    (h : e.graph.names.receivers name ≠ []) : Engine.sendTo name message e =
      .ok (e.graph.names.receivers name).length { e with
        queue := (e.graph.names.receivers name).foldl (fun q id => (q.insert id 0 message).2)
          e.queue } := by
  have hsome : (e.graph.names.receivers name).isEmpty = false := by simpa using h
  unfold Engine.sendTo
  rw [Patchbay.run_get_bind, hsome]
  rfl

/-- An event that makes sense is scheduled, and changes nothing but the queue. -/
theorem run_addEvent (x : EventEntry) (c : Construction) : (addEvent x).run.run c =
    match x.flaw? c.engine.graph.names with
    | some why => .ok (.error why, c)
    | none => .ok (.ok ⟨⟩, withQueue c ((c.engine.graph.names.receivers x.receiver).foldl
        (fun q id => (q.insert id 0 (.parse x.time x.message)).2) c.engine.queue)) := by
  unfold addEvent EventEntry.flaw?
  cases htime : x.time.isFinite with
  | false => rfl
  | true =>
    simp only [Bool.not_true, Bool.false_eq_true, if_false]
    rw [run_get_bind]
    by_cases hnone : c.engine.graph.names.receivers x.receiver = []
    · simp only [hnone, List.isEmpty_nil, if_true]
      rfl
    · have hsent := sendTo_of_ne_nil (.parse x.time x.message) hnone
      simp only [List.isEmpty_eq_false_iff.2 hnone, Bool.false_eq_true, if_false]
      rw [run_change_bind _ hsent]
      rfl

/-- An event is scheduled for each receiver, or what is wrong with it ends the building. -/
theorem outcome_addEvent {before : List EventEntry} {q : Queue}
    (h : Scheduled linked.engine.graph.names before q) (x : EventEntry) : Outcome (fun _ => False)
      (fun o => o.1 = ConfigError.verdict (x.flaw? linked.engine.graph.names) ∧
        (x.flaw? linked.engine.graph.names = none → ∃ q', o.2 = withQueue linked q' ∧
          Scheduled linked.engine.graph.names (before ++ [x]) q'))
      ((addEvent x).run.run (withQueue linked q)) := by
  rw [run_addEvent]
  show Outcome _ _ (match x.flaw? linked.engine.graph.names with | some why => _ | none => _)
  cases hflaw : x.flaw? linked.engine.graph.names with
  | some why => exact ⟨rfl, nofun⟩
  | none => exact ⟨rfl, fun _ => ⟨_, rfl, h.append (EventEntry.flaw?_eq_none.1 hflaw).1⟩⟩

/-! ## The whole patch -/

/-- Nothing has been declared in a new engine. -/
theorem declares_new {engine : Engine CatalogueUnit} (h : Engine.new settings = .ok engine) :
    Construction.Declares settings [] { engine } := by
  obtain ⟨_, -, h⟩ := bind_eq_ok.1 h
  obtain ⟨_, -, h⟩ := bind_eq_ok.1 h
  obtain ⟨_, -, h⟩ := bind_eq_ok.1 h
  cases h
  exact ⟨rfl, rfl, .nil, rfl, nofun, nofun, nofun, rfl, rfl⟩

/-- No event is scheduled to begin with. -/
theorem scheduled_nil (names : Names) : Scheduled names [] {} :=
  ⟨Queue.stable_empty, rfl, .nil⟩

/-- What units, connections and events have made is what a patch declares. -/
theorem realised_of_scheduled {p : Patch} (hplaced : placed.Declares settings p.units)
    (hlinks : Links p.units placed p.connections linked) {q : Queue}
    (hq : Scheduled linked.engine.graph.names p.events q) :
    p.Realised settings (withQueue linked q) := by
  have hnames : (withQueue linked q).names = placed.names := hlinks.names
  have hunit : ∀ name, (withQueue linked q).unit? name = placed.unit? name := fun name => by
    rw [Construction.unit?, hnames, Construction.unit?]
  have hnameOf : ∀ id, (withQueue linked q).nameOf? id = placed.nameOf? id := fun id => by
    rw [Construction.nameOf?, hnames, Construction.nameOf?]
  refine ⟨hlinks.joins.settings.trans hplaced.fixed, fun id => ?_, fun name id => ?_,
    hlinks.joins.size.trans hplaced.size, fun k u hu => ?_, fun k u hu => ?_, ?_, hq.pending, hq.sorted⟩
  · rw [hnameOf, hplaced.nameOf?_eq]
  · rw [hunit, hnameOf, hplaced.unit?_eq_some_iff]
  · obtain ⟨n, hn, hmakes⟩ := hplaced.bodies k u hu
    obtain ⟨n', hn', hretold⟩ := hlinks.joins.bodies ⟨k⟩ n hn
    exact ⟨n.body, n', hmakes, hn', hretold⟩
  · have howned := hplaced.owners k u hu
    show OwnedBy _ u (linked.engine.graph.owner? ⟨k⟩)
    rw [hlinks.joins.owners]
    unfold OwnedBy at howned ⊢
    simp only [hunit]
    exact howned
  · show linked.engine.graph.connections.map some = _
    rw [hlinks.joins.connections, hplaced.connections, List.nil_append, hlinks.complete]

/-- The connections that make sense are made, and the first that makes none ends that. -/
theorem outcome_connections (hplaced : placed.Declares settings units)
    (entries : List ConnectionEntry) : Outcome (fun _ => False) (fun o =>
      o.1 = ConfigError.verdict
        (firstFlaw? (fun before x => x.flaw? units placed.engine before) [] entries) ∧
      (firstFlaw? (fun before x => x.flaw? units placed.engine before) [] entries = none →
        Links units placed entries o.2))
      ((entries.forM addConnection).run.run placed) :=
  outcome_forM (P := Links units placed) (fun _ x _ h => outcome_addConnection hplaced h x) entries []
    (links_nil units placed)

/-- The events that make sense are scheduled, and the first that makes none ends that. -/
theorem outcome_events (h : linked.engine.queue = {}) (entries : List EventEntry) :
    Outcome (fun _ => False) (fun o =>
      o.1 = ConfigError.verdict
        (firstFlaw? (fun _ x => x.flaw? linked.engine.graph.names) [] entries) ∧
      (firstFlaw? (fun _ x => x.flaw? linked.engine.graph.names) [] entries = none →
        ∃ q, o.2 = withQueue linked q ∧ Scheduled linked.engine.graph.names entries q))
      ((entries.forM addEvent).run.run linked) := by
  refine outcome_forM (P := fun before c => ∃ q, c = withQueue linked q ∧
    Scheduled linked.engine.graph.names before q) ?_ entries [] ⟨_, rfl, h ▸ scheduled_nil _⟩
  rintro before x _ ⟨q, rfl, hq⟩
  exact outcome_addEvent hq x

/-- From where the units have been placed, no rule is broken any more. -/
theorem outcome_of_placed {p : Patch} (hplaced : placed.Declares settings p.units)
    (hunits : firstFlaw? (fun before u => u.flaw? before) [] p.units = none) :
    Outcome (fun _ => False) (fun o => o.1 = ConfigError.verdict (p.flaw? placed.engine) ∧
      (p.flaw? placed.engine = none → p.Realised settings o.2))
      ((p.connections.forM addConnection >>= fun _ => p.events.forM addEvent).run.run placed) := by
  unfold Patch.flaw?
  rw [hunits, Option.none_or, run_bind]
  refine (outcome_connections hplaced p.connections).bind fun o ho => ?_
  obtain ⟨r, linked⟩ := o
  obtain ⟨rfl, hlinks⟩ := ho
  dsimp only at hlinks
  generalize firstFlaw? (fun before x => ConnectionEntry.flaw? p.units placed.engine before x) []
    p.connections = flaw at hlinks ⊢
  cases flaw with
  | some why => exact ⟨rfl, nofun⟩
  | none =>
    have hlinks := hlinks rfl
    rw [Option.none_or, ← hlinks.joins.names]
    refine (outcome_events (hlinks.joins.queue.trans hplaced.queue) p.events).mono fun o ho => ?_
    obtain ⟨hr, hbuilt⟩ := ho
    refine ⟨hr, fun hnone => ?_⟩
    obtain ⟨q, hq, hscheduled⟩ := hbuilt hnone
    rw [hq]
    exact realised_of_scheduled hplaced hlinks hscheduled

/-- What building the units alone comes to. -/
theorem exists_placed {p : Patch} {outcome : Except ConfigError PUnit}
    (h : Patch.build { p with connections := [], events := [] } settings = .ok (outcome, placed)) :
    ∃ engine, Engine.new settings = .ok engine ∧
      (p.units.forM addUnit).run.run { engine } = .ok (outcome, placed) := by
  obtain ⟨engine, hnew, hall⟩ := bind_eq_ok.1 h
  refine ⟨engine, hnew, ?_⟩
  unfold all at hall
  rw [run_bind] at hall
  obtain ⟨⟨r, c⟩, hrun, hrest⟩ := bind_eq_ok.1 hall
  cases r with
  | error why =>
    cases hrest
    exact hrun
  | ok _ =>
    cases hrest
    exact hrun

/-- When the units can be placed or not, the whole patch is built, or ends with what is wrong with it. -/
theorem exists_build {p : Patch} {outcome : Except ConfigError PUnit}
    (h : Patch.build { p with connections := [], events := [] } settings = .ok (outcome, placed)) :
    ∃ built, p.build settings = .ok (ConfigError.verdict (p.flaw? placed.engine), built) ∧
      (p.flaw? placed.engine = none → p.Realised settings built) := by
  obtain ⟨engine, hnew, hrun⟩ := exists_placed h
  obtain ⟨rfl, hplaced⟩ := (outcome_forM (P := Construction.Declares settings)
    (fun _ u _ h => outcome_addUnit h u) p.units [] (declares_new hnew)).of_ok hrun
  have hbuild : p.build settings = (all p).run.run { engine } := by
    unfold Patch.build
    rw [hnew]
    rfl
  unfold all at hbuild
  rw [run_bind, hrun] at hbuild
  cases hunits : firstFlaw? (fun before u => UnitEntry.flaw? before u) [] p.units with
  | some why =>
    rw [hunits] at hbuild
    refine ⟨placed, hbuild.trans ?_, ?_⟩
    · unfold Patch.flaw?
      rw [hunits]
      rfl
    · unfold Patch.flaw?
      rw [hunits]
      exact nofun
  | none =>
    rw [hunits] at hbuild
    obtain ⟨⟨r, built⟩, hrest, rfl, hrealised⟩ :=
      (outcome_of_placed (hplaced hunits) hunits).exists_ok
    exact ⟨built, hbuild.trans hrest, hrealised⟩

end Building

/-- As long as making and registering the units of a patch breaks no rule, which building them alone
would show, a patch is built exactly if it is well formed, and otherwise the error is that of the first
entry that makes no sense. What is built is what is declared: the units have the numbers of their
declarations, the connections are those declared, in order, and for each event there is one in the queue
for each receiver, in order of time, and otherwise of declaration. -/
theorem Patch.build_iff_wellFormed {p : Patch} {settings : Settings} {outcome : Except ConfigError PUnit}
    {placed : Construction}
    (h : Patch.build { p with connections := [], events := [] } settings = .ok (outcome, placed)) :
    ∃ result built, p.build settings = .ok (result, built) ∧
      (result = .ok ⟨⟩ ↔ p.WellFormed placed.engine) ∧
      (∀ why, result = .error why ↔ p.flaw? placed.engine = some why) ∧
      (result = .ok ⟨⟩ → p.Realised settings built) := by
  obtain ⟨built, hbuild, hrealised⟩ := Building.exists_build h
  refine ⟨_, built, hbuild, ?_⟩
  rw [← Patch.flaw?_eq_none]
  cases hflaw : p.flaw? placed.engine with
  | none => exact ⟨iff_of_true rfl rfl, fun why => ⟨nofun, nofun⟩, fun _ => hrealised hflaw⟩
  | some why =>
    refine ⟨⟨nofun, nofun⟩, fun why' => ?_, nofun⟩
    simp [ConfigError.verdict]

/-- A subgraph with an inlet, a receiver that is connected to it, and two messages for that, the later
one first. -/
def Patch.tuned : Patch where
  units := [⟨"voice", "pd", "", none⟩, ⟨"in", "inlet", "", some "voice"⟩, ⟨"pitch", "r", "tune", none⟩]
  connections := [⟨"pitch", 0, "voice", 0⟩]
  events := [⟨8, "tune", "440"⟩, ⟨0, "tune", "220"⟩]

theorem Patch.build_tuned : ∃ outcome placed built,
    Patch.build { tuned with connections := [], events := [] } Engine.smallBlocks =
      .ok (outcome, placed) ∧
    tuned.build Engine.smallBlocks = .ok (.ok ⟨⟩, built) ∧ tuned.WellFormed placed.engine ∧
    tuned.Realised Engine.smallBlocks built ∧
    built.engine.queue.events.map (·.id) = [⟨1⟩, ⟨0⟩] := by
  have hunits : Except.isOk (Patch.build { tuned with connections := [], events := [] }
      Engine.smallBlocks) = true := by decide +kernel
  have hevents : (tuned.build Engine.smallBlocks).map
      (fun o => (o.1.isOk, o.2.engine.queue.events.map (·.id))) = .ok (true, [⟨1⟩, ⟨0⟩]) := by
    decide +kernel
  cases hplaced : Patch.build { tuned with connections := [], events := [] } Engine.smallBlocks with
  | error how =>
    rw [hplaced] at hunits
    cases hunits
  | ok o =>
    obtain ⟨outcome, placed⟩ := o
    obtain ⟨result, built, hbuilt, hiff, -, hrealised⟩ := Patch.build_iff_wellFormed hplaced
    rw [hbuilt, Except.map, Except.ok.injEq, Prod.mk.injEq] at hevents
    cases result with
    | error why => cases hevents.1
    | ok _ => exact ⟨outcome, placed, built, rfl, hbuilt, hiff.1 rfl, hrealised rfl, hevents.2⟩

/-- Of all that is wrong the first unit counts. -/
example : (Patch.build
    { units := [⟨"a", "r", "tune", none⟩, ⟨"b", "osc~", "", some "a"⟩, ⟨"a", "none~", "", none⟩]
      connections := [⟨"a", 0, "c", 0⟩], events := [⟨0, "nobody", ""⟩] } Engine.smallBlocks).map (·.1) =
    .ok (.error (.placement "b" "a" (.notASubgraph ⟨0⟩))) := by
  decide +kernel

end Patchbay
