import Patchbay.Catalogue
import Patchbay.Config.Patch
import Patchbay.Engine.Command

/-!
# Building a patch

A patch is built into a new engine: first its units, then its connections, then its events, each in
the order in which they are declared. The first entry that makes no sense ends the attempt. Units
get the numbers 0, 1, 2 and so on in the order of their declarations.
-/

namespace Patchbay

/-- An engine in the making, and the numbers of the units declared so far. -/
structure Construction where
  engine : Engine CatalogueUnit
  /-- The declared units, in order. -/
  names : List (String × UnitId) := []

namespace Construction

/-- The number of the unit declared under a name. -/
def unit? (c : Construction) (name : String) : Option UnitId :=
  (c.names.find? (·.1 == name)).map (·.2)

/-- The name under which a unit is declared. -/
def nameOf? (c : Construction) (id : UnitId) : Option String :=
  (c.names.find? (·.2 == id)).map (·.1)

end Construction

/-- A step of building. An error ends it and leaves what is built; a broken rule leaves nothing. -/
abbrev Building := ExceptT ConfigError (StateT Construction (Except Fault))

namespace Building

/-- The number of a unit that must have been declared. -/
def lookUp (name : String) : Building UnitId := do
  match (← get).unit? name with
  | some id => return id
  | none => throw (.unknownUnit name)

/-- Stops building, since a rule is broken. -/
def fault {α : Type} (how : Fault) : Building α :=
  ExceptT.mk fun _ => .error how

/-- A change of the engine. If it is refused, `wording` makes an error of the reason. -/
def change {α : Type} (wording : GraphError → ConfigError) (c : Change CatalogueUnit α) :
    Building α := do
  let state ← get
  match c state.engine with
  | .ok result engine => do
    set { state with engine }
    return result
  | .error (.refused why) engine => do
    set { state with engine }
    throw (wording why)
  | .error (.broken how) _ => fault how

/-- Makes a unit of the catalogue. What is reported meanwhile goes into the engine's journal. -/
def create (label args : String) : Building (Option CatalogueUnit) := do
  let state ← get
  match (Catalogue.create label (.parse 0 args) state.engine.settings).run #[] with
  | .error how _ => fault how
  | .ok unit reports => do
    set { state with engine := reports.foldl (fun e r => e.record (.reported r)) state.engine }
    return unit

/-- The owner of a declared unit, which must have been declared before. -/
def owner (u : UnitEntry) : Building (Option UnitId) :=
  match u.parent with
  | some parent => do return some (← lookUp parent)
  | none => return none

/-- What a declared unit is to be. -/
def body (u : UnitEntry) : Building (Body CatalogueUnit) := do
  if u.isSubgraph then return .subgraph
  else
    match ← create u.label u.args with
    | some unit => return .device unit
    | none => throw (.unknownLabel u.name u.label)

/-- Adds a declared unit. -/
def addUnit (u : UnitEntry) : Building PUnit := do
  if ((← get).unit? u.name).isSome then throw (.duplicateUnit u.name)
  let owner ← owner u
  let body ← body u
  let id ← change (.placement u.name (u.parent.getD "")) (Engine.edit (Edit.add owner body))
  modify fun c => { c with names := c.names ++ [(u.name, id)] }

/-- Makes a declared connection. -/
def addConnection (c : ConnectionEntry) : Building PUnit := do
  let source ← lookUp c.source
  let dest ← lookUp c.dest
  let _ ← change (.connection c.source c.outlet c.dest c.inlet)
    (Engine.edit (Edit.connect ⟨source, c.outlet, dest, c.inlet⟩))

/-- Schedules a declared event. -/
def addEvent (e : EventEntry) : Building PUnit := do
  if !e.time.isFinite then
    let time := writeDouble e.time
    throw (.invalidSetting "events.time" s!"{time} is not a finite time")
  if ((← get).engine.graph.names.receivers e.receiver).isEmpty then
    throw (.unknownReceiver e.receiver)
  let _ ← change (fun _ => .unknownReceiver e.receiver)
    (Engine.sendTo e.receiver (.parse e.time e.message))

/-- Builds all that a patch declares. -/
def all (p : Patch) : Building PUnit := do
  p.units.forM addUnit
  p.connections.forM addConnection
  p.events.forM addEvent

end Building

/-- Builds a patch into a new engine. The engine is there even if building failed, as far as it
got. -/
def Patch.build (p : Patch) (settings : Settings) :
    Except Fault (Except ConfigError PUnit × Construction) := do
  let engine ← Engine.new settings
  (Building.all p).run.run { engine }

end Patchbay
