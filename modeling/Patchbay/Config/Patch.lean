import Patchbay.Config.Error
import Patchbay.Graph
import Patchbay.Toml.Decoder
import Patchbay.Toml.Reader
import Patchbay.Toml.Writer

/-!
# Patches

A **patch** declares units by name, the connections between them and messages for certain times:

    name = "tremolo"

    [[units]]
    name = "carrier"
    label = "osc~"
    args = "440"

    [[units]]
    name = "out"
    label = "dac~"

    [[connections]]
    from = "carrier"
    to = "out"

    [[events]]
    time = 500.0
    receiver = "pitch"
    message = "880"

Outlets and inlets are the first unless said otherwise. A unit with the label `pd` is a subgraph,
and units that name it as their `parent` are placed inside it.
-/

namespace Patchbay

/-- The declaration of a unit. -/
structure UnitEntry where
  /-- The name by which other entries refer to the unit. -/
  name : String
  label : String
  /-- Arguments, with blanks between them. -/
  args : String := ""
  /-- The name of the subgraph that holds the unit. -/
  parent : Option String := none
deriving DecidableEq

/-- Whether a declared unit is a subgraph. -/
def UnitEntry.isSubgraph (u : UnitEntry) : Bool := u.label == subgraphLabel

/-- The declaration of a connection. -/
structure ConnectionEntry where
  source : String
  outlet : Nat := 0
  dest : String
  inlet : Nat := 0
deriving DecidableEq

/-- The declaration of a message for all receivers of a name. -/
structure EventEntry where
  /-- Milliseconds from the start. -/
  time : Float
  receiver : String
  /-- The text of the message. -/
  message : String
deriving DecidableEq

/-- Whether two events are the same, their times compared as numbers. -/
def EventEntry.same (e f : EventEntry) : Bool :=
  e.time == f.time && e.receiver == f.receiver && e.message == f.message

/-- What a patch declares. -/
structure Patch where
  name : Option String := none
  units : List UnitEntry := []
  connections : List ConnectionEntry := []
  events : List EventEntry := []
deriving DecidableEq

namespace Patch

open Toml

/-- Whether two patches are the same, times compared as numbers. -/
def same (p q : Patch) : Bool :=
  p.name == q.name && p.units == q.units && p.connections == q.connections &&
    p.events.length == q.events.length && (p.events.zip q.events).all fun (e, f) => e.same f

/-! ## Reading -/

/-- The unit that a table declares. -/
def decodeUnit : Decoder UnitEntry := fun v => do
  let fields ← Fields.of? v
  return {
    name := ← fields.required "name" 0 Decoder.text
    label := ← fields.required "label" 1 Decoder.text
    args := ← fields.withDefault "args" 2 Decoder.text ""
    parent := ← fields.withDefault "parent" 3 (fun v => some <$> Decoder.text v) none }

/-- The connection that a table declares. -/
def decodeConnection : Decoder ConnectionEntry := fun v => do
  let fields ← Fields.of? v
  return {
    source := ← fields.required "from" 0 Decoder.text
    outlet := ← fields.withDefault "outlet" 1 (Decoder.count wordSize) 0
    dest := ← fields.required "to" 2 Decoder.text
    inlet := ← fields.withDefault "inlet" 3 (Decoder.count wordSize) 0 }

/-- The event that a table declares. -/
def decodeEvent : Decoder EventEntry := fun v => do
  let fields ← Fields.of? v
  return {
    time := ← fields.required "time" 0 Decoder.number
    receiver := ← fields.required "receiver" 1 Decoder.text
    message := ← fields.required "message" 2 Decoder.text }

/-- The patch in a document. -/
def decode (entries : Entries) : Option Patch := do
  let fields := Fields.byName entries
  return {
    name := ← fields.withDefault "name" 0 (fun v => some <$> Decoder.text v) none
    units := ← fields.withDefault "units" 1 (Decoder.list decodeUnit) []
    connections := ← fields.withDefault "connections" 2 (Decoder.list decodeConnection) []
    events := ← fields.withDefault "events" 3 (Decoder.list decodeEvent) [] }

/-- Reads a patch. -/
def read (text : String) : Except ConfigError Patch :=
  match (Toml.read? text).bind decode with
  | some p => .ok p
  | none => .error .malformed

/-! ## Writing -/

/-- The setting of a text that may be absent. -/
def textSetting (key : String) (text : Option String) : List (String × Content) :=
  text.toList.map fun text => (key, .text text)

/-- The section that declares a unit. -/
def unitSection (u : UnitEntry) : Section where
  header := "[[units]]"
  settings :=
    [("name", .text u.name), ("label", .text u.label)] ++
    textSetting "args" (if u.args.isEmpty then none else u.args) ++ textSetting "parent" u.parent

/-- The section that declares a connection. -/
def connectionSection (c : ConnectionEntry) : Section where
  header := "[[connections]]"
  settings :=
    [("from", .text c.source), ("outlet", .count c.outlet),
     ("to", .text c.dest), ("inlet", .count c.inlet)]

/-- The section that declares an event. -/
def eventSection (e : EventEntry) : Section where
  header := "[[events]]"
  settings :=
    [("time", .number e.time), ("receiver", .text e.receiver), ("message", .text e.message)]

/-- The sections of a patch. That there are no units is said before the first header. -/
def sections (p : Patch) : List Section :=
  let noUnits := if p.units.isEmpty then [("units", .emptyList)] else []
  { settings := textSetting "name" p.name ++ noUnits } ::
    p.units.map unitSection ++ p.connections.map connectionSection ++ p.events.map eventSection

/-- Writes a patch. -/
def write (p : Patch) : Except Fault (Except ConfigError String) :=
  ConfigError.orUnwritable <$> writeDocument p.sections

end Patch
end Patchbay
