import Patchbay.Catalogue.Arithmetic
import Patchbay.Catalogue.Control
import Patchbay.Catalogue.Links
import Patchbay.Catalogue.Signals
import Patchbay.Catalogue.Storage

/-!
# The catalogue

The **catalogue** lists the units that a patch can name, each with its label, its other labels and
a short description. `create` makes a unit from a label and arguments; a label that spells a
finite number makes a `float` that holds it.
-/

namespace Patchbay

open Catalogue

/-- The units of the catalogue. -/
inductive CatalogueUnit where
  | hostInput (u : HostInput)
  | hostOutput (u : HostOutput)
  | constant (u : Constant)
  | ramp (u : Ramp)
  | oscillator (shape : Shape) (u : Phase)
  | streamOperator (u : StreamOperator)
  | messageOperator (u : MessageOperator)
  | linkWriter (u : LinkWriter)
  | linkReader (u : LinkReader)
  | port (u : Port)
  | table (u : Table)
  | tableWriter (u : TableWriter)
  | tableReader (u : TableReader)
  | delayWriter (u : DelayWriter)
  | delayReader (u : DelayReader)
  | floatBox (u : FloatBox)
  | metro (u : Metro)
  | delay (u : Delay)
  | print (u : Print)
  | messageSender (u : MessageSender)
  | messageReceiver (u : MessageReceiver)
deriving DecidableEq

namespace CatalogueUnit

/-- The label of a unit. -/
def label : CatalogueUnit → String
  | hostInput _ => "adc~"
  | hostOutput _ => "dac~"
  | constant _ => "sig~"
  | ramp _ => "line~"
  | oscillator shape _ => shape.label
  | streamOperator u => u.op.streamLabel
  | messageOperator u => u.op.messageLabel
  | linkWriter u => u.label
  | linkReader u => u.label
  | port u => u.label
  | table _ => "table"
  | tableWriter _ => "tabwrite~"
  | tableReader _ => "tabread~"
  | delayWriter _ => "delwrite~"
  | delayReader _ => "delread~"
  | floatBox _ => "float"
  | metro _ => "metro"
  | delay _ => "delay"
  | print _ => "print"
  | messageSender _ => "send"
  | messageReceiver _ => "receive"

/-- The ports of a unit. -/
def ports : CatalogueUnit → Ports
  | hostInput u => { streamOutlets := u.channels }
  | hostOutput u => { streamInlets := u.channels }
  | constant _ => ⟨1, 0, 0, 1⟩
  | ramp _ => ⟨2, 0, 0, 1⟩
  | oscillator _ _ => ⟨2, 1, 0, 1⟩
  | streamOperator _ => ⟨2, 2, 0, 1⟩
  | messageOperator _ => .messages 2 1
  | linkWriter _ => ⟨1, 1, 0, 0⟩
  | linkReader _ => ⟨0, 0, 0, 1⟩
  | port u => u.ports
  | table _ => {}
  | tableWriter _ => ⟨1, 1, 0, 0⟩
  | tableReader _ => ⟨1, 1, 0, 1⟩
  | delayWriter _ => ⟨1, 1, 0, 0⟩
  | delayReader _ => ⟨1, 0, 0, 1⟩
  | floatBox _ => .messages 2 1
  | metro _ => .messages 2 1
  | delay _ => .messages 2 1
  | print _ => .messages 1 0
  | messageSender _ => .messages 1 0
  | messageReceiver _ => .messages 0 1

/-- Answers a message at an inlet. -/
def receive (u : CatalogueUnit) (inlet : Nat) (message : Message) (here : Surroundings) :
    Script CatalogueUnit :=
  match u with
  | hostInput _ | hostOutput _ | linkWriter _ | linkReader _ | table _ | tableReader _
  | delayWriter _ => return u
  | constant u => return constant (u.receive message)
  | ramp u => return ramp (u.receive inlet message here.settings)
  | oscillator shape u => return oscillator shape (u.receive inlet message)
  | streamOperator u => streamOperator <$> u.receive inlet message
  | messageOperator u => messageOperator <$> u.receive inlet message
  | port u => port <$> u.receive message
  | tableWriter u => return tableWriter (u.receive message)
  | delayReader u => return delayReader (u.receive message here.settings)
  | floatBox u => floatBox <$> u.receive inlet message
  | metro u => metro <$> u.receive inlet message
  | delay u => delay <$> u.receive inlet message
  | print u => print <$> u.receive message
  | messageSender u => messageSender <$> u.receive message
  | messageReceiver u => messageReceiver <$> u.receive message

/-- Answers an event of the unit's own that is due. -/
def emit (u : CatalogueUnit) (outlet : Nat) (message : Message) : Script CatalogueUnit :=
  match u with
  | metro u => metro <$> u.emit message
  | delay u => delay <$> u.emit outlet message
  | u => .send outlet message (.done u)

/-- Computes a range of the current block. -/
def process (u : CatalogueUnit) (ins : Inputs) (outs : Outputs) (first last : Nat) :
    Except Fault (CatalogueUnit × Outputs) :=
  match u with
  | hostInput v => do return (u, ← v.process ins outs first last)
  | hostOutput v => do return (u, ← v.process ins outs first last)
  | constant v => do return (u, ← v.process outs first last)
  | ramp v => do
    let (v, outs) ← v.process outs first last
    return (ramp v, outs)
  | oscillator shape v => do
    let (v, outs) ← v.process shape.value ins outs first last
    return (oscillator shape v, outs)
  | streamOperator v => do return (u, ← v.process ins outs first last)
  | linkWriter v => do return (u, ← v.process ins outs first last)
  | linkReader _ => do return (u, ← LinkReader.process outs first last)
  | tableWriter v => do
    let (v, outs) ← v.process ins outs first last
    return (tableWriter v, outs)
  | tableReader _ => do return (u, ← TableReader.process ins outs first last)
  | delayWriter _ => do return (u, ← DelayWriter.process ins outs first last)
  | delayReader v => do return (u, ← v.process ins outs first last)
  | messageOperator _ | port _ | table _ | floatBox _ | metro _ | delay _ | print _
  | messageSender _ | messageReceiver _ => .ok (u, outs)

/-- Learns that the stream connections have changed. -/
def rewired (u : CatalogueUnit) (counts : List Nat) : CatalogueUnit :=
  match u with
  | streamOperator u => streamOperator (u.rewired counts)
  | oscillator shape u => oscillator shape (u.rewired counts)
  | u => u

/-- Whether a unit computes samples. -/
def computes (u : CatalogueUnit) : Bool :=
  match u with
  | port _ => false
  | u => u.ports.hasStreams

/-- The role of a unit under a name. -/
def registration : CatalogueUnit → Option Registration
  | linkWriter u => some (.emitter u.family u.name)
  | linkReader u => some (.collector u.family u.name)
  | table u => some (.owner .table u.name u.length)
  | tableWriter u => some (.accessor .table u.name)
  | tableReader u => some (.accessor .table u.name)
  | delayWriter u => some (.owner .delayLine u.name u.length)
  | delayReader u => some (.accessor .delayLine u.name)
  | messageReceiver u => some (.receiver u.name)
  | _ => none

/-- Whether planning starts from a unit. -/
def isSink : CatalogueUnit → Bool
  | hostOutput _ | linkWriter _ | tableWriter _ | delayWriter _ => true
  | _ => false

instance : Device CatalogueUnit where
  label := label
  ports := ports
  receive := receive
  emit u outlet message _ := u.emit outlet message
  process := process
  rewired u _ counts := u.rewired counts
  computes := computes
  source
    | port _, _ => .forward 0
    | _, _ => .pooled
  registration := registration
  isSink := isSink
  side
    | port u => some u.side
    | _ => none

end CatalogueUnit

namespace Catalogue

/-- What a unit is for. -/
inductive Category where
  | io
  | generator
  | arithmetic
  | link
  | control
  | storage
deriving DecidableEq

/-- The name of a category in listings. -/
def Category.text : Category → String
  | io => "I/O"
  | generator => "Generator"
  | arithmetic => "Arithmetic"
  | link => "Link"
  | control => "Control"
  | storage => "Storage"

/-- A unit of the catalogue and how it is made. -/
structure Entry where
  label : String
  /-- Other labels of the same unit. -/
  aliases : List String := []
  description : String
  category : Category
  make : Message → Settings → Making CatalogueUnit

/-- Whether a label names the unit of an entry. -/
def Entry.isNamed (e : Entry) (label : String) : Bool :=
  e.label == label || e.aliases.contains label

/-- The entry of an operator on streams. -/
def streamEntry (op : Operator) (description : String) : Entry where
  label := op.streamLabel
  description := description
  category := .arithmetic
  make args _ := .streamOperator <$> StreamOperator.make op args

/-- The entry of an operator on messages. -/
def messageEntry (op : Operator) (description : String) : Entry where
  label := op.messageLabel
  description := description
  category := .arithmetic
  make args _ := .messageOperator <$> MessageOperator.make op args

/-- The entry of a port of a subgraph. -/
def portEntry (p : Port) (description : String) : Entry where
  label := p.label
  description := description
  category := .link
  make _ _ := return .port p

/-- The entry of an oscillator. -/
def oscillatorEntry (shape : Shape) (description : String) : Entry where
  label := shape.label
  description := description
  category := .generator
  make args settings := .oscillator shape <$> Phase.make shape.label args settings

/-- Every unit of the catalogue. -/
def entries : List Entry :=
  [ { label := "adc~", description := "Host audio input, one outlet per channel", category := .io
      make := fun _ s => return .hostInput ⟨s.inputChannels⟩ },
    { label := "dac~", description := "Host audio output, one inlet per channel", category := .io
      make := fun _ s => return .hostOutput ⟨s.outputChannels⟩ },
    { label := "sig~", description := "Constant stream from a float", category := .generator
      make := fun args _ => .constant <$> Constant.make args },
    { label := "line~", description := "Linear ramp to a target over a time"
      category := .generator
      make := fun _ _ => return .ramp {} },
    oscillatorEntry .cosine "Cosine oscillator",
    oscillatorEntry .sawtooth "Rising sawtooth from 0 to 1",
    streamEntry .add "Adds streams or a scalar",
    streamEntry .subtract "Subtracts streams or a scalar",
    streamEntry .multiply "Multiplies streams or a scalar",
    streamEntry .divide "Divides streams or by a scalar",
    messageEntry .add "Adds to a number",
    messageEntry .subtract "Subtracts from a number",
    messageEntry .multiply "Multiplies a number",
    messageEntry .divide "Divides a number",
    { label := "throw~", description := "Adds into a named summing bus", category := .link
      make := fun args _ => .linkWriter <$> LinkWriter.make .throw args },
    { label := "catch~", description := "Reads a named summing bus", category := .link
      make := fun args _ => .linkReader <$> LinkReader.make .throw args },
    { label := "send~", aliases := ["s~"], description := "Writes a named stream"
      category := .link
      make := fun args _ => .linkWriter <$> LinkWriter.make .send args },
    { label := "receive~", aliases := ["r~"], description := "Reads a named stream"
      category := .link
      make := fun args _ => .linkReader <$> LinkReader.make .send args },
    portEntry ⟨.inlet, true⟩ "Forwards a stream into a subpatch",
    portEntry ⟨.outlet, true⟩ "Forwards a stream out of a subpatch",
    portEntry ⟨.inlet, false⟩ "Forwards messages into a subpatch",
    portEntry ⟨.outlet, false⟩ "Forwards messages out of a subpatch",
    { label := "table", description := "Named array of samples", category := .storage
      make := fun args _ => .table <$> Table.make args },
    { label := "tabwrite~", description := "Records a stream into a table", category := .storage
      make := fun args _ => .tableWriter <$> TableWriter.make args },
    { label := "tabread~", description := "Reads a table at each input index"
      category := .storage
      make := fun args _ => .tableReader <$> TableReader.make args },
    { label := "delwrite~", description := "Writes a named delay line", category := .storage
      make := fun args s => .delayWriter <$> DelayWriter.make args s },
    { label := "delread~", description := "Reads a named delay line", category := .storage
      make := fun args s => .delayReader <$> DelayReader.make args s },
    { label := "float", aliases := ["f"], description := "Stores and outputs a number"
      category := .control
      make := fun args _ => .floatBox <$> FloatBox.make args },
    { label := "metro", description := "Bangs at a regular interval", category := .control
      make := fun args _ => .metro <$> Metro.make args },
    { label := "delay", aliases := ["del"], description := "Bangs once after a delay"
      category := .control
      make := fun args _ => .delay <$> Delay.make args },
    { label := "print", description := "Reports every message", category := .control
      make := fun args _ => return .print (Print.make args) },
    { label := "send", aliases := ["s"], description := "Sends messages to a name"
      category := .control
      make := fun args _ => .messageSender <$> MessageSender.make args },
    { label := "receive", aliases := ["r"], description := "Outputs messages sent to a name"
      category := .control
      make := fun args _ => .messageReceiver <$> MessageReceiver.make args } ]

/-- The entry of a label. -/
def find? (label : String) : Option Entry := entries.find? (·.isNamed label)

/-- The entries of a category. -/
def inCategory (category : Category) : List Entry := entries.filter (·.category = category)

/-- The finite number that a label spells. -/
def numberLabel? (label : String) : Option Float32 :=
  (readSingle? label).filter Float32.isFinite

/-- Makes a unit from a label and arguments; nothing if nothing has that label. -/
def create (label : String) (args : Message) (settings : Settings) :
    Making (Option CatalogueUnit) :=
  match numberLabel? label with
  | some value => return some (.floatBox ⟨value⟩)
  | none =>
    match find? label with
    | some entry => some <$> entry.make args settings
    | none => return none

end Catalogue
end Patchbay
