import Patchbay.Catalogue.Arguments

/-!
# Links and ports

`throw~` and `catch~` add many signals into one; `send~` and `receive~` copy one signal to many
places. Writers and readers find each other by name, and every writer of a link runs before its
readers. Buses are silent when a block starts.

`inlet~` and `outlet~` compute nothing: their outlet passes on what is at their inlet. Inside a
subgraph they become its stream ports, and `inlet` and `outlet` its ports for messages.
-/

namespace Patchbay.Catalogue

/-- Writes what is at its inlet to the bus of a link. -/
structure LinkWriter where
  family : LinkFamily
  name : Symbol
deriving DecidableEq

namespace LinkWriter

def label (u : LinkWriter) : String :=
  match u.family with
  | .throw => "throw~"
  | .send => "send~"

/-- Made from `[name]`. -/
def make (family : LinkFamily) (args : Message) : Making LinkWriter := do
  return { family, name := ← Making.name (LinkWriter.label ⟨family, .empty⟩) args 0 }

/-- The range of the bus after a signal is written to it. -/
def write (u : LinkWriter) (bus input : Samples) : Samples :=
  match u.family with
  | .throw => Array.zipWith (· + ·) bus input
  | .send => input

def process (u : LinkWriter) (ins : Inputs) (outs : Outputs) (first last : Nat) :
    Except Fault Outputs := do
  let input ← slice (← ins.inlet 0) first last
  match outs.bus with
  | none => return outs
  | some bus =>
    let old ← slice bus first last
    return { outs with bus := some (overwrite bus first (u.write old input)) }

end LinkWriter

/-- Sends on what is on the bus of a link. -/
structure LinkReader where
  family : LinkFamily
  name : Symbol
deriving DecidableEq

namespace LinkReader

def label (u : LinkReader) : String :=
  match u.family with
  | .throw => "catch~"
  | .send => "receive~"

/-- Made from `[name]`. -/
def make (family : LinkFamily) (args : Message) : Making LinkReader := do
  return { family, name := ← Making.name (LinkReader.label ⟨family, .empty⟩) args 0 }

def process (outs : Outputs) (first last : Nat) : Except Fault Outputs := do
  match outs.bus with
  | some bus => outs.setOutlet 0 first last (← slice bus first last)
  | none => outs.setOutlet 0 first last (silence (last - first))

end LinkReader

/-- A port of a subgraph. -/
structure Port where
  side : Side
  /-- Whether it carries a stream, or messages alone. -/
  stream : Bool
deriving DecidableEq

namespace Port

def label (u : Port) : String :=
  match u.side, u.stream with
  | .inlet, true => "inlet~"
  | .outlet, true => "outlet~"
  | .inlet, false => "inlet"
  | .outlet, false => "outlet"

def ports (u : Port) : Ports :=
  match u.side, u.stream with
  | _, true => ⟨1, 1, 0, 1⟩
  | .inlet, false => .messages 1 1
  | .outlet, false => .messages 1 0

/-- An inlet for messages passes them on into the subgraph. -/
def receive (u : Port) (message : Message) : Script Port :=
  if u.side = .inlet ∧ ¬ u.stream then .send 0 message (.done u) else return u

end Port
end Patchbay.Catalogue
