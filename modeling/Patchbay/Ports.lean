import Patchbay.Fault

/-!
# Ports

A unit has inlets and outlets. Inlets are shared between the two kinds of connection: inlet `i`
accepts streams if it is one of the first `streamInlets`, and messages if it is one of the first
`messageInlets`. Outlets are not shared: the first `streamOutlets` carry streams, and the
`messageOutlets` after them carry messages.
-/

namespace Patchbay

/-- What a connection carries. -/
inductive ConnectionKind where
  /-- Timestamped messages. -/
  | message
  /-- Samples, block by block. -/
  | stream
deriving DecidableEq

/-- The name of a kind in listings. -/
def ConnectionKind.text : ConnectionKind → String
  | .message => "message"
  | .stream => "stream"

/-- The inlets and outlets of a unit. -/
structure Ports where
  messageInlets : Nat := 0
  streamInlets : Nat := 0
  messageOutlets : Nat := 0
  streamOutlets : Nat := 0
deriving DecidableEq, Inhabited

namespace Ports

/-- Ports for messages alone. -/
def messages (inlets outlets : Nat) : Ports := ⟨inlets, 0, outlets, 0⟩

/-- The number of inlets. -/
def inlets (p : Ports) : Nat := max p.messageInlets p.streamInlets

/-- The number of outlets. -/
def outlets (p : Ports) : Nat := p.streamOutlets + p.messageOutlets

/-- The kind of an outlet, if it exists. -/
def outletKind (p : Ports) (outlet : Nat) : Option ConnectionKind :=
  if outlet < p.streamOutlets then some .stream
  else if outlet < p.outlets then some .message
  else none

/-- Whether an inlet accepts streams. -/
def acceptsStream (p : Ports) (inlet : Nat) : Bool := inlet < p.streamInlets

/-- Whether any port carries a stream. -/
def hasStreams (p : Ports) : Bool := 0 < p.streamInlets + p.streamOutlets

/-- Fails unless the outlets, and the ports for streams, can be counted. -/
def checkTotals (p : Ports) : Except Fault PUnit := do
  let _ ← checkedAdd p.streamOutlets p.messageOutlets
  let _ ← checkedAdd p.streamInlets p.streamOutlets

/-- The bytes that the list of connections at one port takes. -/
def portBytes : Nat := 24

/-- Fails unless there can be a list of connections at each port. -/
def checkPortRoom (p : Ports) : Except Fault PUnit := do
  p.checkTotals
  checkRoom p.inlets portBytes
  checkRoom p.outlets portBytes

end Ports

/-- Which side of a subgraph a unit stands for. Placed inside a subgraph, such a unit becomes the
next inlet or outlet of it. -/
inductive Side where
  | inlet
  | outlet
deriving DecidableEq

/-- The ports of a subgraph after it gains a unit with the ports `inner` on a side. Ports that
carry streams come first on each side, so a stream port is refused after one for messages only. -/
def Ports.grow? (p : Ports) (inner : Ports) : Side → Option Ports
  | .inlet =>
    if 0 < inner.streamOutlets then
      if p.streamInlets < p.messageInlets then none
      else some { p with
        streamInlets := p.streamInlets + 1, messageInlets := p.messageInlets + 1 }
    else some { p with messageInlets := p.messageInlets + 1 }
  | .outlet =>
    if 0 < inner.streamInlets then
      if 0 < p.messageOutlets then none
      else some { p with streamOutlets := p.streamOutlets + 1 }
    else some { p with messageOutlets := p.messageOutlets + 1 }

/-- Where the samples of a stream outlet come from. -/
inductive OutletSource where
  /-- The unit writes them into a buffer of its own. -/
  | pooled
  /-- They are those at an inlet, passed on without a copy. -/
  | forward (inlet : Nat)
deriving DecidableEq, Inhabited

end Patchbay
