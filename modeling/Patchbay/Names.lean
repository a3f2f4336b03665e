import Patchbay.Connection
import Patchbay.Names.Directory
import Patchbay.Pool
import Patchbay.Text.Symbol

/-!
# Named relations

Units can be related by name instead of by a connection:

- a **link** is a bus of one block that emitters write and collectors read;
- a **store** is an array of samples, declared by its owners and reached by its accessors;
- a **receiver** gets every message sent to its name;
- an **external** name has its messages handed to the host.

A link or a store lives as long as a unit is registered under its name. The registry knows units
by their numbers alone.
-/

namespace Patchbay

/-- The two kinds of links, each with names of its own. -/
inductive LinkFamily where
  /-- Many emitters, added up. -/
  | throw
  /-- The last emitter, copied. -/
  | send
deriving DecidableEq

/-- The two kinds of stores, each with names of its own. -/
inductive StoreKind where
  /-- A table of samples. -/
  | table
  /-- A circular history of a signal. -/
  | delayLine
deriving DecidableEq

/-- The role that a unit plays under a name. -/
inductive Registration where
  | emitter (family : LinkFamily) (name : Symbol)
  | collector (family : LinkFamily) (name : Symbol)
  | receiver (name : Symbol)
  /-- Declares a store of at least `length` samples. -/
  | owner (kind : StoreKind) (name : Symbol) (length : Nat)
  | accessor (kind : StoreKind) (name : Symbol)
deriving DecidableEq

/-- What a unit's role leads to: a slot among the links or among the stores. -/
inductive Handle where
  | link (slot : Nat)
  | store (slot : Nat)
deriving DecidableEq

/-- A bus and the units around it. -/
structure Link where
  emitters : List UnitId := []
  collectors : List UnitId := []
  bus : Samples
deriving Inhabited

/-- Whether no unit uses a link. -/
def Link.isUnused (l : Link) : Bool := l.emitters.isEmpty && l.collectors.isEmpty

/-- A named array of samples. -/
structure Store where
  samples : Samples := #[]
  /-- Where a delay line is written next. -/
  head : Nat := 0
  owners : List UnitId := []
  accessors : List UnitId := []
deriving Inhabited

namespace Store

/-- The length in samples. -/
def length (s : Store) : Nat := s.samples.size

/-- Moves the write position, around the end of the store. -/
def setHead (s : Store) (head : Nat) : Store :=
  { s with head := if s.length = 0 then 0 else head % s.length }

/-- Whether no unit uses a store. -/
def isUnused (s : Store) : Bool := s.owners.isEmpty && s.accessors.isEmpty

/-- The store with silence added at its end up to a length. An empty store is made in one piece. -/
def growTo (s : Store) (length : Nat) : Store :=
  { s with
    samples :=
      if s.samples.isEmpty then silence length else s.samples ++ silence (length - s.length) }

end Store

/-- The registry of named relations. -/
structure Names where
  blockSize : Nat
  links : Directory (LinkFamily × Symbol) Link := {}
  stores : Directory (StoreKind × Symbol) Store := {}
  receiverLists : List (Symbol × List UnitId) := []
  externals : List Symbol := []
deriving Inhabited

namespace Names

/-- A link that nobody uses yet, with a silent bus. -/
def freshLink (n : Names) : Link := { bus := silence n.blockSize }

/-- The slot of a link, made if it is missing, after its members are changed. -/
def joinLink (n : Names) (family : LinkFamily) (name : Symbol) (f : Link → Link) :
    Except Fault (Handle × Names) := do
  checkRoom n.blockSize sampleBytes
  let (slot, links) := n.links.enter (family, name) n.freshLink
  return (.link slot, { n with links := links.modify slot f })

/-- The slot of a store, made if it is missing and grown if it is too short, after its members
are changed. -/
def joinStore (n : Names) (kind : StoreKind) (name : Symbol) (length : Nat) (f : Store → Store) :
    Except Fault (Handle × Names) := do
  checkRoom length sampleBytes
  let (slot, stores) := n.stores.enter (kind, name) {}
  return (.store slot, { n with stores := stores.modify slot fun s => f (s.growTo length) })

/-- Units that receive messages sent to a name. The name is taken as it is given: past the
capacity of a symbol there is no receiver. -/
def receivers (n : Names) (name : String) : List UnitId :=
  ((n.receiverLists.find? (·.1.text = name)).map (·.2)).getD []

/-- The receiver lists with a unit added under a name. -/
def addReceiver (unit : UnitId) (name : Symbol) :
    List (Symbol × List UnitId) → List (Symbol × List UnitId)
  | [] => [(name, [unit])]
  | (key, units) :: rest =>
    if key = name then (key, units ++ [unit]) :: rest
    else (key, units) :: addReceiver unit name rest

/-- The receiver lists with a unit gone from a name, and the name too if it was the last. -/
def dropReceiver (unit : UnitId) (name : Symbol) :
    List (Symbol × List UnitId) → List (Symbol × List UnitId)
  | [] => []
  | (key, units) :: rest =>
    if key = name then
      let units := units.filter (· ≠ unit)
      if units.isEmpty then rest else (key, units) :: rest
    else (key, units) :: dropReceiver unit name rest

/-- Records a unit in its role. A role at a link or store gives a handle to it. -/
def register (n : Names) (unit : UnitId) : Registration → Except Fault (Option Handle × Names)
  | .emitter family name => do
    let (h, n) ← n.joinLink family name fun l => { l with emitters := l.emitters ++ [unit] }
    return (some h, n)
  | .collector family name => do
    let (h, n) ← n.joinLink family name fun l => { l with collectors := l.collectors ++ [unit] }
    return (some h, n)
  | .receiver name =>
    .ok (none, { n with receiverLists := addReceiver unit name n.receiverLists })
  | .owner kind name length => do
    let (h, n) ← n.joinStore kind name length fun s => { s with owners := s.owners ++ [unit] }
    return (some h, n)
  | .accessor kind name => do
    let (h, n) ← n.joinStore kind name 0 fun s => { s with accessors := s.accessors ++ [unit] }
    return (some h, n)

/-- Changes the members of a link, and drops it if that leaves it unused. -/
def leaveLink (n : Names) (family : LinkFamily) (name : Symbol) (f : Link → Link) : Names :=
  { n with links := n.links.leave (family, name) f Link.isUnused }

/-- Changes the members of a store, and drops it if that leaves it unused. -/
def leaveStore (n : Names) (kind : StoreKind) (name : Symbol) (f : Store → Store) : Names :=
  { n with stores := n.stores.leave (kind, name) f Store.isUnused }

/-- Takes a unit out of its role. -/
def unregister (n : Names) (unit : UnitId) : Registration → Names
  | .emitter family name =>
    n.leaveLink family name fun l => { l with emitters := l.emitters.filter (· ≠ unit) }
  | .collector family name =>
    n.leaveLink family name fun l => { l with collectors := l.collectors.filter (· ≠ unit) }
  | .receiver name => { n with receiverLists := dropReceiver unit name n.receiverLists }
  | .owner kind name _ =>
    n.leaveStore kind name fun s => { s with owners := s.owners.filter (· ≠ unit) }
  | .accessor kind name =>
    n.leaveStore kind name fun s => { s with accessors := s.accessors.filter (· ≠ unit) }

/-- The slot of the link that units are registered at under a name. -/
def link? (n : Names) (family : LinkFamily) (name : String) : Option Nat :=
  n.links.find? (family, .ofString name)

/-- The slot of the store that units are registered at under a name. -/
def store? (n : Names) (kind : StoreKind) (name : String) : Option Nat :=
  n.stores.find? (kind, .ofString name)

/-- The emitters of the link in a slot, in the order of their registration. -/
def emitters (n : Names) (slot : Nat) : List UnitId :=
  ((n.links.get? slot).map Link.emitters).getD []

/-- The collectors of the link in a slot, in the order of their registration. -/
def collectors (n : Names) (slot : Nat) : List UnitId :=
  ((n.links.get? slot).map Link.collectors).getD []

/-- The bus of the link in a slot. A dropped link has no samples. -/
def bus (n : Names) (slot : Nat) : Samples :=
  ((n.links.get? slot).map Link.bus).getD #[]

/-- The owners of the store in a slot, in the order of their registration. -/
def owners (n : Names) (slot : Nat) : List UnitId :=
  ((n.stores.get? slot).map Store.owners).getD []

/-- Replaces the samples on the bus of the link in a slot. -/
def setBus (n : Names) (slot : Nat) (bus : Samples) : Names :=
  { n with links := n.links.modify slot fun l => { l with bus } }

/-- Replaces what is in the store in a slot. Who is registered there stays. -/
def setStore (n : Names) (slot : Nat) (store : Store) : Names :=
  { n with
    stores := n.stores.modify slot fun s =>
      { store with owners := s.owners, accessors := s.accessors } }

/-- Silences the bus of every link. -/
def clearBuses (n : Names) : Names :=
  { n with links := n.links.mapValues fun l => { l with bus := silence l.bus.size } }

/-- Hands the messages for a name to the host from now on. -/
def registerExternal (n : Names) (name : String) : Names :=
  if Symbol.ofString name ∈ n.externals then n
  else { n with externals := n.externals ++ [.ofString name] }

/-- Whether messages for a name go to the host. The name is taken as it is given: past the
capacity of a symbol none do. -/
def isExternal (n : Names) (name : String) : Bool :=
  n.externals.any (·.text = name)

/-- Hands the messages for a name to the host no longer. -/
def unregisterExternal (n : Names) (name : String) : Names :=
  { n with externals := n.externals.filter (·.text ≠ name) }

end Names
end Patchbay
