import Patchbay.Engine.Command

/-!
# Hosts

A **host** owns an engine and listens to the messages that the engine collects for it. After each
block the messages of that block are passed to the **listener**, one after another.

The listener answers each message with a **reaction**. It may work the same host in every way: it
may edit the graph, schedule events, install another listener and compute further blocks. While a
listener reacts it is not installed. Afterwards it takes its place again, unless it has installed
another meanwhile.
-/

namespace Patchbay

/-- What a listener does with its host, and what comes of it. `L` is the type of listeners, and
`N` that of the notes which they leave in the record. -/
inductive Reaction (U L N α : Type) where
  | done (result : α)
  /-- Gives the engine a command. Blocks are computed by `process` instead, so that their messages
  reach a listener. -/
  | command (command : Engine.Command U)
      (next : Except GraphError (Engine.Reply U) → Reaction U L N α)
  /-- Tells a unit, without a cause, that its stream connections have changed. -/
  | retell (unit : UnitId) (inlet : Nat) (counts : List Nat) (next : Bool → Reaction U L N α)
  /-- Looks at the engine. -/
  | inspect (next : Engine U → Reaction U L N α)
  /-- Installs a listener in place of the one before. -/
  | listen (listener : L) (next : Reaction U L N α)
  /-- Computes a block, and has its messages listened to. -/
  | process (input : Samples) (outLength : Nat) (next : Samples → Reaction U L N α)
  /-- Leaves a note in the record. -/
  | note (note : N) (next : Reaction U L N α)
  /-- Breaks off, since a rule is broken. -/
  | fail (how : Fault)

namespace Reaction

variable {U L N α β : Type}

/-- One reaction after another. -/
def bind : Reaction U L N α → (α → Reaction U L N β) → Reaction U L N β
  | done a, f => f a
  | command c next, f => command c fun reply => (next reply).bind f
  | retell unit inlet counts next, f => retell unit inlet counts fun found => (next found).bind f
  | inspect next, f => inspect fun e => (next e).bind f
  | listen listener next, f => listen listener (next.bind f)
  | process input outLength next, f => process input outLength fun out => (next out).bind f
  | note n next, f => note n (next.bind f)
  | fail how, _ => fail how

instance : Monad (Reaction U L N) where
  pure := done
  bind := bind

end Reaction

/-- How a type of listeners reacts to a message for a name. -/
class Listener (U L N : Type) where
  /-- The reaction, and the listener that is there for the next message. -/
  react : L → Symbol → Message → Reaction U L N L

/-- An entry in the record of a host. -/
inductive Entry (N : Type) where
  /-- Something happened in the engine. -/
  | happened (what : Happening)
  /-- A listener was passed a message. -/
  | heard (name : Symbol) (message : Message)
  /-- A listener left a note. -/
  | noted (note : N)

/-- An engine and the listener to its messages. -/
structure Host (U L N : Type) where
  engine : Engine U
  listener : Option L := none
  /-- What happened, oldest first. The engine's own journal is moved here. -/
  entries : Array (Entry N) := #[]

/-- Work on a host. A broken rule stops it, and leaves the host as it was at that moment. -/
abbrev HostWork (U L N α : Type) := EStateM Fault (Host U L N) α

namespace Host

variable {U L N : Type} [Device U] [Listener U L N]

/-- Adds an entry to the record. -/
def enter (h : Host U L N) (entry : Entry N) : Host U L N :=
  { h with entries := h.entries.push entry }

/-- The host with another engine, whose journal is moved into the record. -/
def withEngine (h : Host U L N) (e : Engine U) : Host U L N :=
  { h with
    engine := { e with journal := #[] }
    entries := h.entries ++ e.journal.map .happened }

/-- Gives the engine a command. -/
def change {α : Type} (c : Change U α) : HostWork U L N (Except GraphError α) := fun h =>
  match c h.engine with
  | .ok result e => .ok (.ok result) (h.withEngine e)
  | .error (.refused why) e => .ok (.error why) (h.withEngine e)
  | .error (.broken how) e => .error how (h.withEngine e)

/-- Lets a reaction run its course. Blocks are computed by `process`. -/
def run {α : Type} (process : Samples → Nat → HostWork U L N Samples) :
    Reaction U L N α → HostWork U L N α
  | .done result => return result
  | .command c next => do
    let reply ← change (Engine.perform c)
    run process (next reply)
  | .retell unit inlet counts next => do
    match ← change (Engine.retell unit inlet counts) with
    | .ok found => run process (next found)
    | .error _ => run process (next false)
  | .inspect next => do
    let h ← get
    run process (next h.engine)
  | .listen listener next => do
    modify fun h => { h with listener := some listener }
    run process next
  | .process input outLength next => do
    let out ← process input outLength
    run process (next out)
  | .note n next => do
    modify (enter · (.noted n))
    run process next
  | .fail how => throw how

/-- Passes messages to a listener, one after another; the listener that is there afterwards. -/
def passOn (process : Samples → Nat → HostWork U L N Samples) (listener : L)
    (messages : List (Symbol × Message)) : HostWork U L N L :=
  messages.foldlM
    (fun listener (name, message) => do
      modify (enter · (.heard name message))
      run process (Listener.react listener name message))
    listener

/-- Computes a block; its samples, and the messages that the engine has collected. -/
def processSilently (input : Samples) (outLength : Nat) :
    HostWork U L N (Samples × List (Symbol × Message)) := fun h =>
  match Engine.process input outLength h.engine with
  | .ok out e => .ok (out, e.external.toList) (h.withEngine { e with external := #[] })
  | .error how e => .error how (h.withEngine e)

/-- Computes a block and passes its messages to the listener. Blocks that are computed in the
course of this, and again in the course of those, nest no deeper than `depth`. -/
def process : (depth : Nat) → Samples → Nat → HostWork U L N Samples
  | 0, _, _ => throw .endless
  | depth + 1, input, outLength => do
    let (out, messages) ← processSilently input outLength
    match messages, (← get).listener with
    | [], _ | _, none => return out
    | messages, some listener =>
      modify fun h => { h with listener := none }
      let listener ← passOn (process depth) listener messages
      modify fun h => { h with listener := h.listener <|> some listener }
      return out

/-- Blocks nest less deeply than this. -/
def nestingLimit : Nat := 0x4000000000000000

/-- Lets the host itself do what a listener could do. -/
def act {α : Type} (r : Reaction U L N α) : HostWork U L N α := run (process nestingLimit) r

end Host
end Patchbay
