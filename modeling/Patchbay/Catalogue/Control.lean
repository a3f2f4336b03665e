import Patchbay.Catalogue.Arguments

/-!
# Control units

These units work on messages alone:

- `float` stores a number and sends it;
- `metro` sends a bang at regular intervals;
- `delay` sends one bang after a while;
- `print` reports every message;
- `send` passes messages on to the receivers of a name, and `receive` is such a receiver.
-/

namespace Patchbay.Catalogue

/-- A stored number. A number at the left inlet is stored and sent, a bang sends what is stored,
and a number at the right inlet is only stored. -/
structure FloatBox where
  value : Float32
deriving DecidableEq

namespace FloatBox

/-- Made from `[value]`. -/
def make (args : Message) : Making FloatBox := do
  return ⟨← Making.float "float" args 0 0⟩

def receive (u : FloatBox) (inlet : Nat) (message : Message) : Script FloatBox :=
  match inlet, message.floatAt 0 with
  | 0, some value => .send 0 (.float message.timestamp value) (.done ⟨value⟩)
  | 0, none =>
    if message.isBangAt 0 then .send 0 (.float message.timestamp u.value) (.done u)
    else return u
  | 1, some value => return ⟨value⟩
  | _, _ => return u

end FloatBox

/-- A bang now and one after every interval. A bang or a number other than zero at the left inlet
starts the clock afresh, zero or `stop` halts it. A number at the right inlet sets the interval
from the next tick on. -/
structure Metro where
  /-- The interval in milliseconds. -/
  interval : Float
  /-- The next tick, while the clock runs. -/
  pending : Option EventId := none
deriving DecidableEq

namespace Metro

/-- The shortest interval between ticks, in milliseconds. -/
def shortestInterval : Float := 1

/-- Made from `[interval]`. -/
def make (args : Message) : Making Metro := do
  return { interval := widen (← Making.float "metro" args 0 1000) }

/-- Halts the clock. -/
def stop (u : Metro) : Script Metro :=
  match u.pending with
  | some event => .cancel 0 event fun _ => .done { u with pending := none }
  | none => return u

/-- Schedules the next tick and sends a bang. -/
def tick (u : Metro) (timestamp : Float) : Script Metro :=
  .schedule 0 (.bang (timestamp + maxDouble u.interval shortestInterval)) fun event =>
    .send 0 (.bang timestamp) (.done { u with pending := some event })

/-- Whether a message at the left inlet starts the clock, or halts it. -/
def starts? (message : Message) : Option Bool :=
  match message.floatAt 0 with
  | some value => some (value != 0)
  | none =>
    if message.isBangAt 0 then some true
    else if message.hasSelector "stop" then some false
    else none

def receive (u : Metro) (inlet : Nat) (message : Message) : Script Metro :=
  match inlet with
  | 0 =>
    match starts? message with
    | some true => do (← u.stop).tick message.timestamp
    | some false => u.stop
    | none => return u
  | 1 =>
    match message.floatAt 0 with
    | some interval => return { u with interval := widen interval }
    | none => return u
  | _ => return u

/-- A tick that is due: the next one is scheduled before the bang goes out. -/
def emit (u : Metro) (message : Message) : Script Metro := u.tick message.timestamp

end Metro

/-- One bang a while after any message at the left inlet but `stop`, which cancels it. A number at
the right inlet cancels it too, and sets the delay. -/
structure Delay where
  /-- The delay in milliseconds. -/
  delay : Float
  /-- The bang that is under way. -/
  pending : Option EventId := none
deriving DecidableEq

namespace Delay

/-- Made from `[delay]`. -/
def make (args : Message) : Making Delay := do
  return { delay := widen (← Making.float "delay" args 0 0) }

/-- Cancels the bang that is under way. -/
def stop (u : Delay) : Script Delay :=
  match u.pending with
  | some event => .cancel 0 event fun _ => .done { u with pending := none }
  | none => return u

def receive (u : Delay) (inlet : Nat) (message : Message) : Script Delay :=
  match inlet with
  | 0 => do
    let u ← u.stop
    if message.atoms.isEmpty ∨ message.hasSelector "stop" then return u
    else
      .schedule 0 (.bang (message.timestamp + u.delay)) fun event =>
        .done { u with pending := some event }
  | 1 =>
    match message.floatAt 0 with
    | some delay => return { (← u.stop) with delay := widen delay }
    | none => return u
  | _ => return u

/-- The bang is due. -/
def emit (u : Delay) (outlet : Nat) (message : Message) : Script Delay :=
  .send outlet message (.done { u with pending := none })

end Delay

/-- Reports every message with its time, behind a heading unless there is none. -/
structure Print where
  heading : Option Symbol
deriving DecidableEq

namespace Print

/-- Made from `[heading]`; the heading `-n` means none. -/
def make (args : Message) : Print :=
  match args.symbolAt 0 with
  | some name => if name.text = "-n" then ⟨none⟩ else ⟨some name⟩
  | none => ⟨some (.ofString "print")⟩

/-- The line that reports a message. -/
def line (u : Print) (message : Message) : String :=
  let time := writeFixed 3 message.timestamp
  match u.heading with
  | some name => s!"[@ {time}ms] {name.text}: {message.text}"
  | none => s!"[@ {time}ms] {message.text}"

def receive (u : Print) (message : Message) : Script Print :=
  .report .info (u.line message) (.done u)

end Print

/-- Passes messages on to the receivers of a name. -/
structure MessageSender where
  name : Symbol
deriving DecidableEq

namespace MessageSender

/-- Made from `[name]`. -/
def make (args : Message) : Making MessageSender := do
  return ⟨← Making.name "send" args 0⟩

def receive (u : MessageSender) (message : Message) : Script MessageSender :=
  .sendTo u.name message (.done u)

end MessageSender

/-- Sends on every message sent to a name. -/
structure MessageReceiver where
  name : Symbol
deriving DecidableEq

namespace MessageReceiver

/-- Made from `[name]`. -/
def make (args : Message) : Making MessageReceiver := do
  return ⟨← Making.name "receive" args 0⟩

def receive (u : MessageReceiver) (message : Message) : Script MessageReceiver :=
  .send 0 message (.done u)

end MessageReceiver
end Patchbay.Catalogue
