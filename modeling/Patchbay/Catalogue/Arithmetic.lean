import Patchbay.Catalogue.Arguments

/-!
# Arithmetic

Each operator comes as a unit on streams (`+~ -~ *~ /~`) and as a unit on messages (`+ - * /`).

A stream operator works in one of two modes. In scalar mode its right operand is a number, set by
argument or by a message to the right inlet; in signal mode, when both inlets have a stream, it
combines them sample by sample. The mode changes only between blocks, with the wiring.
-/

namespace Patchbay.Catalogue

/-- A binary operator on numbers. -/
inductive Operator where
  | add
  | subtract
  | multiply
  | divide
deriving DecidableEq

namespace Operator

/-- The label of the unit on messages. -/
def messageLabel : Operator → String
  | add => "+"
  | subtract => "-"
  | multiply => "*"
  | divide => "/"

/-- The label of the unit on streams. -/
def streamLabel (op : Operator) : String := op.messageLabel ++ "~"

/-- The result of an operator. -/
def apply : Operator → Float32 → Float32 → Float32
  | add, x, y => x + y
  | subtract, x, y => x - y
  | multiply, x, y => x * y
  | divide, x, y => x / y

/-- What is kept of a new right operand, and the warning it gives: a divisor is never zero. -/
def accept (op : Operator) (value : Float32) : Float32 × Option String :=
  if op = divide ∧ value == 0 then (1, some "divisor set to zero; using 1")
  else (value, none)

/-- The right operand among the arguments. -/
def operand (op : Operator) (label : String) (args : Message) : Making Float32 := do
  let (value, warning) := op.accept (← Making.float label args 0 0)
  match warning with
  | some text => Making.warn label text
  | none => pure ()
  return value

/-- The right operand after a message to the right inlet. -/
def heed (op : Operator) (right : Float32) (message : Message) : Script Float32 :=
  match message.floatAt 0 with
  | none => return right
  | some value =>
    match op.accept value with
    | (value, some text) => .report .warning text (.done value)
    | (value, none) => return value

end Operator

/-- How a unit gets an operand. -/
inductive Mode where
  /-- It is a stored number. -/
  | scalar
  /-- It is the stream at an inlet. -/
  | signal
deriving DecidableEq

/-- The number of streams at an inlet. -/
def streamsAt (counts : List Nat) (inlet : Nat) : Nat := (counts[inlet]?).getD 0

/-- An operator on streams. -/
structure StreamOperator where
  op : Operator
  /-- The right operand in scalar mode. -/
  right : Float32
  mode : Mode := .scalar
deriving DecidableEq

namespace StreamOperator

/-- Made from `[right]`. -/
def make (op : Operator) (args : Message) : Making StreamOperator := do
  return { op, right := ← op.operand op.streamLabel args }

def receive (u : StreamOperator) (inlet : Nat) (message : Message) : Script StreamOperator :=
  if inlet = 1 then return { u with right := ← u.op.heed u.right message }
  else return u

/-- Both operands are streams exactly when both inlets have one. -/
def rewired (u : StreamOperator) (counts : List Nat) : StreamOperator :=
  { u with
    mode := if 0 < streamsAt counts 0 ∧ 0 < streamsAt counts 1 then .signal else .scalar }

def process (u : StreamOperator) (ins : Inputs) (outs : Outputs) (first last : Nat) :
    Except Fault Outputs := do
  let left ← slice (← ins.inlet 0) first last
  match u.mode with
  | .scalar => outs.setOutlet 0 first last (left.map (u.op.apply · u.right))
  | .signal =>
    let right ← slice (← ins.inlet 1) first last
    outs.setOutlet 0 first last (Array.zipWith u.op.apply left right)

end StreamOperator

/-- An operator on messages. A number at the left inlet sends the result on, a bang repeats the
last result, and a number at the right inlet sets the right operand. -/
structure MessageOperator where
  op : Operator
  right : Float32
  /-- The last result. -/
  last : Float32 := 0
deriving DecidableEq

namespace MessageOperator

/-- Made from `[right]`. -/
def make (op : Operator) (args : Message) : Making MessageOperator := do
  return { op, right := ← op.operand op.messageLabel args }

/-- Sends the last result on. -/
def sendLast (u : MessageOperator) (timestamp : Float) : Script MessageOperator :=
  .send 0 (.float timestamp u.last) (.done u)

def receive (u : MessageOperator) (inlet : Nat) (message : Message) : Script MessageOperator :=
  match inlet with
  | 0 =>
    match message.floatAt 0 with
    | some left => { u with last := u.op.apply left u.right }.sendLast message.timestamp
    | none => if message.isBangAt 0 then u.sendLast message.timestamp else return u
  | 1 => return { u with right := ← u.op.heed u.right message }
  | _ => return u

end MessageOperator
end Patchbay.Catalogue
