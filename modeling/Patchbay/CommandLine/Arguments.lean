import Patchbay.Number.Decimal
import Patchbay.Text.Words

/-!
# Arguments of the command line

    [--config FILE] units [LABEL]
    [--config FILE] order PATCH
    [--config FILE] render PATCH -o OUTPUT [--seconds SECONDS]

Options may stand before or after the words around them, and `--config` before the name of the task
too. The value of an option stands behind it, as in `--config FILE`, or is joined to it, as in
`--config=FILE`, `-oOUTPUT` or `-o=OUTPUT`; behind it, it must not look like an option. What follows
`--` is no option. Each option may be given once, but `--config` once on either side of the task.

In place of a task, `help` asks for help, with the name of a task, `help` or nothing behind it.

Arguments are read in order, and the first that makes no sense or asks for help decides. Before the
name of the task, a value that stands behind its option is held back until the next option is read
or all arguments are: only then is it gathered.
-/

namespace Patchbay.CommandLine

/-- What is to be done. -/
inductive Task where
  /-- List the units of the catalogue, or describe one. -/
  | units (label : Option String)
  /-- List the steps of a patch. -/
  | order (patch : String)
  /-- Render so many seconds of a patch into a file. -/
  | render (patch output : String) (seconds : Float)
deriving DecidableEq

/-- A task and the file with the engine's configuration. -/
structure Invocation where
  config : Option String
  task : Task
deriving DecidableEq

/-- Why arguments do not lead to a task. -/
inductive Stop where
  /-- They ask for the version. -/
  | version
  /-- They ask for help. -/
  | help
  /-- They make no sense. -/
  | refused
deriving DecidableEq

/-- The names of tasks. -/
inductive Verb where
  | units
  | order
  | render
deriving DecidableEq

/-- The task that a word names. -/
def Verb.ofWord? : String → Option Verb
  | "units" => some .units
  | "order" => some .order
  | "render" => some .render
  | _ => none

/-- The options that take a value. -/
inductive Setting where
  | config
  | output
  | seconds
deriving DecidableEq

/-- The option with a long name. The options of `render` belong to it alone. -/
def Setting.ofName? (verb : Option Verb) : String → Option Setting
  | "config" => some .config
  | "output" => if verb = some .render then some .output else none
  | "seconds" => if verb = some .render then some .seconds else none
  | _ => none

/-- What has been gathered from arguments. -/
structure Gathered where
  config : Option String := none
  output : Option String := none
  seconds : Option Float := none
  /-- The words that are not options. -/
  words : List String := []

namespace Gathered

/-- A value that is given for the first time. -/
def once {α : Type} (old : Option α) (new : α) : Except Stop (Option α) :=
  if old.isSome then .error .refused else .ok (some new)

/-- The name of a file, which is never empty. -/
def file (text : String) : Except Stop String :=
  if text.isEmpty then .error .refused else .ok text

/-- Gathers the value of an option. -/
def give (g : Gathered) (value : String) : Setting → Except Stop Gathered
  | .config => do return { g with config := ← once g.config (← file value) }
  | .output => do return { g with output := ← once g.output (← file value) }
  | .seconds =>
    match readDouble? value with
    | some seconds => do return { g with seconds := ← once g.seconds seconds }
    | none => .error .refused

/-- Gathers a word that is no option. Each task takes one at most, and a patch is a file. -/
def word (verb : Verb) (g : Gathered) (text : String) : Except Stop Gathered := do
  if !g.words.isEmpty then throw .refused
  let text ← if verb = .units then pure text else file text
  return { g with words := [text] }

end Gathered

/-- Whether an argument looks like an option. A single dash does not. -/
def isOption (arg : String) : Bool := arg.startsWith "-" && arg != "-"

/-- The value of an option, and the arguments after it. -/
def valueOf (joined : Option String) (rest : List String) : Except Stop (String × List String) :=
  match joined, rest with
  | some value, rest => .ok (value, rest)
  | none, value :: rest => if isOption value then .error .refused else .ok (value, rest)
  | none, [] => .error .refused

/-- Reads an option with a long name; the option, its value and the arguments after it. -/
def longOption (verb : Option Verb) (text : List Char) (rest : List String) :
    Except Stop (Setting × String × List String) :=
  match cutAt '=' text with
  | ("help", none) => .error .help
  | ("version", none) => .error (if verb.isNone then .version else .refused)
  | (name, joined) =>
    match Setting.ofName? verb name with
    | some setting => do return (setting, ← valueOf joined rest)
    | none => .error .refused

/-- Reads an option of one letter; the option, its value and the arguments after it. -/
def shortOption (verb : Option Verb) (letter : Char) (tail : List Char) (rest : List String) :
    Except Stop (Setting × String × List String) :=
  match letter, verb, tail with
  | 'h', _, _ => .error .help
  | 'V', none, _ => .error .version
  | 'o', some .render, [] => do return (.output, ← valueOf none rest)
  | 'o', some .render, '=' :: value => .ok (.output, String.ofList value, rest)
  | 'o', some .render, value => .ok (.output, String.ofList value, rest)
  | _, _, _ => .error .refused

/-- Reads an option. -/
def option (verb : Option Verb) (arg : String) (rest : List String) :
    Except Stop (Setting × String × List String) :=
  match arg.toList with
  | '-' :: '-' :: text => longOption verb text rest
  | '-' :: letter :: tail => shortOption verb letter tail rest
  | _ => .error .refused

/-- Gathers the arguments behind the name of a task. No more than `fuel` are read. -/
def gather (verb : Verb) : (fuel : Nat) → List String → Gathered → Except Stop Gathered
  | 0, _, _ => .error .refused
  | _, [], g => .ok g
  | fuel + 1, arg :: rest, g =>
    if arg = "--" then rest.foldlM (Gathered.word verb) g
    else if isOption arg then do
      let (setting, value, rest) ← option (some verb) arg rest
      gather verb fuel rest (← g.give value setting)
    else do
      gather verb fuel rest (← g.word verb arg)

/-- What has been gathered before the name of a task. -/
structure Front where
  gathered : Gathered := {}
  /-- The option read last, if its value stands behind it. -/
  held : Option (Setting × String) := none

namespace Front

/-- Gathers the value that was held back. -/
def settle (f : Front) : Except Stop Gathered :=
  match f.held with
  | some (setting, value) => f.gathered.give value setting
  | none => .ok f.gathered

/-- Reads an option, after the value held back before it; the arguments after its value. -/
def takeOption (f : Front) (arg : String) (rest : List String) :
    Except Stop (Front × List String) := do
  let gathered ← f.settle
  let (setting, value, after) ← option none arg rest
  if after.length < rest.length then return ({ gathered, held := some (setting, value) }, after)
  else return ({ gathered := ← gathered.give value setting }, after)

end Front

/-- What the words behind `help` lead to. -/
def helpOn : List String → Stop
  | [] => .help
  | [word] => if word = "help" ∨ (Verb.ofWord? word).isSome then .help else .refused
  | _ => .refused

/-- Gathers the arguments before the name of a task; the task and the arguments behind it. No more
than `fuel` are read. -/
def gatherFront : (fuel : Nat) → List String → Front → Except Stop (Front × Verb × List String)
  | 0, _, _ => .error .refused
  | _, [], _ => .error .refused
  | fuel + 1, arg :: rest, front =>
    if arg = "--" then .error .refused
    else if isOption arg then do
      let (front, rest) ← front.takeOption arg rest
      gatherFront fuel rest front
    else if arg = "help" then .error (helpOn rest)
    else
      match Verb.ofWord? arg with
      | some verb => .ok (front, verb, rest)
      | none => .error .refused

/-- The length of a rendering unless it is given, in seconds. -/
def defaultSeconds : Float := 1

/-- The task that has been gathered, if nothing is missing. -/
def Gathered.task (g : Gathered) : Verb → Except Stop Task
  | .units => .ok (.units g.words.head?)
  | .order =>
    match g.words with
    | patch :: _ => .ok (.order patch)
    | [] => .error .refused
  | .render =>
    match g.words, g.output with
    | patch :: _, some output => .ok (.render patch output (g.seconds.getD defaultSeconds))
    | _, _ => .error .refused

/-- What arguments ask for. -/
def parse (args : List String) : Except Stop Invocation := do
  let fuel := args.length + 1
  let (front, verb, rest) ← gatherFront fuel args {}
  let back ← gather verb fuel rest {}
  let task ← back.task verb
  let front ← front.settle
  return { config := back.config <|> front.config, task }

end Patchbay.CommandLine
