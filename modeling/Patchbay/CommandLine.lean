import Patchbay.CommandLine.Arguments
import Patchbay.CommandLine.Listing
import Patchbay.Config.Engine
import Patchbay.Render
import Patchbay.Wave

/-!
# The command line

Each task reads what it needs from files, and ends with a text for the user or an error. The files
are reached through a few operations, so that the tasks do not depend on where files are kept.
-/

namespace Patchbay.CommandLine

/-- Operations on files. -/
structure Files (m : Type → Type) where
  /-- The text in a file, if there is such a file and it holds text. -/
  read : String → m (Option String)
  /-- Makes a file, or empties it, and says whether that worked. -/
  create : String → m Bool
  /-- Fills a file. -/
  write : String → ByteArray → m PUnit

/-- How a run of the program ends. -/
structure Outcome where
  exitCode : Nat := 0
  /-- The text for the user. -/
  output : String := ""
  error : Option String := none
deriving DecidableEq

namespace Outcome

/-- The end of a run that failed. -/
def failure (error : String) : Outcome := { exitCode := 1, error := some error }

/-- The end of a run on arguments that make no sense. -/
def misused : Outcome := { exitCode := 2 }

/-- The end of a run that broke a rule. -/
def broken : Outcome := { exitCode := 101 }

end Outcome

variable {m : Type → Type} [Monad m]

/-- A task, which may end early. -/
abbrev Run (m : Type → Type) := ExceptT Outcome m

/-- Goes on with a result, unless a rule was broken on the way to it. -/
def ofResult {α : Type} : Except Fault α → Run m α
  | .ok a => return a
  | .error _ => throw .broken

/-- Reads a file and makes sense of its text. -/
def load {α : Type} (files : Files m) (what path : String)
    (read : String → Except ConfigError α) : Run m α := do
  match ← files.read path with
  | none => throw (.failure s!"loading {what} {path}")
  | some text =>
    match read text with
    | .ok a => return a
    | .error _ => throw (.failure s!"loading {what} {path}")

/-- Reads a patch and builds it. -/
def build (files : Files m) (path : String) (settings : Settings) : Run m Construction := do
  let patch ← load files "patch" path Patch.read
  match ← ofResult (patch.build settings) with
  | (.ok _, built) => return built
  | (.error why, _) => throw (.failure why.message)

/-- Lists the units of the catalogue, or describes one. -/
def units (label : Option String) : Run m String :=
  match label with
  | none => return listUnits
  | some label =>
    match Catalogue.find? label with
    | some entry => return describe entry
    | none => throw (.failure s!"Unknown unit: {label}")

/-- Lists the steps of a patch. -/
def order (files : Files m) (path : String) (settings : Settings) : Run m String := do
  let built ← build files path settings
  match Engine.compile built.engine with
  | .ok plan engine => return listSteps { built with engine } plan
  | .error _ _ => throw .broken

/-- The most channels that a wave file can have. -/
def channelLimit : Nat := 0x10000

/-- The frames in a time. -/
def frameCount (seconds : Float) (settings : Settings) : Nat :=
  roundCount (seconds * widen settings.sampleRate)

/-- Renders a patch into a wave file. -/
def render (files : Files m) (path output : String) (seconds : Float) (config : EngineConfig) :
    Run m String := do
  let settings := config.settings
  let channels := settings.outputChannels
  if channels = 0 then throw (.failure "cannot render with zero output channels")
  if seconds.isNaN ∨ seconds < 0 then
    let text := writeDouble seconds
    throw (.failure s!"invalid duration: {text}")
  let built ← build files path settings
  if channelLimit ≤ channels then throw (.failure "too many output channels for WAV")
  if !(← files.create output) then throw (.failure s!"creating {output}")
  let _ ← ofResult (Wave.header channels config.sampleRate 0)
  let count := frameCount seconds settings
  let samples ← ofResult (Render.frames built.engine count #[])
  files.write output (← ofResult (Wave.encode channels config.sampleRate samples))
  let duration := writeFixed 2 seconds
  return lines [s!"Rendered {count} frames ({duration}s, {channels} ch) to {output}"]

/-- Carries out a task. -/
def perform (files : Files m) (i : Invocation) : Run m String := do
  let config ← match i.config with
    | some path => load files "engine config" path EngineConfig.read
    | none => pure {}
  match i.task with
  | .units label => units label
  | .order patch => order files patch config.settings
  | .render patch output seconds => render files patch output seconds config

/-- The name of the program and its version. -/
def version : String := "murmur 0.1.0"

/-- How the program is used. -/
def usage : String := "Usage: murmur [--config FILE] <units|order|render> ..."

/-- Runs the program on its arguments. -/
def run (files : Files m) (args : List String) : m Outcome := do
  match parse args with
  | .error .version => return { output := lines [version] }
  | .error .help => return { output := lines [usage] }
  | .error .refused => return .misused
  | .ok i =>
    match ← (perform files i).run with
    | .ok output => return { output }
    | .error outcome => return outcome

end Patchbay.CommandLine
