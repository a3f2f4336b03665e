import Patchbay.Config.Error
import Patchbay.Toml.Decoder
import Patchbay.Toml.Reader
import Patchbay.Toml.Writer

/-!
# Engine configuration

The settings of an engine as a document, with a default for each:

    [audio]
    sample_rate = 48000
    block_size = 64
    input_channels = 2
    output_channels = 2

    [logging]
    filter = "info"
-/

namespace Patchbay

/-- The configuration of an engine. -/
structure EngineConfig where
  /-- Samples per second. -/
  sampleRate : Nat := 48000
  blockSize : Nat := 64
  inputChannels : Nat := 2
  outputChannels : Nat := 2
  /-- What is written to the log. -/
  filter : String := "info"
deriving DecidableEq

namespace EngineConfig

open Toml

instance : Inhabited EngineConfig := ⟨{}⟩

/-- The settings that a configuration describes. -/
def settings (c : EngineConfig) : Settings where
  sampleRate := (UInt64.ofNat c.sampleRate).toFloat32
  blockSize := c.blockSize
  inputChannels := c.inputChannels
  outputChannels := c.outputChannels

/-- The configuration, if an engine can run with it. -/
def validate (c : EngineConfig) : Except ConfigError EngineConfig :=
  let reason := "must be greater than zero"
  if c.sampleRate = 0 then .error (.invalidSetting "audio.sample_rate" reason)
  else if c.blockSize = 0 then .error (.invalidSetting "audio.block_size" reason)
  else .ok c

/-- Puts the settings of the table `audio` into a configuration. -/
def decodeAudio (c : EngineConfig) : Decoder EngineConfig := fun v => do
  let fields ← Fields.of? v
  let count := Decoder.count wordSize
  return { c with
    sampleRate := ← fields.withDefault "sample_rate" 0 (Decoder.count halfWordSize) c.sampleRate
    blockSize := ← fields.withDefault "block_size" 1 count c.blockSize
    inputChannels := ← fields.withDefault "input_channels" 2 count c.inputChannels
    outputChannels := ← fields.withDefault "output_channels" 3 count c.outputChannels }

/-- Puts the settings of the table `logging` into a configuration. -/
def decodeLogging (c : EngineConfig) : Decoder EngineConfig := fun v => do
  let fields ← Fields.of? v
  return { c with filter := ← fields.withDefault "filter" 0 Decoder.text c.filter }

/-- The configuration in a document. -/
def decode (entries : Entries) : Option EngineConfig := do
  let fields := Fields.byName entries
  let c ← fields.withDefault "audio" 0 (decodeAudio {}) {}
  fields.withDefault "logging" 1 (decodeLogging c) c

/-- Reads a configuration with which an engine can run. -/
def read (text : String) : Except ConfigError EngineConfig :=
  match (Toml.read? text).bind decode with
  | some c => c.validate
  | none => .error .malformed

/-- The sections of a configuration. -/
def sections (c : EngineConfig) : List Section :=
  [{ header := "[audio]"
     settings :=
      [("sample_rate", .count c.sampleRate), ("block_size", .count c.blockSize),
       ("input_channels", .count c.inputChannels), ("output_channels", .count c.outputChannels)] },
   { header := "[logging]", settings := [("filter", .text c.filter)] }]

/-- Writes a configuration. -/
def write (c : EngineConfig) : Except Fault (Except ConfigError String) :=
  ConfigError.orUnwritable <$> writeDocument c.sections

end EngineConfig
end Patchbay
