import WaveLayout.Project
import WaveLayout.Settings.File
import WaveLayout.Verilog.Scan

/-!
# Generation of layouts

A layout is **built** from the source that discovery finds, without changing any file. It is then
**written** under the name of the module and once more under the fixed name `dump`, which
simulation scripts load. If the second file cannot be written, the first one is removed again.
-/

namespace WaveLayout

/-- A layout with the signals that it shows and where they come from. -/
structure Generated where
  sources : Sources
  signals : Signals
  layout : Layout
  deriving DecidableEq, Repr

/-- The paths of a layout and of its second copy. -/
structure Written where
  layout : Path
  dump : Path
  deriving DecidableEq, Repr

/-- The stem of the second copy. -/
def dumpStem : Text := "dump"

namespace Generation

/-- Builds the layout of the module that a script elaborates. -/
def build (script : Path) (settings : Settings) : Attempt Generated := do
  let sources ← Project.discover settings.elaborateCommand script
  let lines ← Attempt.readLines sources.sourceFile
  let block ← Attempt.check (Verilog.Block.locate lines) (.noBlock sources.sourceFile)
  Job.tellAll block.events
  Job.tell (.counted sources.moduleName block.signals)
  pure ⟨sources, block.signals,
    .ofSignals sources.moduleName block.signals settings.window⟩

/-- The path of a layout file with the stem in a directory. -/
def outputPath (directory : Path) (stem : Text) (format : Format) : Path :=
  directory.join ⟨stem ++ "." ++ format.extension⟩

/-- Writes a layout and its second copy into a directory. -/
def write (layout : Layout) (moduleName : Text) (format : Format) (directory : Path) :
    Attempt Written := do
  let first := outputPath directory moduleName format
  let second := outputPath directory dumpStem format
  Attempt.check (← Job.writeText first layout.text) (.unwritable first)
  Job.tell (.wrote first)
  match ← Job.writeText second layout.text with
  | .ok () =>
    Job.tell (.wrote second)
    pure ⟨first, second⟩
  | .error cause =>
    if let .error obstacle ← Job.removeFile first then
      Job.tell (.notRemoved first obstacle)
    throw (.unwritable second cause)

/-- The layer of the settings file, if one is given. -/
def loadLayer : Option Path → Attempt Settings.Layer
  | none => pure {}
  | some file => do
    let text ← Attempt.check (← Job.readText file) fun cause =>
      .settings (.unreadable file cause)
    Attempt.check (Settings.Layer.parse text) .settings

/-- What one run is asked to do. -/
structure Request where
  script : Path
  settingsFile : Option Path
  outputDirectory : Path
  overrides : Settings.Layer
  deriving DecidableEq, Repr

/-- Builds and writes the layout that is asked for. -/
def run (request : Request) : Attempt Written := do
  let file ← loadLayer request.settingsFile
  let settings ← Attempt.check (Settings.resolve file request.overrides) .settings
  let generated ← build request.script settings
  write generated.layout generated.sources.moduleName settings.format request.outputDirectory

end Generation

end WaveLayout
