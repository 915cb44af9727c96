import WaveLayout.Event
import WaveLayout.Generation

/-!
# The command line

```text
SCRIPT [WIDTH [HEIGHT [FORMAT]]] [OPTIONS]
```

**Positionals** fill the four places in order and mix freely with options. An option has a long
name (`--config x`, `--config=x`) and may have a letter (`-c x`, `-cx`, `-c=x`); letters may share
a dash until one takes a value. A lone dash is a value. After `--` every argument is positional.
A value that starts with a dash can be given to an option after `=` only.

**When a value is judged.** A value waits until something else makes it final: a flag, an option, a
further positional or the end of the line. Then it is judged, in the order in which the arguments
stand. An argument that cannot be placed at all is refused at once, before the value that waits is
judged: an unknown name, a flag with a value, a fifth positional. Only when every argument has
passed is a missing script noticed.
-/

namespace WaveLayout

/-! ## Arguments -/

/-- Why a command line does not start a run. -/
inductive UsageError where
  | missingScript
  /-- An unknown name or a positional too many. -/
  | unknownArgument
  /-- A size that is no number or too large. -/
  | malformedSize
  /-- An empty path, an unknown format, or an option without its value. -/
  | invalidValue
  /-- An option given twice. -/
  | repeated
  /-- A value for a flag. -/
  | unexpectedValue
  | helpRequested
  | versionRequested
  deriving DecidableEq, Repr

/-- The wording of the error, which is free; a request is no error and has none. -/
def UsageError.message : UsageError → Text
  | .missingScript => "error: a simulation script is required"
  | .unknownArgument => "error: an argument is unknown"
  | .malformedSize => "error: a window size is no number below 2^32"
  | .invalidValue => "error: an option has no value or a value that does not fit"
  | .repeated => "error: an option is given twice"
  | .unexpectedValue => "error: a value is given to a flag"
  | .helpRequested | .versionRequested => []

/-- What a command line says. -/
structure Arguments where
  script : Path
  settingsFile : Option Path
  outputDirectory : Path
  overrides : Settings.Layer
  logLevel : Text
  verbose : Bool
  deriving DecidableEq, Repr

namespace CommandLine

/-- The places that take a value. -/
inductive Slot where
  | script
  | width
  | height
  | format
  | settingsFile
  | outputDirectory
  | elaborateCommand
  | logLevel
  deriving DecidableEq, Repr

/-- The options that take no value. -/
inductive Flag where
  | verbose
  | help
  | version
  deriving DecidableEq, Repr

/-- What the name of an option stands for. -/
inductive Named where
  | slot (slot : Slot)
  | flag (flag : Flag)
  deriving DecidableEq, Repr

/-- The places that positionals fill, in order. -/
def positionals : List Slot := [.script, .width, .height, .format]

/-- The long names. -/
def longNames : List (Text × Named) :=
  [("config", .slot .settingsFile), ("out-dir", .slot .outputDirectory),
   ("elaborate-cmd", .slot .elaborateCommand), ("log-level", .slot .logLevel),
   ("verbose", .flag .verbose), ("help", .flag .help), ("version", .flag .version)]

/-- The letters. -/
def letters : List (Char × Named) :=
  [('c', .slot .settingsFile), ('o', .slot .outputDirectory), ('v', .flag .verbose),
   ('h', .flag .help), ('V', .flag .version)]

/-! ## Values -/

/-- A path is not empty. -/
def readPath (value : Text) : Except UsageError Path :=
  if value = [] then .error .invalidValue else .ok ⟨value⟩

/-- A size is a decimal number below 2^32 with an optional sign; a minus fits zero only. -/
def readSize (value : Text) : Except UsageError UInt32 :=
  let (negative, digits) := Text.splitSign value
  if digits = [] ∨ !digits.all Char.isDigit then .error .malformedSize
  else
    let size := Nat.ofDigitChars 10 digits 0
    if size < UInt32.size ∧ (negative → size = 0) then .ok (UInt32.ofNat size)
    else .error .malformedSize

/-- A format is given by its exact name. -/
def readFormat (value : Text) : Except UsageError Format :=
  match Format.ofName? value with
  | some format => .ok format
  | none => .error .invalidValue

/-- The values given so far. -/
structure Draft where
  script : Option Path := none
  width : Option UInt32 := none
  height : Option UInt32 := none
  format : Option Format := none
  settingsFile : Option Path := none
  outputDirectory : Option Path := none
  elaborateCommand : Option Text := none
  logLevel : Option Text := none
  verbose : Bool := false
  deriving DecidableEq, Repr

/-- The value for a place that must be open still. -/
def enterOnce {α : Type} (old : Option α) (value : Except UsageError α) :
    Except UsageError (Option α) :=
  if old.isSome then .error .repeated else value.map some

/-- The values with one more, if its place is open and it can be read. -/
def Draft.enter (draft : Draft) (slot : Slot) (value : Text) : Except UsageError Draft :=
  match slot with
  | .script =>
    (enterOnce draft.script (readPath value)).map ({ draft with script := · })
  | .width => (enterOnce draft.width (readSize value)).map ({ draft with width := · })
  | .height => (enterOnce draft.height (readSize value)).map ({ draft with height := · })
  | .format => (enterOnce draft.format (readFormat value)).map ({ draft with format := · })
  | .settingsFile =>
    (enterOnce draft.settingsFile (readPath value)).map ({ draft with settingsFile := · })
  | .outputDirectory =>
    (enterOnce draft.outputDirectory (readPath value)).map ({ draft with outputDirectory := · })
  | .elaborateCommand =>
    (enterOnce draft.elaborateCommand (.ok value)).map ({ draft with elaborateCommand := · })
  | .logLevel => (enterOnce draft.logLevel (.ok value)).map ({ draft with logLevel := · })

/-! ## Reading arguments -/

/-- A place whose value is not final yet, or for which the value is still to come. -/
structure Pending where
  slot : Slot
  value : Option Text
  deriving DecidableEq, Repr

/-- How far the arguments have been read. -/
structure Progress where
  draft : Draft := {}
  pending : Option Pending := none
  /-- The places that positionals have not filled yet. -/
  places : List Slot := positionals
  /-- Every further argument is positional. -/
  escaped : Bool := false
  deriving DecidableEq, Repr

namespace Progress

/-- The progress after the value that waits is judged. -/
def settle (progress : Progress) : Except UsageError Progress :=
  match progress.pending with
  | none => .ok progress
  | some ⟨_, none⟩ => .error .invalidValue
  | some ⟨slot, some value⟩ =>
    (progress.draft.enter slot value).map fun draft =>
      { progress with draft := draft, pending := none }

/-- The progress after a flag. -/
def flag (progress : Progress) (flag : Flag) : Except UsageError Progress := do
  let progress ← progress.settle
  match flag with
  | .verbose =>
    if progress.draft.verbose then .error .repeated
    else .ok { progress with draft := { progress.draft with verbose := true } }
  | .help => .error .helpRequested
  | .version => .error .versionRequested

/-- The progress after the name of an option and the value attached to it, if one is. -/
def option (progress : Progress) (slot : Slot) (attached : Option Text) :
    Except UsageError Progress := do
  let progress ← progress.settle
  match attached with
  | none => .ok { progress with pending := some ⟨slot, none⟩ }
  | some value =>
    (progress.draft.enter slot value).map fun draft => { progress with draft := draft }

/-- The progress after a long name and the value attached to it, if one is. -/
def long (progress : Progress) (name : Text) (attached : Option Text) :
    Except UsageError Progress :=
  match longNames.lookup name with
  | none => .error .unknownArgument
  | some (.slot slot) => progress.option slot attached
  | some (.flag flag) =>
    if attached.isSome then .error .unexpectedValue else progress.flag flag

/-- The progress after the letters behind one dash. -/
def cluster (progress : Progress) : Text → Except UsageError Progress
  | [] => .ok progress
  | letter :: rest =>
    match letters.lookup letter with
    | none => .error .unknownArgument
    | some (.flag flag) => do (← progress.flag flag).cluster rest
    | some (.slot slot) =>
      match rest with
      | [] => progress.option slot none
      | '=' :: value => progress.option slot (some value)
      | value => progress.option slot (some value)

/-- The progress after a positional. -/
def positional (progress : Progress) (value : Text) : Except UsageError Progress :=
  match progress.places with
  | [] => .error .unknownArgument
  | slot :: places =>
    progress.settle.map fun progress =>
      { progress with pending := some ⟨slot, some value⟩, places := places }

/-- The progress after an argument that names no option. -/
def plain (progress : Progress) (value : Text) : Except UsageError Progress :=
  match progress.pending with
  | some ⟨slot, none⟩ => .ok { progress with pending := some ⟨slot, some value⟩ }
  | _ => progress.positional value

/-- The progress after one more argument. -/
def step (progress : Progress) (argument : Text) : Except UsageError Progress :=
  if progress.escaped then progress.positional argument
  else match argument with
    | ['-', '-'] => .ok { progress with escaped := true }
    | '-' :: '-' :: body =>
      progress.long (body.takeWhile (· ≠ '=')) (body.dropWhile (· ≠ '=')).tail?
    | '-' :: letter :: rest => progress.cluster (letter :: rest)
    | value => progress.plain value

end Progress

/-! ## Whole command lines -/

/-- The directory for layouts where none is given. -/
def defaultDirectory : Path := ⟨"."⟩

/-- The log level where none is given. -/
def defaultLogLevel : Text := "warn"

/-- The arguments that the values make. -/
def Draft.finish (draft : Draft) : Except UsageError Arguments :=
  match draft.script with
  | none => .error .missingScript
  | some script =>
    .ok {
      script := script
      settingsFile := draft.settingsFile
      outputDirectory := draft.outputDirectory.getD defaultDirectory
      overrides := ⟨draft.width, draft.height, draft.format, draft.elaborateCommand⟩
      logLevel := draft.logLevel.getD defaultLogLevel
      verbose := draft.verbose }

/-- What a command line, given without the name of the program, says. -/
def parse (arguments : List Text) : Except UsageError Arguments := do
  let progress ← arguments.foldlM Progress.step {}
  (← progress.settle).draft.finish

end CommandLine

namespace Arguments

/-- The run that the arguments ask for. -/
def request (arguments : Arguments) : Generation.Request where
  script := arguments.script
  settingsFile := arguments.settingsFile
  outputDirectory := arguments.outputDirectory
  overrides := arguments.overrides

/-- The threshold for events. An unknown level name stands for `warn`. -/
def threshold (arguments : Arguments) : Threshold :=
  if arguments.verbose then .debug else (Threshold.ofName? arguments.logLevel).getD .warn

/-- The note about a level name that is unknown and decides. -/
def note? (arguments : Arguments) : Option Text :=
  if arguments.verbose ∨ (Threshold.ofName? arguments.logLevel).isSome then none
  else some ("Invalid log level: " ++ arguments.logLevel ++ ". Using 'warn' instead.")

end Arguments

end WaveLayout
