import WaveLayout.CommandLine
import WaveLayout.Record

/-!
# The program

The program reads its arguments, does the run that they ask for, and reports. The **report** is
what the outside sees besides files and events: the exit status, what is printed, and the threshold
below which events are kept silent.

A usage error ends with status 2 and a failed run with status 1. A request for help or for the
version ends with status 0 and starts no run.
-/

namespace WaveLayout

/-- How the program ends. -/
inductive Report where
  /-- The arguments do not start a run. -/
  | usage (cause : UsageError)
  /-- A run was started with these arguments. -/
  | ran (arguments : Arguments) (succeeded : Bool)
  deriving DecidableEq, Repr

namespace Program

/-- The line that answers a request for the version. -/
def versionLine : Text := "gtkw-gen 0.1.0\n"

/-- The text that answers a request for help. Its wording is free: no result speaks of it, and no
definition but `Report.output` reads it. -/
def helpText : Text :=
  "Build a GTKWave layout grouping a Verilog module's inputs, outputs and internals\n\n" ++
  "Usage: gtkw-gen [OPTIONS] <SCRIPT> [WIDTH] [HEIGHT] [FORMAT]\n\n" ++
  "  <SCRIPT>               simulation script with the elaboration command\n" ++
  "  [WIDTH] [HEIGHT]       window size in pixels, 1900 and 900 if not given\n" ++
  "  [FORMAT]               gtkw or sav, gtkw if not given\n" ++
  "  -c, --config FILE      settings file\n" ++
  "  -o, --out-dir DIR      directory for the layout and its second copy\n" ++
  "  --elaborate-cmd CMD    command that elaborates the design, xelab if not given\n" ++
  "  --log-level LEVEL      off, error, warn, info, debug or trace, warn if not given\n" ++
  "  -v, --verbose          log level debug\n" ++
  "  -h, --help             this text\n" ++
  "  -V, --version          the version\n"

/-- Does what the arguments, given without the name of the program, ask for. -/
def perform (arguments : List Text) : Job Report :=
  match CommandLine.parse arguments with
  | .error cause => pure (.usage cause)
  | .ok arguments => do
    match ← (Generation.run arguments.request).run with
    | .ok written =>
      Job.tell (.finished written.layout written.dump)
      pure (.ran arguments true)
    | .error failure =>
      Job.tell (.failed arguments.script failure)
      pure (.ran arguments false)

end Program

namespace Report

/-- The exit status. -/
def status : Report → Nat
  | .usage .helpRequested | .usage .versionRequested => 0
  | .usage _ => 2
  | .ran _ succeeded => if succeeded then 0 else 1

/-- What is printed to standard output. -/
def output : Report → Text
  | .usage .versionRequested => Program.versionLine
  | .usage .helpRequested => Program.helpText
  | _ => []

/-- The lines on standard error that belong to no event. -/
def notes : Report → List Text
  | .usage cause => Text.lines cause.message
  | .ran arguments _ =>
    match arguments.note? with
    | none => []
    | some note => Text.lines note

/-- The records of the events that are shown. -/
def records (report : Report) (log : List Event) : List Record :=
  match report with
  | .usage _ => []
  | .ran arguments _ =>
    (log.filter fun event => arguments.threshold.shows event.level).map Event.record

end Report

end WaveLayout
