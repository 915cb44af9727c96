import WaveLayout.Failure

/-!
# Events

What a run says while it works. Each **event** has a **level** and a message. A **threshold** lets
the events through that are at least as severe as itself; `off` lets none through.
-/

namespace WaveLayout

/-! ## Levels and thresholds -/

/-- The severity of an event. -/
inductive Level where
  | error
  | warn
  | info
  | debug
  deriving DecidableEq, Repr

/-- The least severity that is shown. -/
inductive Threshold where
  | off
  | error
  | warn
  | info
  | debug
  | trace
  deriving DecidableEq, Repr

namespace Threshold

/-- The thresholds with their names. -/
def named : List (Text × Threshold) :=
  [("off", off), ("error", error), ("warn", warn), ("info", info), ("debug", debug),
   ("trace", trace)]

/-- The threshold with the name, in ASCII letters of either case. -/
def ofName? (name : Text) : Option Threshold := named.lookup (name.map Char.toLower)

/-- The number of levels that are shown. -/
def depth : Threshold → Nat
  | off => 0
  | error => 1
  | warn => 2
  | info => 3
  | debug => 4
  | trace => 5

end Threshold

/-- The name of a level in log records. -/
def Level.label : Level → Text
  | error => "ERROR"
  | warn => "WARN"
  | info => "INFO"
  | debug => "DEBUG"

/-- The number of levels that are more severe. -/
def Level.depth : Level → Nat
  | error => 0
  | warn => 1
  | info => 2
  | debug => 3

/-- The threshold shows events of the level. -/
def Threshold.shows (threshold : Threshold) (level : Level) : Bool := level.depth < threshold.depth

/-! ## Events -/

/-- Something that a run says. -/
inductive Event where
  /-- The words of the line that elaborates the design. -/
  | elaboration (words : List Text)
  | projectFile (moduleName : Text) (file : Path)
  | sourceFile (moduleName : Text) (file : Path)
  /-- A line of the source declares a signal. -/
  | declared (line : Nat) (declaration : Declaration)
  /-- A line of the source that is not blank declares none. -/
  | skipped (line : Nat) (text : Text)
  | counted (moduleName : Text) (signals : Signals)
  | wrote (file : Path)
  | notRemoved (file : Path) (cause : FileError)
  | finished (layout dump : Path)
  | failed (script : Path) (failure : Failure)
  deriving DecidableEq, Repr

namespace Event

/-- The severity of the event. -/
def level : Event → Level
  | .elaboration _ | .declared _ _ | .skipped _ _ => .debug
  | .projectFile _ _ | .sourceFile _ _ | .counted _ _ | .wrote _ | .finished _ _ => .info
  | .notRemoved _ _ => .warn
  | .failed _ _ => .error

/-- The wording of the event. -/
def message : Event → Text
  | .elaboration words => "elaboration: " ++ Text.join " " words
  | .projectFile moduleName file =>
    "module " ++ moduleName ++ " with project file " ++ file.text
  | .sourceFile moduleName file => "module " ++ moduleName ++ " is in " ++ file.text
  | .declared line declaration =>
    "line " ++ Text.ofNat line ++ ": " ++ declaration.name.render ++ " -> " ++
      declaration.direction.label
  | .skipped line text => "line " ++ Text.ofNat line ++ ": skipped `" ++ text ++ "`"
  | .counted moduleName signals =>
    moduleName ++ ": " ++ Text.ofNat signals.inputs.length ++ " inputs, " ++
      Text.ofNat signals.outputs.length ++ " outputs, " ++
      Text.ofNat signals.internals.length ++ " internals"
  | .wrote file => "wrote " ++ file.text
  | .notRemoved file cause => "failed to remove " ++ file.text ++ ": " ++ cause.message
  | .finished layout dump => "Layout written to " ++ layout.text ++ " and " ++ dump.text
  | .failed script failure => "no layout written for " ++ script.text ++ ": " ++ failure.report

end Event

end WaveLayout
