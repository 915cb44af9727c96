import WaveLayout.Settings.Basic
import WaveLayout.Verilog.Block

/-!
# Failures of a run

A run fails because a file lacks a reference that it must hold, because the system refuses a read
or a write, because the settings are bad, or because the source has no declaration block. Each
cause has a **message**. Where another error stands behind it, the **report** says that error once
more after the message, as the chain of causes.
-/

namespace WaveLayout

/-- A reference that a file must hold and does not. -/
inductive Missing where
  /-- The script has no line that runs the elaboration command. -/
  | invocation (command : Text)
  /-- The invocation names no module. -/
  | moduleWord (command : Text)
  /-- The invocation names no project file. -/
  | projectFlag
  /-- The project file has no source for the module. -/
  | source (moduleName : Text)
  deriving DecidableEq, Repr

/-- The word in an invocation that the project file follows. -/
def projectFlag : Text := "-prj"

/-- What is missing, in words. -/
def Missing.message : Missing → Text
  | .invocation command => "unable to find " ++ command
  | .moduleWord command => "unable to find a module after " ++ command
  | .projectFlag => "unable to find " ++ WaveLayout.projectFlag
  | .source moduleName => "unable to find " ++ moduleName

/-- Why a run writes no layout. -/
inductive Failure where
  | missing (file : Path) (what : Missing)
  | unreadable (file : Path) (cause : FileError)
  | unwritable (file : Path) (cause : FileError)
  | settings (cause : SettingsError)
  | noBlock (source : Path) (cause : Verilog.BlockError)
  deriving DecidableEq, Repr

namespace Failure

/-- The wording of the failure. -/
def message : Failure → Text
  | .missing file what => "error parsing " ++ file.text ++ ": " ++ what.message
  | .unreadable file cause => "failed to read " ++ file.text ++ ": " ++ cause.message
  | .unwritable file cause => "failed to write " ++ file.text ++ ": " ++ cause.message
  | .settings cause => cause.message
  | .noBlock source cause => source.text ++ ": " ++ cause.message

/-- The wording of the error behind the failure, if there is one. -/
def cause? : Failure → Option Text
  | .missing _ _ => none
  | .unreadable _ cause => some cause.message
  | .unwritable _ cause => some cause.message
  | .settings (.unreadable _ cause) => some cause.message
  | .settings _ => none
  | .noBlock _ cause => some cause.message

/-- The wording of the failure and of the error behind it. -/
def report (failure : Failure) : Text :=
  match failure.cause? with
  | none => failure.message
  | some cause => failure.message ++ ": " ++ cause

end Failure

end WaveLayout
