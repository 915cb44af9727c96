import WaveLayout.FileTree
import WaveLayout.Layout
import WaveLayout.Text.Blank

/-!
# Settings

Settings come in **layers**: built-in defaults, an optional settings file, and the command line. A
layer leaves a setting open or gives it a value, and the last layer that gives a value decides,
for each setting on its own. Only the result is validated, so a bad value under a good one does no
harm: the window must have an extent in both directions, and the elaboration command must not be
blank. The window is tested first.
-/

namespace WaveLayout

/-- The settings of one run. -/
structure Settings where
  window : WindowSize
  format : Format
  /-- The command that elaborates the design in a simulation script. -/
  elaborateCommand : Text
  deriving DecidableEq, Repr

/-- The values that one layer gives. -/
structure Settings.Layer where
  width : Option UInt32 := none
  height : Option UInt32 := none
  format : Option Format := none
  elaborateCommand : Option Text := none
  deriving DecidableEq, Repr

/-- Why there are no settings for a run. -/
inductive SettingsError where
  | unreadable (file : Path) (cause : FileError)
  /-- The file is no TOML document, or holds something that is no setting. -/
  | malformed
  | emptyWindow (window : WindowSize)
  | blankCommand
  deriving DecidableEq, Repr

/-- The wording of the error. -/
def SettingsError.message : SettingsError → Text
  | .unreadable file cause =>
    "failed to read configuration " ++ file.text ++ ": " ++ cause.message
  | .malformed => "failed to parse configuration: "
  | .emptyWindow window =>
    "validation error: window size must be non-zero, got " ++ Text.ofNat window.width.toNat ++
      " x " ++ Text.ofNat window.height.toNat
  | .blankCommand => "validation error: elaborate_command must not be empty"

namespace Settings

/-- The built-in values. -/
def defaults : Settings where
  window := ⟨1900, 900⟩
  format := .gtkw
  elaborateCommand := "xelab"

/-- The settings with the values that the layer gives. -/
def overlay (settings : Settings) (layer : Layer) : Settings where
  window :=
    ⟨layer.width.getD settings.window.width, layer.height.getD settings.window.height⟩
  format := layer.format.getD settings.format
  elaborateCommand := layer.elaborateCommand.getD settings.elaborateCommand

/-- The settings if they are valid. -/
def validate (settings : Settings) : Except SettingsError Settings :=
  if settings.window.width = 0 ∨ settings.window.height = 0 then
    .error (.emptyWindow settings.window)
  else if settings.elaborateCommand.all isBlank then .error .blankCommand
  else .ok settings

/-- The valid settings that a settings file and the command line make over the built-in values. -/
def resolve (file commandLine : Layer) : Except SettingsError Settings :=
  ((defaults.overlay file).overlay commandLine).validate

end Settings

end WaveLayout
