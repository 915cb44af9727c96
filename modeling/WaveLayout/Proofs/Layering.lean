import Mathlib
import WaveLayout.Settings.Basic

/-!
# Layers of settings

Each setting is **chosen** on its own: the value on the command line if there is one, else the value
in the settings file, else the built-in one. Only what is chosen is judged.

**Theorem.** Settings resolve exactly if the chosen window has an extent in both directions and the
chosen command is not blank, and then they are what is chosen. An empty window is reported before a
blank command, with the chosen size. So a value in the file plays no part if the command line gives
one for the same setting: it changes neither the settings nor the error, and it does no harm.
-/

namespace WaveLayout.Settings

/-! ## Chosen settings -/

/-- The value of a setting, by layer. -/
def chosen {α : Type} (commandLine file : Option α) (builtIn : α) : α :=
  match commandLine, file with
  | some value, _ => value
  | none, some value => value
  | none, none => builtIn

/-- The settings before they are judged. -/
def chosenSettings (file commandLine : Layer) : Settings where
  window :=
    ⟨chosen commandLine.width file.width 1900, chosen commandLine.height file.height 900⟩
  format := chosen commandLine.format file.format .gtkw
  elaborateCommand := chosen commandLine.elaborateCommand file.elaborateCommand "xelab"

theorem getD_getD {α : Type} (commandLine file : Option α) (builtIn : α) :
    commandLine.getD (file.getD builtIn) = chosen commandLine file builtIn := by
  cases commandLine <;> cases file <;> rfl

theorem overlay_overlay (file commandLine : Layer) :
    (defaults.overlay file).overlay commandLine = chosenSettings file commandLine := by
  simp only [overlay, getD_getD, chosenSettings, defaults]

/-! ## Valid settings -/

/-- The command has a character that is not blank. -/
def IsCommand (command : Text) : Prop := ∃ c ∈ command, isBlank c = false

/-- The window has an extent in both directions. -/
def IsExtended (window : WindowSize) : Prop := window.width ≠ 0 ∧ window.height ≠ 0

theorem all_isBlank_iff {command : Text} : command.all isBlank = true ↔ ¬ IsCommand command := by
  simp [IsCommand]

/-- What becomes of chosen settings. -/
inductive Judged (settings : Settings) : Except SettingsError Settings → Prop
  | emptyWindow : ¬ IsExtended settings.window →
      Judged settings (.error (.emptyWindow settings.window))
  | blankCommand : IsExtended settings.window → ¬ IsCommand settings.elaborateCommand →
      Judged settings (.error .blankCommand)
  | valid : IsExtended settings.window → IsCommand settings.elaborateCommand →
      Judged settings (.ok settings)

theorem Judged.unique {settings : Settings} {result other : Except SettingsError Settings}
    (h : Judged settings result) (h' : Judged settings other) : result = other := by
  cases h <;> cases h' <;> first | rfl | contradiction

theorem judged_validate (settings : Settings) : Judged settings settings.validate := by
  have hwindow : settings.window.width = 0 ∨ settings.window.height = 0 ↔
      ¬ IsExtended settings.window := by
    unfold IsExtended
    tauto
  unfold validate
  split
  · next h => exact .emptyWindow (hwindow.1 h)
  · next h =>
    have hextended : IsExtended settings.window := by
      by_contra hne
      exact h (hwindow.2 hne)
    split
    · next hall => exact .blankCommand hextended (all_isBlank_iff.1 hall)
    · next hall =>
      refine .valid hextended ?_
      by_contra hblank
      exact hall (all_isBlank_iff.2 hblank)

theorem judged_resolve (file commandLine : Layer) :
    Judged (chosenSettings file commandLine) (resolve file commandLine) := by
  rw [resolve, overlay_overlay]
  exact judged_validate _

/-! ## Shadowed values -/

/-- The files give the same value for each setting that the command line leaves open. -/
structure AgreeWhereOpen (commandLine file other : Layer) : Prop where
  width : commandLine.width = none → other.width = file.width
  height : commandLine.height = none → other.height = file.height
  format : commandLine.format = none → other.format = file.format
  elaborateCommand : commandLine.elaborateCommand = none →
    other.elaborateCommand = file.elaborateCommand

theorem chosen_congr {α : Type} {commandLine file other : Option α}
    (h : commandLine = none → other = file) (builtIn : α) :
    chosen commandLine other builtIn = chosen commandLine file builtIn := by
  cases commandLine with
  | none => rw [h rfl]
  | some value => rfl

/-- **Shadowing.** A value in the file under one on the command line is not chosen. -/
theorem chosenSettings_congr {commandLine file other : Layer}
    (h : AgreeWhereOpen commandLine file other) :
    chosenSettings other commandLine = chosenSettings file commandLine := by
  simp only [chosenSettings, chosen_congr h.width, chosen_congr h.height, chosen_congr h.format,
    chosen_congr h.elaborateCommand]

/-- The values that the layer gives are valid, each on its own. -/
structure Layer.IsValid (layer : Layer) : Prop where
  width : ∀ width ∈ layer.width, width ≠ 0
  height : ∀ height ∈ layer.height, height ≠ 0
  elaborateCommand : ∀ command ∈ layer.elaborateCommand, IsCommand command

theorem chosen_of_forall {α : Type} {P : α → Prop} {commandLine file : Option α} {builtIn : α}
    (hcommandLine : ∀ value ∈ commandLine, P value) (hfile : ∀ value ∈ file, P value)
    (hbuiltIn : P builtIn) : P (chosen commandLine file builtIn) := by
  unfold chosen
  split
  · exact hcommandLine _ rfl
  · exact hfile _ rfl
  · exact hbuiltIn

/-- Valid layers resolve. -/
theorem resolve_of_isValid {file commandLine : Layer} (hfile : file.IsValid)
    (hcommandLine : commandLine.IsValid) :
    resolve file commandLine = .ok (chosenSettings file commandLine) := by
  have hextended : IsExtended (chosenSettings file commandLine).window :=
    ⟨chosen_of_forall hcommandLine.width hfile.width (by decide),
      chosen_of_forall hcommandLine.height hfile.height (by decide)⟩
  have hcommand : IsCommand (chosenSettings file commandLine).elaborateCommand :=
    chosen_of_forall hcommandLine.elaborateCommand hfile.elaborateCommand
      ⟨'x', by decide, by decide⟩
  exact (judged_resolve file commandLine).unique (.valid hextended hcommand)

/-- **Settings resolve setting by setting.** What becomes of two layers is what becomes of the
chosen settings, which resolve exactly if the chosen window and the chosen command are valid. The
file can be exchanged for another one that differs from it only where the command line gives a
value. So a valid command line repairs a file that is valid in all else. -/
theorem resolve_by_setting (file commandLine : Layer) :
    let settings := chosenSettings file commandLine
    (∀ result, resolve file commandLine = result ↔ Judged settings result) ∧
    ((∃ resolved, resolve file commandLine = .ok resolved) ↔
      (settings.window.width ≠ 0 ∧ settings.window.height ≠ 0) ∧
        ∃ c ∈ settings.elaborateCommand, isBlank c = false) ∧
    ∀ other, AgreeWhereOpen commandLine file other →
      resolve other commandLine = resolve file commandLine ∧
      (other.IsValid → commandLine.IsValid → resolve file commandLine = .ok settings) := by
  intro settings
  have hjudged : Judged settings (resolve file commandLine) := judged_resolve file commandLine
  refine ⟨?_, ?_, ?_⟩
  · intro result
    constructor
    · rintro rfl
      exact hjudged
    · exact hjudged.unique
  · constructor
    · rintro ⟨resolved, h⟩
      rw [h] at hjudged
      cases hjudged with
      | valid hextended hcommand => exact ⟨hextended, hcommand⟩
    · rintro ⟨hextended, hcommand⟩
      exact ⟨settings, hjudged.unique (.valid hextended hcommand)⟩
  · intro other hagree
    have hsame : resolve other commandLine = resolve file commandLine := by
      rw [resolve, overlay_overlay, chosenSettings_congr hagree, resolve, overlay_overlay]
    refine ⟨hsame, fun hother hcommandLine => ?_⟩
    rw [← hsame, resolve_of_isValid hother hcommandLine, chosenSettings_congr hagree]

/-- A file with no width and a blank command is repaired: both are given on the command line, and
the height of the file stays. -/
theorem bad_file_repaired :
    let file : Layer := { width := some 0, height := some 720, elaborateCommand := some "\u2003\t" }
    let other : Layer := { height := some 720 }
    let commandLine : Layer :=
      { width := some 1280, format := some .sav, elaborateCommand := some " vlog " }
    AgreeWhereOpen commandLine file other ∧ other.IsValid ∧ commandLine.IsValid ∧
      resolve file {} = .error (.emptyWindow ⟨0, 720⟩) ∧
      resolve file commandLine = .ok ⟨⟨1280, 720⟩, .sav, " vlog "⟩ := by
  intro file other commandLine
  have hagree : AgreeWhereOpen commandLine file other := ⟨nofun, fun _ => rfl, nofun, nofun⟩
  have hother : other.IsValid := ⟨nofun, by simp [other], nofun⟩
  have hcommandLine : commandLine.IsValid :=
    ⟨by simp [commandLine], nofun, by
      rintro command ⟨⟩
      exact ⟨'v', by decide, by decide⟩⟩
  obtain ⟨-, -, hfile⟩ := resolve_by_setting file commandLine
  exact ⟨hagree, hother, hcommandLine, by decide, (hfile other hagree).2 hother hcommandLine⟩

end WaveLayout.Settings
