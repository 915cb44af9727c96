import WaveLayout.Signals

/-!
# Layouts

A **layout** is the save file of a waveform viewer: a marker line, the window size, a label with
the module name, and then for each display group that has signals a label and one **trace** per
signal.

```text
[*]
[size] 1900 900
-comp_foo
-Inputs:
comp_foo.reset
-Outputs:
comp_foo.q0[7:0]
```

A line that starts with `-` is a label and one that starts with `[` a directive. Every other line
counts as a trace.
-/

namespace WaveLayout

/-- The size of the viewer's main window in pixels. -/
structure WindowSize where
  width : UInt32
  height : UInt32
  deriving DecidableEq, Repr

/-- The two spellings of the file type, which differ in the extension only. -/
inductive Format where
  | gtkw
  | sav
  deriving DecidableEq, Repr

/-- The extension of a layout file, without the dot. -/
def Format.extension : Format → Text
  | .gtkw => "gtkw"
  | .sav => "sav"

/-- The format whose extension is the word. -/
def Format.ofName? (word : Text) : Option Format :=
  if word = "gtkw" then some .gtkw else if word = "sav" then some .sav else none

/-- The lines of a save file. -/
structure Layout where
  lines : List Text
  deriving DecidableEq, Repr

namespace Layout

/-- The line that marks the start of a save file. -/
def startMarker : Text := "[*]"

/-- The directive for the window size. -/
def sizeLine (window : WindowSize) : Text :=
  "[size] " ++ Text.ofNat window.width.toNat ++ " " ++ Text.ofNat window.height.toNat

/-- The label line of a group. -/
def groupLabel (group : Group) : Text := "-" ++ group.label ++ ":"

/-- The trace line of a signal. -/
def traceLine (moduleName : Text) (name : SignalName) : Text := moduleName ++ "." ++ name.render

/-- The label and the traces of a group; nothing for a group without signals. -/
def groupLines (moduleName : Text) : Group × List SignalName → List Text
  | (_, []) => []
  | (group, name :: names) => groupLabel group :: (name :: names).map (traceLine moduleName)

/-- The layout that shows the signals of a module in a window of the given size. -/
def ofSignals (moduleName : Text) (signals : Signals) (window : WindowSize) : Layout where
  lines :=
    startMarker :: sizeLine window :: ("-" ++ moduleName) ::
      signals.groups.flatMap (groupLines moduleName)

/-- The text of the save file: each line ended by a newline. -/
def text (layout : Layout) : Text := layout.lines.flatMap (· ++ ['\n'])

/-- The line is neither a label nor a directive. -/
def isTrace (line : Text) : Bool := line.head? != some '-' && line.head? != some '['

/-- The number of traces. -/
def traceCount (layout : Layout) : Nat := layout.lines.countP isTrace

end Layout

end WaveLayout
