import WaveLayout.Settings.Basic
import WaveLayout.Toml.Document

/-!
# Settings files

A settings file is a TOML document with two sections, both optional:

```toml
[layout]
width = 1900
height = 900
format = "sav"

[project]
elaborate_command = "xelab"
```

The **schema** is strict: no other key is admitted at either level, and each value must have the
type of its setting. A section is a table, or an array that gives the settings of the section in
the order above; such an array may stop early, and what it holds beyond them is ignored. Sizes are
integers below 2^32. A format is given by its name as a text, or as the only key of a table whose
value is empty.
-/

namespace WaveLayout.Settings

open Toml (Value Table)

/-! ## Values of settings -/

/-- The size that a value gives. -/
def size? : Value → Option UInt32
  | .integer number =>
    if 0 ≤ number ∧ number < UInt32.size then some (UInt32.ofNat number.toNat) else none
  | _ => none

/-- The text that a value gives. -/
def text? : Value → Option Text
  | .text text => some text
  | _ => none

/-- The format that a value gives: its name, or a table with that name as the only key and an
empty table or array there. -/
def format? : Value → Option Format
  | .text name => Format.ofName? name
  | .table [(name, .table [])] => Format.ofName? name
  | .table [(name, .array [])] => Format.ofName? name
  | _ => none

/-! ## Fields and sections -/

/-- A setting in a section: its key, and how its value enters a layer. -/
structure Field where
  key : Text
  enter : Value → Layer → Option Layer

/-- The settings of the section `layout`, in the order of an array. -/
def layoutFields : List Field :=
  [⟨"width", fun value layer => (size? value).map fun width => { layer with width := width }⟩,
   ⟨"height", fun value layer => (size? value).map fun height => { layer with height := height }⟩,
   ⟨"format", fun value layer =>
      (format? value).map fun format => { layer with format := format }⟩]

/-- The settings of the section `project`, in the order of an array. -/
def projectFields : List Field :=
  [⟨"elaborate_command", fun value layer =>
      (text? value).map fun command => { layer with elaborateCommand := command }⟩]

/-- The layer after the entries of a table with the given fields. -/
def enterTable (fields : List Field) (entries : Table) (layer : Layer) : Option Layer :=
  entries.foldlM
    (fun layer (key, value) => do (← fields.find? (·.key = key)).enter value layer) layer

/-- The layer after the items of an array with the given fields. -/
def enterArray (fields : List Field) (items : List Value) (layer : Layer) : Option Layer :=
  (fields.zip items).foldlM (fun layer (field, value) => field.enter value layer) layer

/-- The layer after a section with the given fields. -/
def enterSection (fields : List Field) (value : Value) (layer : Layer) : Option Layer :=
  match value with
  | .table entries => enterTable fields entries layer
  | .array items => enterArray fields items layer
  | _ => none

/-- The sections of a settings file, as fields of the document. -/
def sections : List Field :=
  [⟨"layout", enterSection layoutFields⟩, ⟨"project", enterSection projectFields⟩]

/-! ## Files -/

/-- The layer that a document gives, if it keeps to the schema. -/
def Layer.ofTable? (document : Table) : Option Layer := enterTable sections document {}

/-- The layer that the text of a settings file gives. -/
def Layer.parse (text : Text) : Except SettingsError Layer :=
  match (Toml.parse text).bind Layer.ofTable? with
  | some layer => .ok layer
  | none => .error .malformed

end WaveLayout.Settings
