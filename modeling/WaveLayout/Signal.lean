import WaveLayout.Text.Basic

/-!
# Signals and their names

A declared signal has a **direction**, which settles the display **group** that it appears in, and
a **name**: an identifier with an optional bit range. The range keeps the text of its two bounds,
so `[WIDTH-1:0]` survives as written. A name is shown as the identifier directly followed by the
range, as in `q0[7:0]`, which is how the viewer names a vector.
-/

namespace WaveLayout

/-! ## Directions and groups -/

/-- The way in which a signal crosses the boundary of its module; `internal` if it does not. -/
inductive Direction where
  | input
  | output
  | inout
  | internal
  deriving DecidableEq, Repr

/-- The display groups of a layout. -/
inductive Group where
  | inputs
  | outputs
  | internals
  deriving DecidableEq, Repr

/-- The groups in the order in which a layout shows them. -/
def Group.all : List Group := [.inputs, .outputs, .internals]

/-- The label of a group in a layout. -/
def Group.label : Group → Text
  | .inputs => "Inputs"
  | .outputs => "Outputs"
  | .internals => "Internals"

namespace Direction

/-- The direction that a declaration keyword gives. -/
def ofKeyword? (word : Text) : Option Direction :=
  if word = "input" then some .input
  else if word = "output" then some .output
  else if word = "inout" then some .inout
  else if word = "wire" ∨ word = "reg" then some .internal
  else none

/-- The group that shows signals of this direction. -/
def group : Direction → Group
  | .input | .inout => .inputs
  | .output => .outputs
  | .internal => .internals

/-- The name of a direction in log records. -/
def label : Direction → Text
  | .input => "Input"
  | .output => "Output"
  | .inout => "Inout"
  | .internal => "Internal"

/-- The words that give some direction are the five declaration keywords. -/
theorem ofKeyword?_isSome_iff {word : Text} :
    (ofKeyword? word).isSome ↔
      word = "input" ∨ word = "output" ∨ word = "inout" ∨ word = "wire" ∨ word = "reg" := by
  unfold ofKeyword?
  split
  · simp [*]
  · split
    · simp [*]
    · split
      · simp [*]
      · split <;> simp_all

end Direction

/-! ## Names -/

/-- An index range with inclusive bounds, kept as written. -/
structure BitRange where
  msb : Text
  lsb : Text
  deriving DecidableEq, Repr

/-- The range between brackets, its bounds separated by a colon. -/
def BitRange.render (range : BitRange) : Text := "[" ++ range.msb ++ ":" ++ range.lsb ++ "]"

/-- A declared identifier with its bit range, if it is a vector. -/
structure SignalName where
  base : Text
  range : Option BitRange
  deriving DecidableEq, Repr

namespace SignalName

/-- The signal is a vector. -/
def isVector (name : SignalName) : Bool := name.range.isSome

/-- The identifier directly followed by the range. -/
def render (name : SignalName) : Text :=
  match name.range with
  | none => name.base
  | some range => name.base ++ range.render

end SignalName

/-- A signal as one line declares it. -/
structure Declaration where
  direction : Direction
  name : SignalName
  deriving DecidableEq, Repr

end WaveLayout
