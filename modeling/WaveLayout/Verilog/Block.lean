import WaveLayout.Verilog.Token

/-!
# The declaration block of a source file

The **header** is the first line whose first token is `module`. The block holds the lines strictly
between the header and the first **marker** after it, a line that starts a procedural block. All
declarations stand there by convention; what follows the marker is logic.

Each line of the block keeps its number in the source, counted from one. A source without a header,
or without a marker after the header, has no block.
-/

namespace WaveLayout.Verilog

/-- A line of a block with its number in the source, counted from one. -/
structure NumberedLine where
  number : Nat
  text : Text
  deriving DecidableEq, Repr

/-- The lines between a module header and the first procedural block. -/
structure Block where
  /-- The name in the header, empty if there is none. -/
  moduleName : Text
  /-- The number of the header line, counted from one. -/
  headerLine : Nat
  lines : List NumberedLine
  deriving DecidableEq, Repr

/-- Why a source has no block. -/
inductive BlockError where
  | missingHeader
  | missingMarker (moduleName : Text) (headerLine : Nat)
  deriving DecidableEq, Repr

/-- The wording of the error. -/
def BlockError.message : BlockError → Text
  | .missingHeader => "unable to find a `module` header"
  | .missingMarker moduleName headerLine =>
    "unable to find an `always` block after `module " ++ moduleName ++ "` (line " ++
      Text.ofNat headerLine ++ ")"

/-! ## Headers and markers -/

/-- The line is a module header. -/
def isHeader (line : Text) : Bool := (tokens line).head? = some ("module" : Text)

/-- The token starts a procedural block, also when its sensitivity list is glued to `always`. -/
def isProcedural (token : Text) : Bool :=
  token ∈ (["always", "always_ff", "always_comb", "always_latch"] : List Text) ||
    ("always@" : Text).isPrefixOf token

/-- The first token of the line starts a procedural block. -/
def isMarker (line : Text) : Bool := (tokens line).head?.any isProcedural

/-- The module name in a header: its second token up to a parenthesis or a parameter list. -/
def headerName (header : Text) : Text :=
  ((tokens header)[1]?.getD []).takeWhile fun c => c != '(' && c != '#'

/-! ## Location -/

/-- The elements before the first one of the class, that element, and the elements after it. -/
def splitAtFirst {α : Type} (p : α → Bool) : List α → Option (List α × α × List α)
  | [] => none
  | x :: xs =>
    if p x then some ([], x, xs)
    else (splitAtFirst p xs).map fun (before, found, after) => (x :: before, found, after)

/-- The lines with their numbers, the first of which is given. -/
def numberFrom (first : Nat) (lines : List Text) : List NumberedLine :=
  (lines.zipIdx first).map fun (text, number) => ⟨number, text⟩

namespace Block

/-- The declaration block in the lines of a source. -/
def locate (lines : List Text) : Except BlockError Block :=
  match splitAtFirst isHeader lines with
  | none => .error .missingHeader
  | some (before, header, after) =>
    let headerLine := before.length + 1
    match splitAtFirst isMarker after with
    | none => .error (.missingMarker (headerName header) headerLine)
    | some (body, _, _) =>
      .ok ⟨headerName header, headerLine, numberFrom (headerLine + 1) body⟩

end Block

end WaveLayout.Verilog
