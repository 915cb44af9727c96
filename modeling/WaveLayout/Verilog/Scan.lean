import WaveLayout.Event
import WaveLayout.Verilog.Classification

/-!
# The signals of a block

Each line of a declaration block is classified on its own. The declarations make the signals of the
module, and the log accounts for every line that is not blank: it declares a signal or it is
skipped.
-/

namespace WaveLayout.Verilog

/-- What the log says about a line; nothing about a blank line without a declaration. -/
def NumberedLine.event? (line : NumberedLine) : Option Event :=
  match classify line.text with
  | some declaration => some (.declared line.number declaration)
  | none =>
    let text := Text.trim line.text
    if text = [] then none else some (.skipped line.number text)

namespace Block

/-- The declarations of the block in source order. -/
def declarations (block : Block) : List Declaration :=
  block.lines.filterMap fun line => classify line.text

/-- The signals that the block declares. -/
def signals (block : Block) : Signals := .ofDeclarations block.declarations

/-- What the log says about the block, in source order. -/
def events (block : Block) : List Event := block.lines.filterMap NumberedLine.event?

end Block

end WaveLayout.Verilog
