import WaveLayout.Signal
import WaveLayout.Verilog.Token

/-!
# Classification of lines

A line declares a signal if its first token is a declaration keyword and its ranged tokens start
with

```text
declaration := keyword qualifier* range? identifier
range       := "[" bound ":" bound "]"
```

**Qualifiers** are taken greedily and never given back, so a qualifier word directly after the
others is no identifier; after a range it is one. A **bound** is any token but a range delimiter.
What follows the identifier is not read: `wire a, b` declares `a`.

The keyword is tested on the plain tokens, so in `reg[2:0] a` the keyword is missing.
-/

namespace WaveLayout.Verilog

/-- The words for net type, data type and signedness that may stand before the range. -/
def qualifiers : List Text :=
  ["wire", "reg", "logic", "tri", "wand", "wor", "var", "signed", "unsigned", "integer", "int",
   "bit", "byte", "shortint", "longint", "time", "real", "realtime"]

/-- The token is a qualifier. -/
def isQualifier (token : Text) : Bool := token ∈ qualifiers

/-- The character may start an identifier. -/
def isIdentifierStart (c : Char) : Bool := c.isAlpha || c == '_'

/-- The character may continue an identifier. -/
def isIdentifierPart (c : Char) : Bool := c.isAlphanum || c == '_' || c == '$'

/-- The token is an identifier: an ASCII letter or `_`, then ASCII letters, digits, `_` and `$`. -/
def isIdentifier : Text → Bool
  | [] => false
  | c :: rest => isIdentifierStart c && rest.all isIdentifierPart

/-- The token may stand for a bound of a range. -/
def isBound (token : Text) : Bool := token ∉ (["[", ":", "]"] : List Text)

/-- The range at the front of the tokens, if one stands there complete, and the tokens after it. -/
def splitRange : List Text → Option BitRange × List Text
  | opening :: msb :: colon :: lsb :: closing :: rest =>
    if opening = "[" ∧ isBound msb ∧ colon = ":" ∧ isBound lsb ∧ closing = "]" then
      (some ⟨msb, lsb⟩, rest)
    else
      (none, opening :: msb :: colon :: lsb :: closing :: rest)
  | tokens => (none, tokens)

/-- The declaration at the front of the ranged tokens of a line. -/
def declaration? : List Text → Option Declaration
  | [] => none
  | keyword :: rest => do
    let direction ← Direction.ofKeyword? keyword
    let (range, rest) := splitRange (rest.dropWhile isQualifier)
    let base ← rest.head?
    if isIdentifier base then some ⟨direction, ⟨base, range⟩⟩ else none

/-- The declaration that the line makes, if it makes one. -/
def classify (line : Text) : Option Declaration := do
  let keyword ← (tokens line).head?
  if (Direction.ofKeyword? keyword).isSome then declaration? (rangedTokens line) else none

end WaveLayout.Verilog
