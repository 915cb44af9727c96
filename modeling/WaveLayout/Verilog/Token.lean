import WaveLayout.Text.Blank

/-!
# Tokens of a source line

A **token** is a maximal run of characters that are neither blank nor `,` nor `;`. A **ranged
token** is cut further: on a line that holds a `[`, each of the range delimiters `[`, `:` and `]`
is a token of its own, so `[7:0]` gives five of them. On a line without `[` both readings agree,
and a colon stays inside its token.
-/

namespace WaveLayout.Verilog

/-- The character ends a token: a blank, a comma or a semicolon. -/
def isSeparator (c : Char) : Bool := isBlank c || c == ',' || c == ';'

/-- The character delimits the bounds of a bit range. -/
def isRangeDelimiter (c : Char) : Bool := c == '[' || c == ':' || c == ']'

/-- The tokens of the line. -/
def tokens (line : Text) : List Text := line.wordsBy isSeparator

/-- The line with a blank on both sides of each range delimiter. -/
def spread (line : Text) : Text :=
  line.flatMap fun c => if isRangeDelimiter c then [' ', c, ' '] else [c]

/-- The tokens of the line, with the range delimiters apart if the line holds a `[`. -/
def rangedTokens (line : Text) : List Text :=
  if '[' ∈ line then tokens (spread line) else tokens line

/-- The least number of slots that a line is laid out in. -/
def minSlots : Nat := 8

/-- The tokens, followed by empty slots up to `minSlots`. -/
def slots (tokens : List Text) : List (Option Text) :=
  tokens.map some ++ List.replicate (minSlots - tokens.length) none

end WaveLayout.Verilog
