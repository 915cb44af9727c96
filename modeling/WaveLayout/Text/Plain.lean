import WaveLayout.Text.Basic

/-!
# Plain text

Text from outside must not steer the terminal that it may be shown on. **Plain text** is what is
left of a text without control characters and without the sequences that an escape starts.

Of the control characters of ASCII, the delete character included, only the white ones are shown:
tab, line feed, form feed and carriage return. Of a **sequence** nothing is shown. Its second
character gives its kind:

* `[` starts a control sequence, which lasts up to a character from `@` to `~`,
* `]` starts a command, which lasts up to a bell,
* `P` starts a device string, with parameters and intermediate characters in front of its body,
* `X`, `^` and `_` start a string that is all body,
* any other character from `0` to `~` ends the sequence at once, after intermediate characters if
  there are any.

A body lasts up to a character that has the byte 0x9C in UTF-8. An escape starts a new sequence
wherever it stands, and the characters 0x18 and 0x1A end any sequence.

White controls are shown also inside sequences, except in commands and strings. They **suspend**
the sequence: text is shown up to the next control character, and there the sequence goes on,
unless a character beyond ASCII has been shown in between, which ends it.
-/

namespace WaveLayout.Text

namespace Plain

/-! ## Classes of characters -/

/-- The code of the character lies in the range. -/
def isBetween (low high : Nat) (c : Char) : Bool := low ≤ c.toNat && c.toNat ≤ high

/-- The character may stand before the final character of a sequence. -/
def isIntermediate (c : Char) : Bool := isBetween 0x20 0x2F c

/-- The character ends a control sequence and the front of a device string. -/
def isFinal (c : Char) : Bool := isBetween 0x40 0x7E c

/-- The character is a control character that is shown. -/
def isWhiteControl (c : Char) : Bool := c == '\t' || c == '\n' || c == '\x0C' || c == '\r'

/-- The character is shown where no sequence is open. -/
def isShown (c : Char) : Bool := isWhiteControl c || (0x20 ≤ c.toNat && c.toNat != 0x7F)

/-! ## Sequences -/

/-- The sequence that is open, and how far it has come. -/
inductive Phase where
  /-- No sequence is open. -/
  | text
  | escape
  /-- An escape and intermediate characters. -/
  | escapeIntermediate
  | control
  | command
  | device
  | deviceParameters
  | deviceIntermediate
  /-- The body of a string. -/
  | body
  deriving DecidableEq, Repr

namespace Phase

/-- The phase after a character that is not shown. -/
def next (phase : Phase) (c : Char) : Phase :=
  if c = '\x1B' then .escape
  else if c = '\x18' ∨ c = '\x1A' then .text
  else match phase with
    | .text => .text
    | .escape =>
      if isIntermediate c then .escapeIntermediate
      else if c = '[' then .control
      else if c = ']' then .command
      else if c = 'P' then .device
      else if c = 'X' ∨ c = '^' ∨ c = '_' then .body
      else if isBetween 0x30 0x7E c then .text
      else .escape
    | .escapeIntermediate => if isBetween 0x30 0x7E c then .text else .escapeIntermediate
    | .control => if isFinal c then .text else .control
    | .command => if c = '\x07' then .text else .command
    | .device =>
      if isIntermediate c then .deviceIntermediate
      else if isBetween 0x30 0x3F c then .deviceParameters
      else if isFinal c then .body
      else .device
    | .deviceParameters =>
      if isIntermediate c then .deviceIntermediate
      else if isBetween 0x3C 0x7E c then .body
      else .deviceParameters
    | .deviceIntermediate => if isBetween 0x30 0x7E c then .body else .deviceIntermediate
    | .body => if 0x9C ∈ String.utf8EncodeChar c then .text else .body

/-- White controls are shown in this phase. -/
def showsWhite : Phase → Bool
  | .text | .escape | .escapeIntermediate | .control => true
  | .command | .device | .deviceParameters | .deviceIntermediate | .body => false

end Phase

/-! ## Showing -/

/-- How a text is read on from some point. -/
structure Reading where
  phase : Phase
  /-- Text is shown although a sequence is open. -/
  suspended : Bool
  deriving DecidableEq, Repr

namespace Reading

/-- No sequence is open. -/
def start : Reading := ⟨.text, false⟩

/-- The reading after a character, and whether the character is shown. -/
def step (reading : Reading) (c : Char) : Reading × Bool :=
  if (reading.phase = .text ∨ reading.suspended) ∧ isShown c then
    ({ reading with phase := if c.toNat < 0x80 then reading.phase else .text }, true)
  else if reading.phase.showsWhite && isWhiteControl c then (⟨reading.phase, true⟩, true)
  else (⟨reading.phase.next c, false⟩, false)

/-- The characters of the text that are shown. -/
def shown (reading : Reading) : Text → Text
  | [] => []
  | c :: rest =>
    let (after, isVisible) := reading.step c
    if isVisible then c :: after.shown rest else after.shown rest

end Reading

end Plain

/-- The text without control characters and sequences. -/
def plain (s : Text) : Text := Plain.Reading.start.shown s

end WaveLayout.Text
