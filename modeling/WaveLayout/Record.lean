import WaveLayout.Event
import WaveLayout.Text.Lines
import WaveLayout.Text.Plain

/-!
# Records

A **record** is what an event leaves on an error stream: its level and the lines of its message.
A message has several lines if a name in it has; each line after the first is moved to the right,
so that it is not taken for a record of its own. Control sequences are removed.
-/

namespace WaveLayout

/-- The level of an event, the first line of its message, and the lines after it. -/
structure Record where
  level : Level
  line : Text
  more : List Text
  deriving DecidableEq, Repr

namespace Record

/-- How far the lines after the first are moved to the right. -/
def indentation : Text := List.replicate 4 ' '

/-- The text with all lines after the first moved to the right. -/
def indent (message : Text) : Text :=
  message.flatMap fun c => if c = '\n' then c :: indentation else [c]

/-- The lines that a message leaves. -/
def messageLines (message : Text) : List Text :=
  Text.lines (Text.plain (indent message ++ ['\n']))

end Record

/-- What the event leaves on an error stream. -/
def Event.record (event : Event) : Record :=
  let lines := Record.messageLines event.message
  ⟨event.level, lines.headD [], lines.tail⟩

end WaveLayout
