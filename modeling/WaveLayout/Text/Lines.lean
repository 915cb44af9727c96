import WaveLayout.Text.Basic

/-!
# Lines

A newline ends a line. One carriage return directly before that newline belongs to the line end;
every other carriage return, also one at the end of a text without a final newline, is part of
the line. No line follows a final newline, so the empty text has no line.
-/

namespace WaveLayout.Text

/-- The line without one carriage return at its end. -/
def dropReturn (line : Text) : Text :=
  if line.getLast? = some '\r' then line.dropLast else line

/-- The lines of the text, without their ends. -/
def lines (s : Text) : List Text :=
  let pieces := s.splitOn '\n'
  pieces.dropLast.map dropReturn ++ (pieces.getLast?.filter (· ≠ [])).toList

end WaveLayout.Text
