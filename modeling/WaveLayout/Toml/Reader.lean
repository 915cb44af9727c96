import WaveLayout.Text.Basic

/-!
# Readers

A **reader** looks at the front of a text. It finds a value there and returns it with the rest of
the text, or it finds nothing. The rest is shorter than the text, which is kept in the result, so
readers that call each other end.

The gaps of TOML follow: blanks, line ends, comments and, inside arrays, any mixture of them.
-/

namespace WaveLayout.Toml

/-- What a reader finds at the front of a text: a value, and the rest, which is shorter. -/
structure Found (α : Type) (s : Text) where
  value : α
  rest : Text
  shorter : rest.length < s.length

/-- Finds a value at the front of a text, or nothing. -/
abbrev Reader (α : Type) := (s : Text) → Option (Found α s)

namespace Found

/-- The same find with another value. -/
def map {α β : Type} {s : Text} (f : α → β) (found : Found α s) : Found β s :=
  ⟨f found.value, found.rest, found.shorter⟩

/-- A find in a later part of a text is a find in the text. -/
def within {α : Type} {s t : Text} (found : Found α t) (h : t.length ≤ s.length) : Found α s :=
  ⟨found.value, found.rest, Nat.lt_of_lt_of_le found.shorter h⟩

end Found

theorem length_lt_cons (c : Char) (s : Text) : s.length < (c :: s).length := Nat.lt_succ_self _

theorem length_le_cons (c : Char) (s : Text) : s.length ≤ (c :: s).length := Nat.le_succ _

/-- Finds one given character. -/
def character (c : Char) : Reader Unit
  | [] => none
  | first :: rest => if first = c then some ⟨(), rest, length_lt_cons first rest⟩ else none

/-- Finds the longest non-empty run of characters of a class. -/
def run (p : Char → Bool) (s : Text) : Option (Found Text s) :=
  if h : (s.dropWhile p).length < s.length then some ⟨s.takeWhile p, s.dropWhile p, h⟩ else none

/-! ## Gaps -/

theorem length_dropWhile_le (p : Char → Bool) (s : Text) : (s.dropWhile p).length ≤ s.length :=
  (List.dropWhile_suffix p).length_le

/-- The text after the spaces and tabs at its front. -/
def skipBlanks (s : Text) : Text := s.dropWhile fun c => c == ' ' || c == '\t'

theorem length_skipBlanks_le (s : Text) : (skipBlanks s).length ≤ s.length :=
  length_dropWhile_le _ s

/-- Finds a line end: a newline, alone or after one carriage return. -/
def newline : Reader Unit
  | '\n' :: rest => some ⟨(), rest, Nat.lt_succ_self _⟩
  | '\r' :: '\n' :: rest => some ⟨(), rest, by simp only [List.length_cons]; omega⟩
  | _ => none

/-- The character may stand in a comment: a tab or any character that is no control character. -/
def isCommentChar (c : Char) : Bool := c == '\t' || (0x20 ≤ c.toNat && c.toNat != 0x7F)

/-- The text after a comment at its front, up to the line end. -/
def skipComment : Text → Text
  | '#' :: rest => rest.dropWhile isCommentChar
  | s => s

theorem length_skipComment_le (s : Text) : (skipComment s).length ≤ s.length := by
  unfold skipComment
  split
  · exact Nat.le_succ_of_le (length_dropWhile_le _ _)
  · exact Nat.le_refl _

/-- The text after the blanks and the comment at its front. -/
def skipTrailer (s : Text) : Text := skipComment (skipBlanks s)

theorem length_skipTrailer_le (s : Text) : (skipTrailer s).length ≤ s.length :=
  Nat.le_trans (length_skipComment_le _) (length_skipBlanks_le s)

/-- The text after the blanks, comments and line ends at its front. -/
def skipGap (s : Text) : Text :=
  match newline (skipTrailer s) with
  | none => skipBlanks s
  | some found => skipGap found.rest
termination_by s.length
decreasing_by exact Nat.lt_of_lt_of_le found.shorter (length_skipTrailer_le s)

theorem length_skipGap_le (s : Text) : (skipGap s).length ≤ s.length := by
  fun_induction skipGap s with
  | case1 s _ => exact length_skipBlanks_le s
  | case2 s found _ ih =>
    exact Nat.le_trans ih
      (Nat.le_of_lt (Nat.lt_of_lt_of_le found.shorter (length_skipTrailer_le s)))

end WaveLayout.Toml
